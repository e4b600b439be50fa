/-
Calls of the allocators under preemption (`heap::kmalloc`, `heap::kfree`, `pmm::alloc_frame`, `pmm::free_frame`).

Nothing locks the heap or the frame allocator: a call is safe from others only while no tick takes the CPU away. System
calls run with RFLAGS.IF clear, from FMASK on. The entry functions of tasks (`linux_task_entry`, `fork_child_entry`) and
the boot context run with IF set, and they call the allocators too.

`Busy` is the kernel of `Retux.Ring3` with the tasks that are in the middle of a call. A call may start anywhere in
C++ code; until it returns its task can only be interrupted. Calls that are part of one step of the kernel, such as those of
`reap_zombie`, start and end with the step (`Op.allocates`).

- `step_inv`: a call in progress belongs to the running task, or ticks have come in the middle of it;
- `calls_alone`: no call starts while another task is in one, in every run where no tick takes the CPU from an entry
  function or from boot in the middle of a call. Calls of system calls need no condition;
- `fork_child_interrupted`: such a tick, and what follows.
-/
import Mathlib.Tactic
import Retux.Task.Forked

namespace Retux.Preempt

open Retux.Word Retux.Cpu Retux.Sched Retux.Ring3 Retux.Run

/-! ## Model -/

structure Busy where
  x : Kernel
  /-- in the middle of a call, counting the calls it makes itself as part of it -/
  mid : Ptr → Bool

inductive Act where
  | op (o : Op)
  | call
  | ret

/-- what can happen in the middle of a call: a tick, `schedule` up to its end, stores of the call itself -/
def midCall : Op → Bool
  | .timer _ | .switch | .store _ _ => true
  | _ => false

/-- the running task is in C++ code that may call the allocators; the idle task never does -/
def inCode (x : Kernel) : Bool :=
  match x.here with
  | .kernel => x.s.current ≠ x.s.idle
  | .handler _ => true
  | _ => false

/-- a Task block that is handed out again is a new task -/
def begun (mid : Ptr → Bool) (o : Op) : Ptr → Bool :=
  match o.makes with
  | some p => Function.update mid p false
  | none => mid

def Busy.running (b : Busy) : Bool := b.mid b.x.s.current

def Busy.set (b : Busy) (v : Bool) : Busy := { b with mid := Function.update b.mid b.x.s.current v }

def Busy.step (cpuLocal : U64) (defaultState : FxImage) (b : Busy) : Act → Option Busy
  | .op o =>
    if b.running && !midCall o then none
    else (b.x.step cpuLocal defaultState o).map fun x => { x := x, mid := begun b.mid o }
  | .call => if !b.x.s.scheduling && !b.running && inCode b.x then some (b.set true) else none
  | .ret => if !b.x.s.scheduling && b.running then some (b.set false) else none

/-- `reap_zombie` frees a task -/
def reaps (s : Sys) : Bool := s.zombie.any (· ≠ s.current)

/-- handler work that takes or gives back frames or blocks -/
def eventAllocates : Event → Bool
  | .archSetFs _ | .setLayout _ _ _ | .edit (.write _ _) => false
  | _ => true

/-- steps of the kernel with allocator calls in them -/
def allocates (x : Kernel) : Op → Bool
  | .fork _ _ | .spawn _ _ | .spawnFromElf _ _ | .execveCommit _ _ _ _ _ _ => true
  | .call e => eventAllocates e
  | .wait4Again => reaps x.s || (match x.s.cont x.s.current with
    | .wait child => (x.s.tb.task child).state = .Dead
    | _ => false)
  | .yield | .readAgain => reaps x.s
  | .exit _ => (x.s.tb.task x.s.current).parent ≠ none && reaps x.s
  | .timer _ => (tick x.s).needResched && reaps x.s
  | _ => false

/-- the act starts an allocator call -/
def starts (b : Busy) : Act → Bool
  | .op o => allocates b.x o
  | .call => true
  | .ret => false

/-- **No overlap.** No call starts while another task is in the middle of one. -/
def NoOverlap (b : Busy) (a : Act) : Prop := starts b a = true → ∀ q, q ≠ b.x.s.current → b.mid q = false

/-- `schedule` does not leave kernel code of a task's own (an entry function, or boot) in the middle of a call -/
def Undisturbed (b : Busy) : Act → Prop
  | .op .switch => b.x.here = .kernel → b.running = true → pick b.x.s = some b.x.s.current
  | _ => True

/-! ## One step -/

structure Inv (cpuLocal : U64) (b : Busy) : Prop where
  kernel : Ring3.Inv cpuLocal b.x
  alone : ∀ q, b.mid q = true → q = b.x.s.current
  /-- in a system call no tick comes -/
  shielded : b.running = true → b.x.here = .kernel ∨ b.x.s.scheduling = false ∧ ∃ f, b.x.here = .handler f

section Steps

variable {cpuLocal : U64} {fpu : FxImage} {b b' : Busy} {x x' : Kernel} {o : Op} {a : Act} {q : Ptr} {s s' : Sys}

theorem begun_le {mid : Ptr → Bool} (h : begun mid o q = true) : mid q = true := by
  unfold begun at h
  cases hm : o.makes with
  | none =>
    rw [hm] at h
    exact h
  | some p =>
    rw [hm] at h
    by_cases hq : q = p
    · rw [hq] at h
      simp at h
    · simpa [hq] using h

theorem begun_same {mid : Ptr → Bool} (h : o.makes = none) : begun mid o = mid := by
  unfold begun
  rw [h]

theorem switch_scheduling (h : Sched.step s .switch = some s') : s.scheduling = true := by
  obtain ⟨self, -, h⟩ := Option.bind_eq_some_iff.1 h
  split_ifs at h with hen
  rw [Bool.and_eq_true] at hen
  exact hen.2

/-- `schedule` picks the running task: it goes on where it was -/
theorem finish_stay (hp : x.here = .kernel) (hpick : pick x.s = some x.s.current) (hs : finish cpuLocal x = some x') :
    x'.s.current = x.s.current ∧ x'.here = .kernel := by
  obtain ⟨x1, h1, rfl⟩ := Option.map_eq_some_iff.1 hs
  obtain ⟨s1, hst, rfl⟩ := Option.map_eq_some_iff.1 h1
  have hcur : s1.current = x.s.current := by
    obtain ⟨self, -, hrun⟩ := Option.bind_eq_some_iff.1 hst
    split_ifs at hrun
    have hfin : finishSchedule x.s = some s1 := hrun
    unfold finishSchedule at hfin
    rw [hpick] at hfin
    have hfin' : (if x.s.current = x.s.current then
      some { x.s with ticksLeft := TIMESLICE_TICKS, needResched := false, scheduling := false } else _) = some s1 := hfin
    rw [if_pos rfl] at hfin'
    rw [← Option.some.inj hfin']
  have hctx : ∀ y : Kernel, y.s.current = x.s.current → y.switchContext x.s.current = y := fun y hy => if_pos hy
  rw [hctx _ hcur]
  have hhere : Kernel.here
      { x with s := s1, c := { x.c with mem := Function.update x.c.mem cpuLocal s1.cpu.kernelRsp } } = .kernel := by
    unfold Kernel.here
    show x.point s1.current = .kernel
    rw [hcur]
    exact hp
  have hres : ∀ y : Kernel, y.here = .kernel → y.resume cpuLocal = y := by
    intro y hy
    unfold Kernel.resume
    rw [hy]
  rw [hres _ hhere]
  exact ⟨hcur, hhere⟩

/-- a tick in the middle of a call: not in a system call -/
theorem timer_mid {vector : U64} (h : Ring3.Inv cpuLocal x)
    (hc : x.here = .kernel ∨ x.s.scheduling = false ∧ ∃ f, x.here = .handler f)
    (hs : x.step cpuLocal fpu (.timer vector) = some x') : x'.s.current = x.s.current ∧ x'.here = .kernel := by
  obtain ⟨-, hrun⟩ := step_run Op.noConfusion hs
  rcases hc with hp | ⟨-, f, hp⟩
  · rw [hp] at hrun
    have hrun' : (if x.c.rflags &&& RFLAGS_IF ≠ 0 then x.sched cpuLocal .timer else none) = some x' := hrun
    split_ifs at hrun'
    have g := h.toBase.scheduled Event.noConfusion hrun'
    exact ⟨g.current, g.here.trans hp⟩
  · rw [hp] at hrun
    have hrun' : (if x.c.rflags &&& RFLAGS_IF ≠ 0 then x.sched cpuLocal .timer else none) = some x' := hrun
    exact absurd hrun' fun hr => h.no_timer (Or.inl ⟨f, hp⟩) hr

/-- a store changes memory only -/
theorem store_mid {v w : U64} (hu : x.here ≠ .user) (hs : x.step cpuLocal fpu (.store v w) = some x') :
    x'.s = x.s ∧ x'.here = x.here := by
  obtain ⟨-, hrun⟩ := step_run Op.noConfusion hs
  have hrun' : (if (x.stackBase x.s.current).toNat ≤ v.toNat ∧ v.toNat + 8 ≤ x.stackEnd.toNat then
      some { x with c := { x.c with mem := Function.update x.c.mem v w } } else none) = some x' := by
    cases hp : x.here with
    | user => exact absurd hp hu
    | _ =>
      rw [hp] at hrun
      exact hrun
  split_ifs at hrun'
  cases hrun'
  exact ⟨rfl, rfl⟩

/-- only the running task can be in the middle of a call -/
theorem Inv.idle (h : Inv cpuLocal b) (hr : b.running = false) (q : Ptr) : b.mid q = false := by
  by_contra hm
  have hq := h.alone q (Bool.not_eq_false _ ▸ hm)
  rw [hq] at hm
  exact hm hr

/-- a step of the kernel, outside any call -/
theorem Inv.outside (h : Inv cpuLocal b) (hloc : cpuLocal.toNat + 16 ≤ 2 ^ 64) (hr : b.running = false)
    (hs : b.x.step cpuLocal fpu o = some x') : Inv cpuLocal ⟨x', begun b.mid o⟩ := by
  have hnone : ∀ q, begun b.mid o q ≠ true := by
    intro q hq
    have hmid := begun_le hq
    rw [h.idle hr q] at hmid
    exact Bool.noConfusion hmid
  exact ⟨Ring3.step_inv h.kernel hloc hs, fun q hq => absurd hq (hnone q), fun hq => absurd hq (hnone _)⟩

/-- the running task is interrupted in a call, or goes on with it -/
theorem Inv.inside (h : Inv cpuLocal b) (hloc : cpuLocal.toNat + 16 ≤ 2 ^ 64) (hr : b.running = true)
    (ho : midCall o = true) (hu : Undisturbed b (.op o)) (hs : b.x.step cpuLocal fpu o = some x') :
    Inv cpuLocal ⟨x', begun b.mid o⟩ := by
  have hk := Ring3.step_inv h.kernel hloc hs
  cases o with
  | timer vector =>
    obtain ⟨hcur, hhere⟩ := timer_mid h.kernel (h.shielded hr) hs
    exact ⟨hk, fun q hq => (h.alone q hq).trans hcur.symm, fun _ => Or.inl hhere⟩
  | store v w =>
    have hcode := h.shielded hr
    have hnu : b.x.here ≠ .user := by
      rcases hcode with hp | ⟨-, f, hp⟩
      · rw [hp]
        exact Point.noConfusion
      · rw [hp]
        exact Point.noConfusion
    obtain ⟨hsame, hhere⟩ := store_mid hnu hs
    have hcur : x'.s.current = b.x.s.current := congrArg Sys.current hsame
    have hsc : x'.s.scheduling = b.x.s.scheduling := congrArg Sys.scheduling hsame
    refine ⟨hk, fun q hq => (h.alone q hq).trans hcur.symm, fun _ => ?_⟩
    show x'.here = .kernel ∨ x'.s.scheduling = false ∧ ∃ f, x'.here = .handler f
    rw [hhere, hsc]
    exact hcode
  | switch =>
    have hfin : finish cpuLocal b.x = some x' := hs
    have hsched : b.x.s.scheduling = true := by
      obtain ⟨x1, h1, -⟩ := Option.map_eq_some_iff.1 hfin
      obtain ⟨s1, hst, -⟩ := Option.map_eq_some_iff.1 h1
      exact switch_scheduling hst
    have hp : b.x.here = .kernel := by
      rcases h.shielded hr with hp | ⟨hsc, -⟩
      · exact hp
      · rw [hsched] at hsc
        exact Bool.noConfusion hsc
    obtain ⟨hcur, hhere⟩ := finish_stay hp (hu hp hr) hfin
    exact ⟨hk, fun q hq => (h.alone q hq).trans hcur.symm, fun _ => Or.inl hhere⟩
  | _ => cases ho

/-- **Step.** -/
theorem step_inv (h : Inv cpuLocal b) (hloc : cpuLocal.toNat + 16 ≤ 2 ^ 64) (hu : Undisturbed b a)
    (hs : b.step cpuLocal fpu a = some b') : Inv cpuLocal b' := by
  cases a with
  | op o =>
    have hs' : (if b.running && !midCall o then none
      else (b.x.step cpuLocal fpu o).map fun x => ⟨x, begun b.mid o⟩) = some b' := hs
    split_ifs at hs' with hg
    obtain ⟨x', hx, rfl⟩ := Option.map_eq_some_iff.1 hs'
    cases hr : b.running with
    | false => exact h.outside hloc hr hx
    | true =>
      have ho : midCall o = true := by simpa [hr] using hg
      exact h.inside hloc hr ho hu hx
  | call =>
    have hs' : (if !b.x.s.scheduling && !b.running && inCode b.x then some (b.set true) else none) = some b' := hs
    split_ifs at hs' with hg
    cases hs'
    simp only [Bool.and_eq_true, Bool.not_eq_true'] at hg
    obtain ⟨⟨hsc, hr⟩, hcode⟩ := hg
    refine ⟨h.kernel, fun q hq => ?_, fun _ => ?_⟩
    · by_contra hn
      have hqc : q ≠ b.x.s.current := hn
      have hq' : Function.update b.mid b.x.s.current true q = true := hq
      rw [Function.update_of_ne hqc, h.idle hr q] at hq'
      exact Bool.noConfusion hq'
    · show b.x.here = .kernel ∨ b.x.s.scheduling = false ∧ ∃ f, b.x.here = .handler f
      unfold inCode at hcode
      cases hp : b.x.here with
      | kernel => exact Or.inl rfl
      | handler f => exact Or.inr ⟨hsc, f, rfl⟩
      | _ =>
        rw [hp] at hcode
        exact Bool.noConfusion hcode
  | ret =>
    have hs' : (if !b.x.s.scheduling && b.running then some (b.set false) else none) = some b' := hs
    split_ifs at hs' with hg
    cases hs'
    refine ⟨h.kernel, fun q hq => ?_, fun hq => ?_⟩
    · by_contra hn
      have hqc : q ≠ b.x.s.current := hn
      have hq' : Function.update b.mid b.x.s.current false q = true := hq
      rw [Function.update_of_ne hqc] at hq'
      exact hqc (h.alone q hq')
    · have hq' : Function.update b.mid b.x.s.current false b.x.s.current = true := hq
      rw [Function.update_self] at hq'
      exact Bool.noConfusion hq'

theorem Inv.noOverlap (h : Inv cpuLocal b) : NoOverlap b a := by
  intro _ q hq
  by_contra hm
  exact hq (h.alone q (Bool.not_eq_false _ ▸ hm))

end Steps

/-! ## Runs -/

section Runs

variable {cpuLocal idleStack : U64} {boot idle : Ptr} {m : Vmm.Machine} {cpu : Sched.Cpu} {c : Core} {fpu : FxImage}
  {acts : List Act}

/-- after boot's set-up, with no call in progress -/
def Busy.start (cpuLocal idleStack : U64) (boot idle : Ptr) (m : Vmm.Machine) (cpu : Sched.Cpu) (c : Core)
    (fpu : FxImage) : Busy :=
  ⟨Ring3.start cpuLocal idleStack boot idle m cpu c fpu, fun _ => false⟩

theorem busyStart_inv (hne : boot ≠ idle) (hpl : Placed cpuLocal idleStack) :
    Inv cpuLocal (Busy.start cpuLocal idleStack boot idle m cpu c fpu) :=
  ⟨start_inv hne hpl, fun _ hq => Bool.noConfusion hq, fun hq => Bool.noConfusion hq⟩

/-- **Calls of the allocators do not overlap**, in every run where no tick takes the CPU from an entry function or from
boot in the middle of one. -/
theorem calls_alone (hne : boot ≠ idle) (hpl : Placed cpuLocal idleStack)
    (hu : Each (Busy.step cpuLocal fpu) Undisturbed (Busy.start cpuLocal idleStack boot idle m cpu c fpu) acts) :
    Each (Busy.step cpuLocal fpu) NoOverlap (Busy.start cpuLocal idleStack boot idle m cpu c fpu) acts :=
  each_of_each (I := Inv cpuLocal) (fun _ _ _ h hu hs => step_inv h hpl.1 hu hs) (fun _ _ h _ => h.noOverlap)
    (busyStart_inv hne hpl) hu

/-- all acts but `switch` meet the condition -/
theorem each_undisturbed {b : Busy} (h : ∀ a ∈ acts, a ≠ .op .switch) :
    Each (Busy.step cpuLocal fpu) Undisturbed b acts := by
  induction acts generalizing b with
  | nil => trivial
  | cons a acts ih =>
    refine ⟨?_, fun b' _ => ih fun a' ha' => h a' (List.mem_cons_of_mem _ ha')⟩
    have ha := h a (List.mem_cons_self ..)
    cases a with
    | op o =>
      cases o with
      | switch => exact absurd rfl ha
      | _ => trivial
    | _ => trivial

/-- the machine after boot -/
def booted : Busy := Busy.start 0x1000 0x10000 1 2 Vmm.bootMachine ⟨0, 0, 0⟩ someCore 0

/-- boot starts a shell, task 3, and gives up the CPU -/
def startsShell : List Act := [.call, .ret, .op (.spawnFromElf 3 0x20000), .op .yield]

/-- the shell's entry function, then its first system call: a fork -/
def forks : List Act :=
  [.call, .ret, .op (.enter 0x400000 0x7FFFF000 0x21000 fun _ => 0), .op .syscall, .call, .ret, .op (.fork 4 0x30000),
    .op (.sysret fun _ => 3)]

/-- a tick in the middle of a call, within the slice -/
def ticked : List Act := [.call, .op (.timer 32), .ret]

/-- ticks of a whole slice, and the switch -/
def slice : List Act := List.replicate 20 (.op (.timer 32)) ++ [.op .switch]

theorem calls_alone_sample :
    Each (Busy.step 0x1000 0) NoOverlap booted (startsShell ++ .op .switch :: ticked ++ forks) := by
  refine calls_alone (by decide) (by decide) (Each.append (Each.append (each_undisturbed (by simp [startsShell]))
    fun b hb => ?_) fun b _ => each_undisturbed (by simp [forks]))
  refine ⟨fun _ hr => ?_, fun b' _ => each_undisturbed (by simp [ticked])⟩
  -- boot gives up the CPU outside any call
  have hfree : (startsShell.foldlM (Busy.step 0x1000 0) booted).map Busy.running = some false := by decide +kernel
  rw [show startsShell.foldlM (Busy.step 0x1000 0) booted = some b from hb] at hfree
  rw [Option.some.inj hfree] at hr
  exact Bool.noConfusion hr

/-- the shell and its child take turns; the child's slice ends in the middle of `kfree`, and when the shell is next it
makes a system call -/
def interruptsChild : List Act :=
  startsShell ++ .op .switch :: forks ++ slice ++ .call :: slice ++ slice ++ slice ++ [.op .syscall]

def overlaps : List Act := interruptsChild ++ [.call]

/-- **A call in the middle of another.** The system call allocates, and the child still stands in its `kfree`. -/
theorem fork_child_interrupted : ¬ ∀ (cpuLocal idleStack : U64) (boot idle : Ptr) (m : Vmm.Machine) (cpu : Sched.Cpu)
    (c : Core) (fpu : FxImage) (acts : List Act), boot ≠ idle → Placed cpuLocal idleStack →
    (acts.foldlM (Busy.step cpuLocal fpu) (Busy.start cpuLocal idleStack boot idle m cpu c fpu)).isSome →
    Each (Busy.step cpuLocal fpu) NoOverlap (Busy.start cpuLocal idleStack boot idle m cpu c fpu) acts := by
  intro hall
  have hrun : (overlaps.foldlM (Busy.step 0x1000 0) booted).isSome = true := by decide +kernel
  have heach : Each (Busy.step 0x1000 0) NoOverlap booted overlaps :=
    hall 0x1000 0x10000 1 2 Vmm.bootMachine ⟨0, 0, 0⟩ someCore 0 overlaps (by decide) (by decide) hrun
  have hmid : (interruptsChild.foldlM (Busy.step 0x1000 0) booted).map (fun b : Busy =>
      decide (4 ≠ b.x.s.current ∧ b.mid 4 = true)) = some true := by decide +kernel
  obtain ⟨b, hb, hlast⟩ := Option.map_eq_some_iff.1 hmid
  obtain ⟨hne, hchild⟩ := of_decide_eq_true hlast
  have hfree := (heach.right hb).1 rfl 4 hne
  rw [hchild] at hfree
  exact Bool.noConfusion hfree

end Runs

end Retux.Preempt
