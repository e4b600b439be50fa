/-
The first ring-3 state of a forked child, next to the state its parent goes on in (`task/fork.cpp`,
`task/fork_entry.asm`).

Parent and child leave the kernel by different ways: the parent through the exit stub and SYSRET, which give back the
whole Frame, the child through `fork_enter_ring3` and IRETQ, from the nine words of its ForkFrame, with the FXSAVE image
of a new task. Between the fork and the child's first entry anything can run.

- `Same`: what a step leaves of a task that is still in kernel code, and `step_same`, `run_same`;
- `Calling`: a system call in progress, from SYSCALL to SYSRET;
- `fork_resumes_iff`: when the two states agree. The argument registers and the FXSAVE image are not handed on.
-/
import Mathlib.Tactic
import Retux.Task.Fds
import Retux.Task.Ring3

namespace Retux.Ring3

open Retux.Word Retux.Stack Retux.Cpu Retux.Sched Retux.Run

/-! ## The two ways out of a fork -/

/-- the task that an op makes -/
def Op.makes : Op → Option Ptr
  | .fork p _ | .spawn p _ | .spawnFromElf p _ => some p
  | _ => none

def Op.isStore : Op → Bool
  | .store _ _ => true
  | _ => false

section Ways

variable (cpuLocal : U64) (defaultState : FxImage)

/-- ring-3 code calls fork; in x', `sched::spawn` has made the child p -/
def Forks (x : Kernel) (p : Ptr) (x' : Kernel) : Prop :=
  ∃ (before : List Op) (stack : U64), before.all Op.isStore = true ∧
    (Op.syscall :: before ++ [Op.fork p stack]).foldlM (Kernel.step cpuLocal defaultState) x = some x'

/-- the return value of `sys_fork` -/
def childPid (x' : Kernel) (p : Ptr) : U64 := BitVec.ofNat 64 (x'.s.tb.task p).id

/-- the rest of the parent's system call -/
def Returns (x' : Kernel) (p : Ptr) (parent : Kernel) : Prop :=
  ∃ (after : List Op) (regs : Reg → U64), after.all Op.isStore = true ∧ regs .rax = childPid x' p ∧
    (after ++ [Op.sysret regs]).foldlM (Kernel.step cpuLocal defaultState) x' = some parent

/-- the first entry of the child, whatever runs before it: `fork_child_entry` has its copy of the ForkFrame at a and
calls `fork_enter_ring3` with regs -/
def FirstEntry (x' : Kernel) (p : Ptr) (a : U64) (regs : Reg → U64) (child : Kernel) : Prop :=
  ∃ (os : List Op) (y : Kernel) (rsp : U64), (∀ o ∈ os, o.makes ≠ some p) ∧
    os.foldlM (Kernel.step cpuLocal defaultState) x' = some y ∧ y.s.current = p ∧
    y.step cpuLocal defaultState (.forkEnter a rsp regs) = some child

end Ways

/-- the same state, but for the return value and what SYSCALL clobbers -/
structure SameContext (child parent : User) (pid : U64) : Prop where
  regs : ∀ r, r ≠ .rax → r ≠ .rcx → r ≠ .r11 → child.reg r = parent.reg r
  rax : child.reg .rax = 0 ∧ parent.reg .rax = pid
  rip : child.rip = parent.rip
  rflags : child.rflags = parent.rflags
  fpu : child.fpu = parent.fpu

/-- the registers of `syscall::Frame` that `ForkFrame` leaves out, but for rdi -/
def UNSAVED : List Reg := [.rsi, .rdx, .r10, .r8, .r9]

/-- what a forking program must hold already for its child to find it: the default FXSAVE image, and in the argument
registers what `fork_child_entry` has in them -/
def HoldsAlready (u : User) (defaultState : FxImage) (a : U64) (regs : Reg → U64) : Prop :=
  u.fpu = defaultState ∧ u.reg .rdi = a ∧ ∀ r ∈ UNSAVED, u.reg r = regs r

/-! ## A task that is still in kernel code -/

/-- the FXSAVE image of a task: in the CPU while it runs -/
def Kernel.image (x : Kernel) (q : Ptr) : FxImage := if q = x.s.current then x.c.fpu else x.fpu q

/-- if p is alive and in kernel code in x', then it was in x, and x' has its argument and its image -/
def Same (p : Ptr) (x x' : Kernel) : Prop :=
  p ∈ x'.s.tb.live → (x'.s.tb.task p).state ≠ .Dead → x'.point p = .kernel →
    (p ∈ x.s.tb.live ∧ (x.s.tb.task p).state ≠ .Dead) ∧ x.point p = .kernel ∧ x'.forkArg p = x.forkArg p ∧
      x'.image p = x.image p

section Same

variable {cpuLocal : U64} {x x1 x' : Kernel} {l : List Ptr} {p : Ptr} {f : U64} {fpu : FxImage} {o : Op}

theorem Same.refl : Same p x x := fun h1 h2 h3 => ⟨⟨h1, h2⟩, h3, rfl, rfl⟩

theorem Same.trans (h : Same p x x1) (h' : Same p x1 x') : Same p x x' := by
  intro h1 h2 h3
  obtain ⟨⟨k1, k2⟩, k3, k4, k5⟩ := h' h1 h2 h3
  obtain ⟨j1, j3, j4, j5⟩ := h k1 k2 k3
  exact ⟨j1, j3, k4.trans j4, k5.trans j5⟩

/-- the running task works: if it is p, it leaves its image alone or leaves kernel code -/
theorem same_local (hs : x'.s = x.s) (hpt : ∀ q, q ≠ x.s.current → x'.point q = x.point q)
    (harg : x'.forkArg = x.forkArg) (hf : x'.fpu = x.fpu)
    (hown : p = x.s.current → x'.here = .kernel → x.here = .kernel ∧ x'.c.fpu = x.c.fpu) : Same p x x' := by
  intro h1 h2 h3
  rw [hs] at h1 h2
  unfold Kernel.image
  rw [hs, harg, hf]
  by_cases hpc : p = x.s.current
  · have hh : x'.here = .kernel := by
      unfold Kernel.here
      rw [hs, ← hpc]
      exact h3
    obtain ⟨k1, k2⟩ := hown hpc hh
    rw [if_pos hpc, if_pos hpc]
    exact ⟨⟨h1, h2⟩, hpc ▸ k1, rfl, k2⟩
  · rw [if_neg hpc, if_neg hpc]
    rw [hpt p hpc] at h3
    exact ⟨⟨h1, h2⟩, h3, rfl, rfl⟩

/-- the running task leaves kernel code, or was out of it -/
theorem same_moved {c : Core} {pt : Point} (hpt : pt ≠ .kernel) : Same p x ({ x with c := c }.moveTo pt) :=
  same_local rfl (fun _ hq => moveTo_other hq) rfl rfl fun _ hh => absurd ((moveTo_here (x := x)).symm.trans hh) hpt

/-- registers and memory -/
theorem same_core {c : Core} (hf : c.fpu = x.c.fpu) : Same p x { x with c := c } :=
  same_local rfl (fun _ _ => rfl) rfl rfl fun _ hh => ⟨hh, hf⟩

theorem same_sched {e : Event} (hq : Queue x.s.abs l) (he : e ≠ .switch) (hs : x.sched cpuLocal e = some x')
    (hadd : ∀ par, e.adds x.s ≠ some (p, par)) : Same p x x' := by
  obtain ⟨s', hst, rfl⟩ := Option.map_eq_some_iff.1 hs
  intro h1 h2 h3
  refine ⟨alive_of_step hq hst hadd h1 h2, h3, rfl, ?_⟩
  show (if p = s'.current then x.c.fpu else x.fpu p) = _
  rw [step_current he hst]
  rfl

/-- another task is made -/
theorem same_new {q : Ptr} {stack : U64} {arg : Option ForkFrame} (hq : p ≠ q) :
    Same p x (x.newTask q stack fpu arg) := by
  intro h1 h2 h3
  have h3' : Function.update x.point q .kernel p = .kernel := h3
  rw [Function.update_of_ne hq] at h3'
  refine ⟨⟨h1, h2⟩, h3', Function.update_of_ne hq _ _, ?_⟩
  show (if p = x.s.current then x.c.fpu else Function.update x.fpu q fpu p) = _
  rw [Function.update_of_ne hq]
  rfl

theorem same_resume : Same p x (x.resume cpuLocal) := by
  unfold Kernel.resume
  cases hh : x.here with
  | irq f => exact same_moved Point.noConfusion
  | blocked f saved => exact same_core rfl
  | _ => exact Same.refl

/-- `switch_to` moves the images, and loses none -/
theorem image_switchContext (x : Kernel) (old q : Ptr) :
    (x.switchContext old).image q = if q = old then x.c.fpu else x.fpu q := by
  unfold Kernel.switchContext Kernel.image
  by_cases hc : x.s.current = old
  · rw [if_pos hc, hc]
  · rw [if_neg hc]
    show (if q = x.s.current then x.fpu x.s.current else Function.update x.fpu old x.c.fpu q) = _
    by_cases hqc : q = x.s.current
    · rw [if_pos hqc, hqc, if_neg hc]
    · rw [if_neg hqc]
      by_cases hqo : q = old
      · rw [hqo, Function.update_self, if_pos rfl]
      · rw [Function.update_of_ne hqo, if_neg hqo]

theorem same_finish (hq : Queue x.s.abs l) (hs : finish cpuLocal x = some x') : Same p x x' := by
  obtain ⟨x1, hs1, rfl⟩ := Option.map_eq_some_iff.1 hs
  obtain ⟨s', hst, rfl⟩ := Option.map_eq_some_iff.1 hs1
  refine Same.trans (fun h1 h2 h3 => ?_) same_resume
  obtain ⟨rfs, rf, fs, fx, heq⟩ := switchContext_rest
    { x with s := s', c := { x.c with mem := Function.update x.c.mem cpuLocal s'.cpu.kernelRsp } } x.s.current
  have himg := image_switchContext
    { x with s := s', c := { x.c with mem := Function.update x.c.mem cpuLocal s'.cpu.kernelRsp } } x.s.current p
  rw [heq] at h1 h2 h3 himg ⊢
  exact ⟨alive_of_step hq hst (fun _ => by simp [Event.adds]) h1 h2, h3, rfl, himg⟩

/-- an exit: p itself is dead afterwards -/
theorem same_exit {code : U64} {c : Core} (hq : Queue x.s.abs l)
    (hs : ({ x with c := c }.moveTo .kernel).sched cpuLocal (.exit code) = some x') : Same p x x' := by
  by_cases hpc : p = x.s.current
  · obtain ⟨s', hst, rfl⟩ := Option.map_eq_some_iff.1 hs
    intro h1 h2
    rw [hpc] at h2
    exact absurd (exit_dead hst) h2
  · have hmid : Same p x ({ x with c := c }.moveTo .kernel) :=
      same_local rfl (fun _ hq => moveTo_other hq) rfl rfl fun he => absurd he hpc
    have hq' : Queue ({ x with c := c }.moveTo .kernel).s.abs l := hq
    exact hmid.trans (same_sched hq' Event.noConfusion hs fun _ => by simp [Event.adds])

/-- a store of C++ code -/
theorem same_store {a v : U64} {pt : Point} (hs : run cpuLocal fpu x (.store a v) pt = some x') : Same p x x' := by
  have hs' : (if (x.stackBase x.s.current).toNat ≤ a.toNat ∧ a.toNat + 8 ≤ x.stackEnd.toNat then
      some { x with c := { x.c with mem := Function.update x.c.mem a v } } else none) = some x' := by
    cases pt <;> first | exact hs | cases hs
  split_ifs at hs'
  cases hs'
  exact same_core rfl

/-- the timer in kernel code -/
theorem same_timer {vector : U64} {pt : Point} (hq : Queue x.s.abs l) (hu : pt ≠ .user)
    (hs : run cpuLocal fpu x (.timer vector) pt = some x') : Same p x x' := by
  have hs' : (if x.c.rflags &&& RFLAGS_IF ≠ 0 then x.sched cpuLocal .timer else none) = some x' := by
    cases pt <;> first | exact hs | exact absurd rfl hu
  split_ifs at hs'
  exact same_sched hq Event.noConfusion hs' fun _ => by simp [Event.adds]

/-- what kernel code of its own does -/
theorem same_kernel (hq : Queue x.s.abs l) (ho : o.makes ≠ some p)
    (hs : run cpuLocal fpu x o .kernel = some x') : Same p x x' := by
  cases o with
  | exit code => exact same_sched hq Event.noConfusion hs fun _ => by simp [Event.adds]
  | yield => exact same_sched hq Event.noConfusion hs fun _ => by simp [Event.adds]
  | timer vector => exact same_timer hq Point.noConfusion hs
  | spawn q stack =>
    have hpq : q ≠ p := fun he => ho (congrArg some he)
    have hs' : (if x.freshStack cpuLocal stack STACK_SIZE then
      (x.sched cpuLocal (.spawn q (stackTop stack STACK_SIZE))).map
        fun x => x.newTask q stack fpu none else none) = some x' := hs
    split_ifs at hs'
    obtain ⟨x1, h1, rfl⟩ := Option.map_eq_some_iff.1 hs'
    exact (same_sched hq Event.noConfusion h1 fun _ => by simp [Event.adds, hpq]).trans (same_new hpq.symm)
  | spawnFromElf q stack =>
    have hpq : q ≠ p := fun he => ho (congrArg some he)
    have hs' : (if x.freshStack cpuLocal stack STACK_SIZE then
      (x.sched cpuLocal (.spawnFromElf q (stackTop stack STACK_SIZE))).map
        fun x => x.newTask q stack fpu none else none) = some x' := hs
    split_ifs at hs'
    obtain ⟨x1, h1, rfl⟩ := Option.map_eq_some_iff.1 hs'
    exact (same_sched hq Event.noConfusion h1 fun _ => by simp [Event.adds, hpq]).trans (same_new hpq.symm)
  | store a v => exact same_store hs
  | enter rip rsp a regs =>
    obtain ⟨-, rfl⟩ := run_enter hs
    exact same_moved Point.noConfusion
  | forkEnter a rsp regs =>
    obtain ⟨F, -, -, rfl⟩ := run_forkEnter hs
    exact same_moved Point.noConfusion
  | _ => cases hs

theorem same_user (hq : Queue x.s.abs l) (hp : x.here = .user)
    (hs : run cpuLocal fpu x o .user = some x') : Same p x x' := by
  cases o with
  | user u gs =>
    have hs' : (if userFlags u.rflags ∧ u.rflags &&& RFLAGS_IF = x.c.rflags &&& RFLAGS_IF then
      some { x with c := { x.c with toUser := u, gsBase := gs } } else none) = some x' := hs
    split_ifs at hs'
    cases hs'
    refine same_local rfl (fun _ _ => rfl) rfl rfl fun _ hh => ?_
    have hk : x.here = .kernel := hh
    rw [hp] at hk
    cases hk
  | syscall =>
    cases hs
    exact same_local rfl (fun _ hq => moveTo_other hq) rfl rfl fun _ hh => Point.noConfusion (moveTo_here.symm.trans hh)
  | timer vector =>
    have hs' : (if x.c.rflags &&& RFLAGS_IF ≠ 0 then ((x.interrupt vector).sched cpuLocal .timer).map
      fun x => if x.s.scheduling then x else x.resume cpuLocal else none) = some x' := hs
    split_ifs at hs'
    obtain ⟨x1, h1, rfl⟩ := Option.map_eq_some_iff.1 hs'
    have hin : Same p x (x.interrupt vector) :=
      same_local rfl (fun _ hq => moveTo_other hq) rfl rfl fun _ hh => Point.noConfusion (moveTo_here.symm.trans hh)
    have hs1 : Same p (x.interrupt vector) x1 :=
      same_sched hq Event.noConfusion h1 fun _ => by simp [Event.adds]
    refine (hin.trans hs1).trans ?_
    split_ifs
    · exact Same.refl
    · exact same_resume
  | _ => cases hs

theorem same_handler (hq : Queue x.s.abs l) (ho : o.makes ≠ some p)
    (hs : run cpuLocal fpu x o (.handler f) = some x') : Same p x x' := by
  cases o with
  | sysret regs =>
    obtain ⟨c, -, rfl⟩ := Option.map_eq_some_iff.1 hs
    exact same_moved Point.noConfusion
  | read =>
    cases hs
    exact same_moved Point.noConfusion
  | wait4 pid =>
    obtain ⟨x1, h1, rfl⟩ := Option.map_eq_some_iff.1 hs
    refine (same_sched hq Event.noConfusion h1 fun _ => by simp [Event.adds]).trans ?_
    split
    · exact same_moved Point.noConfusion
    · exact Same.refl
  | fork q stack =>
    have hpq : q ≠ p := fun he => ho (congrArg some he)
    have hs' : (if x.freshStack cpuLocal stack STACK_SIZE then
      (x.sched cpuLocal (.fork q (stackTop stack STACK_SIZE))).map fun x' =>
        x'.newTask q stack fpu (some (ForkFrame.ofFrame x.c.mem f)) else none) = some x' := hs
    split_ifs at hs'
    obtain ⟨x1, h1, rfl⟩ := Option.map_eq_some_iff.1 hs'
    exact (same_sched hq Event.noConfusion h1 fun _ => by simp [Event.adds, hpq]).trans (same_new hpq.symm)
  | call e =>
    have hs' : (if isCall e then x.sched cpuLocal e else none) = some x' := hs
    split_ifs at hs' with hc
    obtain ⟨h1, h2, -⟩ := isCall_spec (s := x.s) hc
    exact same_sched hq h1 hs' fun _ => by simp [h2]
  | execveCommit highest mmapBase rip rsp a regs =>
    have hs' : (if x.onStack a 5 then (x.sched cpuLocal (.execveCommit highest mmapBase)).map fun x =>
      { x with c := enterRing3 ({ x.c with reg := regs }.exec .swapgs) rip rsp a }.moveTo .user else none) =
        some x' := hs
    split_ifs at hs'
    obtain ⟨x1, h1, rfl⟩ := Option.map_eq_some_iff.1 hs'
    exact (same_sched hq Event.noConfusion h1 fun _ => by simp [Event.adds]).trans (same_moved Point.noConfusion)
  | exit code => exact same_exit hq hs
  | store a v => exact same_store hs
  | timer vector => exact same_timer hq Point.noConfusion hs
  | _ => cases hs

theorem same_blocked {saved : U64} (hq : Queue x.s.abs l)
    (hs : run cpuLocal fpu x o (.blocked f saved) = some x') : Same p x x' := by
  have hgs : Same p x (x.pinKernelGs cpuLocal) := same_core rfl
  have hq' : Queue (x.pinKernelGs cpuLocal).s.abs l := hq
  cases o with
  | readAgain => exact hgs.trans (same_sched hq' Event.noConfusion hs fun _ => by simp [Event.adds])
  | readDone =>
    have hs' : (if x.s.cont x.s.current = .own then
      some ((x.setUserRsp cpuLocal saved).moveTo (.handler f)) else none) = some x' := hs
    split_ifs at hs'
    cases hs'
    exact same_moved Point.noConfusion
  | wait4Again =>
    obtain ⟨child, -, ⟨-, x1, h1, rfl⟩ | ⟨-, hs'⟩⟩ := run_wait4Again hs
    · exact (same_sched hq Event.noConfusion h1 fun _ => by simp [Event.adds]).trans (same_moved Point.noConfusion)
    · exact hgs.trans (same_sched hq' Event.noConfusion hs' fun _ => by simp [Event.adds])
  | store a v => exact same_store hs
  | timer vector => exact same_timer hq Point.noConfusion hs
  | _ => cases hs

/-- **Step.** -/
theorem step_same (h : Inv cpuLocal x) (ho : o.makes ≠ some p) (hs : x.step cpuLocal fpu o = some x') :
    Same p x x' := by
  obtain ⟨l, hq⟩ := h.queue
  by_cases hsw : o = .switch
  · subst hsw
    exact same_finish hq hs
  obtain ⟨-, hs⟩ := step_run hsw hs
  cases hp : x.here with
  | kernel => exact same_kernel hq ho (hp ▸ hs)
  | user => exact same_user hq hp (hp ▸ hs)
  | irq f =>
    rw [hp] at hs
    cases o with
    | store a v => exact same_store hs
    | timer vector => exact same_timer hq Point.noConfusion hs
    | _ => cases hs
  | handler f => exact same_handler hq ho (hp ▸ hs)
  | blocked f saved => exact same_blocked hq (hp ▸ hs)

/-- **Run.** -/
theorem run_same {os : List Op} (hloc : cpuLocal.toNat + 16 ≤ 2 ^ 64) (h : Inv cpuLocal x)
    (ho : ∀ o ∈ os, o.makes ≠ some p) (hs : os.foldlM (Kernel.step cpuLocal fpu) x = some x') :
    Same p x x' ∧ Inv cpuLocal x' := by
  induction os generalizing x with
  | nil =>
    cases hs
    exact ⟨Same.refl, h⟩
  | cons o os ih =>
    rw [List.foldlM_cons] at hs
    obtain ⟨x1, h1, h2⟩ := Option.bind_eq_some_iff.1 hs
    obtain ⟨k1, k2⟩ := ih (step_inv h hloc h1) (fun o' ho' => ho o' (List.mem_cons_of_mem _ ho')) h2
    exact ⟨(step_same h (ho o (List.mem_cons_self ..)) h1).trans k1, k2⟩

end Same

/-! ## A system call in progress -/

/-- the running task is in a system call that ring-3 code in state u made -/
structure Calling (cpuLocal : U64) (u : User) (f : U64) (x : Kernel) : Prop where
  inv : Inv cpuLocal x
  here : x.here = .handler f
  issued : x.issued x.s.current = u
  fpu : x.c.fpu = u.fpu

section Calling

variable {cpuLocal : U64} {x x' : Kernel} {p : Ptr} {f : U64} {fpu : FxImage} {u : User}

theorem execAll_fpu (c : Core) (is : List Instr) : (c.execAll is).fpu = c.fpu := by
  induction is generalizing c with
  | nil => rfl
  | cons i is ih =>
    refine (ih (c.exec i)).trans ?_
    cases i <;> rfl

theorem calling_syscall (h : Inv cpuLocal x) (hloc : cpuLocal.toNat + 16 ≤ 2 ^ 64)
    (hs : x.step cpuLocal fpu .syscall = some x') : ∃ f, Calling cpuLocal x.c.toUser f x' := by
  have hi := step_inv h hloc hs
  obtain ⟨-, hs⟩ := step_run Op.noConfusion hs
  cases hp : x.here with
  | user =>
    rw [hp] at hs
    cases hs
    exact ⟨_, hi, moveTo_here, Function.update_self .., execAll_fpu _ _⟩
  | _ =>
    rw [hp] at hs
    cases hs

/-- the work of the C++ code on its own stack -/
theorem Calling.stores {os : List Op} (h : Calling cpuLocal u f x) (hloc : cpuLocal.toNat + 16 ≤ 2 ^ 64)
    (hall : os.all Op.isStore = true) (hs : os.foldlM (Kernel.step cpuLocal fpu) x = some x') :
    Calling cpuLocal u f x' := by
  induction os generalizing x with
  | nil =>
    cases hs
    exact h
  | cons o os ih =>
    rw [List.foldlM_cons] at hs
    obtain ⟨x1, h1, h2⟩ := Option.bind_eq_some_iff.1 hs
    rw [List.all_cons, Bool.and_eq_true] at hall
    refine ih ?_ hall.2 h2
    have hi := step_inv h.inv hloc h1
    cases o with
    | store a v =>
      obtain ⟨-, h1⟩ := step_run Op.noConfusion h1
      rw [h.here] at h1
      have h1' : (if (x.stackBase x.s.current).toNat ≤ a.toNat ∧ a.toNat + 8 ≤ x.stackEnd.toNat then
        some { x with c := { x.c with mem := Function.update x.c.mem a v } } else none) = some x1 := h1
      split_ifs at h1'
      cases h1'
      exact ⟨hi, h.here, h.issued, h.fpu⟩
    | _ => cases hall.1

/-- the fork itself: the ForkFrame has nine words of the caller's state, and the image is a new one -/
theorem Calling.forks {stack : U64} (h : Calling cpuLocal u f x) (hloc : cpuLocal.toNat + 16 ≤ 2 ^ 64)
    (hs : x.step cpuLocal fpu (.fork p stack) = some x') : Calling cpuLocal u f x' ∧ p ≠ x'.s.current ∧
      x'.forkArg p = some ⟨u.reg .rbx, u.reg .rbp, u.reg .r12, u.reg .r13, u.reg .r14, u.reg .r15, u.rip, u.rflags,
        u.reg .rsp⟩ ∧ x'.image p = fpu := by
  have hi := step_inv h.inv hloc hs
  obtain ⟨-, hs⟩ := step_run Op.noConfusion hs
  rw [h.here] at hs
  have hs' : (if x.freshStack cpuLocal stack STACK_SIZE then
    (x.sched cpuLocal (.fork p (stackTop stack STACK_SIZE))).map fun x' =>
      x'.newTask p stack fpu (some (ForkFrame.ofFrame x.c.mem f)) else none) = some x' := hs
  split_ifs at hs'
  obtain ⟨x1, h1, rfl⟩ := Option.map_eq_some_iff.1 hs'
  have g := h.inv.toBase.scheduled Event.noConfusion h1
  obtain ⟨l, hq⟩ := h.inv.queue
  have hcl : x.s.current ∈ x.s.tb.live := hq.cur_live
  have hpc : p ≠ x.s.current := by
    rintro rfl
    exact adds_fresh rfl g.step hcl
  have hpc' : p ≠ x1.s.current := by rwa [g.current]
  have hm := h.inv.mine
  rw [h.here, h.issued] at hm
  refine ⟨⟨hi, ?_, ?_, ?_⟩, hpc', ?_, ?_⟩
  · show Function.update x1.point p .kernel x1.s.current = _
    rw [Function.update_of_ne hpc'.symm]
    exact g.here.trans h.here
  · show x1.issued x1.s.current = u
    rw [g.current, g.eq]
    exact h.issued
  · show x1.c.fpu = u.fpu
    rw [g.eq]
    exact h.fpu
  · rw [← ofFrame_frameWords hm.words]
    exact Function.update_self ..
  · show (if p = x1.s.current then x1.c.fpu else Function.update x1.fpu p fpu p) = fpu
    rw [if_neg hpc', Function.update_self]

/-- SYSRET, back to u -/
theorem Calling.returns {regs : Reg → U64} (h : Calling cpuLocal u f x)
    (hs : x.step cpuLocal fpu (.sysret regs) = some x') :
    Restored u x'.c ∧ x'.c.fpu = u.fpu ∧ x'.c.reg .rax = regs .rax := by
  obtain ⟨-, hs⟩ := step_run Op.noConfusion hs
  rw [h.here] at hs
  obtain ⟨c, hc, rfl⟩ := Option.map_eq_some_iff.1 hs
  obtain ⟨hr, -⟩ := h.inv.sysret_spec h.here hc
  rw [h.issued] at hr
  have spec := h.inv.exits regs h.here
  generalize (x.back regs f).execAll syscallExit = c1 at spec hc
  unfold Core.sysret at hc
  split_ifs at hc
  cases hc
  exact ⟨hr, spec.fpu.trans h.fpu, spec.rax⟩

end Calling

/-! ## Parent and child -/

section Result

variable {cpuLocal idleStack a : U64} {boot idle p : Ptr} {m : Vmm.Machine} {cpu : Sched.Cpu} {c : Core} {fpu : FxImage}
  {x x' parent child : Kernel} {regs : Reg → U64} {u : User} {f : U64}

theorem regs_unsaved {F : ForkFrame} {rsp : U64} {r : Reg} (hr : r ∈ UNSAVED) :
    F.regs (Function.update (Function.update regs .rdi a) .rsp rsp) r = regs r := by
  cases r <;> first | rfl | exact absurd hr (by decide)

/-- the child's first ring-3 state -/
theorem firstEntry_spec (h : Calling cpuLocal u f x') (hloc : cpuLocal.toNat + 16 ≤ 2 ^ 64) {F : ForkFrame}
    (harg : x'.forkArg p = some F) (himg : x'.image p = fpu) (hc : FirstEntry cpuLocal fpu x' p a regs child) :
    ∃ rsp, child.c.reg = F.regs (Function.update (Function.update regs .rdi a) .rsp rsp) ∧ child.c.rip = F.rip ∧
      child.c.rflags = F.rflags ∧ child.c.fpu = fpu := by
  obtain ⟨os, y, rsp, hmakes, hrun, hcur, hs⟩ := hc
  obtain ⟨hsame, hi⟩ := run_same hloc h.inv hmakes hrun
  obtain ⟨hsc, hs⟩ := step_run Op.noConfusion hs
  cases hp : y.here with
  | kernel =>
    rw [hp] at hs
    obtain ⟨l, hq⟩ := hi.queue
    -- it runs, so it is alive and in kernel code
    have hlive : p ∈ y.s.tb.live := hcur ▸ hq.cur_live
    have hstate : (y.s.tb.task p).state = .Running := by
      rw [← hcur]
      exact hq.active.2 hsc
    obtain ⟨-, -, hyarg, hyimg⟩ := hsame hlive (by rw [hstate]; exact State.noConfusion) (hcur ▸ hp)
    obtain ⟨F', hF, ⟨ha, hb, h40, hle⟩, rfl⟩ := run_forkEnter hs
    rw [hcur, hyarg, harg] at hF
    cases hF
    obtain ⟨mem, heq, -⟩ := forkChildEntry_eq (c := { y.c with reg := regs }) (f := F) ha hb h40 hle
    have hfpu : y.c.fpu = fpu := by
      rw [← himg, ← hyimg]
      exact (if_pos hcur.symm).symm
    refine ⟨rsp, ?_, ?_, ?_, ?_⟩
    · show (forkChildEntry { y.c with reg := regs } F a rsp).reg = _
      rw [heq]
    · show (forkChildEntry { y.c with reg := regs } F a rsp).rip = _
      rw [heq]
    · show (forkChildEntry { y.c with reg := regs } F a rsp).rflags = _
      rw [heq]
    · show (forkChildEntry { y.c with reg := regs } F a rsp).fpu = _
      rw [heq]
      exact hfpu
  | _ =>
    rw [hp] at hs
    cases hs

/-- **Parent and child go on in the same state** if and only if the caller of fork held already what the child is not
given. -/
theorem fork_resumes_iff (hne : boot ≠ idle) (hpl : Placed cpuLocal idleStack) (os : List Op)
    (hrun : os.foldlM (Kernel.step cpuLocal fpu) (start cpuLocal idleStack boot idle m cpu c fpu) = some x)
    (hf : Forks cpuLocal fpu x p x') (hp : Returns cpuLocal fpu x' p parent)
    (hc : FirstEntry cpuLocal fpu x' p a regs child) :
    SameContext child.c.toUser parent.c.toUser (childPid x' p) ↔ HoldsAlready x.c.toUser fpu a regs := by
  have hloc := hpl.1
  obtain ⟨before, stack, hbefore, hcall⟩ := hf
  obtain ⟨x2, h12, hfork⟩ := run_split hcall
  obtain ⟨x1, h1, h2⟩ := run_split (show ([Op.syscall] ++ before).foldlM _ _ = _ from h12)
  obtain ⟨f, hcalling⟩ := calling_syscall (run_inv_of_start hne hpl hrun) hloc (of_run_one h1)
  obtain ⟨hcalling', -, harg, himg⟩ := (hcalling.stores hloc hbefore h2).forks hloc (of_run_one hfork)
  -- the parent
  obtain ⟨after, ret, hafter, hret, hback⟩ := hp
  obtain ⟨x3, h3, hlast⟩ := run_split hback
  obtain ⟨⟨hpr, hprip, hpfl⟩, hpfpu, hprax⟩ := (hcalling'.stores hloc hafter h3).returns (of_run_one hlast)
  -- the child
  obtain ⟨rsp, hcr, hcrip, hcfl, hcfpu⟩ := firstEntry_spec hcalling' hloc harg himg hc
  constructor
  · rintro ⟨hregs, -, -, -, hfpu⟩
    have hreg : ∀ r, r ≠ .rax → r ≠ .rcx → r ≠ .r11 → child.c.reg r = x.c.reg r := fun r h1 h2 h3 =>
      (hregs r h1 h2 h3).trans (hpr r h1 h2 h3)
    rw [hcr] at hreg
    have hrdi := hreg .rdi (by decide) (by decide) (by decide)
    refine ⟨hpfpu.symm.trans (hfpu.symm.trans hcfpu), hrdi.symm, fun r hr => ?_⟩
    have hne : r ≠ .rax ∧ r ≠ .rcx ∧ r ≠ .r11 := by revert r; decide
    exact (hreg r hne.1 hne.2.1 hne.2.2).symm.trans (regs_unsaved hr)
  · rintro ⟨hfpu, hrdi, hrest⟩
    refine ⟨fun r h1 h2 h3 => ?_, ⟨?_, hprax.trans hret⟩, hcrip.trans hprip.symm, hcfl.trans hpfl.symm,
      hcfpu.trans (hfpu.symm.trans hpfpu.symm)⟩
    · show child.c.reg r = parent.c.reg r
      rw [hpr r h1 h2 h3, hcr]
      cases r <;> first | rfl | contradiction | exact hrdi.symm | exact (hrest _ (by decide)).symm
    · show child.c.reg .rax = 0
      rw [hcr]
      rfl

end Result

/-! ## A shell that forks -/

section Shell

/-- the machine after boot -/
def booted : Kernel := start 0x1000 0x10000 1 2 Vmm.bootMachine ⟨0, 0, 0⟩ someCore 0

/-- task 3 enters ring 3 with u in its registers -/
def shellEnters (u : Reg → U64) : List Op :=
  [.spawnFromElf 3 0x20000, .yield, .switch, .enter 0x400000 0x7FFFF000 0x21000 u]

/-- it forks task 4 -/
def shellForks : List Op := [.syscall, .fork 4 0x30000]

/-- it goes on, and blocks in read(0); its child is next, with left in its registers -/
def childRuns : List Op := [.sysret fun _ => 3, .syscall, .read, .readAgain, .switch]

def childEnters (left : Reg → U64) : List Op := [.forkEnter 0x33000 0x33000 left]

/-- the parts of such a run -/
theorem shell_parts {u left : Reg → U64} {parent child : Kernel}
    (hp : (shellEnters u ++ shellForks ++ [Op.sysret fun _ => 3]).foldlM (Kernel.step 0x1000 0) booted = some parent)
    (hc : (shellEnters u ++ shellForks ++ (childRuns ++ childEnters left)).foldlM (Kernel.step 0x1000 0) booted =
      some child)
    (hid : ((shellEnters u ++ shellForks).foldlM (Kernel.step 0x1000 0) booted).map (childPid · 4) = some 3)
    (hcur : ((shellEnters u ++ shellForks ++ childRuns).foldlM (Kernel.step 0x1000 0) booted).map (·.s.current) =
      some 4) :
    ∃ x x', (shellEnters u).foldlM (Kernel.step 0x1000 0) booted = some x ∧ Forks 0x1000 0 x 4 x' ∧
      Returns 0x1000 0 x' 4 parent ∧ FirstEntry 0x1000 0 x' 4 0x33000 left child := by
  obtain ⟨x', hx', hparent⟩ := run_split hp
  obtain ⟨x, hx, hforks⟩ := run_split hx'
  obtain ⟨x'', hx'', hrest⟩ := run_split hc
  obtain ⟨y, hy, henter⟩ := run_split hrest
  rw [hx'] at hx'' hid
  cases hx''
  rw [run_append hx' hy] at hcur
  refine ⟨x, x', hx, ⟨[], 0x30000, rfl, hforks⟩, ⟨[], fun _ => 3, rfl, (Option.some.inj hid).symm, hparent⟩,
    childRuns, y, 0x33000, ?_, hy, Option.some.inj hcur, of_run_one henter⟩
  simp [childRuns, Op.makes]

/-- rdi is what the child finds there, and the other registers hold 7 on both sides -/
def luckyRegs (r : Reg) : U64 := if r = .rdi then 0x33000 else 7

theorem fork_resumes_lucky : ∃ x x' parent child,
    (shellEnters luckyRegs).foldlM (Kernel.step 0x1000 0) booted = some x ∧ Forks 0x1000 0 x 4 x' ∧
    Returns 0x1000 0 x' 4 parent ∧ FirstEntry 0x1000 0 x' 4 0x33000 (fun _ => 7) child ∧
    SameContext child.c.toUser parent.c.toUser (childPid x' 4) := by
  have hp : ((shellEnters luckyRegs ++ shellForks ++ [Op.sysret fun _ => 3]).foldlM (Kernel.step 0x1000 0)
      booted).isSome = true := by decide +kernel
  have hc : ((shellEnters luckyRegs ++ shellForks ++ (childRuns ++ childEnters fun _ => 7)).foldlM
      (Kernel.step 0x1000 0) booted).isSome = true := by decide +kernel
  obtain ⟨parent, hp⟩ := Option.isSome_iff_exists.1 hp
  obtain ⟨child, hc⟩ := Option.isSome_iff_exists.1 hc
  obtain ⟨x, x', hx, hf, hr, he⟩ := shell_parts hp hc (by decide +kernel) (by decide +kernel)
  have hheld : ((shellEnters luckyRegs).foldlM (Kernel.step 0x1000 0) booted).map (fun x =>
      decide (x.c.fpu = 0 ∧ x.c.reg .rdi = 0x33000 ∧ ∀ r ∈ UNSAVED, x.c.reg r = 7)) = some true := by decide +kernel
  rw [hx] at hheld
  have hholds := of_decide_eq_true (Option.some.inj hheld)
  exact ⟨x, x', parent, child, hx, hf, hr, he,
    (fork_resumes_iff (by decide) (by decide) (shellEnters luckyRegs) hx hf hr he).2 hholds⟩

/-- **A register lost.** rsi is 7 at the fork and 9 in the child. -/
theorem fork_loses_rsi : ¬ ∀ (cpuLocal idleStack a : U64) (boot idle p : Ptr) (m : Vmm.Machine) (cpu : Sched.Cpu)
    (c : Core) (fpu : FxImage) (os : List Op) (regs : Reg → U64) (x x' parent child : Kernel), boot ≠ idle →
    Placed cpuLocal idleStack →
    os.foldlM (Kernel.step cpuLocal fpu) (start cpuLocal idleStack boot idle m cpu c fpu) = some x →
    Forks cpuLocal fpu x p x' → Returns cpuLocal fpu x' p parent → FirstEntry cpuLocal fpu x' p a regs child →
    SameContext child.c.toUser parent.c.toUser (childPid x' p) := by
  intro hall
  have hp : ((shellEnters (fun _ => 7) ++ shellForks ++ [Op.sysret fun _ => 3]).foldlM (Kernel.step 0x1000 0)
      booted).map (fun z : Kernel => z.c.reg .rsi) = some 7 := by decide +kernel
  have hc : ((shellEnters (fun _ => 7) ++ shellForks ++ (childRuns ++ childEnters fun _ => 9)).foldlM
      (Kernel.step 0x1000 0) booted).map (fun z : Kernel => z.c.reg .rsi) = some 9 := by decide +kernel
  obtain ⟨parent, hp, hp7⟩ := Option.map_eq_some_iff.1 hp
  obtain ⟨child, hc, hc9⟩ := Option.map_eq_some_iff.1 hc
  obtain ⟨x, x', hx, hf, hr, he⟩ := shell_parts hp hc (by decide +kernel) (by decide +kernel)
  have hsame := hall 0x1000 0x10000 0x33000 1 2 4 Vmm.bootMachine ⟨0, 0, 0⟩ someCore 0 _ _ x x' parent child (by decide)
    (by decide) hx hf hr he
  have hrsi : child.c.reg .rsi = parent.c.reg .rsi := hsame.regs .rsi (by decide) (by decide) (by decide)
  rw [hc9, hp7] at hrsi
  exact absurd hrsi (by decide)

end Shell

end Retux.Ring3
