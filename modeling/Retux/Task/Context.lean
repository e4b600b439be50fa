/-
The hardware context of the running task.

CR3, IA32_FS_BASE, `cpu_local.kernel_rsp` and TSS.RSP0 are one set for all tasks. `schedule` writes them for the incoming
task, CR3 only if the task has an address space and the stacks only if it has one; arch_prctl and execve write some of
them for the running task, with the field beside them. `OnCpu` runs the kernel and keeps whose stack is loaded, as
`switch_to` loads it.

- `Context`: the invariant, for the running task and for what `schedule` needs of the others;
- `coherent`: in every state of every run.
-/
import Mathlib.Tactic
import Retux.Task.Loaded
import Retux.Task.Queue

namespace Retux.Sched

open Retux.Word Retux.Pmm Retux.Vmm Retux.Run

/-- the kernel, and the task whose stack `switch_to` loaded last -/
structure OnCpu where
  s : Sys
  task : Ptr

/-- `switch_to(&old->rsp, next->rsp, ...)`, unless `schedule` picks the running task -/
def OnCpu.switched (x : OnCpu) : Event → Ptr
  | .switch =>
    match pick x.s with
    | some next => if next = x.s.current then x.task else next
    | none => x.task
  | _ => x.task

def stepOnCpu (x : OnCpu) (e : Event) : Option OnCpu := (step x.s e).map fun s' => ⟨s', x.switched e⟩

/-- T's code runs: in ring 3, or in its own kernel code -/
def OnCpu.Runs (x : OnCpu) (t : Ptr) : Prop :=
  x.task = t ∧ x.s.scheduling = false ∧ (x.s.tb.task t).cr3 ≠ 0

structure Coherent (x : OnCpu) (t : Ptr) : Prop where
  current : x.s.current = t ∧ t ∈ x.s.tb.live
  cr3 : x.s.m.cr3 = (x.s.tb.task t).cr3
  fsBase : x.s.cpu.fsBase = (x.s.tb.task t).fsBase
  kernelRsp : x.s.cpu.kernelRsp = (x.s.tb.task t).kernelStackTop
  rsp0 : x.s.cpu.rsp0 = (x.s.tb.task t).kernelStackTop

/-- `task::create` puts the stack on the heap: its top is not null -/
def Event.HasStack : Event → Prop
  | .spawn _ top | .spawnFromElf _ top | .fork _ top => top ≠ 0
  | _ => True

/-! ## The invariant -/

/-- the registers are those of task x, if x has an address space -/
def Synced (x : Task) (cr3 : U64) (cpu : Cpu) : Prop :=
  x.cr3 ≠ 0 → cr3 = x.cr3 ∧ cpu.fsBase = x.fsBase ∧ cpu.kernelRsp = x.kernelStackTop ∧ cpu.rsp0 = x.kernelStackTop

structure Context (a : Abs) : Prop where
  stack : ∀ {p}, p ∈ a.tb.live → (a.tb.task p).cr3 ≠ 0 → (a.tb.task p).kernelStackTop ≠ 0
  synced : Synced a.cur a.cr3 a.cpu

section Context

variable {a a' : Abs}

/-- the same registers, and tasks that keep what these are compared with -/
theorem Context.congr (h : Context a) (hlive : ∀ {p}, p ∈ a'.tb.live → p ∈ a.tb.live)
    (hc : a'.current = a.current) (hcr3 : a'.cr3 = a.cr3) (hcpu : a'.cpu = a.cpu)
    (h1 : ∀ p, (a'.tb.task p).cr3 = (a.tb.task p).cr3) (h2 : ∀ p, (a'.tb.task p).fsBase = (a.tb.task p).fsBase)
    (h3 : ∀ p, (a'.tb.task p).kernelStackTop = (a.tb.task p).kernelStackTop) : Context a' := by
  refine ⟨fun {p} hp h0 => ?_, ?_⟩
  · rw [h3]
    exact h.stack (hlive hp) (h1 p ▸ h0)
  · have hs := h.synced
    unfold Synced Abs.cur at *
    rw [hc, hcr3, hcpu, h1, h2, h3]
    exact hs

/-- a new task with a stack -/
theorem Context.add {p : Ptr} {x : Task} {n : ℕ} {c : Ptr → Cont} (h : Context a) (hcl : a.current ∈ a.tb.live)
    (hp : p ∉ a.tb.live) (htop : x.kernelStackTop ≠ 0) : Context { a with
      tb := (a.tb.add p x).set a.current { a.cur with next := p }, nextId := n, cont := c } := by
  have hpc : a.current ≠ p := by rintro he; exact hp (he ▸ hcl)
  refine ⟨fun {q} hq h0 => ?_, ?_⟩
  · rcases List.mem_cons.1 hq with rfl | hq
    · rw [add_new hpc]
      exact htop
    · rw [add_old Task.kernelStackTop (fun _ _ => rfl) hp hq]
      rw [add_old Task.cr3 (fun _ _ => rfl) hp hq] at h0
      exact h.stack hq h0
  · show Synced (((a.tb.add p x).set a.current { a.cur with next := p }).task a.current) a.cr3 a.cpu
    rw [set_self]
    exact h.synced

/-- the running task's own fields, with the registers they go with -/
theorem Context.touch {t : Task} {fs cr3 : U64} {c : Ptr → Cont} (h : Context a) (hcl : a.current ∈ a.tb.live)
    (htop : t.kernelStackTop = a.cur.kernelStackTop)
    (hfs : t.fsBase = a.cur.fsBase ∧ fs = a.cpu.fsBase ∨ fs = t.fsBase)
    (hcr3 : t.cr3 = a.cur.cr3 ∧ cr3 = a.cr3 ∨ a.cur.cr3 ≠ 0 ∧ cr3 = t.cr3) : Context { a with
      tb := a.tb.set a.current t, cpu := { a.cpu with fsBase := fs }, cr3 := cr3, cont := c } := by
  have hold : t.cr3 ≠ 0 → a.cur.cr3 ≠ 0 := by
    intro h0
    rcases hcr3 with ⟨he, -⟩ | ⟨hn, -⟩
    · rw [← he]
      exact h0
    · exact hn
  refine ⟨fun {q} hq h0 => ?_, ?_⟩
  · by_cases hqc : q = a.current
    · rw [hqc, set_self] at h0 ⊢
      rw [htop]
      exact h.stack hcl (hold h0)
    · rw [set_other hqc] at h0 ⊢
      exact h.stack hq h0
  · show Synced ((a.tb.set a.current t).task a.current) cr3 { a.cpu with fsBase := fs }
    rw [set_self]
    intro h0
    obtain ⟨k1, k2, k3, k4⟩ := h.synced (hold h0)
    refine ⟨?_, ?_, k3.trans htop.symm, k4.trans htop.symm⟩
    · rcases hcr3 with ⟨he, hc⟩ | ⟨-, hc⟩
      · rw [hc, he]
        exact k1
      · exact hc
    · rcases hfs with ⟨he, hf⟩ | hf
      · rw [he, ← k2]
        exact hf
      · exact hf

/-- **The switch.** A task with an address space has a stack, so every register is loaded for it. -/
theorem Context.switch {q : Ptr} (h : Context a) (hql : q ∈ a.tb.live) {s1 : State} : Context { a with
      tb := (a.tb.set a.current { a.cur with state := s1 }).set q { a.tb.task q with state := .Running },
      current := q, cpu := a.loadCpu (a.tb.task q),
      cr3 := if (a.tb.task q).cr3 = 0 then a.cr3 else (a.tb.task q).cr3, scheduling := false } := by
  have hkeep : ∀ {β : Type} (f : Task → β), (∀ t st, f { t with state := st } = f t) → ∀ p,
      f (((a.tb.set a.current { a.cur with state := s1 }).set q { a.tb.task q with state := .Running }).task p) =
        f (a.tb.task p) := fun f hf p => switch_keep f hf p
  refine ⟨fun {p} hp h0 => ?_, ?_⟩
  · have h0' : (a.tb.task p).cr3 ≠ 0 := by
      rw [← hkeep Task.cr3 (fun _ _ => rfl) p]
      exact h0
    have htop := h.stack hp h0'
    rw [← hkeep Task.kernelStackTop (fun _ _ => rfl) p] at htop
    exact htop
  · show Synced (((a.tb.set a.current _).set q { a.tb.task q with state := .Running }).task q)
      (if (a.tb.task q).cr3 = 0 then a.cr3 else (a.tb.task q).cr3) (a.loadCpu (a.tb.task q))
    rw [set_self]
    intro h0
    have h0' : (a.tb.task q).cr3 ≠ 0 := h0
    have htop := h.stack hql h0'
    exact ⟨if_neg h0', rfl, if_neg htop, if_neg htop⟩

/-- **One move**, other than a new task. -/
theorem Move.context {act : Act} (hm : Move a act a') (hadd : ∀ p, act ≠ .add p) (hcl : a.current ∈ a.tb.live)
    (h : Context a) : Context a' := by
  cases hm with
  | touch hs hkeep hfs hcr3 hc => exact h.touch hcl hkeep.2.2.2.2 hfs hcr3
  | add => exact absurd rfl (hadd _)
  | wait hs hown hc hpar => exact h.congr (fun hp => hp) rfl rfl rfl (fun _ => rfl) (fun _ => rfl) fun _ => rfl
  | enter hs hc => exact h.congr (fun hp => hp) rfl rfl rfl (fun _ => rfl) (fun _ => rfl) fun _ => rfl
  | @exit code hs hown hi =>
    have hkeep : ∀ {β : Type} (f : Task → β), f { a.cur with exitCode := code, state := .Dead } = f a.cur →
        ∀ p, f ((a.tb.set a.current { a.cur with exitCode := code, state := .Dead }).task p) = f (a.tb.task p) :=
      fun f hf p => set_keep f hf p
    exact h.congr (fun hp => hp) rfl rfl rfl (hkeep Task.cr3 rfl) (hkeep Task.fsBase rfl)
      (hkeep Task.kernelStackTop rfl)
  | reap hz hzc hs hzl hprev hlink =>
    exact h.congr (fun hp => (mem_drop.1 hp).1) rfl rfl rfl (drop_keep Task.cr3 fun _ _ => rfl)
      (drop_keep Task.fsBase fun _ _ => rfl) (drop_keep Task.kernelStackTop fun _ _ => rfl)
  | collect hs hw hd hcl hprev hlink =>
    exact h.congr (fun hp => (mem_drop.1 hp).1) rfl rfl rfl (drop_keep Task.cr3 fun _ _ => rfl)
      (drop_keep Task.fsBase fun _ _ => rfl) (drop_keep Task.kernelStackTop fun _ _ => rfl)
  | stay hs hst => exact h.congr (fun hp => hp) rfl rfl rfl (fun _ => rfl) (fun _ => rfl) fun _ => rfl
  | switch hs hql hqc hst => exact h.switch hql

end Context

/-! ## Steps -/

section Steps

variable {s s' : Sys} {e : Event} {l : List Ptr}

theorem spawn_stack {p : Ptr} {top cr3 : U64} (hl : s.current ∈ s.tb.live) (hp : p ∉ s.tb.live)
    (h : spawn s p top cr3 = some s') : (s'.tb.task p).kernelStackTop = top := by
  obtain ⟨c, -, rfl⟩ := Option.map_eq_some_iff.1 h
  have hpc : p ≠ s.current := by rintro rfl; exact hp hl
  show ((Table.set _ s.current _).task p).kernelStackTop = top
  rw [set_task, if_neg hpc, add_self]
  rfl

/-- fork fills in the child, not its stack -/
theorem sysFork_stack {p : Ptr} {top : U64} (hl : s.current ∈ s.tb.live) (hp : p ∉ s.tb.live)
    (h : sysFork s p top = some s') : (s'.tb.task p).kernelStackTop = top := by
  unfold sysFork at h
  simp only [bind, Option.bind_eq_some_iff, pure, Option.some.injEq] at h
  obtain ⟨parent, -, ⟨a, s1⟩, hf, s2, hsp, child, hch, rfl⟩ := h
  obtain ⟨-, rfl⟩ := get_some.1 hch
  have habs := forkSpace_abs hf
  have htb : s1.tb = s.tb := congrArg Abs.tb habs
  have hcu : s1.current = s.current := congrArg Abs.current habs
  have hst := spawn_stack (by rw [htb, hcu]; exact hl) (by rw [htb]; exact hp) hsp
  show ((Table.set _ p _).task p).kernelStackTop = top
  rw [set_self]
  exact hst

/-- the stack of the task an event makes -/
def Event.stackTop : Event → U64
  | .spawn _ top | .spawnFromElf _ top | .fork _ top => top
  | _ => 0

theorem adds_top {p : Ptr} {par : Option Ptr} (ha : e.adds s = some (p, par)) (hl : s.current ∈ s.tb.live)
    (hp : p ∉ s.tb.live) (hs : step s e = some s') : (s'.tb.task p).kernelStackTop = e.stackTop := by
  obtain ⟨self, -, hs⟩ := Option.bind_eq_some_iff.1 hs
  split_ifs at hs
  cases e <;> cases ha
  · exact spawn_stack hl hp hs
  · obtain ⟨⟨a, s1⟩, hcr, hsp⟩ := Option.bind_eq_some_iff.1 hs
    have habs := create_abs hcr
    have htb : s1.tb = s.tb := congrArg Abs.tb habs
    have hcu : s1.current = s.current := congrArg Abs.current habs
    exact spawn_stack (by rw [htb, hcu]; exact hl) (by rw [htb]; exact hp) hsp
  · exact sysFork_stack hl hp hs

/-- a new task has a stack -/
theorem adds_stack {p : Ptr} {par : Option Ptr} (he : e.HasStack) (ha : e.adds s = some (p, par))
    (hl : s.current ∈ s.tb.live) (hp : p ∉ s.tb.live) (hs : step s e = some s') :
    (s'.tb.task p).kernelStackTop ≠ 0 := by
  rw [adds_top ha hl hp hs]
  cases e <;> cases ha <;> exact he

/-- **One event keeps the context.** -/
theorem step_context (hq : Queue s.abs l) (h : Context s.abs) (he : e.HasStack) (hs : step s e = some s') :
    Context s'.abs := by
  cases step_shape hs with
  | quiet hr ha heq =>
    rw [heq]
    exact h
  | one hr ha hact hm =>
    refine hm.context (fun p hp => ?_) hq.cur_live h
    rw [hp] at hact
    cases hact
  | @add p par hr ha hm hpar =>
    obtain ⟨hp, x, -, -, heq⟩ := hm.add_inv
    have htop := adds_stack he ha hq.cur_live hp hs
    have hpc : s.abs.current ≠ p := by rintro hc; exact hp (hc ▸ hq.cur_live)
    have hx : s'.tb.task p = x := by
      rw [show s'.tb = (s.abs.tb.add p x).set s.abs.current { s.abs.cur with next := p } from congrArg Abs.tb heq]
      exact add_new hpc
    rw [hx] at htop
    rw [heq]
    exact h.add hq.cur_live hp htop
  | collect hwait hm => exact hm.context (fun p hp => (nomatch hp)) hq.cur_live h
  | @sched act a hact hm hrest =>
    have h1 : Context a := by
      refine hm.context (fun p hp => ?_) hq.cur_live h
      rcases hact with ⟨ha, -⟩ | ⟨ha, -⟩ <;> rw [hp] at ha <;> cases ha
    rcases hrest with ⟨heq, -⟩ | ⟨z, hm'⟩
    · rw [heq]
      exact h1
    · obtain ⟨l1, hq1⟩ := hm.queue hq
      exact hm'.context (fun p hp => (nomatch hp)) hq1.cur_live h1

theorem Move.current {a a' : Abs} {act : Act} (hm : Move a act a') (hs : a.scheduling = false) :
    a'.current = a.current := by
  cases hm with
  | switch hs' =>
    rw [hs] at hs'
    cases hs'
  | _ => rfl

/-- only `schedule` changes `current_` -/
theorem step_current (he : e ≠ .switch) (hs : step s e = some s') : s'.current = s.current := by
  have hsc : s.scheduling = false := by
    obtain ⟨self, -, hs⟩ := Option.bind_eq_some_iff.1 hs
    split_ifs at hs with hen
    rw [Bool.and_eq_true] at hen
    exact not_scheduling hen.2 he
  cases step_shape hs with
  | quiet hr ha heq => exact congrArg Abs.current heq
  | one hr ha hact hm => exact hm.current hsc
  | add hr ha hm hpar => exact hm.current hsc
  | collect hwait hm => exact hm.current hsc
  | @sched act a hact hm hrest =>
    have h1 : a.current = s.current := hm.current hsc
    rcases hrest with ⟨heq, -⟩ | ⟨z, hm'⟩
    · rw [← h1]
      exact congrArg Abs.current heq
    · obtain ⟨-, -, prev, heq⟩ := hm'.reap_inv
      rw [← h1]
      exact congrArg Abs.current heq

/-- `schedule` sets `current_` to the task it picks -/
theorem switch_current (hs : step s .switch = some s') : pick s = some s'.current := by
  obtain ⟨self, -, hs⟩ := Option.bind_eq_some_iff.1 hs
  split_ifs at hs
  have hs' : finishSchedule s = some s' := hs
  unfold finishSchedule at hs'
  simp only [bind, Option.bind_eq_some_iff] at hs'
  obtain ⟨q, hq, hs'⟩ := hs'
  rw [hq]
  split_ifs at hs' with hqc
  · cases hs'
    rw [hqc]
  · unfold switchTo at hs'
    simp only [bind, Option.bind_eq_some_iff, pure, Option.some.injEq] at hs'
    obtain ⟨old, -, x, -, rfl⟩ := hs'
    rfl

/-- **`current_` follows the stack.** -/
theorem step_task {x x' : OnCpu} (hx : x.s.current = x.task) (hs : stepOnCpu x e = some x') :
    x'.s.current = x'.task := by
  obtain ⟨s', hst, rfl⟩ := Option.map_eq_some_iff.1 hs
  by_cases he : e = .switch
  · subst he
    have hpick := switch_current hst
    show s'.current = x.switched .switch
    simp only [OnCpu.switched, hpick]
    split_ifs with hc
    · rw [hc, hx]
    · rfl
  · show s'.current = x.switched e
    have hkeep : x.switched e = x.task := by
      cases e <;> first | rfl | exact absurd rfl he
    rw [hkeep, ← hx]
    exact step_current he hst

end Steps

/-! ## Stacks -/

section Stacks

variable {s s' : Sys} {e : Event}

/-- the running task's stack is loaded, if it has one -/
def StackLoaded (s : Sys) : Prop := (s.tb.task s.current).kernelStackTop ≠ 0 →
  s.cpu.kernelRsp = (s.tb.task s.current).kernelStackTop ∧ s.cpu.rsp0 = (s.tb.task s.current).kernelStackTop

/-- a move that is neither a new task nor a switch keeps every stack, and the loaded one -/
theorem Move.stacks {a a' : Abs} {act : Act} (hm : Move a act a') (hadd : ∀ p, act ≠ .add p)
    (hsw : ∀ q, act ≠ .switch q) : (∀ {q}, q ∈ a'.tb.live → q ∈ a.tb.live) ∧
      (∀ q, (a'.tb.task q).kernelStackTop = (a.tb.task q).kernelStackTop) ∧
      a'.cpu.kernelRsp = a.cpu.kernelRsp ∧ a'.cpu.rsp0 = a.cpu.rsp0 := by
  cases hm with
  | touch hs hkeep => exact ⟨fun h => h, set_keep Task.kernelStackTop hkeep.2.2.2.2, rfl, rfl⟩
  | add => exact absurd rfl (hadd _)
  | wait => exact ⟨fun h => h, fun _ => rfl, rfl, rfl⟩
  | enter => exact ⟨fun h => h, fun _ => rfl, rfl, rfl⟩
  | exit => exact ⟨fun h => h, set_keep Task.kernelStackTop rfl, rfl, rfl⟩
  | reap => exact ⟨fun h => (mem_drop.1 h).1, drop_keep Task.kernelStackTop fun _ _ => rfl, rfl, rfl⟩
  | collect => exact ⟨fun h => (mem_drop.1 h).1, drop_keep Task.kernelStackTop fun _ _ => rfl, rfl, rfl⟩
  | stay => exact ⟨fun h => h, fun _ => rfl, rfl, rfl⟩
  | switch => exact absurd rfl (hsw _)

theorem Move.switch_inv {a a' : Abs} {q : Ptr} (hm : Move a (.switch q) a') : a.scheduling = true ∧ q ∈ a.tb.live ∧
    a'.tb.live = a.tb.live ∧ (∀ p, (a'.tb.task p).kernelStackTop = (a.tb.task p).kernelStackTop) ∧ a'.current = q ∧
    a'.cpu = a.loadCpu (a.tb.task q) ∧ a'.scheduling = false := by
  cases hm with
  | switch hs hql hqc hst => exact ⟨hs, hql, rfl, switch_keep Task.kernelStackTop fun _ _ => rfl, rfl, rfl, rfl⟩

theorem Move.stay_inv {a a' : Abs} (hm : Move a .stay a') : a' = { a with scheduling := false } := by
  cases hm with
  | stay => rfl

/-- a plain move does not go into `schedule` -/
theorem Move.plain_scheduling {a a' : Abs} {act : Act} (hm : Move a act a') (hact : act.plain = true) :
    a'.scheduling = false := by
  cases hm with
  | touch hs => exact hs
  | wait hs => exact hs
  | stay => rfl
  | switch => rfl
  | _ => cases hact

theorem not_scheduling_of_step (he : e ≠ .switch) (hs : step s e = some s') : s.scheduling = false := by
  obtain ⟨self, -, hs⟩ := Option.bind_eq_some_iff.1 hs
  split_ifs at hs with hen
  rw [Bool.and_eq_true] at hen
  exact not_scheduling hen.2 he

/-- **Stacks, other than in the switch.** -/
theorem step_stacks (hcl : s.current ∈ s.tb.live) (he : e ≠ .switch) (hs : step s e = some s') :
    s'.cpu.kernelRsp = s.cpu.kernelRsp ∧ s'.cpu.rsp0 = s.cpu.rsp0 ∧ ∀ {q}, q ∈ s'.tb.live →
      (q ∈ s.tb.live ∧ (s'.tb.task q).kernelStackTop = (s.tb.task q).kernelStackTop) ∨
      ((∃ par, e.adds s = some (q, par)) ∧ q ∉ s.tb.live ∧ (s'.tb.task q).kernelStackTop = e.stackTop) := by
  have hsc := not_scheduling_of_step he hs
  cases step_shape hs with
  | quiet hr ha heq =>
    have htb : s'.tb = s.tb := congrArg Abs.tb heq
    have hcpu : s'.cpu = s.cpu := congrArg Abs.cpu heq
    rw [htb, hcpu]
    exact ⟨rfl, rfl, fun hq => Or.inl ⟨hq, rfl⟩⟩
  | @one act hr ha hact hm =>
    obtain ⟨h1, h2, h3, h4⟩ := hm.stacks (by rintro p rfl; cases hact) (by
      rintro q rfl
      have hsc' : s.scheduling = true := hm.switch_inv.1
      rw [hsc] at hsc'
      cases hsc')
    exact ⟨h3, h4, fun hq => Or.inl ⟨h1 hq, h2 _⟩⟩
  | @add p par hr ha hm hpar =>
    obtain ⟨hp, x, -, -, heq⟩ := hm.add_inv
    have htb : s'.tb = (s.tb.add p x).set s.current { s.tb.task s.current with next := p } := congrArg Abs.tb heq
    have hcpu : s'.cpu = s.cpu := congrArg Abs.cpu heq
    have htop := adds_top ha hcl hp hs
    rw [hcpu]
    refine ⟨rfl, rfl, fun {q} hq => ?_⟩
    rw [htb] at hq
    rcases List.mem_cons.1 hq with rfl | hq
    · exact Or.inr ⟨⟨par, ha⟩, hp, htop⟩
    · rw [htb]
      exact Or.inl ⟨hq, add_old (a := s.abs) Task.kernelStackTop (fun _ _ => rfl) hp hq⟩
  | collect hwait hm =>
    obtain ⟨h1, h2, h3, h4⟩ := hm.stacks (fun p hp => (nomatch hp)) (fun q hq => (nomatch hq))
    exact ⟨h3, h4, fun hq => Or.inl ⟨h1 hq, h2 _⟩⟩
  | @sched act a hact hm hrest =>
    obtain ⟨h1, h2, h3, h4⟩ := hm.stacks
      (by rintro p rfl; rcases hact with ⟨ha, -⟩ | ⟨ha, -⟩ <;> cases ha)
      (by rintro q rfl; rcases hact with ⟨ha, -⟩ | ⟨ha, -⟩ <;> cases ha)
    rcases hrest with ⟨heq, -⟩ | ⟨z, hm'⟩
    · have htb : s'.tb = a.tb := congrArg Abs.tb heq
      have hcpu : s'.cpu = a.cpu := congrArg Abs.cpu heq
      rw [htb, hcpu]
      exact ⟨h3, h4, fun hq => Or.inl ⟨h1 hq, h2 _⟩⟩
    · obtain ⟨k1, k2, k3, k4⟩ := hm'.stacks (fun p hp => (nomatch hp)) (fun q hq => (nomatch hq))
      exact ⟨k3.trans h3, k4.trans h4, fun hq => Or.inl ⟨h1 (k1 hq), (k2 _).trans (h2 _)⟩⟩

/-- **Stacks in the switch.** -/
theorem switch_stacks (hcl : s.current ∈ s.tb.live) (hs : step s .switch = some s') (hld : StackLoaded s) :
    s'.tb.live = s.tb.live ∧ (∀ q, (s'.tb.task q).kernelStackTop = (s.tb.task q).kernelStackTop) ∧
      s'.current ∈ s.tb.live ∧ s'.scheduling = false ∧ StackLoaded s' := by
  obtain ⟨self, -, hs⟩ := Option.bind_eq_some_iff.1 hs
  split_ifs at hs with hen
  rw [Bool.and_eq_true] at hen
  rcases finishSchedule_move hen.2 hs with hm | ⟨q, hm⟩
  · have heq := hm.stay_inv
    have htb : s'.tb = s.tb := congrArg Abs.tb heq
    have hcu : s'.current = s.current := congrArg Abs.current heq
    have hcpu : s'.cpu = s.cpu := congrArg Abs.cpu heq
    refine ⟨by rw [htb], fun q => by rw [htb], by rw [hcu]; exact hcl, congrArg Abs.scheduling heq, ?_⟩
    unfold StackLoaded at hld ⊢
    rw [htb, hcu, hcpu]
    exact hld
  · obtain ⟨-, hql, h1, h2, h3, h4, h5⟩ := hm.switch_inv
    have h3' : s'.current = q := h3
    refine ⟨h1, h2, by rw [h3']; exact hql, h5, fun h0 => ?_⟩
    have htop : (s'.tb.task s'.current).kernelStackTop = (s.tb.task q).kernelStackTop := by rw [h3']; exact h2 q
    have hcpu : s'.cpu = s.abs.loadCpu (s.tb.task q) := h4
    rw [htop] at h0 ⊢
    rw [hcpu]
    exact ⟨if_neg h0, if_neg h0⟩

/-- a new task is in a block that was free -/
theorem adds_fresh {p : Ptr} {par : Option Ptr} (ha : e.adds s = some (p, par)) (hs : step s e = some s') :
    p ∉ s.tb.live := by
  cases step_shape hs with
  | quiet hr hn => rw [ha] at hn; cases hn
  | one hr hn => rw [ha] at hn; cases hn
  | add hr ha' hm hpar =>
    rw [ha] at ha'
    cases ha'
    exact hm.add_inv.1
  | collect he => rw [he] at ha; cases ha
  | sched hact =>
    rcases hact with ⟨-, rfl | ⟨rfl, -⟩ | ⟨rfl, -⟩⟩ | ⟨-, code, rfl⟩ <;> cases ha

/-- only a yield, the timer, wait4 and an exit go into `schedule` -/
theorem step_scheduling (he : e ≠ .switch) (hs : step s e = some s') (h : s'.scheduling = true) :
    Enters s e ∨ ∃ code, e = .exit code := by
  have hsc := not_scheduling_of_step he hs
  have hcon : ∀ {b : Bool}, s'.scheduling = b → b = false → Enters s e ∨ ∃ code, e = .exit code := by
    rintro b h1 rfl
    rw [h] at h1
    cases h1
  cases step_shape hs with
  | quiet hr ha heq => exact hcon (congrArg Abs.scheduling heq) hsc
  | one hr ha hact hm => exact hcon rfl (hm.plain_scheduling hact)
  | add hr ha hm hpar =>
    obtain ⟨-, x, -, -, heq⟩ := hm.add_inv
    exact hcon (congrArg Abs.scheduling heq) hsc
  | collect hwait hm =>
    obtain ⟨-, -, prev, heq⟩ := hm.collect_inv
    exact hcon (congrArg Abs.scheduling heq) hsc
  | sched hact hm hrest =>
    rcases hact with ⟨-, hent⟩ | ⟨-, hex⟩
    · exact Or.inl hent
    · exact Or.inr hex

end Stacks

section Run

variable {boot idle : Ptr} {top : U64} {m : Machine} {cpu : Cpu} {x : OnCpu}

theorem init_context (hne : boot ≠ idle) : Context (init boot idle top m cpu).abs := by
  have hkernel : ∀ {p}, p ∈ (init boot idle top m cpu).tb.live → ((init boot idle top m cpu).tb.task p).cr3 = 0 :=
    fun hp => (init_kernel hne hp).1
  exact ⟨fun hp h0 => absurd (hkernel hp) h0,
    fun h0 => absurd (hkernel (List.mem_cons_of_mem _ (List.mem_cons_self ..))) h0⟩

/-- **The hardware context.** In every state of every run from `sched::init`, when a task with an address space runs, it
is `current_`, and CR3, the FS base and both kernel stack pointers are its own. -/
theorem coherent (hne : boot ≠ idle) (es : List Event) (hstack : ∀ e ∈ es, e.HasStack)
    (hrun : es.foldlM stepOnCpu ⟨init boot idle top m cpu, boot⟩ = some x) (t : Ptr) (ht : x.Runs t) : Coherent x t := by
  have hinv : Always stepOnCpu (fun x => (∃ l, Queue x.s.abs l) ∧ Context x.s.abs ∧ x.s.current = x.task)
      ⟨init boot idle top m cpu, boot⟩ es := by
    refine always_of_each (fun _ h => h) ?_ ⟨⟨_, init_queue hne⟩, init_context hne, rfl⟩ (each_of_forall hstack)
    rintro x e x' ⟨⟨l, hq⟩, hctx, hcur⟩ he hs
    have hcur' := step_task hcur hs
    obtain ⟨s', hst, rfl⟩ := Option.map_eq_some_iff.1 hs
    exact ⟨step_queue ⟨l, hq⟩ hst, step_context hq hctx he hst, hcur'⟩
  obtain ⟨⟨l, hq⟩, hctx, hcur⟩ := hinv.last hrun
  obtain ⟨rfl, -, h0⟩ := ht
  rw [← hcur] at h0 ⊢
  obtain ⟨h1, h2, h3, h4⟩ := hctx.synced h0
  exact ⟨⟨rfl, hq.cur_live⟩, h1, h2, h3, h4⟩

/-- boot starts the shell and yields to it -/
def shellStarts : List Event := [.spawnFromElf 3 4096, .yield, .switch]

theorem coherent_shell : ∃ x, shellStarts.foldlM stepOnCpu ⟨init 1 2 4096 bootMachine ⟨0, 0, 0⟩, 1⟩ = some x ∧
    x.Runs 3 ∧ Coherent x 3 := by
  obtain ⟨r, m, hc, -, hb, -⟩ := boot_space
  obtain ⟨-, h0, -⟩ := root_spec hb (List.mem_singleton_self r)
  obtain ⟨x, hx, h1, h2, h3⟩ : ∃ x, shellStarts.foldlM stepOnCpu ⟨init 1 2 4096 bootMachine ⟨0, 0, 0⟩, 1⟩ = some x ∧
      x.task = 3 ∧ x.s.scheduling = false ∧ (x.s.tb.task 3).cr3 = addrOf r := by
    simp [shellStarts, stepOnCpu, step, List.foldlM, init, Table.get, Table.set, Table.add, Event.allowed, Event.atCont,
      run, spawnFromElf, Sys.createAddressSpace, hc, spawn, startSchedule, reapZombie, create, finishSchedule, pick,
      nextReadyAfter, Sys.fuel, switchTo, Function.update_apply, Sys.setTask, TIMESLICE_TICKS, OnCpu.switched]
  have hruns : x.Runs 3 := ⟨h1, h2, by rw [h3]; exact h0⟩
  have hstack : ∀ e ∈ shellStarts, e.HasStack := by
    simp [shellStarts, Event.HasStack]
  exact ⟨x, hx, hruns, coherent (by decide) shellStarts hstack hx 3 hruns⟩

end Run

end Retux.Sched
