/-
What a step of the kernel does to the tasks.

`Abs` is the kernel without its memory system and its clock: the tasks, the scheduler's variables and the registers that
belong to the running task. `Move` lists everything that can happen to it, one constructor per kind of change.
`step_shape` says that every event of `Sched.step` is at most two moves; the invariants of the run queue, of the parent
links and of the hardware context are then proved move by move.
-/
import Mathlib.Tactic
import Retux.Mem.Regs
import Retux.Task.Sched

namespace Retux.Sched

open Retux.Word Retux.Pmm Retux.Vmm

/-- tasks, scheduler and the running task's registers -/
structure Abs where
  tb : Table
  current : Ptr
  idle : Ptr
  boot : Ptr
  zombie : Option Ptr
  nextId : ℕ
  cpu : Cpu
  cr3 : U64
  cont : Ptr → Cont
  scheduling : Bool

def Sys.abs (s : Sys) : Abs :=
  { tb := s.tb, current := s.current, idle := s.idle, boot := s.boot, zombie := s.zombie, nextId := s.nextId,
    cpu := s.cpu, cr3 := s.m.cr3, cont := s.cont, scheduling := s.scheduling }

namespace Abs

/-- the running task -/
def cur (a : Abs) : Task := a.tb.task a.current

/-- the tasks without t, which prev is linked past -/
def drop (a : Abs) (t prev : Ptr) : Table :=
  (a.tb.set prev { a.tb.task prev with next := (a.tb.task t).next }).free t

/-- the registers of the incoming task -/
def loadCpu (a : Abs) (x : Task) : Cpu :=
  { kernelRsp := if x.kernelStackTop = 0 then a.cpu.kernelRsp else x.kernelStackTop
    rsp0 := if x.kernelStackTop = 0 then a.cpu.rsp0 else x.kernelStackTop
    fsBase := x.fsBase }

end Abs

/-- kinds of change -/
inductive Act where
  /-- the running task's own fields and registers -/
  | touch
  /-- a new task after the running one -/
  | add (p : Ptr)
  /-- into the loop of wait4 -/
  | wait (c : Ptr)
  /-- into `schedule` -/
  | enter
  /-- dead, and into `schedule` -/
  | exit
  | reap (z : Ptr)
  /-- wait4 has its child -/
  | collect (c : Ptr)
  /-- `schedule` picks the running task -/
  | stay
  | switch (q : Ptr)

inductive Move (a : Abs) : Act → Abs → Prop where
  | touch {t : Task} {fs cr3 : U64} {c : Cont} (hs : a.scheduling = false)
      (hkeep : t.next = a.cur.next ∧ t.state = a.cur.state ∧ t.parent = a.cur.parent ∧ t.id = a.cur.id ∧
        t.kernelStackTop = a.cur.kernelStackTop)
      (hfs : t.fsBase = a.cur.fsBase ∧ fs = a.cpu.fsBase ∨ fs = t.fsBase)
      (hcr3 : t.cr3 = a.cur.cr3 ∧ cr3 = a.cr3 ∨ a.cur.cr3 ≠ 0 ∧ cr3 = t.cr3)
      (hc : c = a.cont a.current ∨ c = .own ∨ ∃ old, c = .execve old) :
      Move a .touch { a with
        tb := a.tb.set a.current t, cpu := { a.cpu with fsBase := fs }, cr3 := cr3,
        cont := Function.update a.cont a.current c }
  | add {p : Ptr} {x : Task} (hs : a.scheduling = false) (hown : a.cont a.current = .own) (hp0 : p ≠ 0)
      (hp : p ∉ a.tb.live) (hnext : x.next = a.cur.next) (hst : x.state = .Ready) (hid : x.id = a.nextId)
      (hpar : x.parent = none ∨ x.parent = some a.current ∧ a.cur.cr3 ≠ 0) :
      Move a (.add p) { a with
        tb := (a.tb.add p x).set a.current { a.cur with next := p }, nextId := a.nextId + 1,
        cont := Function.update a.cont p .own }
  | wait {c : Ptr} (hs : a.scheduling = false) (hown : a.cont a.current = .own) (hc : c ∈ a.tb.live)
      (hpar : (a.tb.task c).parent = some a.current) :
      Move a (.wait c) { a with cont := Function.update a.cont a.current (.wait c) }
  | enter (hs : a.scheduling = false) (hc : ∀ old, a.cont a.current ≠ .execve old) :
      Move a .enter { a with scheduling := true }
  | exit {code : U64} (hs : a.scheduling = false) (hown : a.cont a.current = .own)
      (hi : a.current ≠ a.idle ∧ a.current ≠ a.boot) :
      Move a .exit { a with
        tb := a.tb.set a.current { a.cur with exitCode := code, state := .Dead },
        zombie := if a.cur.parent = none then some a.current else a.zombie, scheduling := true }
  | reap {z prev : Ptr} (hz : a.zombie = some z) (hzc : z ≠ a.current) (hs : a.scheduling = true)
      (hzl : z ∈ a.tb.live) (hprev : prev ∈ a.tb.live) (hlink : (a.tb.task prev).next = z) :
      Move a (.reap z) { a with tb := a.drop z prev, zombie := none }
  | collect {c prev : Ptr} (hs : a.scheduling = false) (hw : a.cont a.current = .wait c)
      (hd : (a.tb.task c).state = .Dead) (hcl : c ∈ a.tb.live) (hprev : prev ∈ a.tb.live)
      (hlink : (a.tb.task prev).next = c) :
      Move a (.collect c) { a with tb := a.drop c prev, cont := Function.update a.cont a.current .own }
  | stay (hs : a.scheduling = true) (hst : a.cur.state = .Running ∨ a.current = a.idle) :
      Move a .stay { a with scheduling := false }
  | switch {q : Ptr} (hs : a.scheduling = true) (hql : q ∈ a.tb.live) (hqc : q ≠ a.current)
      (hst : (a.tb.task q).state = .Ready ∨ q = a.idle ∧ a.cur.state ≠ .Running) :
      Move a (.switch q) { a with
        tb := (a.tb.set a.current { a.cur with state := if a.cur.state = .Running then .Ready else a.cur.state }).set q
          { a.tb.task q with state := .Running },
        current := q, cpu := a.loadCpu (a.tb.task q),
        cr3 := if (a.tb.task q).cr3 = 0 then a.cr3 else (a.tb.task q).cr3, scheduling := false }

theorem Move.reap_inv {a a' : Abs} {z : Ptr} (h : Move a (.reap z) a') :
    a.zombie = some z ∧ z ≠ a.current ∧ ∃ prev, a' = { a with tb := a.drop z prev, zombie := none } := by
  cases h with
  | reap hz hzc => exact ⟨hz, hzc, _, rfl⟩

theorem Move.collect_inv {a a' : Abs} {c : Ptr} (h : Move a (.collect c) a') :
    a.cont a.current = .wait c ∧ (a.tb.task c).state = .Dead ∧ ∃ prev,
      a' = { a with tb := a.drop c prev, cont := Function.update a.cont a.current .own } := by
  cases h with
  | collect hs hw hd => exact ⟨hw, hd, _, rfl⟩

theorem Move.add_inv {a a' : Abs} {p : Ptr} (h : Move a (.add p) a') :
    p ∉ a.tb.live ∧ ∃ x : Task, x.id = a.nextId ∧
      (x.parent = none ∨ x.parent = some a.current ∧ a.cur.cr3 ≠ 0) ∧ a' = { a with
        tb := (a.tb.add p x).set a.current { a.cur with next := p }, nextId := a.nextId + 1,
        cont := Function.update a.cont p .own } := by
  cases h with
  | add hs hown hp0 hp hnext hst hid hpar => exact ⟨hp, _, hid, hpar, rfl⟩

/-- into `schedule`: the tasks, their parents and who runs stay; an exit may take the slot -/
theorem Move.sched_inv {a a' : Abs} {act : Act} (h : Move a act a') (hact : act = .enter ∨ act = .exit) :
    a'.tb.live = a.tb.live ∧ (∀ p, (a'.tb.task p).parent = (a.tb.task p).parent) ∧ a'.current = a.current ∧
      (act = .enter ∨ a.cur.parent ≠ none → a'.zombie = a.zombie) := by
  cases h with
  | enter hs hc => exact ⟨rfl, fun _ => rfl, rfl, fun _ => rfl⟩
  | exit hs hown hi =>
    refine ⟨rfl, fun p => ?_, rfl, fun hn => ?_⟩
    · show ((a.tb.set a.current _).task p).parent = _
      rw [set_task]
      split_ifs with hp
      · rw [hp]
        rfl
      · rfl
    · exact if_neg (hn.resolve_left fun he => nomatch he)
  | _ => rcases hact with he | he <;> cases he

/-! ## What the functions do -/

section Functions

variable {s s' : Sys} {t : Ptr}

/-- what `free_task` leaves of the memory system and of the dead roots -/
theorem freeTask_eq (hf : freeTask s t = some s') : t ∈ s.tb.live ∧
    ((s.tb.task t).cr3 = 0 ∧ s' = { s with tb := s.tb.free t } ∨
      (s.tb.task t).cr3 ≠ 0 ∧ s' = { s with
        tb := s.tb.free t
        m := Vmm.destroyAddressSpace (s.tb.task t).cr3 s.m
        dead := (s.tb.task t).cr3 :: s.dead }) := by
  obtain ⟨x, hx, rfl⟩ := Option.map_eq_some_iff.1 hf
  obtain ⟨hl, rfl⟩ := get_some.1 hx
  refine ⟨hl, ?_⟩
  by_cases h0 : (s.tb.task t).cr3 = 0
  · exact Or.inl ⟨h0, by simp only [h0, if_true]⟩
  · exact Or.inr ⟨h0, by simp only [if_neg h0, Sys.destroyAddressSpace]⟩

/-- `reap_zombie` frees the zombie and its address space -/
theorem startSchedule_frees {z : Ptr} (h : startSchedule s = some s') (hz : s.zombie = some z) (hzc : z ≠ s.current) :
    z ∉ s'.tb.live ∧ ((s.tb.task z).cr3 ≠ 0 →
      s'.m = Vmm.destroyAddressSpace (s.tb.task z).cr3 s.m ∧ s'.dead = (s.tb.task z).cr3 :: s.dead) := by
  obtain ⟨s1, hr, rfl⟩ := Option.map_eq_some_iff.1 h
  unfold reapZombie at hr
  simp only [hz, if_neg hzc, bind, Option.bind_eq_some_iff, pure, Option.some.injEq] at hr
  obtain ⟨s2, hu, s3, hf, rfl⟩ := hr
  unfold unlinkFromRing at hu
  simp only [bind, Option.bind_eq_some_iff, pure, Option.some.injEq] at hu
  obtain ⟨prev, -, x, -, y, hy, rfl⟩ := hu
  obtain ⟨-, rfl⟩ := get_some.1 hy
  have hcr3 : ((s.tb.set prev { s.tb.task prev with next := x.next }).task z).cr3 = (s.tb.task z).cr3 := by
    rw [set_task]
    split_ifs with hp
    · rw [hp]
    · rfl
  have hgone : ∀ {tb : Table}, z ∉ (tb.free z).live := fun {tb} hm => by simp [Table.free] at hm
  obtain ⟨-, ⟨h0, rfl⟩ | ⟨-, rfl⟩⟩ := freeTask_eq hf
  · exact ⟨hgone, fun hn => absurd (hcr3.symm.trans h0) hn⟩
  · rw [← hcr3]
    exact ⟨hgone, fun _ => ⟨rfl, rfl⟩⟩

theorem nextReadyAfter_some {tb : Table} {start u q : Ptr} {n : ℕ} (h : nextReadyAfter tb start n u = some (some q)) :
    q ∈ tb.live ∧ (tb.task q).state = .Ready ∧ q ≠ start := by
  induction n generalizing u with
  | zero => simp [nextReadyAfter] at h
  | succ n ih =>
    unfold nextReadyAfter at h
    split_ifs at h with hu
    · cases h
    · obtain ⟨x, hx, h⟩ := Option.bind_eq_some_iff.1 h
      split_ifs at h with hr
      · cases h
        obtain ⟨hl, rfl⟩ := get_some.1 hx
        exact ⟨hl, hr, hu⟩
      · exact ih h

/-- what `schedule` picks: another task that is ready, the running one, or idle -/
theorem pick_spec {q : Ptr} (h : pick s = some q) : (q ∈ s.tb.live ∧ (s.tb.task q).state = .Ready ∧ q ≠ s.current) ∨
    (q = s.current ∧ (s.tb.task q).state = .Running) ∨ (q = s.idle ∧ (s.tb.task s.current).state ≠ .Running) := by
  unfold pick at h
  simp only [bind, Option.bind_eq_some_iff, pure, Option.some.injEq] at h
  obtain ⟨old, hold, next, hnext, rfl⟩ := h
  obtain ⟨-, rfl⟩ := get_some.1 hold
  cases next with
  | some q => exact Or.inl (nextReadyAfter_some hnext)
  | none =>
    simp only [Option.getD_none]
    split_ifs with hr
    · exact Or.inr (Or.inl ⟨rfl, hr⟩)
    · exact Or.inr (Or.inr ⟨rfl, hr⟩)

theorem tick_rest : (tick s).tb = s.tb ∧ (tick s).current = s.current ∧ (tick s).cont = s.cont ∧
    (tick s).zombie = s.zombie ∧ (tick s).scheduling = s.scheduling ∧ (tick s).m = s.m ∧ (tick s).dead = s.dead := by
  unfold tick
  split_ifs <;> exact ⟨rfl, rfl, rfl, rfl, rfl, rfl, rfl⟩

theorem not_scheduling {e : Event} {c : Cont} {b : Bool} (h : e.atCont c b = true) (he : e ≠ .switch) : b = false := by
  cases b with
  | false => rfl
  | true => cases e <;> simp [Event.atCont] at h he

/-- the loop of `unlink_from_ring` stops at the task before t -/
theorem prevOf_some {tb : Table} {u prev : Ptr} {n : ℕ} (h : prevOf tb t n u = some prev) :
    prev ∈ tb.live ∧ (tb.task prev).next = t := by
  induction n generalizing u with
  | zero => simp [prevOf] at h
  | succ n ih =>
    unfold prevOf at h
    obtain ⟨x, hx, h⟩ := Option.bind_eq_some_iff.1 h
    obtain ⟨hl, rfl⟩ := get_some.1 hx
    split_ifs at h with hn
    · cases h
      exact ⟨hl, hn⟩
    · exact ih h

theorem destroy_abs (a : U64) : (s.destroyAddressSpace a).abs = s.abs := by
  simp only [Sys.abs, Sys.destroyAddressSpace, (destroyAddressSpace_regs a s.m).1]

theorem create_abs {a : U64} (h : s.createAddressSpace = some (a, s')) : s'.abs = s.abs := by
  obtain ⟨⟨b, m⟩, hm, heq⟩ := Option.map_eq_some_iff.1 h
  cases heq
  simp only [Sys.abs, (createAddressSpace_regs hm).1]

theorem forkSpace_abs {a : U64} (h : forkSpace s = some (a, s')) : s'.abs = s.abs := by
  unfold forkSpace at h
  simp only [bind, Option.bind_eq_some_iff, pure, Option.some.injEq, Prod.mk.injEq] at h
  obtain ⟨parent, -, ⟨b, s1⟩, hc, m, hm, -, rfl⟩ := h
  have h1 := create_abs hc
  rw [← h1]
  simp only [Sys.abs, (cloneAddressSpace_regs hm).1]

theorem edit_abs {e : Edit} {m : Machine} (h : e.apply s.m = some m) : { s with m := m }.abs = s.abs := by
  have hr : Regs s.m m := by
    cases e with
    | map v fl =>
      simp only [Edit.apply] at h
      split_ifs at h
      obtain ⟨⟨a, m1⟩, hm, rfl⟩ := Option.map_eq_some_iff.1 h
      exact mapFresh_regs hm
    | write v g =>
      simp only [Edit.apply] at h
      split_ifs at h
      obtain ⟨x, -, rfl⟩ := Option.map_eq_some_iff.1 h
      exact ⟨rfl, rfl⟩
    | protect v fl =>
      simp only [Edit.apply] at h
      split_ifs at h
      exact protect_regs h
    | unmap v =>
      simp only [Edit.apply] at h
      split_ifs at h
      exact unmapAndFree_regs h
  simp only [Sys.abs, hr.1]

/-- unlinked and freed -/
theorem drop_abs {s1 s2 : Sys} (hu : unlinkFromRing s t = some s1) (hf : freeTask s1 t = some s2) :
    t ∈ s.tb.live ∧ ∃ prev ∈ s.tb.live, (s.tb.task prev).next = t ∧ s2.abs = { s.abs with tb := s.abs.drop t prev } := by
  unfold unlinkFromRing at hu
  simp only [bind, Option.bind_eq_some_iff, pure, Option.some.injEq] at hu
  obtain ⟨prev, hp, x, hx, y, hy, rfl⟩ := hu
  obtain ⟨hpl, hlink⟩ := prevOf_some hp
  obtain ⟨htl, rfl⟩ := get_some.1 hx
  obtain ⟨-, rfl⟩ := get_some.1 hy
  refine ⟨htl, prev, hpl, hlink, ?_⟩
  obtain ⟨-, ⟨-, rfl⟩ | ⟨-, rfl⟩⟩ := freeTask_eq hf
  · rfl
  · simp only [Sys.abs, Sys.setTask, (destroyAddressSpace_regs _ s.m).1, Abs.drop]

theorem startSchedule_shape (h : startSchedule s = some s') :
    (s'.abs = { s.abs with scheduling := true } ∧ (s.zombie = none ∨ s.zombie = some s.current)) ∨
      ∃ z, Move { s.abs with scheduling := true } (.reap z) s'.abs := by
  obtain ⟨s1, hr, rfl⟩ := Option.map_eq_some_iff.1 h
  unfold reapZombie at hr
  cases hz : s.zombie with
  | none =>
    simp only [hz, Option.some.injEq] at hr
    subst hr
    exact Or.inl ⟨rfl, Or.inl rfl⟩
  | some z =>
    simp only [hz] at hr
    split_ifs at hr with hzc
    · cases hr
      exact Or.inl ⟨rfl, Or.inr (by rw [hzc])⟩
    · simp only [bind, Option.bind_eq_some_iff, pure, Option.some.injEq] at hr
      obtain ⟨s2, hu, s3, hf, rfl⟩ := hr
      obtain ⟨hzl, prev, hpl, hlink, habs⟩ := drop_abs hu hf
      have heq : { s3 with zombie := none, scheduling := true }.abs =
          { { s.abs with scheduling := true } with tb := s.abs.drop z prev, zombie := none } := by
        have h3 : { s3 with zombie := none, scheduling := true }.abs =
          { s3.abs with zombie := none, scheduling := true } := rfl
        rw [h3, habs]
      refine Or.inr ⟨z, ?_⟩
      rw [heq]
      exact Move.reap hz hzc rfl hzl hpl hlink

end Functions

/-! ## Setup -/

section Setup

variable {boot idle p : Ptr} {top : U64} {m : Machine} {cpu : Cpu}

/-- the tasks `sched::init` makes -/
theorem init_boot (hne : boot ≠ idle) :
    (init boot idle top m cpu).tb.task boot = { create 0 0 0 with state := .Running, next := idle } := by
  show Function.update (Function.update _ boot _) idle _ boot = _
  rw [Function.update_of_ne hne, Function.update_self]

theorem init_idle : (init boot idle top m cpu).tb.task idle = { create 1 top 0 with next := boot } :=
  Function.update_self ..

theorem init_live (hp : p ∈ (init boot idle top m cpu).tb.live) : p = idle ∨ p = boot := by
  have hp' : p ∈ [idle, boot] := hp
  simpa using hp'

/-- neither has an address space or a parent -/
theorem init_kernel (hne : boot ≠ idle) (hp : p ∈ (init boot idle top m cpu).tb.live) :
    ((init boot idle top m cpu).tb.task p).cr3 = 0 ∧ ((init boot idle top m cpu).tb.task p).parent = none := by
  rcases init_live hp with rfl | rfl
  · rw [init_idle]
    exact ⟨rfl, rfl⟩
  · rw [init_boot hne]
    exact ⟨rfl, rfl⟩

end Setup

/-! ## Events as moves -/

/-- the events that go through `schedule` without an exit -/
def Enters (s : Sys) (e : Event) : Prop :=
  e = .yield ∨ e = .timer ∧ (tick s).needResched = true ∨
    e = .wait4Again ∧ ∃ c, s.cont s.current = .wait c ∧ (s.tb.task c).state ≠ .Dead

/-- the events that may free a task -/
def Reaps (s : Sys) (e : Event) : Prop := Enters s e ∨ (∃ code, e = .exit code) ∨ e = .wait4Again

/-- the new task of an event, and its parent -/
def Event.adds (s : Sys) : Event → Option (Ptr × Option Ptr)
  | .spawn p _ | .spawnFromElf p _ => some (p, none)
  | .fork p _ => some (p, some s.current)
  | _ => none

/-- moves that neither make nor free a task nor enter `schedule` -/
def Act.plain : Act → Bool
  | .add _ | .enter | .exit | .reap _ | .collect _ => false
  | _ => true

/-- what an event is made of -/
inductive Shape (s : Sys) (e : Event) (s' : Sys) : Prop where
  | quiet (hr : ¬ Reaps s e) (ha : e.adds s = none) (h : s'.abs = s.abs)
  | one {act : Act} (hr : ¬ Reaps s e) (ha : e.adds s = none) (hact : act.plain = true) (h : Move s.abs act s'.abs)
  | add {p : Ptr} {par : Option Ptr} (hr : ¬ Reaps s e) (ha : e.adds s = some (p, par)) (h : Move s.abs (.add p) s'.abs)
      (hpar : (s'.tb.task p).parent = par)
  | collect {c : Ptr} (he : e = .wait4Again) (h : Move s.abs (.collect c) s'.abs)
  | sched {act : Act} {a : Abs} (hact : act = .enter ∧ Enters s e ∨ act = .exit ∧ ∃ code, e = .exit code)
      (h : Move s.abs act a)
      (h' : (s'.abs = a ∧ (a.zombie = none ∨ a.zombie = some a.current)) ∨ ∃ z, Move a (.reap z) s'.abs)

section Shapes

variable {s s' : Sys} {e : Event} {p : Ptr} {top : U64}

theorem add_set_set (tb : Table) {c : Ptr} (x x' t : Task) (h : c ≠ p) :
    ((tb.add p x).set c t).set p x' = (tb.add p x').set c t := by
  simp only [Table.add, Table.set, Function.update_comm h, Function.update_idem]

/-- the running task's record and nothing else -/
theorem touch_move {t : Task} {fs cr3 : U64} {c : Cont} (hs : s.scheduling = false)
    (hkeep : t.next = (s.tb.task s.current).next ∧ t.state = (s.tb.task s.current).state ∧
      t.parent = (s.tb.task s.current).parent ∧ t.id = (s.tb.task s.current).id ∧
      t.kernelStackTop = (s.tb.task s.current).kernelStackTop)
    (hfs : t.fsBase = (s.tb.task s.current).fsBase ∧ fs = s.cpu.fsBase ∨ fs = t.fsBase)
    (hcr3 : t.cr3 = (s.tb.task s.current).cr3 ∧ cr3 = s.m.cr3 ∨ (s.tb.task s.current).cr3 ≠ 0 ∧ cr3 = t.cr3)
    (hc : c = s.cont s.current ∨ c = .own ∨ ∃ old, c = .execve old)
    (h : s'.abs = { s.abs with
      tb := s.tb.set s.current t, cpu := { s.cpu with fsBase := fs }, cr3 := cr3,
      cont := Function.update s.cont s.current c }) : Move s.abs .touch s'.abs := by
  rw [h]
  exact Move.touch (a := s.abs) hs hkeep hfs hcr3 hc

theorem spawn_move {cr3 : U64} (hs : s.scheduling = false) (hown : s.cont s.current = .own) (hp0 : p ≠ 0)
    (hp : p ∉ s.tb.live) (h : spawn s p top cr3 = some s') : Move s.abs (.add p) s'.abs := by
  obtain ⟨c, hc, rfl⟩ := Option.map_eq_some_iff.1 h
  obtain ⟨-, rfl⟩ := get_some.1 hc
  exact Move.add (a := s.abs) (x := { create s.nextId top cr3 with next := (s.tb.task s.current).next }) hs hown hp0 hp
    rfl rfl rfl (Or.inl rfl)

theorem sysFork_move (hs : s.scheduling = false) (hown : s.cont s.current = .own) (hc0 : (s.tb.task s.current).cr3 ≠ 0)
    (hp0 : p ≠ 0) (hp : p ∉ s.tb.live) (h : sysFork s p top = some s') : Move s.abs (.add p) s'.abs := by
  unfold sysFork at h
  simp only [bind, Option.bind_eq_some_iff, pure, Option.some.injEq] at h
  obtain ⟨parent, hpa, ⟨a, s1⟩, hf, s2, hsp, child, hch, rfl⟩ := h
  obtain ⟨hcl, rfl⟩ := get_some.1 hpa
  obtain ⟨-, rfl⟩ := get_some.1 hch
  have habs := forkSpace_abs hf
  obtain ⟨htb, hcu, hid, hco⟩ : s1.tb = s.tb ∧ s1.current = s.current ∧ s1.nextId = s.nextId ∧ s1.cont = s.cont :=
    ⟨congrArg Abs.tb habs, congrArg Abs.current habs, congrArg Abs.nextId habs, congrArg Abs.cont habs⟩
  have hpc : s.current ≠ p := by rintro he; exact hp (he ▸ hcl)
  obtain ⟨c, hc, hs2⟩ := Option.map_eq_some_iff.1 hsp
  obtain ⟨-, rfl⟩ := get_some.1 hc
  -- the tasks as spawn leaves them; fork then fills in the child
  have hchild : s2.tb.task p = { create s.nextId top a with next := (s.tb.task s.current).next } := by
    rw [← hs2, ← hid, ← htb, ← hcu]
    show ((Table.set _ s1.current _).task p) = _
    rw [set_task, if_neg (by rw [hcu]; exact hpc.symm), add_self]
  have hfin : ∀ t, (s2.setTask p t).abs = { s1.abs with
      tb := (s1.tb.add p t).set s1.current { s1.tb.task s1.current with next := p }
      nextId := s1.nextId + 1, cont := Function.update s1.cont p .own } := by
    intro t
    have hne : s1.current ≠ p := by rw [hcu]; exact hpc
    rw [← add_set_set s1.tb { create s1.nextId top a with next := (s1.tb.task s1.current).next } t
      { s1.tb.task s1.current with next := p } hne, ← hs2]
    rfl
  have hcur2 : s2.current = s.current := by rw [← hs2]; exact hcu
  rw [hfin, habs, htb, hcu, hid, hco, hchild, hcur2]
  exact Move.add (a := s.abs) hs hown hp0 hp rfl rfl rfl (Or.inr ⟨rfl, hc0⟩)

theorem spawn_parent {cr3 : U64} (hl : s.current ∈ s.tb.live) (hp : p ∉ s.tb.live) (h : spawn s p top cr3 = some s') :
    (s'.tb.task p).parent = none := by
  obtain ⟨c, -, rfl⟩ := Option.map_eq_some_iff.1 h
  have hpc : p ≠ s.current := by rintro rfl; exact hp hl
  show ((Table.set _ s.current _).task p).parent = none
  rw [set_task, if_neg hpc, add_self]
  rfl

theorem sysFork_parent (h : sysFork s p top = some s') : (s'.tb.task p).parent = some s.current := by
  unfold sysFork at h
  simp only [bind, Option.bind_eq_some_iff, pure, Option.some.injEq] at h
  obtain ⟨parent, -, ⟨a, s1⟩, hf, s2, hsp, child, -, rfl⟩ := h
  obtain ⟨c, -, rfl⟩ := Option.map_eq_some_iff.1 hsp
  have hcu : s1.current = s.current := congrArg Abs.current (forkSpace_abs hf)
  show ((Table.set _ p _).task p).parent = _
  rw [set_task, if_pos rfl, ← hcu]

/-- what `schedule` does with the task it picks -/
theorem finishSchedule_pick (hs : s.scheduling = true) (h : finishSchedule s = some s') : ∃ q, pick s = some q ∧
    (q = s.current ∧ Move s.abs .stay s'.abs ∨ q ≠ s.current ∧ Move s.abs (.switch q) s'.abs) := by
  unfold finishSchedule at h
  simp only [bind, Option.bind_eq_some_iff] at h
  obtain ⟨q, hq, h⟩ := h
  refine ⟨q, hq, ?_⟩
  have hpick := pick_spec hq
  split_ifs at h with hqc
  · cases h
    refine Or.inl ⟨hqc, Move.stay (a := s.abs) hs ?_⟩
    have hqc' : q = s.current := hqc
    rw [hqc'] at hpick
    rcases hpick with ⟨-, -, hne⟩ | ⟨-, hr⟩ | ⟨hi, -⟩
    · exact absurd rfl hne
    · exact Or.inl hr
    · exact Or.inr hi
  · refine Or.inr ⟨hqc, ?_⟩
    unfold switchTo at h
    simp only [bind, Option.bind_eq_some_iff, pure, Option.some.injEq] at h
    obtain ⟨old, hold, x, hx, rfl⟩ := h
    obtain ⟨-, rfl⟩ := get_some.1 hold
    obtain ⟨hql, rfl⟩ := get_some.1 hx
    have hqc' : q ≠ s.current := hqc
    have hx : ∀ t, (s.tb.set s.current t).task q = s.tb.task q := fun t => by rw [set_task, if_neg hqc']
    have hmove := Move.switch (a := s.abs) (q := q) hs hql hqc' (by
      rcases hpick with ⟨-, hr, -⟩ | ⟨he, -⟩ | ⟨hi, hn⟩
      · exact Or.inl hr
      · exact absurd he hqc'
      · exact Or.inr ⟨hi, hn⟩)
    simp only [Sys.setTask, hx]
    have hcr3 : ∀ b : U64, (if b = 0 then s.m else { s.m with cr3 := b }).cr3 = if b = 0 then s.m.cr3 else b := by
      intro b
      split_ifs <;> rfl
    simp only [Sys.abs, hcr3]
    exact hmove

/-- what `schedule` does after `reap_zombie` -/
theorem finishSchedule_move (hs : s.scheduling = true) (h : finishSchedule s = some s') :
    Move s.abs .stay s'.abs ∨ ∃ q, Move s.abs (.switch q) s'.abs := by
  obtain ⟨q, -, ⟨-, hm⟩ | ⟨-, hm⟩⟩ := finishSchedule_pick hs h
  · exact Or.inl hm
  · exact Or.inr ⟨q, hm⟩

theorem own_of_at (h : (!s.scheduling && s.cont s.current == .own) = true) :
    s.scheduling = false ∧ s.cont s.current = .own := by simpa using h

theorem execve_of_at
    (h : (!s.scheduling && (match s.cont s.current with | .execve _ => true | _ => false)) = true) :
    ∃ old, s.cont s.current = .execve old := by
  cases hc : s.cont s.current with
  | execve old => exact ⟨old, rfl⟩
  | own => simp [hc] at h
  | wait c => simp [hc] at h

theorem setCont_self : Function.update s.cont s.current (s.cont s.current) = s.cont := Function.update_eq_self _ _

/-- into execve -/
theorem execveStart_move (hs : s.scheduling = false) (hc0 : (s.tb.task s.current).cr3 ≠ 0)
    (h : execveStart s = some s') : Move s.abs .touch s'.abs := by
  unfold execveStart at h
  simp only [bind, Option.bind_eq_some_iff, pure, Option.some.injEq] at h
  obtain ⟨self, hself, ⟨a, s1⟩, hcr, rfl⟩ := h
  obtain ⟨-, rfl⟩ := get_some.1 hself
  have habs := create_abs hcr
  refine touch_move (t := { s.tb.task s.current with cr3 := a }) (c := .execve (s.tb.task s.current).cr3) hs
    ⟨rfl, rfl, rfl, rfl, rfl⟩ (Or.inl ⟨rfl, rfl⟩) (Or.inr ⟨hc0, rfl⟩) (Or.inr (Or.inr ⟨_, rfl⟩)) ?_
  have hfin : ∀ t c, (((s1.setTask s1.current t).loadCr3 a).setCont c).abs = { s1.abs with
      tb := s1.tb.set s1.current t, cr3 := a, cont := Function.update s1.cont s1.current c } := fun _ _ => rfl
  rw [hfin, habs, show s1.tb = s.tb from congrArg Abs.tb habs, show s1.cont = s.cont from congrArg Abs.cont habs,
    show s1.current = s.current from congrArg Abs.current habs]
  rfl

theorem setCont_abs (c : Cont) : (s.setCont c).abs = { s.abs with cont := Function.update s.cont s.current c } := rfl

/-- back out of execve, on the old space -/
theorem execveFail_move {image : Option (U64 × U64)} (hs : s.scheduling = false)
    (hc0 : (s.tb.task s.current).cr3 ≠ 0) (h : execveFail s image = some s') : Move s.abs .touch s'.abs := by
  unfold execveFail at h
  split at h
  case h_2 => cases h
  case h_1 old hold =>
  simp only [bind, Option.bind_eq_some_iff, pure, Option.some.injEq] at h
  obtain ⟨self, hself, rfl⟩ := h
  obtain ⟨-, rfl⟩ := get_some.1 hself
  have himage : (withImage (s.tb.task s.current) image).next = (s.tb.task s.current).next ∧
      (withImage (s.tb.task s.current) image).state = (s.tb.task s.current).state ∧
      (withImage (s.tb.task s.current) image).parent = (s.tb.task s.current).parent ∧
      (withImage (s.tb.task s.current) image).id = (s.tb.task s.current).id ∧
      (withImage (s.tb.task s.current) image).kernelStackTop = (s.tb.task s.current).kernelStackTop ∧
      (withImage (s.tb.task s.current) image).fsBase = (s.tb.task s.current).fsBase := by
    cases image with
    | none => exact ⟨rfl, rfl, rfl, rfl, rfl, rfl⟩
    | some x => exact ⟨rfl, rfl, rfl, rfl, rfl, rfl⟩
  obtain ⟨h1, h2, h3, h4, h5, h6⟩ := himage
  refine touch_move (t := { withImage (s.tb.task s.current) image with cr3 := old }) (c := .own) hs ⟨h1, h2, h3, h4, h5⟩
    (Or.inl ⟨h6, rfl⟩) (Or.inr ⟨hc0, rfl⟩) (Or.inr (Or.inl rfl)) ?_
  rw [setCont_abs, destroy_abs]
  rfl

/-- execve done -/
theorem execveCommit_move {highest base : U64} (hs : s.scheduling = false) (h : execveCommit s highest base = some s') :
    Move s.abs .touch s'.abs := by
  unfold execveCommit at h
  split at h
  case h_2 => cases h
  case h_1 old hold =>
  simp only [bind, Option.bind_eq_some_iff, pure, Option.some.injEq] at h
  obtain ⟨self, hself, rfl⟩ := h
  obtain ⟨-, rfl⟩ := get_some.1 hself
  refine touch_move (t := setImage (s.tb.task s.current) highest base) (c := .own) hs ⟨rfl, rfl, rfl, rfl, rfl⟩
    (Or.inl ⟨rfl, rfl⟩) (Or.inl ⟨rfl, rfl⟩) (Or.inr (Or.inl rfl)) ?_
  split_ifs with h0
  · rfl
  · rw [setCont_abs, destroy_abs]
    rfl

/-- **Every event is at most two moves.** -/
theorem step_shape (h : step s e = some s') : Shape s e s' := by
  obtain ⟨self, hself, h⟩ := Option.bind_eq_some_iff.1 h
  obtain ⟨hl, rfl⟩ := get_some.1 hself
  split_ifs at h with hen
  rw [Bool.and_eq_true] at hen
  obtain ⟨hal, hat⟩ := hen
  -- out of execve
  have hout : s.cont s.current = .own → ∀ old, s.cont s.current ≠ .execve old := by
    intro hc old
    rw [hc]
    exact Cont.noConfusion
  -- into `schedule` from a state that differs only in the clock
  have hsched : ∀ {s1 : Sys}, s1.abs = s.abs → Enters s e → s.scheduling = false →
      (∀ old, s.cont s.current ≠ .execve old) → startSchedule s1 = some s' → Shape s e s' := by
    intro s1 habs hent hs hc hst
    refine Shape.sched (Or.inl ⟨rfl, hent⟩) (Move.enter (a := s.abs) hs hc) ?_
    have hshape := startSchedule_shape hst
    rw [habs] at hshape
    rcases hshape with ⟨h1, h2⟩ | ⟨z, hz⟩
    · refine Or.inl ⟨h1, ?_⟩
      have hz : s1.zombie = s.zombie := congrArg Abs.zombie habs
      have hc : s1.current = s.current := congrArg Abs.current habs
      rw [hz, hc] at h2
      exact h2
    · exact Or.inr ⟨z, hz⟩
  -- most events free nothing
  have hplain : (match e with | .yield | .timer | .exit _ | .wait4Again => false | _ => true) = true → ¬ Reaps s e := by
    rintro hp ((rfl | ⟨rfl, -⟩ | ⟨rfl, -⟩) | ⟨code, rfl⟩ | rfl) <;> cases hp
  cases e with
  | spawn p top =>
    obtain ⟨hs, hc⟩ := own_of_at hat
    obtain ⟨hp0, hp⟩ : p ≠ 0 ∧ p ∉ s.tb.live := by simpa [Event.allowed] using hal
    exact Shape.add (hplain rfl) rfl (spawn_move hs hc hp0 hp h) (spawn_parent hl hp h)
  | spawnFromElf p top =>
    obtain ⟨hs, hc⟩ := own_of_at hat
    obtain ⟨hp0, hp⟩ : p ≠ 0 ∧ p ∉ s.tb.live := by simpa [Event.allowed] using hal
    obtain ⟨⟨a, s1⟩, hcr, hsp⟩ := Option.bind_eq_some_iff.1 h
    have habs := create_abs hcr
    have htb : s1.tb = s.tb := congrArg Abs.tb habs
    have hsc : s1.scheduling = s.scheduling := congrArg Abs.scheduling habs
    have hco : s1.cont s1.current = s.cont s.current := by
      rw [show s1.cont = s.cont from congrArg Abs.cont habs, show s1.current = s.current from congrArg Abs.current habs]
    have hmove := spawn_move (hsc.trans hs) (hco.trans hc) hp0 (by rw [htb]; exact hp) hsp
    rw [habs] at hmove
    have hl1 : s1.current ∈ s1.tb.live := by
      rw [htb, show s1.current = s.current from congrArg Abs.current habs]
      exact hl
    exact Shape.add (hplain rfl) rfl hmove (spawn_parent hl1 (by rw [htb]; exact hp) hsp)
  | fork p top =>
    obtain ⟨hs, hc⟩ := own_of_at hat
    obtain ⟨hc0, hp0, hp⟩ : (s.tb.task s.current).cr3 ≠ 0 ∧ p ≠ 0 ∧ p ∉ s.tb.live := by simpa [Event.allowed] using hal
    exact Shape.add (hplain rfl) rfl (sysFork_move hs hc hc0 hp0 hp h) (sysFork_parent h)
  | forkFail =>
    obtain ⟨⟨a, s1⟩, hf, rfl⟩ := Option.map_eq_some_iff.1 h
    exact Shape.quiet (hplain rfl) rfl ((destroy_abs a).trans (forkSpace_abs hf))
  | execve =>
    obtain ⟨hs, hc⟩ := own_of_at hat
    have hc0 : (s.tb.task s.current).cr3 ≠ 0 := by simpa [Event.allowed] using hal
    exact Shape.one (hplain rfl) rfl rfl (execveStart_move hs hc0 h)
  | execveFail image =>
    exact Shape.one (hplain rfl) rfl rfl (execveFail_move (not_scheduling hat (by simp)) (by simpa [Event.allowed] using hal) h)
  | execveCommit highest base => exact Shape.one (hplain rfl) rfl rfl (execveCommit_move (not_scheduling hat (by simp)) h)
  | exit code =>
    obtain ⟨hs, hc⟩ := own_of_at hat
    have hi : s.current ≠ s.idle ∧ s.current ≠ s.boot := by simpa [Event.allowed] using hal
    unfold run exitCurrent at h
    simp only [bind, Option.bind_eq_some_iff] at h
    obtain ⟨c, hcg, h⟩ := h
    obtain ⟨-, rfl⟩ := get_some.1 hcg
    refine Shape.sched (Or.inr ⟨rfl, code, rfl⟩) (@Move.exit s.abs code hs hc hi) ?_
    rcases startSchedule_shape h with ⟨h1, h2⟩ | ⟨z, hz⟩
    · exact Or.inl ⟨h1, h2⟩
    · exact Or.inr ⟨z, hz⟩
  | wait4 pid =>
    obtain ⟨hs, hc⟩ := own_of_at hat
    unfold run wait4Start at h
    simp only [bind, Option.bind_eq_some_iff] at h
    obtain ⟨child, -, h⟩ := h
    cases child with
    | none =>
      cases h
      exact Shape.quiet (hplain rfl) rfl rfl
    | some child =>
      obtain ⟨x, hx, h⟩ := Option.bind_eq_some_iff.1 h
      obtain ⟨hcl, rfl⟩ := get_some.1 hx
      split_ifs at h with hpar
      · cases h
        exact Shape.one (hplain rfl) rfl rfl (Move.wait (a := s.abs) hs hc hcl hpar)
      · cases h
        exact Shape.quiet (hplain rfl) rfl rfl
  | wait4Again =>
    have hs := not_scheduling hat (by simp)
    have h : Sched.wait4Again s = some s' := h
    unfold Sched.wait4Again at h
    split at h
    case h_2 => cases h
    case h_1 child hw =>
    simp only [bind, Option.bind_eq_some_iff] at h
    obtain ⟨x, hx, h⟩ := h
    obtain ⟨hcl, rfl⟩ := get_some.1 hx
    split_ifs at h with hd
    · simp only [Option.bind_eq_some_iff, pure, Option.some.injEq] at h
      obtain ⟨s1, hu, s2, hf, rfl⟩ := h
      obtain ⟨-, prev, hpl, hlink, habs⟩ := drop_abs hu hf
      refine Shape.collect (c := child) rfl ?_
      rw [setCont_abs, habs, show s2.cont = s.cont from congrArg Abs.cont habs,
        show s2.current = s.current from congrArg Abs.current habs]
      exact Move.collect (a := s.abs) hs hw hd hcl hpl hlink
    · refine hsched rfl (Or.inr (Or.inr ⟨rfl, child, hw, hd⟩)) hs ?_ h
      intro old
      rw [hw]
      exact Cont.noConfusion
  | yield =>
    obtain ⟨hs, hc⟩ := own_of_at hat
    exact hsched rfl (Or.inl rfl) hs (hout hc) h
  | timer =>
    obtain ⟨hs, hc⟩ := own_of_at hat
    obtain ⟨h1, h2, h3, h4, h5, h6, -⟩ := tick_rest (s := s)
    have htick : (tick s).abs = s.abs := by
      unfold tick
      split_ifs <;> rfl
    have h' : (if (tick s).needResched then startSchedule (tick s) else some (tick s)) = some s' := h
    split_ifs at h' with hn
    · exact hsched htick (Or.inr (Or.inl ⟨rfl, hn⟩)) hs (hout hc) h'
    · cases h'
      refine Shape.quiet ?_ rfl htick
      rintro ((he | ⟨-, hr⟩ | ⟨he, -⟩) | ⟨code, he⟩ | he)
      · cases he
      · exact hn hr
      · cases he
      · cases he
      · cases he
  | switch =>
    rcases finishSchedule_move hat h with hm | ⟨q, hm⟩
    · exact Shape.one (hplain rfl) rfl rfl hm
    · exact Shape.one (hplain rfl) rfl rfl hm
  | archSetFs addr =>
    have hs := not_scheduling hat (by simp)
    obtain ⟨c, hc, rfl⟩ := Option.map_eq_some_iff.1 h
    obtain ⟨-, rfl⟩ := get_some.1 hc
    refine Shape.one (hplain rfl) rfl rfl (touch_move (t := { s.tb.task s.current with fsBase := addr }) (c := s.cont s.current) hs
      ⟨rfl, rfl, rfl, rfl, rfl⟩ (Or.inr rfl) (Or.inl ⟨rfl, rfl⟩) (Or.inl rfl) ?_)
    rw [setCont_self]
    rfl
  | setLayout b c n =>
    have hs := not_scheduling hat (by simp)
    cases h
    refine Shape.one (hplain rfl) rfl rfl (touch_move (t := { s.tb.task s.current with brkStart := b, brkCur := c, mmapNext := n })
      (c := s.cont s.current) hs ⟨rfl, rfl, rfl, rfl, rfl⟩ (Or.inl ⟨rfl, rfl⟩) (Or.inl ⟨rfl, rfl⟩) (Or.inl rfl) ?_)
    rw [setCont_self]
    rfl
  | edit e =>
    obtain ⟨m, he, rfl⟩ := Option.map_eq_some_iff.1 h
    exact Shape.quiet (hplain rfl) rfl (edit_abs he)

end Shapes

end Retux.Sched
