/-
Which tasks are alive after a step, and what their descriptor tables hold.

A task comes to life by a spawn or a fork and dies by its exit. Its table is empty at first, or a copy of its parent's;
the scheduler never writes to it again.

- `alive_of_step`: nothing revives a task;
- `step_fds`: every table after a step.
-/
import Mathlib.Tactic
import Retux.Task.Queue

namespace Retux.Sched

open Retux.Word

/-! ## Tasks stay alive -/

section Alive

variable {a a' : Abs} {l : List Ptr} {p : Ptr} {s s' : Sys} {e : Event}

/-- an exit kills, and nothing revives -/
theorem alive_of_move {act : Act} (hm : Move a act a') (hq : Queue a l) (hadd : act ≠ .add p) (hp : p ∈ a'.tb.live)
    (hd : (a'.tb.task p).state ≠ .Dead) : p ∈ a.tb.live ∧ (a.tb.task p).state ≠ .Dead := by
  cases hm with
  | touch hs hkeep => exact ⟨hp, by rwa [set_keep Task.state hkeep.2.1] at hd⟩
  | @add q x hs hown hp0 hn =>
    have hpq : p ≠ q := by
      rintro rfl
      exact hadd rfl
    have hpl : p ∈ a.tb.live := (List.mem_cons.1 hp).resolve_left hpq
    exact ⟨hpl, by rwa [add_old Task.state (fun _ _ => rfl) hn hpl] at hd⟩
  | wait => exact ⟨hp, hd⟩
  | enter => exact ⟨hp, hd⟩
  | exit =>
    by_cases hpc : p = a.current
    · rw [hpc, set_self] at hd
      exact absurd rfl hd
    · exact ⟨hp, by rwa [set_other hpc] at hd⟩
  | reap => exact ⟨(mem_drop.1 hp).1, by rwa [drop_keep Task.state fun _ _ => rfl] at hd⟩
  | collect => exact ⟨(mem_drop.1 hp).1, by rwa [drop_keep Task.state fun _ _ => rfl] at hd⟩
  | stay => exact ⟨hp, hd⟩
  | @switch q hs hql hqc hst =>
    have hqd : (a.tb.task q).state ≠ .Dead := by
      rcases hst with hr | ⟨rfl, -⟩
      · rw [hr]
        exact State.noConfusion
      · exact hq.idle.2
    exact ⟨hp, fun h => hd ((switch_dead hqd).2 h)⟩

theorem alive_of_step (hq : Queue s.abs l) (hs : step s e = some s') (hadd : ∀ par, e.adds s ≠ some (p, par))
    (hp : p ∈ s'.tb.live) (hd : (s'.tb.task p).state ≠ .Dead) : p ∈ s.tb.live ∧ (s.tb.task p).state ≠ .Dead := by
  cases step_shape hs with
  | quiet hr ha heq =>
    have htb : s'.tb = s.tb := congrArg Abs.tb heq
    rw [htb] at hp hd
    exact ⟨hp, hd⟩
  | one hr ha hact hm => exact alive_of_move hm hq (by rintro rfl; cases hact) hp hd
  | @add q par hr ha hm hpar =>
    refine alive_of_move hm hq ?_ hp hd
    intro he
    cases he
    exact hadd par ha
  | collect he hm => exact alive_of_move hm hq Act.noConfusion hp hd
  | @sched act a1 hact hm hrest =>
    have hna : act ≠ .add p := by
      rintro rfl
      rcases hact with ⟨he, -⟩ | ⟨he, -⟩ <;> cases he
    rcases hrest with ⟨heq, -⟩ | ⟨z, hm'⟩
    · have htb : s'.tb = a1.tb := congrArg Abs.tb heq
      rw [htb] at hp hd
      exact alive_of_move hm hq hna hp hd
    · obtain ⟨l1, hq1⟩ := hm.queue hq
      obtain ⟨h1, h2⟩ := alive_of_move hm' hq1 Act.noConfusion hp hd
      exact alive_of_move hm hq hna h1 h2

theorem exit_dead {code : U64} (hs : step s (.exit code) = some s') : (s'.tb.task s.current).state = .Dead := by
  cases step_shape hs with
  | quiet hr => exact absurd (Or.inr (Or.inl ⟨code, rfl⟩)) hr
  | one hr => exact absurd (Or.inr (Or.inl ⟨code, rfl⟩)) hr
  | add hr => exact absurd (Or.inr (Or.inl ⟨code, rfl⟩)) hr
  | collect he => cases he
  | @sched act a1 hact hm hrest =>
    have hdead : (a1.tb.task s.current).state = .Dead := by
      rcases hact with ⟨-, (he | ⟨he, -⟩ | ⟨he, -⟩)⟩ | ⟨rfl, -⟩
      · cases he
      · cases he
      · cases he
      · cases hm with
        | exit => exact congrArg Task.state set_self
    rcases hrest with ⟨heq, -⟩ | ⟨z, hm'⟩
    · have htb : s'.tb = a1.tb := congrArg Abs.tb heq
      rw [htb]
      exact hdead
    · obtain ⟨-, -, prev, heq⟩ := hm'.reap_inv
      have htb : s'.tb = a1.drop z prev := congrArg Abs.tb heq
      rw [htb, drop_keep Task.state fun _ _ => rfl]
      exact hdead

end Alive

/-! ## Descriptor tables -/

/-- the table of q after the event -/
def Event.table (s : Sys) : Event → Ptr → Fin MAX_FDS → Option Ptr
  | .spawn p _, q | .spawnFromElf p _, q => if q = p then fun _ => none else (s.tb.task q).fds
  | .fork p _, q => if q = p then (s.tb.task s.current).fds else (s.tb.task q).fds
  | _, q => (s.tb.task q).fds

/-- all tables as they were -/
def SameTables (s s' : Sys) : Prop := ∀ q, (s'.tb.task q).fds = (s.tb.task q).fds

section Tables

variable {s s1 s' : Sys} {e : Event} {p t : Ptr} {x : Task} {top cr3 : U64}

/-- only `switch` is part of `schedule` -/
theorem outside_schedule (he : e ≠ .switch) (h : step s e = some s') : s.scheduling = false := by
  obtain ⟨self, -, h⟩ := Option.bind_eq_some_iff.1 h
  split_ifs at h with hen
  rw [Bool.and_eq_true] at hen
  exact not_scheduling hen.2 he

theorem SameTables.trans (h : SameTables s s1) (h' : SameTables s1 s') : SameTables s s' := fun q => (h' q).trans (h q)

theorem sameTables_of_abs (h : s'.abs = s.abs) : SameTables s s' := by
  have htb : s'.tb = s.tb := congrArg Abs.tb h
  intro q
  rw [htb]

theorem setTask_tables (h : x.fds = (s.tb.task p).fds) : SameTables s (s.setTask p x) := set_keep Task.fds h

theorem freeTask_tables (h : freeTask s t = some s') : SameTables s s' := by
  obtain ⟨-, ⟨-, rfl⟩ | ⟨-, rfl⟩⟩ := freeTask_eq h
  · exact fun _ => rfl
  · exact fun _ => rfl

theorem unlinkFromRing_tables (h : unlinkFromRing s t = some s') : SameTables s s' := by
  unfold unlinkFromRing at h
  simp only [bind, Option.bind_eq_some_iff, pure, Option.some.injEq] at h
  obtain ⟨prev, -, x, -, y, hy, rfl⟩ := h
  obtain ⟨-, rfl⟩ := get_some.1 hy
  exact setTask_tables rfl

theorem startSchedule_tables (h : startSchedule s = some s') : SameTables s s' := by
  obtain ⟨s1, hr, rfl⟩ := Option.map_eq_some_iff.1 h
  unfold reapZombie at hr
  cases hz : s.zombie with
  | none =>
    simp only [hz, Option.some.injEq] at hr
    subst hr
    exact fun _ => rfl
  | some z =>
    simp only [hz] at hr
    split_ifs at hr with hzc
    · cases hr
      exact fun _ => rfl
    · simp only [bind, Option.bind_eq_some_iff, pure, Option.some.injEq] at hr
      obtain ⟨s2, hu, s3, hf, rfl⟩ := hr
      exact fun q => ((unlinkFromRing_tables hu).trans (freeTask_tables hf)) q

theorem finishSchedule_tables (h : finishSchedule s = some s') : SameTables s s' := by
  unfold finishSchedule at h
  simp only [bind, Option.bind_eq_some_iff] at h
  obtain ⟨q, -, h⟩ := h
  split_ifs at h with hqc
  · cases h
    exact fun _ => rfl
  · unfold switchTo at h
    simp only [bind, Option.bind_eq_some_iff, pure, Option.some.injEq] at h
    obtain ⟨old, hold, x, hx, rfl⟩ := h
    obtain ⟨-, rfl⟩ := get_some.1 hold
    obtain ⟨-, rfl⟩ := get_some.1 hx
    intro r
    refine (set_keep Task.fds ?_ r).trans (set_keep Task.fds ?_ r)
    · rfl
    · rfl

theorem execveStart_tables (h : execveStart s = some s') : SameTables s s' := by
  unfold execveStart at h
  simp only [bind, Option.bind_eq_some_iff, pure, Option.some.injEq] at h
  obtain ⟨self, hself, ⟨a, s1⟩, hcr, rfl⟩ := h
  obtain ⟨-, rfl⟩ := get_some.1 hself
  have habs := create_abs hcr
  have hcur : s1.current = s.current := congrArg Abs.current habs
  have htb : s1.tb = s.tb := congrArg Abs.tb habs
  intro q
  show ((s1.tb.set s1.current _).task q).fds = _
  rw [hcur, htb]
  refine set_keep Task.fds ?_ q
  rfl

theorem execveFail_tables {image : Option (U64 × U64)} (h : execveFail s image = some s') : SameTables s s' := by
  unfold execveFail at h
  split at h
  case h_2 => cases h
  case h_1 old hold =>
  simp only [bind, Option.bind_eq_some_iff, pure, Option.some.injEq] at h
  obtain ⟨self, hself, rfl⟩ := h
  obtain ⟨-, rfl⟩ := get_some.1 hself
  have himage : (withImage (s.tb.task s.current) image).fds = (s.tb.task s.current).fds := by
    cases image with
    | none => rfl
    | some x => rfl
  intro q
  show ((s.tb.set s.current { withImage (s.tb.task s.current) image with cr3 := old }).task q).fds = _
  refine set_keep Task.fds ?_ q
  exact himage

theorem execveCommit_tables {highest base : U64} (h : execveCommit s highest base = some s') : SameTables s s' := by
  unfold execveCommit at h
  split at h
  case h_2 => cases h
  case h_1 old hold =>
  simp only [bind, Option.bind_eq_some_iff, pure, Option.some.injEq] at h
  obtain ⟨self, hself, rfl⟩ := h
  obtain ⟨-, rfl⟩ := get_some.1 hself
  intro q
  have htb : ∀ s1 : Sys, ((if old = 0 then s1 else s1.destroyAddressSpace old).setCont .own).tb = s1.tb := by
    intro s1
    split_ifs with h0
    · rfl
    · exact congrArg Abs.tb (destroy_abs old)
  rw [htb]
  refine set_keep Task.fds ?_ q
  rfl

theorem wait4Again_tables (h : wait4Again s = some s') : SameTables s s' := by
  unfold wait4Again at h
  split at h
  case h_2 => cases h
  case h_1 child hc =>
  simp only [bind, Option.bind_eq_some_iff] at h
  obtain ⟨x, -, h⟩ := h
  split_ifs at h with hd
  · simp only [Option.bind_eq_some_iff, pure, Option.some.injEq] at h
    obtain ⟨s1, hu, s2, hf, rfl⟩ := h
    exact fun q => ((unlinkFromRing_tables hu).trans (freeTask_tables hf)) q
  · exact startSchedule_tables h

theorem wait4Start_tables {pid : ℕ} (h : wait4Start s pid = some s') : SameTables s s' := by
  unfold wait4Start at h
  simp only [bind, Option.bind_eq_some_iff] at h
  obtain ⟨child, -, h⟩ := h
  cases child with
  | none =>
    cases h
    exact fun _ => rfl
  | some child =>
    obtain ⟨x, -, h⟩ := Option.bind_eq_some_iff.1 h
    split_ifs at h
    · cases h
      exact fun _ => rfl
    · cases h
      exact fun _ => rfl

theorem exitCurrent_tables {code : U64} (h : exitCurrent s code = some s') : SameTables s s' := by
  unfold exitCurrent at h
  simp only [bind, Option.bind_eq_some_iff] at h
  obtain ⟨c, hc, h⟩ := h
  obtain ⟨-, rfl⟩ := get_some.1 hc
  have hset : SameTables s (s.setTask s.current { s.tb.task s.current with exitCode := code, state := .Dead }) :=
    setTask_tables rfl
  intro q
  rw [startSchedule_tables h q]
  exact hset q

/-- a new task has no files -/
theorem spawn_tables (hl : s.current ∈ s.tb.live) (hp : p ∉ s.tb.live) (h : spawn s p top cr3 = some s') (q : Ptr) :
    (s'.tb.task q).fds = if q = p then fun _ => none else (s.tb.task q).fds := by
  obtain ⟨c, hc, rfl⟩ := Option.map_eq_some_iff.1 h
  obtain ⟨-, rfl⟩ := get_some.1 hc
  have hpc : s.current ≠ p := by
    rintro he
    exact hp (he ▸ hl)
  show ((Table.set _ s.current _).task q).fds = _
  by_cases hq : q = p
  · rw [if_pos hq, hq, set_other hpc.symm, add_self]
    rfl
  · rw [if_neg hq]
    by_cases hqc : q = s.current
    · rw [hqc, set_self]
    · rw [set_other hqc]
      exact congrArg Task.fds (Function.update_of_ne hq _ _)

/-- a child has its parent's -/
theorem sysFork_tables (hp : p ∉ s.tb.live) (h : sysFork s p top = some s') (q : Ptr) :
    (s'.tb.task q).fds = if q = p then (s.tb.task s.current).fds else (s.tb.task q).fds := by
  unfold sysFork at h
  simp only [bind, Option.bind_eq_some_iff, pure, Option.some.injEq] at h
  obtain ⟨parent, hpa, ⟨a, s1⟩, hf, s2, hsp, child, -, rfl⟩ := h
  obtain ⟨hcl, rfl⟩ := get_some.1 hpa
  have habs := forkSpace_abs hf
  have hcur : s1.current = s.current := congrArg Abs.current habs
  have htb : s1.tb = s.tb := congrArg Abs.tb habs
  by_cases hq : q = p
  · rw [if_pos hq, hq]
    show ((Table.set _ p _).task p).fds = _
    rw [set_self]
  · have hs2 := spawn_tables (by rw [hcur, htb]; exact hcl) (by rw [htb]; exact hp) hsp q
    rw [if_neg hq] at hs2 ⊢
    show ((Table.set _ p _).task q).fds = _
    rw [set_other hq, hs2, htb]

theorem table_old {q : Ptr} (h : ∀ par, e.adds s ≠ some (q, par)) : e.table s q = (s.tb.task q).fds := by
  cases e with
  | spawn p top =>
    refine if_neg ?_
    rintro rfl
    exact h none rfl
  | spawnFromElf p top =>
    refine if_neg ?_
    rintro rfl
    exact h none rfl
  | fork p top =>
    refine if_neg ?_
    rintro rfl
    exact h (some s.current) rfl
  | _ => rfl

/-- **Every table after a step.** -/
theorem step_fds (h : step s e = some s') (q : Ptr) : (s'.tb.task q).fds = e.table s q := by
  obtain ⟨self, hself, h⟩ := Option.bind_eq_some_iff.1 h
  obtain ⟨hl, rfl⟩ := get_some.1 hself
  split_ifs at h with hen
  rw [Bool.and_eq_true] at hen
  obtain ⟨hal, -⟩ := hen
  cases e with
  | spawn p top =>
    obtain ⟨-, hp⟩ : p ≠ 0 ∧ p ∉ s.tb.live := by simpa [Event.allowed] using hal
    exact spawn_tables hl hp h q
  | spawnFromElf p top =>
    obtain ⟨-, hp⟩ : p ≠ 0 ∧ p ∉ s.tb.live := by simpa [Event.allowed] using hal
    obtain ⟨⟨a, s1⟩, hcr, hsp⟩ := Option.bind_eq_some_iff.1 h
    have habs := create_abs hcr
    have hcur : s1.current = s.current := congrArg Abs.current habs
    have htb : s1.tb = s.tb := congrArg Abs.tb habs
    rw [spawn_tables (by rw [hcur, htb]; exact hl) (by rw [htb]; exact hp) hsp q, htb]
    rfl
  | fork p top =>
    obtain ⟨-, -, hp⟩ : (s.tb.task s.current).cr3 ≠ 0 ∧ p ≠ 0 ∧ p ∉ s.tb.live := by simpa [Event.allowed] using hal
    exact sysFork_tables hp h q
  | forkFail =>
    obtain ⟨⟨a, s1⟩, hf, rfl⟩ := Option.map_eq_some_iff.1 h
    exact sameTables_of_abs (forkSpace_abs hf) q
  | execve => exact execveStart_tables h q
  | execveFail image => exact execveFail_tables h q
  | execveCommit highest base => exact execveCommit_tables h q
  | exit code => exact exitCurrent_tables h q
  | wait4 pid => exact wait4Start_tables h q
  | wait4Again => exact wait4Again_tables h q
  | yield => exact startSchedule_tables h q
  | timer =>
    have htick : SameTables s (tick s) := by
      intro q
      rw [tick_rest.1]
    have h' : (if (tick s).needResched then startSchedule (tick s) else some (tick s)) = some s' := h
    split_ifs at h'
    · exact htick.trans (startSchedule_tables h') q
    · cases h'
      exact htick q
  | switch => exact finishSchedule_tables h q
  | archSetFs addr =>
    obtain ⟨c, hc, rfl⟩ := Option.map_eq_some_iff.1 h
    obtain ⟨-, rfl⟩ := get_some.1 hc
    refine set_keep Task.fds ?_ q
    rfl
  | setLayout b c n =>
    cases h
    refine set_keep Task.fds ?_ q
    rfl
  | edit e =>
    obtain ⟨m, -, rfl⟩ := Option.map_eq_some_iff.1 h
    rfl

end Tables

end Retux.Sched
