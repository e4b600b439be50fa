/-
Round robin.

`schedule` takes the first ready task after the running one, and the ring does not move: a call turns the list of the
runnable tasks, read from the running one on, by one place. After as many calls as there are runnable tasks each of them
has had its turn, and the list is where it was. Dead tasks are passed over, or freed under way, and change nothing.

- `pick_eq`: the pick is the first ready task of the ring;
- `schedule_turn`: one call is one turn;
- `round_robin`: from every state of every run in which the current task is running.
-/
import Mathlib.Tactic
import Mathlib.Data.List.Rotate
import Retux.Task.Queue

namespace Retux.Sched

open Retux.Word Retux.Vmm Retux.Ring Retux.Run

/-- n calls of `schedule`: who runs after each of them, and the state after the last -/
def rounds : ℕ → Sys → Option (List Ptr × Sys)
  | 0, s => some ([], s)
  | n + 1, s => do
    let (ps, s) ← rounds n s
    let s ← schedule s
    return (ps ++ [s.current], s)

/-- Ready or Running -/
def Table.runnable (tb : Table) (p : Ptr) : Bool := (tb.task p).state ≠ .Dead

/-- the runnable tasks in ring order, from the running one on -/
def turns (a : Abs) (l : List Ptr) : List Ptr := a.current :: l.filter a.tb.runnable

/-- the current task runs, and the others of q wait for their turn -/
structure Turn (s : Sys) (q : List Ptr) : Prop where
  running : (s.tb.task s.current).state = .Running
  live : ∀ p ∈ q, p ∈ s.tb.live
  ready : ∀ p ∈ q, p ≠ s.current → (s.tb.task p).state = .Ready

section Call

variable {a : Abs} {s s' : Sys} {l l1 l2 : List Ptr} {z q : Ptr}

/-- a dead task is in nobody's way -/
theorem turns_erase (prev : Ptr) (z' : Option Ptr) (h : Queue a l) (hd : (a.tb.task z).state = .Dead) :
    turns { a with tb := a.drop z prev, zombie := z' } (l.erase z) = turns a l := by
  have hrun : ∀ p, (a.drop z prev).runnable p = a.tb.runnable p := fun p => by
    unfold Table.runnable
    rw [drop_keep Task.state fun _ _ => rfl]
  have hz : a.tb.runnable z = false := by
    unfold Table.runnable
    rw [hd]
    rfl
  have hnd : l.Nodup := (List.nodup_cons.1 h.ring.nodup).2
  show a.current :: (l.erase z).filter (a.drop z prev).runnable = a.current :: l.filter a.tb.runnable
  rw [List.filter_congr fun p _ => hrun p, hnd.erase_eq_filter, List.filter_filter]
  congr 1
  refine List.filter_congr fun p _ => ?_
  by_cases hp : p = z
  · rw [hp, hz]
    rfl
  · simp [hp]

/-- up to the search: a zombie may go -/
theorem startSchedule_turn (h : Queue s.abs l) : ∃ s' l', startSchedule s = some s' ∧ Queue s'.abs l' ∧
    s'.scheduling = true ∧ turns s'.abs l' = turns s.abs l ∧
      (s'.tb.task s'.current).state = (s.tb.task s.current).state := by
  obtain ⟨s1, hs1⟩ := Option.isSome_iff_exists.1 (startSchedule_isSome h.ring h.live fun hz => (h.zombie hz).1)
  have hsch : s1.scheduling = true := by
    obtain ⟨s0, -, rfl⟩ := Option.map_eq_some_iff.1 hs1
    rfl
  rcases startSchedule_shape hs1 with ⟨habs, -⟩ | ⟨z, hm⟩
  · have hq : Queue s1.abs l := by
      rw [habs]
      exact h.enter
    have hcur : s1.abs.cur.state = s.abs.cur.state := by rw [habs]; rfl
    exact ⟨s1, l, hs1, hq, hsch, by rw [habs]; rfl, hcur⟩
  · generalize hb : s1.abs = b at hm
    cases hm with
    | @reap _ prev hz hzc hs hzl hprev hlink =>
      have hq := h.enter.reap hz hzc hzl hprev hlink
      have hturn := turns_erase prev none h.enter (h.zombie hz).2.1
      have hcur : s1.abs.cur.state = s.abs.cur.state := by
        rw [hb]
        exact drop_keep Task.state (fun _ _ => rfl) _
      refine ⟨s1, l.erase z, hs1, ?_, hsch, ?_, hcur⟩
      · rw [hb]
        exact hq
      · rw [hb]
        exact hturn

/-- `schedule` picks the first ready task of the ring, else the running one goes on -/
theorem pick_eq (h : Queue s.abs l) (hrun : (s.tb.task s.current).state = .Running) :
    pick s = some ((l.find? fun p => (s.tb.task p).state = .Ready).getD s.current) := by
  have hget : s.tb.get s.current = some (s.tb.task s.current) := get_live h.cur_live
  unfold pick
  simp only [bind, hget, Option.bind_some, search_eq h.ring h.live, if_pos hrun]
  rfl

/-- the others of the ring are ready or dead -/
theorem Queue.other (h : Queue a l) {p : Ptr} (hp : p ∈ l) : (a.tb.task p).state ≠ .Running := fun hr => by
  rw [h.running (h.mem_live.2 (List.mem_cons_of_mem _ hp)) hr] at hp
  exact (List.nodup_cons.1 h.ring.nodup).1 hp

theorem Queue.runnable (h : Queue a l) {p : Ptr} (hp : p ∈ l) : a.tb.runnable p = decide ((a.tb.task p).state = .Ready) := by
  have hne := h.other hp
  unfold Table.runnable
  cases hst : (a.tb.task p).state with
  | Ready => rfl
  | Running => exact absurd hst hne
  | Dead => rfl

/-- the running task behind the others -/
theorem turns_switch (h : Queue a (l1 ++ q :: l2)) (hrun : a.cur.state = .Running)
    (h1 : ∀ p ∈ l1, (a.tb.task p).state ≠ .Ready) (hq : (a.tb.task q).state = .Ready) {cpu : Cpu} {cr3 : U64} :
    turns { a with
      tb := (a.tb.set a.current { a.cur with state := if a.cur.state = .Running then .Ready else a.cur.state }).set q
        { a.tb.task q with state := .Running },
      current := q, cpu := cpu, cr3 := cr3, scheduling := false } (l2 ++ a.current :: l1) =
        (turns a (l1 ++ q :: l2)).rotate 1 := by
  have hqd : (a.tb.task q).state ≠ .Dead := by
    rw [hq]
    decide
  have hmem : ∀ p ∈ l1, p ∈ l1 ++ q :: l2 := fun p hp => List.mem_append_left _ hp
  have hl1 : l1.filter a.tb.runnable = [] := by
    rw [List.filter_eq_nil_iff]
    intro p hp
    rw [h.runnable (hmem p hp)]
    simpa using h1 p hp
  have hcur : a.tb.runnable a.current = true := by
    unfold Table.runnable
    rw [show (a.tb.task a.current).state = .Running from hrun]
    rfl
  have hrq : a.tb.runnable q = true := by
    unfold Table.runnable
    rw [hq]
    rfl
  generalize htb : (a.tb.set a.current _).set q _ = tb'
  have hkeep : tb'.runnable = a.tb.runnable := by
    funext p
    unfold Table.runnable
    rw [← htb, decide_eq_decide, not_iff_not]
    exact switch_dead hqd
  show q :: (l2 ++ a.current :: l1).filter tb'.runnable = _
  unfold turns
  rw [hkeep, List.filter_append, List.filter_append, List.filter_cons_of_pos hcur, List.filter_cons_of_pos hrq, hl1,
    List.nil_append, List.rotate_cons_succ, List.rotate_zero]
  rfl

/-- the rest of `schedule`: one place on -/
theorem finishSchedule_turn (h : Queue s.abs l) (hsch : s.scheduling = true)
    (hrun : (s.tb.task s.current).state = .Running) : ∃ s' l', finishSchedule s = some s' ∧ Queue s'.abs l' ∧
      (s'.tb.task s'.current).state = .Running ∧ turns s'.abs l' = (turns s.abs l).rotate 1 := by
  have hsome : (finishSchedule s).isSome := by
    have hget : s.tb.get s.current = some (s.tb.task s.current) := get_live h.cur_live
    have hprog := h.progress (e := .switch) rfl rfl hsch
    rw [step, hget, Option.bind_some, if_pos (by rw [Event.allowed, Event.atCont, hsch]; rfl)] at hprog
    exact hprog
  obtain ⟨s', hs'⟩ := Option.isSome_iff_exists.1 hsome
  obtain ⟨q, hq, hmove⟩ := finishSchedule_pick hsch hs'
  rw [pick_eq h hrun] at hq
  cases hfind : l.find? fun p => (s.tb.task p).state = .Ready with
  | none =>
    -- nobody else is ready: the list is the running task alone
    have hnone : l.filter s.tb.runnable = [] := by
      rw [List.filter_eq_nil_iff]
      intro p hp
      have hrp : s.tb.runnable p = decide ((s.tb.task p).state = .Ready) := h.runnable hp
      rw [hrp]
      exact List.find?_eq_none.1 hfind p hp
    rw [hfind, Option.getD_none, Option.some.injEq] at hq
    obtain ⟨-, hm⟩ := hmove.resolve_right fun hr => hr.1 hq.symm
    generalize hb : s'.abs = b at hm
    cases hm with
    | stay hs hst =>
      have hrun' : s'.abs.cur.state = .Running := by
        rw [hb]
        exact hrun
      refine ⟨s', l, hs', by rw [hb]; exact h.stay hst, hrun', ?_⟩
      rw [hb]
      show s.current :: l.filter s.tb.runnable = (s.current :: l.filter s.tb.runnable).rotate 1
      rw [hnone, List.rotate_cons_succ, List.rotate_zero]
      rfl
  | some x =>
    obtain ⟨hx, l1, l2, rfl, h1⟩ := List.find?_eq_some_iff_append.1 hfind
    rw [hfind, Option.getD_some, Option.some.injEq] at hq
    subst hq
    have hx' : (s.tb.task x).state = .Ready := by simpa using hx
    have hxc : x ≠ s.current := by
      rintro rfl
      rw [hrun] at hx'
      cases hx'
    obtain ⟨-, hm⟩ := hmove.resolve_left fun hr => hxc hr.1
    generalize hb : s'.abs = b at hm
    cases hm with
    | switch hs hql hqc hst =>
      have hrun' : s'.abs.cur.state = .Running := by
        rw [hb]
        unfold Abs.cur
        rw [set_self]
      refine ⟨s', l2 ++ s.current :: l1, hs', by rw [hb]; exact h.switch hqc (Or.inl hx'), hrun', ?_⟩
      rw [hb]
      refine turns_switch h hrun (fun p hp hr => ?_) hx'
      have hnr := h1 p hp
      rw [show (s.tb.task p).state = .Ready from hr] at hnr
      exact absurd hnr (by decide)

/-- **One call is one turn.** -/
theorem schedule_turn (h : Queue s.abs l) (hrun : (s.tb.task s.current).state = .Running) : ∃ s' l',
    schedule s = some s' ∧ Queue s'.abs l' ∧ (s'.tb.task s'.current).state = .Running ∧
      turns s'.abs l' = (turns s.abs l).rotate 1 := by
  obtain ⟨s1, l1, hs1, hq1, hsch, hturn1, hcur1⟩ := startSchedule_turn h
  obtain ⟨s', l', hs', hq', hrun', hturn'⟩ := finishSchedule_turn hq1 hsch (hcur1.trans hrun)
  refine ⟨s', l', ?_, hq', hrun', by rw [hturn', hturn1]⟩
  rw [schedule, hs1, Option.bind_some, hs']

end Call

/-! ## Rounds -/

section Rounds

variable {s s' : Sys} {l : List Ptr} {n : ℕ} {boot idle : Ptr} {top : U64} {m : Machine} {cpu : Cpu}

/-- n calls are n turns, up to a full round -/
theorem rounds_turn (h : Queue s.abs l) (hrun : (s.tb.task s.current).state = .Running)
    (hn : n ≤ (turns s.abs l).length) : ∃ s' l', rounds n s = some (((turns s.abs l).rotate 1).take n, s') ∧
      Queue s'.abs l' ∧ (s'.tb.task s'.current).state = .Running ∧ turns s'.abs l' = (turns s.abs l).rotate n := by
  induction n with
  | zero => exact ⟨s, l, rfl, h, hrun, (List.rotate_zero _).symm⟩
  | succ n ih =>
    obtain ⟨s1, l1, hs1, hq1, hrun1, hturn1⟩ := ih (by omega)
    obtain ⟨s', l', hs', hq', hrun', hturn'⟩ := schedule_turn hq1 hrun1
    have hrot : turns s'.abs l' = (turns s.abs l).rotate (n + 1) := by rw [hturn', hturn1, List.rotate_rotate]
    refine ⟨s', l', ?_, hq', hrun', hrot⟩
    -- who runs now is the next of the list
    have hnext : ((turns s.abs l).rotate 1)[n]? = some s'.current := by
      rw [← List.head?_rotate (by rw [List.length_rotate]; omega), List.rotate_rotate, Nat.add_comm, ← hrot]
      rfl
    rw [rounds, hs1, List.take_add_one, hnext]
    simp only [bind, Option.bind_some, hs']
    rfl

/-- whose turn it is -/
theorem Queue.turn (h : Queue s.abs l) (hrun : (s.tb.task s.current).state = .Running) {q : List Ptr}
    (hq : ∀ p ∈ q, p ∈ turns s.abs l) : Turn s q := by
  refine ⟨hrun, fun p hp => ?_, fun p hp hne => ?_⟩
  · refine h.mem_live.2 ?_
    rcases List.mem_cons.1 (hq p hp) with rfl | hm
    · exact List.mem_cons_self ..
    · exact List.mem_cons_of_mem _ (List.mem_filter.1 hm).1
  · obtain ⟨hl, hr⟩ := List.mem_filter.1 ((List.mem_cons.1 (hq p hp)).resolve_left hne)
    have hrp : s.tb.runnable p = decide ((s.tb.task p).state = .Ready) := h.runnable hl
    rw [show s.abs.tb = s.tb from rfl, hrp] at hr
    exact of_decide_eq_true hr

/-- a round of `schedule` calls over the tasks r and, last, the current one -/
structure RoundRobin (s : Sys) (r : List Ptr) : Prop where
  /-- each of them once -/
  nodup : (r ++ [s.current]).Nodup
  /-- after any number of calls: who had their turn, one of them running and the others ready -/
  each : ∀ n ≤ r.length + 1, ∃ s', rounds n s = some ((r ++ [s.current]).take n, s') ∧ Turn s' (r ++ [s.current])
  /-- after all of them: back at the start -/
  round : ∃ s', rounds (r.length + 1) s = some (r ++ [s.current], s') ∧ s'.current = s.current ∧
    Turn s' (r ++ [s.current])

/-- **Round robin.** In every state of every run from `sched::init` in which the current task is Running, as many
calls of `schedule` as there are runnable tasks run each of them once, in ring order after the current one, which is
last; the others are left Ready. -/
theorem round_robin (hne : boot ≠ idle) (es : List Event) (hrun : es.foldlM step (init boot idle top m cpu) = some s)
    (hcur : (s.tb.task s.current).state = .Running) : ∃ l, IsRing s.tb.next s.current l ∧
      (∀ p, p ∈ s.tb.live ↔ p ∈ s.current :: l) ∧ RoundRobin s (l.filter fun p => (s.tb.task p).state ≠ .Dead) := by
  obtain ⟨l, h⟩ := run_inv (I := fun s => ∃ l, Queue s.abs l) (fun _ _ _ h hs => step_queue h hs)
    ⟨_, init_queue hne⟩ hrun
  refine ⟨l, h.ring, fun p => h.mem_live, ?_⟩
  show RoundRobin s (l.filter s.tb.runnable)
  have hq : (turns s.abs l).rotate 1 = l.filter s.tb.runnable ++ [s.current] := by
    show (s.current :: l.filter s.tb.runnable).rotate 1 = _
    rw [List.rotate_cons_succ, List.rotate_zero]
  have hlen : (turns s.abs l).length = (l.filter s.tb.runnable).length + 1 := rfl
  have heach : ∀ n ≤ (turns s.abs l).length, ∃ s' l', rounds n s = some ((l.filter s.tb.runnable ++ [s.current]).take n, s') ∧
      turns s'.abs l' = (turns s.abs l).rotate n ∧ Turn s' (l.filter s.tb.runnable ++ [s.current]) := by
    intro n hn
    obtain ⟨s', l', hs', hq', hrun', hturn'⟩ := rounds_turn h hcur hn
    rw [hq] at hs'
    refine ⟨s', l', hs', hturn', hq'.turn hrun' fun p hp => ?_⟩
    rw [hturn', List.mem_rotate, ← List.mem_rotate (n := 1), hq]
    exact hp
  constructor
  · rw [← hq, List.nodup_rotate]
    exact h.ring.nodup.sublist ((List.filter_sublist ..).cons_cons _)
  · intro n hn
    obtain ⟨s', l', hs', -, ht⟩ := heach n hn
    exact ⟨s', hs', ht⟩
  · obtain ⟨s', l', hs', hturn', ht⟩ := heach _ le_rfl
    rw [List.rotate_length] at hturn'
    rw [List.take_of_length_le (by rw [hlen]; simp)] at hs'
    exact ⟨s', hs', (List.cons.inj hturn').1, ht⟩

theorem round_robin_sample : ∃ s, oneExit.foldlM step (init 1 2 8192 bootMachine ⟨0, 0, 0⟩) = some s ∧
    ∃ l, IsRing s.tb.next s.current l ∧ (∀ p, p ∈ s.tb.live ↔ p ∈ s.current :: l) ∧
      RoundRobin s (l.filter fun p => (s.tb.task p).state ≠ .Dead) := by
  obtain ⟨s, hs, hc⟩ : ∃ s, oneExit.foldlM step (init 1 2 8192 bootMachine ⟨0, 0, 0⟩) = some s ∧
    (s.tb.task s.current).state = .Running := ⟨_, rfl, rfl⟩
  exact ⟨s, hs, round_robin (by decide) _ hs hc⟩

end Rounds

end Retux.Sched
