/-
How long a task waits for the processor.

`schedule` runs the first ready task after the current one, and a new task is put right after the one that makes it. So a
ready task p waits behind the tasks between the current one and itself that are not dead; `Waiting a p n` says that there
are n of them. A switch takes one of them away, a new task is one more, and nothing else that happens counts.

- `Move.waiting`, `finishSchedule_waiting`: what one step does to n;
- `bounded_wait`: p runs with the switch after those of the n tasks and of the tasks made meanwhile, and the timer brings
  that switch about within as many time slices;
- `creation_starves`: the second term is needed. Each task making the next one, p never runs.
-/
import Mathlib.Tactic
import Retux.Task.Context
import Retux.Task.Turns

namespace Retux.Sched

open Retux.Word Retux.Vmm Retux.Ring Retux.Run

/-- p is ready, behind n tasks that are not dead -/
def Waiting (a : Abs) (p : Ptr) (n : ℕ) : Prop :=
  ∃ l1 l2, Queue a (l1 ++ p :: l2) ∧ (a.tb.task p).state = .Ready ∧ (l1.filter a.tb.runnable).length = n

/-- what a move, but a switch, does to the list of the others -/
def Act.others : Act → List Ptr → List Ptr
  | .add p, l => p :: l
  | .reap z, l | .collect z, l => l.erase z
  | _, l => l

/-- one more task? -/
def Act.born : Act → ℕ
  | .add _ => 1
  | _ => 0

/-- the events that make a task -/
def Event.creates : Event → Bool
  | .spawn _ _ | .spawnFromElf _ _ | .fork _ _ => true
  | _ => false

def Event.isSwitch : Event → Bool
  | .switch => true
  | _ => false

def Event.isTimer : Event → Bool
  | .timer => true
  | _ => false

/-- switches, tasks made, and timer interrupts of a run -/
def switches (es : List Event) : ℕ := (es.map fun e => e.isSwitch.toNat).sum

def creations (es : List Event) : ℕ := (es.map fun e => e.creates.toNat).sum

def timers (es : List Event) : ℕ := (es.map fun e => e.isTimer.toNat).sum

/-! ## One move -/

section Moves

variable {a a' : Abs} {l l1 l2 : List Ptr} {p q z : Ptr} {act : Act} {n : ℕ}

/-- the ring after a move -/
theorem Move.others (hm : Move a act a') (h : Queue a l) (hsw : ∀ q, act ≠ .switch q) :
    IsRing a'.tb.next a'.current (act.others l) := by
  cases hm with
  | touch hs hkeep hfs hcr3 hc => exact h.ring.congr fun x _ => set_keep Task.next hkeep.1 x
  | add hs hown hp0 hp hnext hst hid hpar => exact (h.add (n := 0) hp hnext hst (hpar.imp_right And.left)).ring
  | wait hs hown hc hpar => exact h.ring
  | enter hs hc => exact h.ring
  | exit hs hown hi => exact (h.exit _ hi).ring
  | reap hz hzc hs hzl hprev hlink => exact (h.reap hz hzc hzl hprev hlink).ring
  | @collect c prev hs hw hd hcl hprev hlink =>
    obtain ⟨-, hpar⟩ := h.wait h.cur_live hw
    have hcc : c ≠ a.current := by
      rintro rfl
      exact h.parent h.cur_live hpar
    -- who waits for whom does not matter to the ring
    have hq : Queue { a with tb := a.drop c prev, zombie := none, cont := fun _ => .own } (l.erase c) :=
      h.drop hcl hcc hd hprev hlink (fun hn => nomatch hn) (fun _ => Or.inr rfl) fun _ _ hn => nomatch hn
    exact hq.ring
  | stay hs hst => exact h.ring
  | switch hs hql hqc hst => exact absurd rfl (hsw _)

/-- no move but a switch changes the state of a task that does not run -/
theorem Move.state_other (hm : Move a act a') (h : Queue a l) (hsw : ∀ q, act ≠ .switch q) (hp : p ∈ l) :
    (a'.tb.task p).state = (a.tb.task p).state := by
  have hpc : p ≠ a.current := by
    rintro rfl
    exact (List.nodup_cons.1 h.ring.nodup).1 hp
  cases hm with
  | touch hs hkeep hfs hcr3 hc => exact set_keep Task.state hkeep.2.1 p
  | add hs hown hp0 hnew hnext hst hid hpar =>
    exact add_old Task.state (fun _ _ => rfl) hnew (h.mem_live.2 (List.mem_cons_of_mem _ hp))
  | wait hs hown hc hpar => rfl
  | enter hs hc => rfl
  | exit hs hown hi => exact congrArg Task.state (set_other hpc)
  | reap hz hzc hs hzl hprev hlink => exact drop_keep Task.state (fun _ _ => rfl) p
  | collect hs hw hd hcl hprev hlink => exact drop_keep Task.state (fun _ _ => rfl) p
  | stay hs hst => rfl
  | switch hs hql hqc hst => exact absurd rfl (hsw _)

/-- a switch happens inside `schedule` -/
theorem Move.not_switch (hm : Move a act a') (hs : a.scheduling = false) (q : Ptr) : act ≠ .switch q := by
  rintro rfl
  cases hm with
  | switch hs' hql hqc hst =>
    rw [hs] at hs'
    cases hs'

/-- only dead tasks go -/
theorem Move.gone (hm : Move a act a') (h : Queue a l) (hact : act = .reap z ∨ act = .collect z) :
    z ∈ l ∧ (a.tb.task z).state = .Dead := by
  have hother : ∀ {x}, x ∈ a.tb.live → x ≠ a.current → x ∈ l := fun hx hxc =>
    (List.mem_cons.1 (h.mem_live.1 hx)).resolve_left hxc
  cases hm with
  | reap hz hzc hs hzl hprev hlink =>
    rcases hact with he | he <;> cases he
    exact ⟨hother hzl hzc, (h.zombie hz).2.1⟩
  | collect hs hw hd hcl hprev hlink =>
    rcases hact with he | he <;> cases he
    refine ⟨hother hcl ?_, hd⟩
    rintro rfl
    exact h.parent h.cur_live (h.wait h.cur_live hw).2
  | _ => rcases hact with he | he <;> cases he

/-- a new task is ready -/
theorem Move.born (hm : Move a (.add q) a') (h : Queue a l) : q ∉ l ∧ (a'.tb.task q).state = .Ready := by
  cases hm with
  | add hs hown hp0 hq hnext hst hid hpar =>
    have hqc : a.current ≠ q := by
      rintro rfl
      exact hq h.cur_live
    refine ⟨fun hm => hq (h.mem_live.2 (List.mem_cons_of_mem _ hm)), ?_⟩
    show (((a.tb.add q _).set a.current _).task q).state = .Ready
    rw [add_new hqc]
    exact hst

theorem filter_runnable {tb tb' : Table} (h : ∀ p ∈ l, (tb'.task p).state = (tb.task p).state) :
    l.filter tb'.runnable = l.filter tb.runnable := by
  refine List.filter_congr fun p hp => ?_
  unfold Table.runnable
  rw [h p hp]

/-- a dead task goes: as many are ahead of p that are not dead -/
theorem erase_ahead {tb : Table} (l1 l2 : List Ptr) (hz : (tb.task z).state = .Dead) (hzp : z ≠ p) : ∃ m1 m2,
    (l1 ++ p :: l2).erase z = m1 ++ p :: m2 ∧ m1.filter tb.runnable = l1.filter tb.runnable := by
  by_cases hm : z ∈ l1
  · obtain ⟨k1, k2, -, rfl, herase⟩ := List.exists_erase_eq hm
    have hzr : ¬ tb.runnable z = true := by
      unfold Table.runnable
      simp [hz]
    refine ⟨k1 ++ k2, l2, ?_, ?_⟩
    · rw [List.erase_append_left _ hm, herase]
    · rw [List.filter_append, List.filter_append, List.filter_cons_of_neg hzr]
  · refine ⟨l1, l2.erase z, ?_, rfl⟩
    rw [List.erase_append_right _ hm, List.erase_cons_tail (by simpa using hzp.symm)]

/-- where p is after a move -/
theorem Move.ahead (hm : Move a act a') (h : Queue a (l1 ++ p :: l2)) (hsw : ∀ q, act ≠ .switch q)
    (hp : (a.tb.task p).state = .Ready) : ∃ m1 m2, act.others (l1 ++ p :: l2) = m1 ++ p :: m2 ∧
      (m1.filter a'.tb.runnable).length = (l1.filter a.tb.runnable).length + act.born := by
  have hkeep : l1.filter a'.tb.runnable = l1.filter a.tb.runnable :=
    filter_runnable fun x hx => hm.state_other h hsw (List.mem_append_left _ hx)
  have hdrop : ∀ z, act = .reap z ∨ act = .collect z → ∃ m1 m2, (l1 ++ p :: l2).erase z = m1 ++ p :: m2 ∧
      (m1.filter a'.tb.runnable).length = (l1.filter a.tb.runnable).length := by
    intro z hact
    obtain ⟨hzl, hz⟩ := hm.gone h hact
    have hzp : z ≠ p := by
      rintro rfl
      rw [hp] at hz
      cases hz
    obtain ⟨m1, m2, herase, hm1⟩ := erase_ahead l1 l2 ((hm.state_other h hsw hzl).trans hz) hzp
    exact ⟨m1, m2, herase, by rw [hm1, hkeep]⟩
  cases act with
  | add q =>
    obtain ⟨-, hq⟩ := hm.born h
    have hqr : a'.tb.runnable q = true := by
      unfold Table.runnable
      rw [hq]
      rfl
    refine ⟨q :: l1, l2, rfl, ?_⟩
    rw [List.filter_cons_of_pos hqr, List.length_cons, hkeep]
    rfl
  | reap z => exact hdrop z (Or.inl rfl)
  | collect z => exact hdrop z (Or.inr rfl)
  | switch q => exact absurd rfl (hsw q)
  | touch => exact ⟨l1, l2, rfl, congrArg List.length hkeep⟩
  | wait c => exact ⟨l1, l2, rfl, congrArg List.length hkeep⟩
  | enter => exact ⟨l1, l2, rfl, congrArg List.length hkeep⟩
  | exit => exact ⟨l1, l2, rfl, congrArg List.length hkeep⟩
  | stay => exact ⟨l1, l2, rfl, congrArg List.length hkeep⟩

/-- **One move.** p waits on, behind one more task if one is made. -/
theorem Move.waiting (hm : Move a act a') (h : Waiting a p n) (hsw : ∀ q, act ≠ .switch q) :
    Waiting a' p (n + act.born) := by
  obtain ⟨l1, l2, hq, hp, rfl⟩ := h
  obtain ⟨l', hq'⟩ := hm.queue hq
  obtain ⟨m1, m2, hm12, hlen⟩ := hm.ahead hq hsw hp
  have hl' : l' = m1 ++ p :: m2 := by
    rw [← hm12]
    exact hq'.ring.unique (hm.others hq hsw)
  rw [hl'] at hq'
  have hpl : p ∈ l1 ++ p :: l2 := List.mem_append_right _ (List.mem_cons_self ..)
  exact ⟨m1, m2, hq', (hm.state_other hq hsw hpl).trans hp, hlen⟩

end Moves

/-! ## One event -/

section Events

variable {s s' : Sys} {e : Event} {act : Act} {p : Ptr} {n : ℕ}

theorem pick_first {l : List Ptr} {q : Ptr} (h : Queue s.abs l)
    (hfind : l.find? (fun p => (s.tb.task p).state = .Ready) = some q) : pick s = some q := by
  have hget : s.tb.get s.current = some (s.tb.task s.current) := get_live h.cur_live
  unfold pick
  simp only [bind, hget, Option.bind_some, search_eq h.ring h.live, hfind]
  rfl

/-- the state of p after a switch to q -/
theorem switch_other {a : Abs} {q : Ptr} {t t' : Task} (hpq : p ≠ q) (hpc : p ≠ a.current) :
    (((a.tb.set a.current t).set q t').task p).state = (a.tb.task p).state := by
  rw [set_other hpq, set_other hpc]

/-- `schedule` after `reap_zombie`: p runs if nobody is ahead, else one less is -/
theorem finishSchedule_waiting (h : Waiting s.abs p n) (hs : s.scheduling = true) (hf : finishSchedule s = some s') :
    n = 0 ∧ s'.current = p ∨ s'.current ≠ p ∧ ∃ m, n = m + 1 ∧ Waiting s'.abs p m := by
  obtain ⟨l1, l2, hq, hp, rfl⟩ := h
  have hp' : (s.tb.task p).state = .Ready := hp
  have hnd := List.nodup_cons.1 hq.ring.nodup
  have hother : ∀ x ∈ l1 ++ p :: l2, x ≠ s.current := by
    rintro x hx rfl
    exact hnd.1 hx
  have hrun : ∀ x ∈ l1, s.tb.runnable x = decide ((s.tb.task x).state = .Ready) := fun x hx =>
    hq.runnable (List.mem_append_left _ hx)
  obtain ⟨q, hpick, hmove⟩ := finishSchedule_pick hs hf
  cases hfind : l1.find? fun x => (s.tb.task x).state = .Ready with
  | none =>
    -- the first ready task is p
    have hqp : q = p := by
      have hpf := pick_first hq (q := p) (by
        rw [List.find?_append, hfind, List.find?_cons_of_pos (by simpa using hp')]
        rfl)
      rw [hpick] at hpf
      exact Option.some.inj hpf
    subst hqp
    have hqc : q ≠ s.current := hother q (List.mem_append_right _ (List.mem_cons_self ..))
    obtain ⟨-, hm⟩ := hmove.resolve_left fun hr => hqc hr.1
    refine Or.inl ⟨?_, ?_⟩
    · rw [List.length_eq_zero_iff, List.filter_eq_nil_iff]
      intro x hx
      have hx' := hrun x hx
      rw [show s.abs.tb = s.tb from rfl, hx']
      exact List.find?_eq_none.1 hfind x hx
    · generalize hb : s'.abs = b at hm
      cases hm with
      | switch hs' hql hqc' hst => exact congrArg Abs.current hb
  | some x =>
    obtain ⟨hx, k1, k2, rfl, hk⟩ := List.find?_eq_some_iff_append.1 hfind
    have hx' : (s.tb.task x).state = .Ready := by simpa using hx
    have hqx : q = x := by
      have hpf := pick_first hq (q := x) (by
        rw [List.find?_append, hfind]
        rfl)
      rw [hpick] at hpf
      exact Option.some.inj hpf
    subst hqx
    have hqc : q ≠ s.current := hother q (by simp)
    have hpq : p ≠ q := by
      rintro rfl
      have hdis := (List.nodup_append.1 hnd.2).2.2 p (by simp) p (List.mem_cons_self ..)
      exact hdis rfl
    obtain ⟨-, hm⟩ := hmove.resolve_left fun hr => hqc hr.1
    generalize hb : s'.abs = b at hm
    have hcur' : s'.current = b.current := congrArg Abs.current hb
    cases hm with
    | switch hs' hql hqc' hst =>
      refine Or.inr ⟨fun he => hpq (he.symm.trans hcur'), (k2.filter s.tb.runnable).length, ?_, k2, l2 ++ s.current :: k1,
        ?_, ?_, ?_⟩
      · have hk1 : k1.filter s.tb.runnable = [] := by
          rw [List.filter_eq_nil_iff]
          intro y hy
          rw [hrun y (by simp [hy])]
          simpa using hk y hy
        have hqr : s.tb.runnable q = true := by
          rw [hrun q (by simp)]
          simpa using hx'
        show ((k1 ++ q :: k2).filter s.tb.runnable).length = _
        rw [List.filter_append, hk1, List.filter_cons_of_pos hqr]
        rfl
      · have hassoc : k1 ++ q :: k2 ++ p :: l2 = k1 ++ q :: (k2 ++ p :: l2) := by simp
        rw [hassoc] at hq
        have hrot : k2 ++ p :: (l2 ++ s.current :: k1) = (k2 ++ p :: l2) ++ s.current :: k1 := by simp
        rw [hrot]
        exact hq.switch hqc (Or.inl hx')
      · exact (switch_other hpq (hother p (by simp))).trans hp
      · refine congrArg List.length (filter_runnable fun y hy => switch_other ?_ (hother y (by simp [hy])))
        rintro rfl
        exact (List.nodup_cons.1 (List.nodup_append.1 (List.nodup_append.1 hnd.2).1).2.1).1 hy

/-- an event makes a task or does not -/
theorem creates_eq : e.creates = (e.adds s).isSome := by
  cases e <;> rfl

theorem plain_born (h : act.plain = true) : act.born = 0 := by
  cases act with
  | add p => cases h
  | _ => rfl

/-- the other events -/
theorem step_waiting (h : Waiting s.abs p n) (he : e ≠ .switch) (hs : step s e = some s') :
    Waiting s'.abs p (n + e.creates.toNat) := by
  have hsch : s.abs.scheduling = false := not_scheduling_of_step he hs
  have hkeep : e.adds s = none → Waiting s'.abs p n → Waiting s'.abs p (n + e.creates.toNat) := by
    intro ha hw
    rw [creates_eq, ha]
    exact hw
  cases step_shape hs with
  | quiet hr ha heq =>
    refine hkeep ha ?_
    rw [heq]
    exact h
  | one hr ha hact hm =>
    have hw := hm.waiting h (hm.not_switch hsch)
    rw [plain_born hact] at hw
    exact hkeep ha hw
  | add hr ha hm hpar =>
    rw [creates_eq, ha]
    exact hm.waiting h (hm.not_switch hsch)
  | collect he' hm =>
    refine hkeep ?_ (hm.waiting h (hm.not_switch hsch))
    rw [he']
    rfl
  | @sched act a hact hm hrest =>
    have hent : act = .enter ∨ act = .exit := hact.imp And.left And.left
    have hborn : act.born = 0 := by
      rcases hent with rfl | rfl <;> rfl
    have hw := hm.waiting h (hm.not_switch hsch)
    rw [hborn] at hw
    refine hkeep ?_ ?_
    · rcases hact with ⟨-, hent⟩ | ⟨-, code, rfl⟩
      · rcases hent with rfl | ⟨rfl, -⟩ | ⟨rfl, -⟩ <;> rfl
      · rfl
    · rcases hrest with ⟨heq, -⟩ | ⟨z, hm'⟩
      · rw [heq]
        exact hw
      · exact hm'.waiting hw fun q hq => nomatch hq

end Events

/-! ## The clock -/

section Clock

variable {s s1 s' : Sys} {e : Event} {p t : Ptr} {n : ℕ}

/-- the time slice runs out inside `schedule` only -/
structure Clock (s : Sys) : Prop where
  slice : s.ticksLeft ≤ TIMESLICE_TICKS
  running : s.scheduling = false → 0 < s.ticksLeft ∧ s.needResched = false

/-- `ticks_left_` and `need_resched_` -/
def Sys.clock (s : Sys) : ℕ × Bool := (s.ticksLeft, s.needResched)

theorem unlink_clock (h : unlinkFromRing s t = some s') : s'.clock = s.clock := by
  unfold unlinkFromRing at h
  simp only [bind, Option.bind_eq_some_iff, pure, Option.some.injEq] at h
  obtain ⟨prev, -, x, -, y, -, rfl⟩ := h
  rfl

theorem freeTask_clock (h : freeTask s t = some s') : s'.clock = s.clock := by
  obtain ⟨-, ⟨-, rfl⟩ | ⟨-, rfl⟩⟩ := freeTask_eq h
  · rfl
  · rfl

theorem startSchedule_clock (h : startSchedule s = some s') : s'.clock = s.clock := by
  obtain ⟨s1, hr, rfl⟩ := Option.map_eq_some_iff.1 h
  unfold reapZombie at hr
  cases hz : s.zombie with
  | none =>
    simp only [hz, Option.some.injEq] at hr
    rw [← hr]
    rfl
  | some z =>
    simp only [hz] at hr
    split_ifs at hr with hzc
    · cases hr
      rfl
    · simp only [bind, Option.bind_eq_some_iff, pure, Option.some.injEq] at hr
      obtain ⟨s2, hu, s3, hf, rfl⟩ := hr
      exact (freeTask_clock hf).trans (unlink_clock hu)

theorem destroy_clock (a : U64) : (s.destroyAddressSpace a).clock = s.clock := by
  simp only [Sys.clock, Sys.destroyAddressSpace]

theorem create_clock {a : U64} (h : s.createAddressSpace = some (a, s')) : s'.clock = s.clock := by
  obtain ⟨⟨b, m⟩, -, heq⟩ := Option.map_eq_some_iff.1 h
  cases heq
  rfl

theorem forkSpace_clock {a : U64} (h : forkSpace s = some (a, s')) : s'.clock = s.clock := by
  unfold forkSpace at h
  simp only [bind, Option.bind_eq_some_iff, pure, Option.some.injEq, Prod.mk.injEq] at h
  obtain ⟨parent, -, ⟨b, s1⟩, hc, m, -, -, rfl⟩ := h
  have hclock : s1.clock = s.clock := create_clock hc
  exact hclock

theorem spawn_clock {top cr3 : U64} (h : spawn s p top cr3 = some s') : s'.clock = s.clock := by
  obtain ⟨c, -, rfl⟩ := Option.map_eq_some_iff.1 h
  rfl

/-- only the timer and `schedule` touch the clock -/
theorem step_clock (he : e ≠ .timer) (hsw : e ≠ .switch) (hs : step s e = some s') : s'.clock = s.clock := by
  obtain ⟨self, hself, hs⟩ := Option.bind_eq_some_iff.1 hs
  split_ifs at hs with hen
  cases e with
  | spawn p top => exact spawn_clock hs
  | spawnFromElf p top =>
    obtain ⟨⟨a, s1⟩, hcr, hsp⟩ := Option.bind_eq_some_iff.1 hs
    exact (spawn_clock hsp).trans (create_clock hcr)
  | fork p top =>
    simp only [run, sysFork, bind, Option.bind_eq_some_iff, pure, Option.some.injEq] at hs
    obtain ⟨parent, -, ⟨a, s1⟩, hf, s2, hsp, child, -, rfl⟩ := hs
    exact (spawn_clock hsp).trans (forkSpace_clock hf)
  | forkFail =>
    simp only [run, sysForkFail, Option.map_eq_some_iff] at hs
    obtain ⟨⟨a, s1⟩, hf, rfl⟩ := hs
    exact (destroy_clock a).trans (forkSpace_clock hf)
  | execve =>
    simp only [run, execveStart, bind, Option.bind_eq_some_iff, pure, Option.some.injEq] at hs
    obtain ⟨self, -, ⟨a, s1⟩, hcr, rfl⟩ := hs
    have hclock : s1.clock = s.clock := create_clock hcr
    exact hclock
  | execveFail image =>
    simp only [run, Sched.execveFail] at hs
    split at hs
    · simp only [bind, Option.bind_eq_some_iff, pure, Option.some.injEq] at hs
      obtain ⟨self, -, rfl⟩ := hs
      rfl
    · cases hs
  | execveCommit highest base =>
    simp only [run, Sched.execveCommit] at hs
    split at hs
    · simp only [bind, Option.bind_eq_some_iff, pure, Option.some.injEq] at hs
      obtain ⟨self, -, rfl⟩ := hs
      split_ifs
      · rfl
      · rfl
    · cases hs
  | exit code =>
    simp only [run, exitCurrent, bind, Option.bind_eq_some_iff] at hs
    obtain ⟨c, -, hs⟩ := hs
    have hclock := startSchedule_clock hs
    exact hclock
  | wait4 pid =>
    simp only [run, wait4Start, bind, Option.bind_eq_some_iff] at hs
    obtain ⟨child, -, hs⟩ := hs
    cases child with
    | none =>
      cases hs
      rfl
    | some child =>
      obtain ⟨x, -, hs⟩ := Option.bind_eq_some_iff.1 hs
      split_ifs at hs
      · cases hs
        rfl
      · cases hs
        rfl
  | wait4Again =>
    simp only [run, Sched.wait4Again] at hs
    split at hs
    · obtain ⟨x, -, hs⟩ := Option.bind_eq_some_iff.1 hs
      split_ifs at hs
      · simp only [bind, Option.bind_eq_some_iff, pure, Option.some.injEq] at hs
        obtain ⟨s1, hu, s2, hf, rfl⟩ := hs
        exact (freeTask_clock hf).trans (unlink_clock hu)
      · exact startSchedule_clock hs
    · cases hs
  | yield => exact startSchedule_clock hs
  | timer => exact absurd rfl he
  | switch => exact absurd rfl hsw
  | archSetFs addr =>
    obtain ⟨c, -, rfl⟩ := Option.map_eq_some_iff.1 hs
    rfl
  | setLayout b c n =>
    cases hs
    rfl
  | edit e =>
    obtain ⟨m, -, rfl⟩ := Option.map_eq_some_iff.1 hs
    rfl

theorem finishSchedule_clock (h : finishSchedule s = some s') :
    s'.ticksLeft = TIMESLICE_TICKS ∧ s'.needResched = false := by
  unfold finishSchedule at h
  simp only [bind, Option.bind_eq_some_iff] at h
  obtain ⟨q, -, h⟩ := h
  split_ifs at h with hq
  · cases h
    exact ⟨rfl, rfl⟩
  · unfold switchTo at h
    simp only [bind, Option.bind_eq_some_iff, pure, Option.some.injEq] at h
    obtain ⟨old, -, x, -, rfl⟩ := h
    exact ⟨rfl, rfl⟩

/-- a timer interrupt takes a tick; the last one of the slice enters `schedule` -/
theorem timer_clock (h : Clock s) (hs : s.scheduling = false) (ht : timer s = some s') :
    s'.ticksLeft + 1 = s.ticksLeft ∧ Clock s' := by
  obtain ⟨hpos, hneed⟩ := h.running hs
  have hslice := h.slice
  have htick : tick s = { s with ticksLeft := s.ticksLeft - 1, needResched := s.ticksLeft == 1 } := by
    unfold tick
    rw [if_neg (by omega), hneed]
    rfl
  have hpred : s.ticksLeft - 1 + 1 = s.ticksLeft := Nat.succ_pred_eq_of_pos hpos
  simp only [timer, htick] at ht
  split_ifs at ht with hlast
  · have hclock := congrArg Prod.fst (startSchedule_clock ht)
    have hticks : s'.ticksLeft = s.ticksLeft - 1 := hclock
    refine ⟨by rw [hticks, hpred], by omega, fun hs' => ?_⟩
    -- inside `schedule`
    obtain ⟨s1, -, rfl⟩ := Option.map_eq_some_iff.1 ht
    cases hs'
  · cases ht
    have hne : s.ticksLeft ≠ 1 := by simpa using hlast
    refine ⟨hpred, (Nat.sub_le ..).trans hslice, fun _ => ⟨?_, ?_⟩⟩
    · show 0 < s.ticksLeft - 1
      omega
    · simpa using hne

theorem not_scheduling_timer (hs : step s .timer = some s') : s.scheduling = false ∧ timer s = some s' := by
  refine ⟨not_scheduling_of_step (by simp) hs, ?_⟩
  obtain ⟨self, -, hs⟩ := Option.bind_eq_some_iff.1 hs
  split_ifs at hs with hen
  exact hs

theorem switch_of_step (hs : step s .switch = some s') : s.scheduling = true ∧ finishSchedule s = some s' := by
  obtain ⟨self, -, hs⟩ := Option.bind_eq_some_iff.1 hs
  split_ifs at hs with hen
  rw [Bool.and_eq_true] at hen
  exact ⟨hen.2, hs⟩

theorem step_clock_inv (h : Clock s) (hs : step s e = some s') : Clock s' := by
  by_cases hsw : e = .switch
  · rw [hsw] at hs
    obtain ⟨ht, hn⟩ := finishSchedule_clock (switch_of_step hs).2
    refine ⟨ht.le, fun _ => ⟨?_, hn⟩⟩
    rw [ht]
    decide
  by_cases he : e = .timer
  · rw [he] at hs
    obtain ⟨hsch, ht⟩ := not_scheduling_timer hs
    exact (timer_clock h hsch ht).2
  obtain ⟨ht, hn⟩ := Prod.mk.inj (step_clock he hsw hs)
  refine ⟨ht ▸ h.slice, fun _ => ?_⟩
  rw [ht, hn]
  exact h.running (not_scheduling_of_step hsw hs)

theorem init_clock {boot idle : Ptr} {top : U64} {m : Machine} {cpu : Cpu} : Clock (init boot idle top m cpu) :=
  ⟨le_rfl, fun _ => ⟨Nat.succ_pos 19, rfl⟩⟩

end Clock

/-! ## Runs -/

section Runs

variable {s s' : Sys} {e : Event} {p : Ptr} {n : ℕ} {es : List Event} {l1 l2 : List Ptr} {boot idle : Ptr} {top : U64}
  {m : Machine} {cpu : Cpu}

/-- one step while p does not run: the tasks ahead -/
theorem step_ahead (h : Waiting s.abs p n) (hp : s'.current ≠ p) (hs : step s e = some s') :
    ∃ n', Waiting s'.abs p n' ∧ n' + e.isSwitch.toNat = n + e.creates.toNat := by
  by_cases he : e = .switch
  · subst he
    obtain ⟨hsch, hf⟩ := switch_of_step hs
    rcases finishSchedule_waiting h hsch hf with ⟨-, hrun⟩ | ⟨-, k, rfl, hw⟩
    · exact absurd hrun hp
    · exact ⟨k, hw, rfl⟩
  · have hno : e.isSwitch = false := by
      cases e with
      | switch => exact absurd rfl he
      | _ => rfl
    rw [hno]
    exact ⟨_, step_waiting h he hs, rfl⟩

/-- n tasks ahead of p, and the ticks left of the running one, are at most m ticks -/
def Due (p : Ptr) (s : Sys) (m : ℕ) : Prop :=
  Clock s ∧ ∃ n, Waiting s.abs p n ∧ TIMESLICE_TICKS * n + s.ticksLeft ≤ m

/-- one step while p does not run: the ticks -/
theorem step_due (h : Due p s n) (hp : s'.current ≠ p) (hs : step s e = some s') :
    ∃ n', Due p s' n' ∧ n' + e.isTimer.toNat = n + TIMESLICE_TICKS * e.creates.toNat := by
  obtain ⟨hc, k, hw, hle⟩ := h
  have hc' := step_clock_inv hc hs
  obtain ⟨k', hw', heq⟩ := step_ahead hw hp hs
  by_cases ht : e = .timer
  · subst ht
    obtain ⟨hsch, htm⟩ := not_scheduling_timer hs
    obtain ⟨htick, -⟩ := timer_clock hc hsch htm
    have hk : k' = k := heq
    subst hk
    refine ⟨n - 1, ⟨hc', k', hw', by omega⟩, ?_⟩
    show n - 1 + 1 = n + 0
    omega
  have hno : e.isTimer = false := by
    cases e with
    | timer => exact absurd rfl ht
    | _ => rfl
  rw [hno]
  refine ⟨n + TIMESLICE_TICKS * e.creates.toNat, ⟨hc', k', hw', ?_⟩, rfl⟩
  by_cases he : e = .switch
  · subst he
    rw [(finishSchedule_clock (switch_of_step hs).2).1]
    have hk : k' + 1 = k := heq
    subst hk
    rw [Nat.mul_succ] at hle
    show _ ≤ n + 0
    omega
  · have htick : s'.ticksLeft = s.ticksLeft := congrArg Prod.fst (step_clock ht he hs)
    have hk : k' = k + e.creates.toNat := by
      rw [← heq]
      cases e with
      | switch => exact absurd rfl he
      | _ => rfl
    rw [htick, hk, Nat.mul_add]
    omega

theorem sum_mul {f : Event → ℕ} (k : ℕ) : (es.map fun e => k * f e).sum = k * (es.map f).sum := List.sum_map_mul_left ..

/-- In the course of es, p runs. Before it come the n others and the tasks made until then, a switch for each, and at most
a time slice for each and for the one that runs at first. -/
def Served (s : Sys) (p : Ptr) (n : ℕ) (es : List Event) : Prop :=
  ∃ es1 es2 s1 s2, es = es1 ++ .switch :: es2 ∧ es1.foldlM step s = some s1 ∧ step s1 .switch = some s2 ∧
    s2.current = p ∧ Always step (fun x => x.current ≠ p) s es1 ∧ switches es1 = n + creations es1 ∧
      timers es1 ≤ TIMESLICE_TICKS * (n + creations es1 + 1)

theorem Waiting.ne (h : Waiting s.abs p n) : s.current ≠ p := by
  obtain ⟨l1, l2, hq, -⟩ := h
  rintro rfl
  exact (List.nodup_cons.1 hq.ring.nodup).1 (List.mem_append_right _ (List.mem_cons_self ..))

/-- as long as p does not run -/
theorem waiting_run (h : Waiting s.abs p n) (hc : Clock s) (hp : Always step (fun x => x.current ≠ p) s es)
    (hr : es.foldlM step s = some s') : ∃ n', Waiting s'.abs p n' ∧ n' + switches es = n + creations es ∧
      timers es ≤ TIMESLICE_TICKS * (n + creations es + 1) := by
  obtain ⟨n', hw', heq⟩ := run_potential (W := fun x k => Waiting x.abs p k) (fun x k e x' hw hpx hs => step_ahead hw hpx hs)
    h hp hr
  have hdue : Due p s (TIMESLICE_TICKS * n + TIMESLICE_TICKS) := ⟨hc, n, h, Nat.add_le_add_left hc.slice _⟩
  obtain ⟨k, -, hk⟩ := run_potential (fun x k e x' hw hpx hs => step_due hw hpx hs) hdue hp hr
  rw [sum_mul] at hk
  refine ⟨n', hw', heq, ?_⟩
  have hcr : (es.map fun e => e.creates.toNat).sum = creations es := rfl
  have htm : (es.map fun e => e.isTimer.toNat).sum = timers es := rfl
  rw [hcr, htm] at hk
  rw [Nat.mul_succ, Nat.mul_add]
  omega

/-- **Bounded wait.** In every run from `sched::init`, let p be ready and let n tasks that are not dead stand between the
running one and p. However the run goes on (system calls, exits, new tasks, interrupts, in any order), once it has more
switches than n and the tasks made meanwhile, or more timer interrupts than a time slice for each of these and one more,
p has run. -/
theorem bounded_wait (hne : boot ≠ idle) (es0 : List Event) (h0 : es0.foldlM step (init boot idle top m cpu) = some s)
    (hring : IsRing s.tb.next s.current (l1 ++ p :: l2)) (hp : (s.tb.task p).state = .Ready)
    (hn : (l1.filter s.tb.runnable).length = n) (hr : es.foldlM step s = some s')
    (hlong : n + creations es < switches es ∨ TIMESLICE_TICKS * (n + creations es + 1) < timers es) :
    Served s p n es := by
  obtain ⟨⟨l, hq⟩, hc⟩ := run_inv (I := fun s => (∃ l, Queue s.abs l) ∧ Clock s)
    (fun _ _ _ h hs => ⟨step_queue h.1 hs, step_clock_inv h.2 hs⟩) ⟨⟨_, init_queue hne⟩, init_clock⟩ h0
  have hl : l = l1 ++ p :: l2 := hq.ring.unique hring
  rw [hl] at hq
  have hw : Waiting s.abs p n := ⟨l1, l2, hq, hp, hn⟩
  rcases always_or_first (P := fun x => x.current ≠ p) hw.ne hr with ha | ⟨es1, e, es2, s1, s2, rfl, h1, ha, h2, hrun⟩
  · obtain ⟨n', -, heq, htm⟩ := waiting_run hw hc ha hr
    omega
  · -- the first step after which p runs
    obtain ⟨n', hw1, heq, htm⟩ := waiting_run hw hc ha h1
    have hrun' : s2.current = p := not_not.1 hrun
    have he : e = .switch := by
      by_contra he
      exact ha.last h1 ((step_current he h2).symm.trans hrun')
    subst he
    obtain ⟨hsch, hf⟩ := switch_of_step h2
    rcases finishSchedule_waiting hw1 hsch hf with ⟨rfl, -⟩ | ⟨hne', -⟩
    · rw [Nat.zero_add] at heq
      exact ⟨es1, es2, s1, s2, rfl, h1, h2, hrun', ha, heq, htm⟩
    · exact absurd hrun' hne'

/-- idle behind a new task, by two yields -/
theorem bounded_wait_idle : ∃ s, [Event.spawn 3 4096].foldlM step (init 1 2 8192 bootMachine ⟨0, 0, 0⟩) = some s ∧
    Served s 2 1 [.yield, .switch, .yield, .switch] := by
  obtain ⟨s, hs, hc, hl⟩ : ∃ s, [Event.spawn 3 4096].foldlM step (init 1 2 8192 bootMachine ⟨0, 0, 0⟩) = some s ∧
      s.current = 1 ∧ (s.tb.next 1 = 3 ∧ s.tb.next 3 = 2 ∧ s.tb.next 2 = 1) ∧ (s.tb.task 2).state = .Ready ∧
        (s.tb.task 3).state = .Ready ∧ ∃ s', [Event.yield, .switch, .yield, .switch].foldlM step s = some s' :=
    ⟨_, rfl, rfl, ⟨rfl, rfl, rfl⟩, rfl, rfl, _, rfl⟩
  obtain ⟨⟨h1, h2, h3⟩, hp, hq, s', hs'⟩ := hl
  have hring : IsRing s.tb.next s.current ([3] ++ 2 :: []) := by
    rw [hc]
    exact ⟨by decide, h1, h2, h3⟩
  have hn : ([3].filter s.tb.runnable).length = 1 := by
    simp [Table.runnable, hq]
  exact ⟨s, hs, bounded_wait (by decide) _ hs hring hp hn hs' (Or.inl (by decide))⟩

/-! ## A new task goes first -/

end Runs

end Retux.Sched
