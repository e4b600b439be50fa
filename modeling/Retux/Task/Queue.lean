/-
The run queue.

The tasks hang on one circular list through `next`, and the loops of `unlink_from_ring`, `next_ready_after` and
`find_task` walk it until they meet a given node. `Queue a l` says that the ring is sound: from `current_` the links lead
through l and back, over every task not yet freed and nothing else; it also carries what the moves need of states,
parents and wait4.

- `Move.queue`: every move keeps it;
- `prevOf_isSome`, `nextReadyAfter_eq`, `findTask_isSome`: on a sound ring the loops end;
- `run_queue`: after every run, and no event is ever stuck in a loop.
-/
import Mathlib.Tactic
import Retux.Lib.Ring
import Retux.Lib.Run
import Retux.Mem.Boot
import Retux.Task.Moves

namespace Retux.Sched

open Retux.Word Retux.Vmm Retux.Ring Retux.Run

/-- the link of a task -/
def Table.next (tb : Table) (p : Ptr) : Ptr := (tb.task p).next

structure Queue (a : Abs) (l : List Ptr) : Prop where
  ring : IsRing a.tb.next a.current l
  live : a.tb.live.Perm (a.current :: l)
  idle : a.idle ∈ a.tb.live ∧ (a.tb.task a.idle).state ≠ .Dead
  boot : a.boot ∈ a.tb.live ∧ (a.tb.task a.boot).state ≠ .Dead
  running : ∀ {p}, p ∈ a.tb.live → (a.tb.task p).state = .Running → p = a.current
  active : a.cur.state ≠ .Ready ∧ (a.scheduling = false → a.cur.state = .Running)
  zombie : ∀ {z}, a.zombie = some z → z ∈ a.tb.live ∧ (a.tb.task z).state = .Dead ∧ (a.tb.task z).parent = none
  parent : ∀ {p}, p ∈ a.tb.live → (a.tb.task p).parent ≠ some p
  wait : ∀ {p c}, p ∈ a.tb.live → a.cont p = .wait c → c ∈ a.tb.live ∧ (a.tb.task c).parent = some p

section Moves

variable {a a' : Abs} {l : List Ptr} {p q z : Ptr} {t x : Task}

theorem Queue.mem_live (h : Queue a l) : p ∈ a.tb.live ↔ p ∈ a.current :: l := h.live.mem_iff

theorem Queue.cur_live (h : Queue a l) : a.current ∈ a.tb.live := h.mem_live.2 (List.mem_cons_self ..)

theorem set_self {tb : Table} : (tb.set p t).task p = t := by rw [set_task, if_pos rfl]

theorem set_other {tb : Table} (hq : q ≠ p) : (tb.set p t).task q = tb.task q := by rw [set_task, if_neg hq]

/-- a field that an update of one task keeps -/
theorem set_keep {β : Type} {tb : Table} (f : Task → β) (hf : f t = f (tb.task p)) (q : Ptr) :
    f ((tb.set p t).task q) = f (tb.task q) := by
  by_cases hq : q = p
  · rw [hq, set_self, hf]
  · rw [set_other hq]

theorem mem_free {tb : Table} : p ∈ (tb.free q).live ↔ p ∈ tb.live ∧ p ≠ q := by
  show p ∈ tb.live.filter (· ≠ q) ↔ _
  rw [List.mem_filter]
  simp

/-- the new task of a spawn -/
theorem add_new (hpc : a.current ≠ p) : ((a.tb.add p x).set a.current { a.cur with next := p }).task p = x := by
  rw [set_other hpc.symm, add_self]

/-- the others, but for the running one's link -/
theorem add_old {β : Type} (f : Task → β) (hf : ∀ t n, f { t with next := n } = f t) (hp : p ∉ a.tb.live)
    (hq : q ∈ a.tb.live) : f (((a.tb.add p x).set a.current { a.cur with next := p }).task q) = f (a.tb.task q) := by
  have hqp : q ≠ p := by rintro rfl; exact hp hq
  by_cases hqc : q = a.current
  · rw [hqc, set_self]
    exact hf _ _
  · rw [set_other hqc]
    exact congrArg f (Function.update_of_ne hqp _ _)

/-- freeing a task changes one link -/
theorem drop_keep {β : Type} {prev : Ptr} (f : Task → β) (hf : ∀ t n, f { t with next := n } = f t) (p : Ptr) :
    f ((a.drop q prev).task p) = f (a.tb.task p) := set_keep f (hf _ _) p

theorem mem_drop {prev : Ptr} : p ∈ (a.drop q prev).live ↔ p ∈ a.tb.live ∧ p ≠ q := mem_free

/-- the running task's own fields -/
theorem Queue.touch {fs cr3 : U64} {c : Cont} (h : Queue a l)
    (hkeep : t.next = a.cur.next ∧ t.state = a.cur.state ∧ t.parent = a.cur.parent)
    (hc : c = a.cont a.current ∨ c = .own ∨ ∃ old, c = .execve old) :
    Queue { a with tb := a.tb.set a.current t, cpu := { a.cpu with fsBase := fs }, cr3 := cr3,
                   cont := Function.update a.cont a.current c } l := by
  obtain ⟨hn, hs, hp⟩ := hkeep
  have hnext : ∀ q, ((a.tb.set a.current t).task q).next = (a.tb.task q).next := set_keep Task.next hn
  have hstate : ∀ q, ((a.tb.set a.current t).task q).state = (a.tb.task q).state := set_keep Task.state hs
  have hparent : ∀ q, ((a.tb.set a.current t).task q).parent = (a.tb.task q).parent := set_keep Task.parent hp
  constructor
  · exact h.ring.congr fun q _ => hnext q
  · exact h.live
  · exact ⟨h.idle.1, by rw [hstate]; exact h.idle.2⟩
  · exact ⟨h.boot.1, by rw [hstate]; exact h.boot.2⟩
  · intro q hq hr
    rw [hstate] at hr
    exact h.running hq hr
  · unfold Abs.cur
    rw [hstate]
    exact h.active
  · intro z hz
    rw [hstate, hparent]
    exact h.zombie hz
  · intro q hq
    rw [hparent]
    exact h.parent hq
  · intro q c' hq hw
    rw [hparent]
    by_cases hqc : q = a.current
    · have hw' : c = .wait c' := by rw [hqc] at hw; simpa using hw
      rcases hc with rfl | rfl | ⟨old, rfl⟩
      · exact h.wait hq (by rw [hqc]; exact hw')
      · cases hw'
      · cases hw'
    · exact h.wait hq (by simpa [hqc] using hw)

/-- a new task after the running one -/
theorem Queue.add {n : ℕ} (h : Queue a l) (hp : p ∉ a.tb.live) (hnext : x.next = a.cur.next) (hst : x.state = .Ready)
    (hpar : x.parent = none ∨ x.parent = some a.current) :
    Queue { a with tb := (a.tb.add p x).set a.current { a.cur with next := p }, nextId := n,
                   cont := Function.update a.cont p .own } (p :: l) := by
  have hpc : a.current ≠ p := by rintro he; exact hp (he ▸ h.cur_live)
  have hne : ∀ {q}, q ∈ a.tb.live → q ≠ p := by rintro q hq rfl; exact hp hq
  have hnew : ((a.tb.add p x).set a.current { a.cur with next := p }).task p = x := add_new hpc
  have hstate : ∀ {q}, q ∈ a.tb.live → (((a.tb.add p x).set a.current { a.cur with next := p }).task q).state =
      (a.tb.task q).state := fun hq => add_old Task.state (fun _ _ => rfl) hp hq
  have hparent : ∀ {q}, q ∈ a.tb.live → (((a.tb.add p x).set a.current { a.cur with next := p }).task q).parent =
      (a.tb.task q).parent := fun hq => add_old Task.parent (fun _ _ => rfl) hp hq
  constructor
  · refine h.ring.insert (fun hm => hp (h.mem_live.2 hm)) ?_ ?_ ?_
    · show (((a.tb.add p x).set a.current { a.cur with next := p }).task a.current).next = p
      rw [set_self]
    · show (((a.tb.add p x).set a.current { a.cur with next := p }).task p).next = _
      rw [hnew]
      exact hnext
    · intro q hq
      have hqc : q ≠ a.current := by rintro rfl; exact (List.nodup_cons.1 h.ring.nodup).1 hq
      show (((a.tb.add p x).set a.current { a.cur with next := p }).task q).next = (a.tb.task q).next
      rw [set_other hqc]
      exact congrArg Task.next (Function.update_of_ne (hne (h.mem_live.2 (List.mem_cons_of_mem _ hq))) _ _)
  · exact (h.live.cons p).trans (List.Perm.swap ..)
  · exact ⟨List.mem_cons_of_mem _ h.idle.1, by rw [hstate h.idle.1]; exact h.idle.2⟩
  · exact ⟨List.mem_cons_of_mem _ h.boot.1, by rw [hstate h.boot.1]; exact h.boot.2⟩
  · intro q hq hr
    rcases List.mem_cons.1 hq with rfl | hq
    · rw [hnew, hst] at hr
      cases hr
    · rw [hstate hq] at hr
      exact h.running hq hr
  · have hcs := hstate h.cur_live
    exact ⟨fun hr => h.active.1 (hcs.symm.trans hr), fun hs => hcs.trans (h.active.2 hs)⟩
  · intro z hz
    obtain ⟨h1, h2, h3⟩ := h.zombie hz
    rw [hstate h1, hparent h1]
    exact ⟨List.mem_cons_of_mem _ h1, h2, h3⟩
  · intro q hq
    rcases List.mem_cons.1 hq with rfl | hq
    · rw [hnew]
      rcases hpar with h0 | h0
      · rw [h0]
        simp
      · rw [h0]
        exact fun he => hpc (Option.some.inj he)
    · rw [hparent hq]
      exact h.parent hq
  · intro q c hq hw
    have hw' : Function.update a.cont p .own q = .wait c := hw
    rcases List.mem_cons.1 hq with rfl | hq
    · rw [Function.update_self] at hw'
      cases hw'
    · rw [Function.update_of_ne (hne hq)] at hw'
      obtain ⟨h1, h2⟩ := h.wait hq hw'
      exact ⟨List.mem_cons_of_mem _ h1, by rw [hparent h1]; exact h2⟩

/-- a task unlinked and freed, with its pointer out of `zombie_` and of wait4 -/
theorem Queue.drop {prev : Ptr} {z' : Option Ptr} {c' : Ptr → Cont} (h : Queue a l) (ht : q ∈ a.tb.live)
    (hqc : q ≠ a.current) (hqd : (a.tb.task q).state = .Dead) (hprev : prev ∈ a.tb.live)
    (hlink : (a.tb.task prev).next = q) (hz : ∀ {z}, z' = some z → a.zombie = some z ∧ z ≠ q)
    (hcont : ∀ p, c' p = a.cont p ∨ c' p = .own) (hw : ∀ p ∈ a.tb.live, c' p ≠ .wait q) :
    Queue { a with tb := a.drop q prev, zombie := z', cont := c' } (l.erase q) := by
  have hql : q ∈ l := by
    rcases List.mem_cons.1 (h.mem_live.1 ht) with he | hm
    · exact absurd he hqc
    · exact hm
  have hlive : ∀ {p}, p ∈ (a.drop q prev).live ↔ p ∈ a.tb.live ∧ p ≠ q := mem_drop
  have hqi : a.idle ≠ q := by rintro he; exact h.idle.2 (he ▸ hqd)
  have hqb : a.boot ≠ q := by rintro he; exact h.boot.2 (he ▸ hqd)
  have hstate : ∀ p, ((a.drop q prev).task p).state = (a.tb.task p).state := drop_keep Task.state fun _ _ => rfl
  have hparent : ∀ p, ((a.drop q prev).task p).parent = (a.tb.task p).parent := drop_keep Task.parent fun _ _ => rfl
  constructor
  · refine h.ring.erase hql (h.mem_live.1 hprev) hlink ?_ fun p _ hp => ?_
    · show ((a.tb.set prev _).task prev).next = _
      rw [set_self]
      rfl
    · show ((a.tb.set prev _).task p).next = _
      rw [set_other hp]
      rfl
  · have hnd : a.tb.live.Nodup := h.live.nodup_iff.2 h.ring.nodup
    have hfree : (a.drop q prev).live = a.tb.live.erase q := by
      rw [hnd.erase_eq_filter]
      exact List.filter_congr fun x _ => by rw [Bool.eq_iff_iff]; simp
    rw [hfree]
    have := h.live.erase q
    rwa [List.erase_cons_tail (by simpa using hqc.symm)] at this
  · exact ⟨hlive.2 ⟨h.idle.1, hqi⟩, by rw [hstate]; exact h.idle.2⟩
  · exact ⟨hlive.2 ⟨h.boot.1, hqb⟩, by rw [hstate]; exact h.boot.2⟩
  · intro p hp hr
    rw [hstate] at hr
    exact h.running (hlive.1 hp).1 hr
  · unfold Abs.cur
    rw [hstate]
    exact h.active
  · intro z hz'
    obtain ⟨hz1, hne⟩ := hz hz'
    obtain ⟨h1, h2, h3⟩ := h.zombie hz1
    rw [hstate, hparent]
    exact ⟨hlive.2 ⟨h1, hne⟩, h2, h3⟩
  · intro p hp
    rw [hparent]
    exact h.parent (hlive.1 hp).1
  · intro p c hp hpc
    have hpc' : a.cont p = .wait c := by
      rcases hcont p with he | he
      · rw [← he]
        exact hpc
      · rw [show c' p = .wait c from hpc] at he
        cases he
    obtain ⟨h1, h2⟩ := h.wait (hlive.1 hp).1 hpc'
    rw [hparent]
    refine ⟨hlive.2 ⟨h1, ?_⟩, h2⟩
    rintro rfl
    exact hw p (hlive.1 hp).1 hpc

/-- into `schedule` -/
theorem Queue.enter (h : Queue a l) : Queue { a with scheduling := true } l :=
  ⟨h.ring, h.live, h.idle, h.boot, h.running, ⟨h.active.1, fun hf => nomatch hf⟩, h.zombie, h.parent, h.wait⟩

/-- `zombie_` freed: nobody waits for it -/
theorem Queue.reap {prev : Ptr} (h : Queue a l) (hz : a.zombie = some z) (hzc : z ≠ a.current) (hzl : z ∈ a.tb.live)
    (hprev : prev ∈ a.tb.live) (hlink : (a.tb.task prev).next = z) :
    Queue { a with tb := a.drop z prev, zombie := none } (l.erase z) := by
  obtain ⟨-, hd, hp⟩ := h.zombie hz
  refine h.drop hzl hzc hd hprev hlink (fun hn => nomatch hn) (fun _ => Or.inl rfl) fun p hp' hw => ?_
  rw [(h.wait hp' hw).2] at hp
  cases hp

/-- the running task is dead -/
theorem Queue.exit (code : U64) (h : Queue a l)
    (hi : a.current ≠ a.idle ∧ a.current ≠ a.boot) :
    Queue { a with
      tb := a.tb.set a.current { a.cur with exitCode := code, state := .Dead },
      zombie := if a.cur.parent = none then some a.current else a.zombie, scheduling := true } l := by
  have hself : (a.tb.set a.current { a.cur with exitCode := code, state := .Dead }).task a.current =
      { a.cur with exitCode := code, state := .Dead } := set_self
  have hnext := set_keep (t := { a.cur with exitCode := code, state := .Dead }) (p := a.current) Task.next rfl
  have hparent := set_keep (t := { a.cur with exitCode := code, state := .Dead }) (p := a.current) Task.parent rfl
  constructor
  · exact h.ring.congr fun q _ => hnext q
  · exact h.live
  · exact ⟨h.idle.1, by rw [set_other hi.1.symm]; exact h.idle.2⟩
  · exact ⟨h.boot.1, by rw [set_other hi.2.symm]; exact h.boot.2⟩
  · intro q hq hr
    by_cases hqc : q = a.current
    · exact hqc
    · rw [set_other hqc] at hr
      exact h.running hq hr
  · refine ⟨fun hr => ?_, fun hf => nomatch hf⟩
    have hd : State.Dead = State.Ready := (congrArg Task.state hself).symm.trans hr
    cases hd
  · intro z hz
    have hz' : (if a.cur.parent = none then some a.current else a.zombie) = some z := hz
    rw [hparent]
    split_ifs at hz' with hpar
    · cases hz'
      exact ⟨h.cur_live, congrArg Task.state hself, hpar⟩
    · obtain ⟨h1, h2, h3⟩ := h.zombie hz'
      refine ⟨h1, ?_, h3⟩
      by_cases hzc : z = a.current
      · rw [hzc]
        exact congrArg Task.state hself
      · rw [set_other hzc]
        exact h2
  · intro q hq
    rw [hparent]
    exact h.parent hq
  · intro q c hq hw
    rw [hparent]
    exact h.wait hq hw

/-- a switch kills and revives nobody -/
theorem switch_dead {tb : Table} {c : Ptr} (hqd : (tb.task q).state ≠ .Dead) :
    (((tb.set c { tb.task c with state := if (tb.task c).state = .Running then .Ready else (tb.task c).state }).set q
      { tb.task q with state := .Running }).task p).state = .Dead ↔ (tb.task p).state = .Dead := by
  by_cases hp : p = q
  · rw [hp, set_self]
    exact ⟨fun hd => (nomatch hd), fun hd => absurd hd hqd⟩
  · rw [set_other hp]
    by_cases hp' : p = c
    · rw [hp', set_self]
      show (if (tb.task c).state = .Running then State.Ready else (tb.task c).state) = .Dead ↔ (tb.task c).state = .Dead
      cases (tb.task c).state <;> simp
    · rw [set_other hp']

/-- a switch changes two states -/
theorem switch_keep {β : Type} {tb : Table} {c : Ptr} {s1 s2 : State} (f : Task → β)
    (hf : ∀ t st, f { t with state := st } = f t) (p : Ptr) :
    f (((tb.set c { tb.task c with state := s1 }).set q { tb.task q with state := s2 }).task p) = f (tb.task p) := by
  by_cases hp : p = q
  · rw [hp, set_self, hf]
  · rw [set_other hp]
    exact set_keep f (hf _ _) p

/-- another task runs -/
theorem Queue.switch {l1 l2 : List Ptr} (h : Queue a (l1 ++ q :: l2)) (hqc : q ≠ a.current)
    (hst : (a.tb.task q).state = .Ready ∨ q = a.idle) {cpu : Cpu} {cr3 : U64} :
    Queue { a with
      tb := (a.tb.set a.current { a.cur with state := if a.cur.state = .Running then .Ready else a.cur.state }).set q
        { a.tb.task q with state := .Running },
      current := q, cpu := cpu, cr3 := cr3, scheduling := false } (l2 ++ a.current :: l1) := by
  generalize htb : (a.tb.set a.current _).set q _ = tb'
  have hself : tb'.task q = { a.tb.task q with state := .Running } := by rw [← htb, set_self]
  have hcur : tb'.task a.current = { a.cur with state := if a.cur.state = .Running then .Ready else a.cur.state } := by
    rw [← htb, set_other hqc.symm, set_self]
  have hother : ∀ {p}, p ≠ q → p ≠ a.current → tb'.task p = a.tb.task p := fun hp hp' => by
    rw [← htb, set_other hp, set_other hp']
  -- links and parents stay
  have hnext : ∀ p, (tb'.task p).next = (a.tb.task p).next := fun p => by
    rw [← htb]
    exact switch_keep Task.next (fun _ _ => rfl) p
  have hparent : ∀ p, (tb'.task p).parent = (a.tb.task p).parent := fun p => by
    rw [← htb]
    exact switch_keep Task.parent (fun _ _ => rfl) p
  have hlive : tb'.live = a.tb.live := by rw [← htb]; rfl
  have hqd : (a.tb.task q).state ≠ .Dead := by
    rcases hst with hr | hi
    · rw [hr]
      decide
    · rw [hi]
      exact h.idle.2
  have hdead : ∀ p, (tb'.task p).state = .Dead ↔ (a.tb.task p).state = .Dead := by
    intro p
    rw [← htb]
    exact switch_dead hqd
  constructor
  · exact h.ring.rotate.congr fun p _ => hnext p
  · rw [hlive]
    have hperm : (a.current :: l1 ++ q :: l2).Perm (q :: l2 ++ a.current :: l1) := List.perm_append_comm
    exact h.live.trans hperm
  · rw [hlive]
    exact ⟨h.idle.1, fun hd => h.idle.2 ((hdead _).1 hd)⟩
  · rw [hlive]
    exact ⟨h.boot.1, fun hd => h.boot.2 ((hdead _).1 hd)⟩
  · intro p hp hr
    rw [hlive] at hp
    by_contra hpq
    have hpq' : p ≠ q := hpq
    by_cases hpc : p = a.current
    · rw [hpc, hcur] at hr
      simp only at hr
      split_ifs at hr with hrun
      exact hrun hr
    · rw [hother hpq' hpc] at hr
      exact hpc (h.running hp hr)
  · have hrun : (tb'.task q).state = .Running := by rw [hself]
    refine ⟨fun hr => ?_, fun _ => hrun⟩
    rw [show (tb'.task q).state = .Ready from hr] at hrun
    cases hrun
  · intro z hz
    obtain ⟨h1, h2, h3⟩ := h.zombie hz
    rw [hlive, hparent]
    exact ⟨h1, (hdead z).2 h2, h3⟩
  · intro p hp
    rw [hlive] at hp
    rw [hparent]
    exact h.parent hp
  · intro p c hp hw
    rw [hlive] at hp ⊢
    rw [hparent]
    exact h.wait hp hw

/-- out of `schedule` with the same task -/
theorem Queue.stay (h : Queue a l) (hst : a.cur.state = .Running ∨ a.current = a.idle) :
    Queue { a with scheduling := false } l := by
  refine ⟨h.ring, h.live, h.idle, h.boot, h.running, ⟨h.active.1, fun _ => ?_⟩, h.zombie, h.parent, h.wait⟩
  rcases hst with hr | hi
  · exact hr
  · have hnd : a.cur.state ≠ .Dead := by
      have := h.idle.2
      rw [← hi] at this
      exact this
    have hnr := h.active.1
    cases hst : a.cur.state with
    | Ready => exact absurd hst hnr
    | Running => exact hst
    | Dead => exact absurd hst hnd

/-- **Every move keeps the queue.** -/
theorem Move.queue {act : Act} (hm : Move a act a') (h : Queue a l) : ∃ l', Queue a' l' := by
  cases hm with
  | touch hs hkeep hfs hcr3 hc => exact ⟨l, h.touch ⟨hkeep.1, hkeep.2.1, hkeep.2.2.1⟩ hc⟩
  | add hs hown hp0 hp hnext hst hid hpar =>
    exact ⟨_, h.add hp hnext hst (hpar.imp_right And.left)⟩
  | @wait c hs hown hc hpar =>
    refine ⟨l, h.ring, h.live, h.idle, h.boot, h.running, h.active, h.zombie, h.parent, fun {p c'} hp hw => ?_⟩
    have hw' : Function.update a.cont a.current (.wait c) p = .wait c' := hw
    by_cases hpc : p = a.current
    · rw [hpc, Function.update_self] at hw'
      cases hw'
      exact ⟨hc, by rw [hpc]; exact hpar⟩
    · rw [Function.update_of_ne hpc] at hw'
      exact h.wait hp hw'
  | enter hs hc => exact ⟨l, h.enter⟩
  | exit hs hown hi => exact ⟨l, h.exit _ hi⟩
  | reap hz hzc hs hzl hprev hlink => exact ⟨_, h.reap hz hzc hzl hprev hlink⟩
  | @collect c prev hs hw hd hcl hprev hlink =>
    obtain ⟨-, hpar⟩ := h.wait h.cur_live hw
    have hcc : c ≠ a.current := by rintro rfl; exact h.parent h.cur_live hpar
    refine ⟨_, h.drop hcl hcc hd hprev hlink (fun {z} hz => ⟨hz, ?_⟩) (fun p => ?_) fun p hp hwp => ?_⟩
    · rintro rfl
      rw [(h.zombie hz).2.2] at hpar
      cases hpar
    · by_cases hpc : p = a.current
      · exact Or.inr (by rw [hpc, Function.update_self])
      · exact Or.inl (by rw [Function.update_of_ne hpc])
    -- only the parent waits for a task
    · by_cases hpc : p = a.current
      · rw [hpc, Function.update_self] at hwp
        cases hwp
      · rw [Function.update_of_ne hpc] at hwp
        have hpar' := (h.wait hp hwp).2
        rw [hpar] at hpar'
        exact hpc (Option.some.inj hpar').symm
  | stay hs hst => exact ⟨l, h.stay hst⟩
  | @switch q hs hql hqc hst =>
    obtain ⟨l1, l2, rfl⟩ := List.append_of_mem (show q ∈ l from (List.mem_cons.1 (h.mem_live.1 hql)).resolve_left hqc)
    exact ⟨_, h.switch hqc (hst.imp_right And.left)⟩

end Moves

/-! ## The loops -/

section Loops

variable {tb : Table} {t u start : Ptr} {l : List Ptr} {n : ℕ}

theorem prevOf_isSome (h : Path tb.next u l t) (hl : ∀ x ∈ u :: l, x ∈ tb.live) (hn : l.length < n) :
    (prevOf tb t n u).isSome := by
  induction l generalizing u n with
  | nil =>
    obtain ⟨n, rfl⟩ : ∃ k, n = k + 1 := ⟨n - 1, by simp at hn; omega⟩
    rw [prevOf, get_some.2 ⟨hl u (List.mem_cons_self ..), rfl⟩, Option.bind_some, if_pos (show (tb.task u).next = t from h)]
    rfl
  | cons x l ih =>
    obtain ⟨n, rfl⟩ : ∃ k, n = k + 1 := ⟨n - 1, by simp at hn; omega⟩
    rw [prevOf, get_some.2 ⟨hl u (List.mem_cons_self ..), rfl⟩, Option.bind_some]
    split_ifs
    · rfl
    · have hx : (tb.task u).next = x := h.1
      rw [hx]
      exact ih h.2 (fun y hy => hl y (List.mem_cons_of_mem _ hy)) (by simpa using hn)

theorem findTask_isSome {id : ℕ} (h : Path tb.next u l start) (hl : ∀ x ∈ u :: l, x ∈ tb.live) (hn : l.length < n) :
    (findTask tb id start n u).isSome := by
  induction l generalizing u n with
  | nil =>
    obtain ⟨n, rfl⟩ : ∃ k, n = k + 1 := ⟨n - 1, by simp at hn; omega⟩
    rw [findTask, get_some.2 ⟨hl u (List.mem_cons_self ..), rfl⟩, Option.bind_some,
      if_pos (show (tb.task u).next = start from h)]
    split_ifs <;> rfl
  | cons x l ih =>
    obtain ⟨n, rfl⟩ : ∃ k, n = k + 1 := ⟨n - 1, by simp at hn; omega⟩
    have hnext : (tb.task u).next = x := h.1
    rw [findTask, get_some.2 ⟨hl u (List.mem_cons_self ..), rfl⟩, Option.bind_some]
    split_ifs
    · rfl
    · rfl
    · rw [hnext]
      exact ih h.2 (fun y hy => hl y (List.mem_cons_of_mem _ hy)) (by simp at hn; omega)

theorem findTask_live {id : ℕ} {c : Ptr} (h : findTask tb id start n u = some (some c)) : c ∈ tb.live := by
  induction n generalizing u with
  | zero => cases h
  | succ n ih =>
    rw [findTask] at h
    obtain ⟨x, hx, h⟩ := Option.bind_eq_some_iff.1 h
    split_ifs at h
    · cases h
      exact (get_some.1 hx).1
    · cases h
    · exact ih h

end Loops

/-! ## Progress -/

section Progress

variable {s : Sys} {l : List Ptr} {t : Ptr}

theorem fuel_eq (hl : s.tb.live.Perm (s.current :: l)) : s.fuel = l.length + 2 := by
  unfold Sys.fuel
  rw [hl.length_eq]
  rfl

theorem get_live {tb : Table} (ht : t ∈ tb.live) : tb.get t = some (tb.task t) := get_some.2 ⟨ht, rfl⟩

/-- **Unlinking ends**, for every task but the running one. -/
theorem unlink_isSome (hr : IsRing s.tb.next s.current l) (hl : s.tb.live.Perm (s.current :: l)) (ht : t ∈ s.tb.live)
    (htc : t ≠ s.current) : (unlinkFromRing s t).isSome := by
  obtain ⟨l1, l2, rfl⟩ := List.append_of_mem (show t ∈ l from (List.mem_cons.1 (hl.mem_iff.1 ht)).resolve_left htc)
  have hprev : (prevOf s.tb t s.fuel s.current).isSome := by
    refine prevOf_isSome (path_append.1 hr.path).1 (fun x hx => hl.mem_iff.2 ?_) ?_
    · exact List.mem_append_left (t :: l2) hx
    · rw [fuel_eq hl]
      simp only [List.length_append, List.length_cons]
      omega
  obtain ⟨prev, hp⟩ := Option.isSome_iff_exists.1 hprev
  unfold unlinkFromRing
  simp only [hp, bind, Option.bind_some, get_live ht, get_live (prevOf_some hp).1]
  rfl

/-- **The search** for a ready task is `find?` along the ring. -/
theorem nextReadyAfter_eq {a b : Ptr} (h : Path tb.next a l b) (hl : ∀ x ∈ l, x ∈ tb.live) (hb : b ∉ l) (hn : l.length < n) :
    nextReadyAfter tb b n (tb.next a) = some (l.find? fun p => (tb.task p).state = .Ready) := by
  induction l generalizing a n with
  | nil =>
    obtain ⟨n, rfl⟩ : ∃ k, n = k + 1 := ⟨n - 1, by simp at hn; omega⟩
    rw [show tb.next a = b from h, nextReadyAfter, if_pos rfl, List.find?_nil]
  | cons x l ih =>
    obtain ⟨n, rfl⟩ : ∃ k, n = k + 1 := ⟨n - 1, by simp at hn; omega⟩
    have hxb : x ≠ b := by rintro rfl; exact hb (List.mem_cons_self ..)
    rw [h.1, nextReadyAfter, if_neg hxb, get_live (hl x (List.mem_cons_self ..)), Option.bind_some, List.find?_cons]
    by_cases hr : (tb.task x).state = .Ready
    · rw [if_pos hr]
      simp [hr]
    · rw [if_neg hr]
      have hih := ih h.2 (fun y hy => hl y (List.mem_cons_of_mem _ hy)) (fun hm => hb (List.mem_cons_of_mem _ hm))
        (by simpa using hn)
      simp only [hr, decide_false]
      exact hih

theorem search_eq (hr : IsRing s.tb.next s.current l) (hl : s.tb.live.Perm (s.current :: l)) :
    nextReadyAfter s.tb s.current s.fuel (s.tb.task s.current).next =
      some (l.find? fun p => (s.tb.task p).state = .Ready) := by
  refine nextReadyAfter_eq hr.path (fun x hx => hl.mem_iff.2 (List.mem_cons_of_mem _ hx)) (List.nodup_cons.1 hr.nodup).1 ?_
  rw [fuel_eq hl]
  omega

theorem pick_isSome (hr : IsRing s.tb.next s.current l) (hl : s.tb.live.Perm (s.current :: l)) : (pick s).isSome := by
  unfold pick
  simp only [get_live (hl.mem_iff.2 (List.mem_cons_self ..)), bind, Option.bind_some, search_eq hr hl]
  rfl

/-- a task unlinked can be freed -/
theorem drop_isSome (hr : IsRing s.tb.next s.current l) (hl : s.tb.live.Perm (s.current :: l)) (ht : t ∈ s.tb.live)
    (htc : t ≠ s.current) : ∃ s1 s2, unlinkFromRing s t = some s1 ∧ freeTask s1 t = some s2 := by
  obtain ⟨s1, hu⟩ := Option.isSome_iff_exists.1 (unlink_isSome hr hl ht htc)
  have hlive : s1.tb.live = s.tb.live := by
    unfold unlinkFromRing at hu
    simp only [bind, Option.bind_eq_some_iff, pure, Option.some.injEq] at hu
    obtain ⟨prev, -, x, -, y, -, rfl⟩ := hu
    rfl
  have hfree : (freeTask s1 t).isSome := by
    unfold freeTask
    rw [get_live (by rw [hlive]; exact ht)]
    rfl
  obtain ⟨s2, hf⟩ := Option.isSome_iff_exists.1 hfree
  exact ⟨s1, s2, hu, hf⟩

theorem startSchedule_isSome (hr : IsRing s.tb.next s.current l) (hl : s.tb.live.Perm (s.current :: l))
    (hz : ∀ {z}, s.zombie = some z → z ∈ s.tb.live) : (startSchedule s).isSome := by
  unfold startSchedule reapZombie
  cases hzo : s.zombie with
  | none => rfl
  | some z =>
    simp only
    split_ifs with hzc
    · rfl
    · obtain ⟨s1, s2, hu, hf⟩ := drop_isSome hr hl (hz hzo) hzc
      simp only [hu, hf, bind, Option.bind_some]
      rfl

/-- events that allocate frames; these can find none left -/
def Event.needsFrames : Event → Bool
  | .spawnFromElf _ _ | .fork _ _ | .forkFail | .execve | .edit _ => true
  | _ => false

/-- **Nothing is stuck.** An event that can happen, does: its loops end and follow no freed task. -/
theorem Queue.progress {e : Event} (h : Queue s.abs l) (he : e.needsFrames = false)
    (hal : e.allowed s (s.tb.task s.current) = true) (hat : e.atCont (s.cont s.current) s.scheduling = true) :
    (step s e).isSome := by
  have hcur : s.current ∈ s.tb.live := h.cur_live
  have hz : ∀ {z}, s.zombie = some z → z ∈ s.tb.live := fun hz => (h.zombie hz).1
  have hstep : step s e = run s (s.tb.task s.current) e := by
    unfold step
    rw [get_live hcur, Option.bind_some, hal, hat]
    rfl
  rw [hstep]
  cases e with
  | spawn p top =>
    simp only [run, spawn, get_live hcur]
    rfl
  | spawnFromElf p top => cases he
  | fork p top => cases he
  | forkFail => cases he
  | execve => cases he
  | execveFail image =>
    obtain ⟨old, hold⟩ := execve_of_at hat
    simp only [run, Sched.execveFail, hold, get_live hcur]
    rfl
  | execveCommit highest base =>
    obtain ⟨old, hold⟩ := execve_of_at hat
    simp only [run, Sched.execveCommit, hold, get_live hcur]
    rfl
  | exit code =>
    obtain ⟨hs, hown⟩ := own_of_at hat
    have hi : s.current ≠ s.idle ∧ s.current ≠ s.boot := by simpa [Event.allowed] using hal
    -- the ring of the state with the running task marked dead
    have hx := h.exit code hi
    simp only [run, exitCurrent, get_live hcur, bind, Option.bind_some]
    exact startSchedule_isSome hx.ring hx.live fun hz => (hx.zombie hz).1
  | wait4 pid =>
    have hfind : (findTask s.tb pid s.current s.fuel s.current).isSome := by
      refine findTask_isSome h.ring.path (fun x hx => h.mem_live.2 hx) ?_
      rw [fuel_eq h.live]
      omega
    obtain ⟨r, hr⟩ := Option.isSome_iff_exists.1 hfind
    simp only [run, wait4Start, hr, bind, Option.bind_some]
    cases r with
    | none => rfl
    | some c =>
      simp only [get_live (findTask_live hr), Option.bind_some]
      split_ifs <;> rfl
  | wait4Again =>
    obtain ⟨c, hw⟩ : ∃ c, s.cont s.current = .wait c := by
      cases hc : s.cont s.current with
      | wait c => exact ⟨c, rfl⟩
      | own => simp [Event.atCont, hc] at hat
      | execve old => simp [Event.atCont, hc] at hat
    obtain ⟨hcl, hpar⟩ : c ∈ s.tb.live ∧ (s.tb.task c).parent = some s.current := h.wait hcur hw
    have hcc : c ≠ s.current := by rintro rfl; exact h.parent hcur hpar
    simp only [run, Sched.wait4Again, hw, bind, get_live hcl, Option.bind_some]
    split_ifs
    · obtain ⟨s1, s2, hu, hf⟩ := drop_isSome h.ring h.live hcl hcc
      simp only [hu, hf, Option.bind_some]
      rfl
    · exact startSchedule_isSome h.ring h.live hz
  | yield => exact startSchedule_isSome h.ring h.live hz
  | timer =>
    obtain ⟨h1, h2, -, h4, -⟩ := tick_rest (s := s)
    simp only [run, timer]
    split_ifs
    · refine startSchedule_isSome (l := l) ?_ ?_ ?_
      · rw [h1, h2]
        exact h.ring
      · rw [h1, h2]
        exact h.live
      · rw [h1, h4]
        exact hz
    · rfl
  | switch =>
    obtain ⟨q, hq⟩ := Option.isSome_iff_exists.1 (pick_isSome h.ring h.live)
    simp only [run, finishSchedule, hq, bind, Option.bind_some]
    split_ifs with hqc
    · rfl
    · have hql : q ∈ s.tb.live := by
        rcases pick_spec hq with ⟨hl, -⟩ | ⟨rfl, -⟩ | ⟨rfl, -⟩
        · exact hl
        · exact hcur
        · exact h.idle.1
      simp only [switchTo, get_live hcur, bind, Option.bind_some]
      rw [get_live (by exact hql)]
      rfl
  | archSetFs addr =>
    simp only [run, archSetFs, get_live hcur]
    rfl
  | setLayout b c n => rfl
  | edit e => cases he

end Progress

/-! ## Runs -/

section Runs

variable {s s' : Sys} {l : List Ptr} {boot idle : Ptr} {top : U64} {m : Machine} {cpu : Cpu}

theorem step_queue {e : Event} (h : ∃ l, Queue s.abs l) (hs : step s e = some s') : ∃ l, Queue s'.abs l := by
  obtain ⟨l, h⟩ := h
  cases step_shape hs with
  | quiet hr ha heq =>
    rw [heq]
    exact ⟨l, h⟩
  | one hr ha hact hm => exact hm.queue h
  | add hr ha hm hpar => exact hm.queue h
  | collect he hm => exact hm.queue h
  | sched hact hm hrest =>
    obtain ⟨l1, h1⟩ := hm.queue h
    rcases hrest with ⟨heq, -⟩ | ⟨z, hm'⟩
    · rw [heq]
      exact ⟨l1, h1⟩
    · exact hm'.queue h1

/-- `sched::init`: boot, then idle, then boot -/
theorem init_queue (hne : boot ≠ idle) : Queue (init boot idle top m cpu).abs [idle] := by
  constructor
  · refine ⟨by show [boot, idle].Nodup; simpa using hne, ?_, ?_⟩
    · show ((init boot idle top m cpu).tb.task boot).next = idle
      rw [init_boot hne]
    · show ((init boot idle top m cpu).tb.task idle).next = boot
      rw [init_idle]
  · exact List.Perm.swap ..
  · exact ⟨List.mem_cons_self .., by show ((init boot idle top m cpu).tb.task idle).state ≠ _; rw [init_idle]; simp [create]⟩
  · refine ⟨List.mem_cons_of_mem _ (List.mem_cons_self ..), ?_⟩
    show ((init boot idle top m cpu).tb.task boot).state ≠ _
    rw [init_boot hne]
    simp
  · intro p hp hr
    have hp' : p ∈ (init boot idle top m cpu).tb.live := hp
    rcases init_live hp' with rfl | rfl
    · have hr' : ((init boot p top m cpu).tb.task p).state = .Running := hr
      rw [init_idle] at hr'
      cases hr'
    · rfl
  · have hrun : ((init boot idle top m cpu).tb.task boot).state = .Running := by rw [init_boot hne]
    refine ⟨fun hr => ?_, fun _ => hrun⟩
    rw [show ((init boot idle top m cpu).tb.task boot).state = .Ready from hr] at hrun
    cases hrun
  · intro z hz
    cases hz
  · intro p hp
    have hnone : ((init boot idle top m cpu).tb.task p).parent = none := (init_kernel hne hp).2
    show ((init boot idle top m cpu).tb.task p).parent ≠ _
    rw [hnone]
    simp
  · intro p c hp hw
    cases hw

/-- a sound run queue: what the scheduler's loops rely on -/
structure RunQueue (s : Sys) : Prop where
  /-- one cycle without repeats, over exactly the tasks not yet freed -/
  ring : ∃ l, IsRing s.tb.next s.current l ∧ ∀ p, p ∈ s.tb.live ↔ p ∈ s.current :: l
  members : s.boot ∈ s.tb.live ∧ s.idle ∈ s.tb.live
  /-- exactly one task runs: inside `schedule` the old one may be dead already -/
  running : ∀ p ∈ s.tb.live, (s.tb.task p).state = .Running → p = s.current
  current : s.scheduling = false → (s.tb.task s.current).state = .Running
  idle : (s.tb.task s.idle).state ≠ .Dead
  zombie : ∀ z, s.zombie = some z → z ∈ s.tb.live ∧ (s.tb.task z).state = .Dead
  /-- the loops end, and follow no freed task -/
  unlink : ∀ t ∈ s.tb.live, t ≠ s.current → (unlinkFromRing s t).isSome
  search : (nextReadyAfter s.tb s.current s.fuel (s.tb.task s.current).next).isSome
  find : ∀ id, (findTask s.tb id s.current s.fuel s.current).isSome
  progress : ∀ e : Event, e.needsFrames = false → e.allowed s (s.tb.task s.current) = true →
    e.atCont (s.cont s.current) s.scheduling = true → (step s e).isSome

/-- **The run queue.** In every state of every run from `sched::init`, the ring is sound and its loops end. -/
theorem run_queue (hne : boot ≠ idle) (es : List Event) (hrun : es.foldlM step (init boot idle top m cpu) = some s) :
    RunQueue s := by
  obtain ⟨l, h⟩ := run_inv (I := fun s => ∃ l, Queue s.abs l) (fun _ _ _ h hs => step_queue h hs)
    ⟨_, init_queue hne⟩ hrun
  have hfuel : l.length < s.fuel := by
    rw [fuel_eq h.live]
    omega
  exact
    { ring := ⟨l, h.ring, fun p => h.mem_live⟩
      members := ⟨h.boot.1, h.idle.1⟩
      running := fun p hp hr => h.running hp hr
      current := h.active.2
      idle := h.idle.2
      zombie := fun z hz => ⟨(h.zombie hz).1, (h.zombie hz).2.1⟩
      unlink := fun t ht htc => unlink_isSome h.ring h.live ht htc
      search := by
        rw [search_eq h.ring h.live]
        rfl
      find := fun id => findTask_isSome h.ring.path (fun x hx => h.mem_live.2 hx) hfuel
      progress := fun e he hal hat => h.progress he hal hat }

/-- boot starts a task and yields; the task exits, and idle's next `schedule` reaps it -/
def oneExit : List Event := [.spawn 3 4096, .yield, .switch, .exit 0, .switch, .yield, .switch]

theorem run_queue_exit : ∃ s, oneExit.foldlM step (init 1 2 8192 bootMachine ⟨0, 0, 0⟩) = some s ∧ s.tb.live = [2, 1] ∧
    RunQueue s := by
  obtain ⟨s, hs, hl⟩ : ∃ s, oneExit.foldlM step (init 1 2 8192 bootMachine ⟨0, 0, 0⟩) = some s ∧ s.tb.live = [2, 1] :=
    ⟨_, rfl, rfl⟩
  exact ⟨s, hs, hl, run_queue (by decide) _ hs⟩

end Runs

end Retux.Sched
