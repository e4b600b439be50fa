/-
Parents.

`Task::parent` is a raw pointer that nobody clears when the parent is freed. `Traced` runs the kernel and remembers, for
the task at each address, the id of the task whose fork made it; ids are handed out once, so an id is a task. `Lineage`
says that the pointer and the memory agree: the parent is still there and is the very task that forked, so getppid reads
a live task and wait4 serves only the real parent.

- `Family`: the invariant, kept by every move that frees no parent;
- `step_orphan`: a step that frees a parent breaks it at once;
- `lineage_iff`: over whole runs.
-/
import Mathlib.Tactic
import Retux.Task.Loaded
import Retux.Task.Reap

namespace Retux.Sched

open Retux.Word Retux.Pmm Retux.Vmm Retux.Ring Retux.Run

/-- the kernel, and who forked whom -/
structure Traced where
  s : Sys
  forker : Ptr → Option ℕ

/-- a new task is entered with the id of its forker -/
def Traced.record (x : Traced) : Event → Ptr → Option ℕ
  | .fork p _ => Function.update x.forker p (some (x.s.tb.task x.s.current).id)
  | .spawn p _ | .spawnFromElf p _ => Function.update x.forker p none
  | _ => x.forker

def stepTraced (x : Traced) (e : Event) : Option Traced := (step x.s e).map fun s' => ⟨s', x.record e⟩

/-- `sys_getppid`: none if it reads a freed task -/
def sysGetppid (s : Sys) : Option ℕ :=
  (s.tb.get s.current).bind fun c =>
    match c.parent with
    | none => some 0
    | some parent => (s.tb.get parent).map Task.id

structure Lineage (x : Traced) : Prop where
  /-- the parent pointer is null, or points to the task that forked, which is not freed -/
  parent : ∀ p ∈ x.s.tb.live, (x.s.tb.task p).parent = none ∧ x.forker p = none ∨
    ∃ q ∈ x.s.tb.live, (x.s.tb.task p).parent = some q ∧ x.forker p = some (x.s.tb.task q).id
  ids : ∀ p ∈ x.s.tb.live, ∀ q ∈ x.s.tb.live, (x.s.tb.task p).id = (x.s.tb.task q).id → p = q
  getppid : sysGetppid x.s = some ((x.forker x.s.current).getD 0)
  /-- the child wait4 collects is the caller's -/
  wait : ∀ c, x.s.cont x.s.current = .wait c → c ∈ x.s.tb.live ∧ x.forker c = some (x.s.tb.task x.s.current).id

/-- the task an event frees -/
def Frees (s : Sys) (e : Event) (t : Ptr) : Prop :=
  Schedules s e ∧ s.zombie = some t ∧ t ≠ s.current ∧
      ((∃ code, e = .exit code) → (s.tb.task s.current).parent ≠ none) ∨
    e = .wait4Again ∧ s.cont s.current = .wait t ∧ (s.tb.task t).state = .Dead

/-- no task goes while a task it forked is still on the ring -/
def Childless (s : Sys) (e : Event) : Prop :=
  ∀ t, Frees s e t → ∀ p ∈ s.tb.live, (s.tb.task p).parent ≠ some t

/-! ## The invariant -/

structure Family (a : Abs) (f : Ptr → Option ℕ) : Prop where
  parent : ∀ {p}, p ∈ a.tb.live → (a.tb.task p).parent = none ∧ f p = none ∨
    ∃ q ∈ a.tb.live, (a.tb.task p).parent = some q ∧ f p = some (a.tb.task q).id
  fresh : ∀ {p}, p ∈ a.tb.live → (a.tb.task p).id < a.nextId
  inj : ∀ {p q}, p ∈ a.tb.live → q ∈ a.tb.live → (a.tb.task p).id = (a.tb.task q).id → p = q

section Family

variable {a a' : Abs} {f f' : Ptr → Option ℕ} {l : List Ptr} {p q z : Ptr} {x : Task}

/-- tasks, parents and ids are all that matters -/
theorem Family.congr (h : Family a f) (hlive : a'.tb.live = a.tb.live)
    (hpar : ∀ p, (a'.tb.task p).parent = (a.tb.task p).parent) (hid : ∀ p, (a'.tb.task p).id = (a.tb.task p).id)
    (hn : a'.nextId = a.nextId) : Family a' f := by
  refine ⟨fun {p} hp => ?_, fun {p} hp => ?_, fun {p q} hp hq he => ?_⟩
  · rw [hlive] at hp ⊢
    rw [hpar]
    rcases h.parent hp with h0 | ⟨q, hq, h1, h2⟩
    · exact Or.inl h0
    · exact Or.inr ⟨q, hq, h1, by rw [hid]; exact h2⟩
  · rw [hlive] at hp
    rw [hid, hn]
    exact h.fresh hp
  · rw [hlive] at hp hq
    rw [hid, hid] at he
    exact h.inj hp hq he

/-- a task without children goes -/
theorem Family.drop {prev : Ptr} {z' : Option Ptr} {c' : Ptr → Cont} (h : Family a f)
    (hc : ∀ p ∈ a.tb.live, (a.tb.task p).parent ≠ some q) :
    Family { a with tb := a.drop q prev, zombie := z', cont := c' } f := by
  have hpar : ∀ p, ((a.drop q prev).task p).parent = (a.tb.task p).parent := drop_keep Task.parent fun _ _ => rfl
  have hid : ∀ p, ((a.drop q prev).task p).id = (a.tb.task p).id := drop_keep Task.id fun _ _ => rfl
  refine ⟨fun {p} hp => ?_, fun {p} hp => ?_, fun {p r} hp hr he => ?_⟩
  · obtain ⟨hpl, -⟩ := mem_drop.1 hp
    rw [hpar]
    rcases h.parent hpl with h0 | ⟨r, hr, h1, h2⟩
    · exact Or.inl h0
    · have hrq : r ≠ q := by rintro rfl; exact hc p hpl h1
      exact Or.inr ⟨r, mem_drop.2 ⟨hr, hrq⟩, h1, by rw [hid]; exact h2⟩
  · rw [hid]
    exact h.fresh (mem_drop.1 hp).1
  · rw [hid, hid] at he
    exact h.inj (mem_drop.1 hp).1 (mem_drop.1 hr).1 he

/-- a new task, entered with its forker -/
theorem Family.add {c : Ptr → Cont} (h : Family a f) (hcl : a.current ∈ a.tb.live) (hp : p ∉ a.tb.live)
    (hid : x.id = a.nextId)
    (hpar : x.parent = none ∧ f' p = none ∨ x.parent = some a.current ∧ f' p = some a.cur.id)
    (hf : ∀ q, q ≠ p → f' q = f q) :
    Family { a with
      tb := (a.tb.add p x).set a.current { a.cur with next := p }, nextId := a.nextId + 1, cont := c } f' := by
  have hpc : a.current ≠ p := by rintro he; exact hp (he ▸ hcl)
  have hne : ∀ {q}, q ∈ a.tb.live → q ≠ p := by rintro q hq rfl; exact hp hq
  have hnew : ((a.tb.add p x).set a.current { a.cur with next := p }).task p = x := add_new hpc
  have hpar' : ∀ {q}, q ∈ a.tb.live → (((a.tb.add p x).set a.current { a.cur with next := p }).task q).parent =
      (a.tb.task q).parent := fun hq => add_old Task.parent (fun _ _ => rfl) hp hq
  have hid' : ∀ {q}, q ∈ a.tb.live → (((a.tb.add p x).set a.current { a.cur with next := p }).task q).id =
      (a.tb.task q).id := fun hq => add_old Task.id (fun _ _ => rfl) hp hq
  refine ⟨fun {q} hq => ?_, fun {q} hq => ?_, fun {q r} hq hr he => ?_⟩
  · rcases List.mem_cons.1 hq with rfl | hq
    · rw [hnew]
      rcases hpar with h0 | ⟨h1, h2⟩
      · exact Or.inl h0
      · exact Or.inr ⟨a.current, List.mem_cons_of_mem _ hcl, h1, by rw [hid' hcl]; exact h2⟩
    · rw [hpar' hq, hf q (hne hq)]
      rcases h.parent hq with h0 | ⟨r, hr, h1, h2⟩
      · exact Or.inl h0
      · exact Or.inr ⟨r, List.mem_cons_of_mem _ hr, h1, by rw [hid' hr]; exact h2⟩
  · rcases List.mem_cons.1 hq with rfl | hq
    · rw [hnew, hid]
      exact Nat.lt_succ_self _
    · rw [hid' hq]
      exact Nat.lt_succ_of_lt (h.fresh hq)
  · rcases List.mem_cons.1 hq with hqp | hql
    · rcases List.mem_cons.1 hr with hrp | hrl
      · rw [hqp, hrp]
      · rw [hqp, hnew, hid, hid' hrl] at he
        exact absurd he (h.fresh hrl).ne'
    · rcases List.mem_cons.1 hr with hrp | hrl
      · rw [hrp, hnew, hid, hid' hql] at he
        exact absurd he (h.fresh hql).ne
      · rw [hid' hql, hid' hrl] at he
        exact h.inj hql hrl he

/-- moves that make and free nobody -/
theorem Move.family {act : Act} (hm : Move a act a') (h : Family a f)
    (hact : match act with | .add _ | .reap _ | .collect _ => False | _ => True) : Family a' f := by
  cases hm with
  | touch hs hkeep hfs hcr3 hc =>
    exact h.congr rfl (set_keep Task.parent hkeep.2.2.1) (set_keep Task.id hkeep.2.2.2.1) rfl
  | add => exact hact.elim
  | wait hs hown hc hpar => exact h.congr rfl (fun _ => rfl) (fun _ => rfl) rfl
  | enter hs hc => exact h.congr rfl (fun _ => rfl) (fun _ => rfl) rfl
  | @exit code hs hown hi =>
    exact h.congr rfl (set_keep (p := a.current) (t := { a.cur with exitCode := code, state := .Dead }) Task.parent rfl)
      (set_keep (p := a.current) (t := { a.cur with exitCode := code, state := .Dead }) Task.id rfl) rfl
  | reap => exact hact.elim
  | collect => exact hact.elim
  | stay hs hst => exact h.congr rfl (fun _ => rfl) (fun _ => rfl) rfl
  | switch hs hql hqc hst =>
    exact h.congr rfl (switch_keep Task.parent fun _ _ => rfl) (switch_keep Task.id fun _ _ => rfl) rfl

end Family

/-! ## Steps -/

section Steps

variable {s s' : Sys} {f : Ptr → Option ℕ} {l : List Ptr} {e : Event} {t z : Ptr}

/-- the task `reap_zombie` frees in an event -/
theorem frees_of_reap {act : Act} {a : Abs} (hact : act = .enter ∧ Enters s e ∨ act = .exit ∧ ∃ code, e = .exit code)
    (hm : Move s.abs act a) (hm' : Move a (.reap z) s'.abs) : Frees s e z := by
  obtain ⟨hz, hzc, -⟩ := hm'.reap_inv
  rcases hact with ⟨rfl, hent⟩ | ⟨rfl, code, rfl⟩
  · cases hm with
    | enter hs hc =>
      refine Or.inl ⟨Or.inl hent, hz, hzc, ?_⟩
      rintro ⟨code, rfl⟩
      rcases hent with he | ⟨he, -⟩ | ⟨he, -⟩ <;> cases he
  · cases hm with
    | exit hs hown hi =>
      have hz' : (if s.abs.cur.parent = none then some s.abs.current else s.abs.zombie) = some z := hz
      split_ifs at hz' with hn
      · exact absurd (Option.some.inj hz').symm hzc
      · exact Or.inl ⟨Or.inr ⟨code, rfl⟩, hz', hzc, fun _ => hn⟩

/-- only the events that make a task touch the record -/
theorem record_same {x : Traced} (ha : e.adds x.s = none) : x.record e = x.forker := by
  cases e <;> first | rfl | cases ha

theorem record_new {x : Traced} {p : Ptr} {par : Option Ptr} (ha : e.adds x.s = some (p, par)) :
    (par = none ∧ x.record e p = none ∨ par = some x.s.current ∧ x.record e p = some (x.s.tb.task x.s.current).id) ∧
      ∀ q, q ≠ p → x.record e q = x.forker q := by
  cases e <;> cases ha
  · exact ⟨Or.inl ⟨rfl, Function.update_self ..⟩, fun q hq => Function.update_of_ne hq _ _⟩
  · exact ⟨Or.inl ⟨rfl, Function.update_self ..⟩, fun q hq => Function.update_of_ne hq _ _⟩
  · exact ⟨Or.inr ⟨rfl, Function.update_self ..⟩, fun q hq => Function.update_of_ne hq _ _⟩

theorem adds_of_reaps (h : Reaps s e) : e.adds s = none := by
  rcases h with (rfl | ⟨rfl, -⟩ | ⟨rfl, -⟩) | ⟨code, rfl⟩ | rfl <;> rfl

/-- **One event keeps the family**, if it frees no parent. -/
theorem step_family {x x' : Traced} (hq : Queue x.s.abs l) (h : Family x.s.abs x.forker) (hg : Childless x.s e)
    (hs : stepTraced x e = some x') : Family x'.s.abs x'.forker := by
  obtain ⟨s', hst, rfl⟩ := Option.map_eq_some_iff.1 hs
  show Family s'.abs (x.record e)
  cases step_shape hst with
  | quiet hr ha heq =>
    rw [heq, record_same ha]
    exact h
  | @one act hr ha hact hm =>
    rw [record_same ha]
    refine hm.family h ?_
    cases act <;> trivial
  | @add p par hr ha hm hpar =>
    obtain ⟨hp, y, hid, -, heq⟩ := hm.add_inv
    obtain ⟨hnew, hold⟩ := record_new ha
    have hpc : x.s.current ≠ p := by rintro he; exact hp (he ▸ hq.cur_live)
    have hy : y.parent = par := by
      have htb : s'.tb = (x.s.tb.add p y).set x.s.current { x.s.tb.task x.s.current with next := p } :=
        congrArg Abs.tb heq
      rw [htb, set_other hpc.symm, add_self] at hpar
      exact hpar
    rw [heq]
    refine h.add hq.cur_live hp hid ?_ hold
    rw [hy]
    exact hnew
  | collect he hm =>
    obtain ⟨hw, hd, prev, heq⟩ := hm.collect_inv
    rw [heq, record_same (by rw [he]; rfl)]
    exact h.drop (hg _ (Or.inr ⟨he, hw, hd⟩))
  | @sched act a hact hm hrest =>
    have hadds : e.adds x.s = none := by
      rcases hact with ⟨-, he⟩ | ⟨-, he⟩
      · exact adds_of_reaps (Or.inl he)
      · exact adds_of_reaps (Or.inr (Or.inl he))
    rw [record_same hadds]
    have h1 : Family a x.forker := by
      refine hm.family h ?_
      rcases hact with ⟨rfl, -⟩ | ⟨rfl, -⟩ <;> trivial
    rcases hrest with ⟨heq, -⟩ | ⟨z, hm'⟩
    · rw [heq]
      exact h1
    · have hfree := frees_of_reap hact hm hm'
      obtain ⟨hz, hzc, prev, heq⟩ := hm'.reap_inv
      rw [heq]
      obtain ⟨hlive, hparent, -⟩ := hm.sched_inv (hact.imp And.left And.left)
      refine h1.drop fun p hp => ?_
      rw [hparent]
      exact hg z hfree p (hlive ▸ hp)

/-- an event that frees a task takes it off the table and leaves the others and their parents -/
theorem frees_gone (hf : Frees s e t) (hs : step s e = some s') :
    t ∉ s'.tb.live ∧ ∀ p ∈ s.tb.live, p ≠ t → p ∈ s'.tb.live ∧ (s'.tb.task p).parent = (s.tb.task p).parent := by
  -- it comes down to one `drop`
  have hdrop : ∀ {a : Abs} {prev : Ptr}, s'.tb = a.drop t prev → a.tb.live = s.tb.live →
      (∀ p, (a.tb.task p).parent = (s.tb.task p).parent) →
      t ∉ s'.tb.live ∧ ∀ p ∈ s.tb.live, p ≠ t → p ∈ s'.tb.live ∧ (s'.tb.task p).parent = (s.tb.task p).parent := by
    intro a prev htb hlive hpar
    rw [htb]
    refine ⟨fun hm => (mem_drop.1 hm).2 rfl, fun p hp hpt => ⟨mem_drop.2 ⟨hlive ▸ hp, hpt⟩, ?_⟩⟩
    rw [← hpar]
    exact drop_keep Task.parent (fun _ _ => rfl) p
  have hreaps : Reaps s e := by
    rcases hf with ⟨he | he, -⟩ | ⟨he, -⟩
    · exact Or.inl he
    · exact Or.inr (Or.inl he)
    · exact Or.inr (Or.inr he)
  cases step_shape hs with
  | quiet hr => exact absurd hreaps hr
  | one hr => exact absurd hreaps hr
  | add hr => exact absurd hreaps hr
  | @collect c he hm =>
    obtain ⟨hw, hd, prev, heq⟩ := hm.collect_inv
    rcases hf with ⟨hsch, -⟩ | ⟨-, hw', -⟩
    · rcases hsch with (he' | ⟨he', -⟩ | ⟨-, c', hw', hd'⟩) | ⟨code, he'⟩
      · rw [he] at he'
        cases he'
      · rw [he] at he'
        cases he'
      · have hcc : Cont.wait c = Cont.wait c' := hw.symm.trans hw'
        cases hcc
        exact absurd hd hd'
      · rw [he] at he'
        cases he'
    · have hcc : Cont.wait c = Cont.wait t := hw.symm.trans hw'
      cases hcc
      exact hdrop (congrArg Abs.tb heq) rfl fun _ => rfl
  | @sched act a hact hm hrest =>
    obtain ⟨hlive, hparent, hcur, hzombie⟩ := hm.sched_inv (hact.imp And.left And.left)
    rcases hf with ⟨-, hz, htc, hcode⟩ | ⟨he, hw, hd⟩
    · have hza : a.zombie = some t := by
        rw [← show s.abs.zombie = some t from hz]
        refine hzombie ?_
        rcases hact with ⟨he, -⟩ | ⟨-, he⟩
        · exact Or.inl he
        · exact Or.inr (hcode he)
      rcases hrest with ⟨-, hn | hc⟩ | ⟨z, hm'⟩
      · rw [hza] at hn
        cases hn
      · rw [hza, hcur] at hc
        exact absurd (Option.some.inj hc) htc
      · obtain ⟨hz', -, prev, heq⟩ := hm'.reap_inv
        rw [hza] at hz'
        cases hz'
        exact hdrop (congrArg Abs.tb heq) hlive hparent
    · rcases hact with ⟨-, he' | ⟨he', -⟩ | ⟨-, c', hw', hd'⟩⟩ | ⟨-, code, he'⟩
      · rw [he] at he'
        cases he'
      · rw [he] at he'
        cases he'
      · have hcc : Cont.wait t = Cont.wait c' := hw.symm.trans hw'
        cases hcc
        exact absurd hd hd'
      · rw [he] at he'
        cases he'

/-- **The orphan.** A freed parent leaves a dangling pointer. -/
theorem step_orphan {x x' : Traced} (hq : Queue x.s.abs l) (hg : ¬ Childless x.s e) (hs : stepTraced x e = some x') :
    ¬ Lineage x' := by
  unfold Childless at hg
  push Not at hg
  obtain ⟨t, hf, p, hp, hpar⟩ := hg
  obtain ⟨s', hst, rfl⟩ := Option.map_eq_some_iff.1 hs
  have hpt : p ≠ t := by rintro rfl; exact hq.parent hp hpar
  obtain ⟨hgone, hothers⟩ := frees_gone hf hst
  obtain ⟨hp', hpar'⟩ := hothers p hp hpt
  intro h
  rcases h.parent p hp' with ⟨hn, -⟩ | ⟨q, hql, hq', -⟩
  · have hn' : (s'.tb.task p).parent = none := hn
    rw [hpar', hpar] at hn'
    cases hn'
  · have hq'' : (s'.tb.task p).parent = some q := hq'
    rw [hpar', hpar] at hq''
    cases hq''
    exact hgone hql

/-- what the invariant says of the two system calls -/
theorem Family.lineage {x : Traced} (hq : Queue x.s.abs l) (h : Family x.s.abs x.forker) : Lineage x := by
  have hcl : x.s.current ∈ x.s.tb.live := hq.cur_live
  refine ⟨fun p hp => h.parent hp, fun p hp q hq => h.inj hp hq, ?_, fun c hw => ?_⟩
  · unfold sysGetppid
    rw [get_live hcl, Option.bind_some]
    rcases h.parent hcl with ⟨h1, h2⟩ | ⟨q, hql, h1, h2⟩
    · have h1' : (x.s.tb.task x.s.current).parent = none := h1
      have h2' : x.forker x.s.current = none := h2
      rw [h1', h2']
      rfl
    · have h1' : (x.s.tb.task x.s.current).parent = some q := h1
      have h2' : x.forker x.s.current = some (x.s.tb.task q).id := h2
      have hql' : q ∈ x.s.tb.live := hql
      rw [h1', h2']
      simp only [get_live hql']
      rfl
  · obtain ⟨hcl', hpar⟩ := hq.wait hcl hw
    refine ⟨hcl', ?_⟩
    rcases h.parent hcl' with ⟨h1, -⟩ | ⟨q, -, h1, h2⟩
    · rw [hpar] at h1
      cases h1
    · rw [hpar] at h1
      cases h1
      exact h2

end Steps

section Run

variable {boot idle : Ptr} {top : U64} {m : Machine} {cpu : Cpu}

/-- nobody is forked at boot -/
def Traced.init (s : Sys) : Traced := ⟨s, fun _ => none⟩

theorem init_family (hne : boot ≠ idle) : Family (Sched.init boot idle top m cpu).abs fun _ => none := by
  have hnone : ∀ {p}, p ∈ (Sched.init boot idle top m cpu).tb.live →
      ((Sched.init boot idle top m cpu).tb.task p).parent = none := fun hp => (init_kernel hne hp).2
  have hlive : ∀ {p}, p ∈ (Sched.init boot idle top m cpu).tb.live → p = idle ∨ p = boot := fun hp => init_live hp
  refine ⟨fun {p} hp => Or.inl ⟨hnone hp, rfl⟩, fun {p} hp => ?_, fun {p q} hp hq he => ?_⟩
  · show ((Sched.init boot idle top m cpu).tb.task p).id < 2
    rcases hlive hp with rfl | rfl
    · rw [init_idle]
      exact Nat.one_lt_two
    · rw [init_boot hne]
      exact Nat.two_pos
  · have he' : ((Sched.init boot idle top m cpu).tb.task p).id = ((Sched.init boot idle top m cpu).tb.task q).id := he
    rcases hlive hp with rfl | rfl <;> rcases hlive hq with rfl | rfl
    · rfl
    · rw [init_idle, init_boot hne] at he'
      cases he'
    · rw [init_idle, init_boot hne] at he'
      cases he'
    · rfl

/-- **Parents, exactly when.** In a run from `sched::init`, the parent links never dangle, getppid and wait4 know the real
parent, if and only if no task is freed while a task it forked is still on the ring. -/
theorem lineage_iff (hne : boot ≠ idle) (es : List Event)
    (hrun : (es.foldlM stepTraced (Traced.init (Sched.init boot idle top m cpu))).isSome) :
    Always stepTraced Lineage (Traced.init (Sched.init boot idle top m cpu)) es ↔
      Each stepTraced (fun x e => Childless x.s e) (Traced.init (Sched.init boot idle top m cpu)) es := by
  refine always_iff_each (I := fun x => ∃ l, Queue x.s.abs l ∧ Family x.s.abs x.forker) ?_ ?_ ?_
    ⟨_, init_queue hne, init_family hne⟩ hrun
  · rintro x ⟨l, hq, h⟩
    exact h.lineage hq
  · rintro x e x' ⟨l, hq, h⟩ hg hs
    obtain ⟨s', hst, rfl⟩ := Option.map_eq_some_iff.1 hs
    obtain ⟨l', hq'⟩ := step_queue ⟨l, hq⟩ hst
    exact ⟨l', hq', step_family hq h hg hs⟩
  · rintro x e x' ⟨l, hq, h⟩ hg hs
    exact step_orphan hq hg hs

/-- one task exits and is freed; it has forked nobody -/
theorem lineage_one : Always stepTraced Lineage (Traced.init (Sched.init 1 2 8192 bootMachine ⟨0, 0, 0⟩)) oneExit := by
  refine (lineage_iff (by decide) oneExit (by decide +kernel)).2 ?_
  -- nobody on the ring has a parent
  have hno : ∀ {x : Traced} {e : Event}, (∀ p ∈ x.s.tb.live, (x.s.tb.task p).parent = none) → Childless x.s e := by
    intro x e hn t _ p hp hpar
    rw [hn p hp] at hpar
    cases hpar
  refine each_cons rfl (hno (by decide)) (each_cons rfl (hno (by decide)) ?_)
  refine each_cons rfl (hno (by decide)) (each_cons rfl (hno (by decide)) ?_)
  refine each_cons rfl (hno (by decide)) (each_cons rfl (hno (by decide)) ?_)
  exact each_cons rfl (hno (by decide)) trivial

end Run

/-! ## The shell forks and exits -/

section Orphan

/-- the record follows any run -/
theorem traced_run {s s' : Sys} {es : List Event} (f : Ptr → Option ℕ) (h : es.foldlM step s = some s') :
    ∃ g, es.foldlM stepTraced ⟨s, f⟩ = some ⟨s', g⟩ := by
  induction es generalizing s f with
  | nil =>
    cases h
    exact ⟨f, rfl⟩
  | cons e es ih =>
    rw [List.foldlM_cons] at h
    obtain ⟨s1, h1, h2⟩ := Option.bind_eq_some_iff.1 h
    obtain ⟨g, hg⟩ := ih (Traced.record ⟨s, f⟩ e) h2
    refine ⟨g, ?_⟩
    rw [List.foldlM_cons]
    show (stepTraced ⟨s, f⟩ e).bind _ = _
    rw [stepTraced, h1]
    exact hg

/-- memory for a first space, and for a copy of it -/
theorem boot_fork : ∃ a m b m1 m2, Vmm.createAddressSpace bootMachine = some (a, m) ∧ a ≠ 0#64 ∧
    Vmm.createAddressSpace { m with cr3 := a } = some (b, m1) ∧ cloneAddressSpace b a m1 = some m2 := by
  obtain ⟨r, m, hc, hlt, hb, hcr, hfree, -⟩ := boot_space
  obtain ⟨-, h0, -⟩ := root_spec hb (List.mem_singleton_self r)
  obtain ⟨L, h⟩ := (Built.boot bootMachine_booted).history
  obtain ⟨L', r', hr', hlt', -, hi, -, -, hroot, -, hnew, -⟩ := create_spec h.inv hc
  have hrr : r = r' := by rw [← frameOf_addrOf hlt, hr', frameOf_addrOf hlt']
  subst hrr
  -- a page of the new space would be a frame at depth four
  have hown : ∀ f r' p, L'.own f = some (r', p) → p.length < 3 := by
    intro f r' p hf
    rcases hnew f r' p hf with ho | ⟨-, -, hl⟩
    · exact absurd ((h.roots r').2 (h.inv.tree.root_own ho)) (List.not_mem_nil)
    · exact hl
  have hi' : Vmm.Inv L' { m with cr3 := addrOf r } := hi.congr rfl (fun _ _ => rfl) fun _ _ hu => hu
  obtain ⟨b, m1, hc1, -⟩ := create_isSome (m := { m with cr3 := addrOf r }) (by show 6 ≤ freeCount m.pmm; omega)
  obtain ⟨L1, d, rfl, hdlt, hdfree, hi1, -, -, hd, hold, hnew1, -⟩ := create_spec hi' hc1
  have hrd : r ≠ d := by
    rintro rfl
    rw [(hi'.own_used hroot).1] at hdfree
    cases hdfree
  have hleaf : ∀ q e, ¬ Leaf L1 m1 r q e := by
    intro q e hl
    rcases hnew1 _ _ _ (hl.own hi1) with ho | ⟨hh, -⟩
    · have h4 := hown _ _ _ ho
      rw [hl.length] at h4
      omega
    · exact hrd hh
  have henough : Enough L1 m1 r := by
    have hcount : leafCount L1 m1 r (512 ^ 4) = 0 := by
      classical
      unfold leafCount
      rw [Finset.card_eq_zero, Finset.filter_eq_empty_iff]
      rintro k - ⟨q, e, -, hl⟩
      exact hleaf q e hl
    unfold Enough
    rw [hcount]
    exact Nat.zero_le _
  obtain ⟨m2, hm2⟩ := (clone_spec hi1 hrd (hold _ _ hroot) hd (kptr_addrOf hlt) (kptr_addrOf hdlt)).returns henough
  exact ⟨_, m, _, m1, m2, hc, h0, hc1, hm2⟩

/-- the shell and its child, task 4 -/
structure ShellForked (s : Sys) : Prop where
  current : s.current = 3 ∧ s.idle = 2 ∧ s.boot = 1
  own : s.cont 3 = .own ∧ s.cont 4 = .own ∧ s.scheduling = false
  live : s.tb.live = [4, 3, 2, 1]
  ring : (s.tb.task 3).next = 4 ∧ (s.tb.task 4).next = 2 ∧ (s.tb.task 2).next = 1 ∧ (s.tb.task 1).next = 3
  states : (s.tb.task 3).state = .Running ∧ (s.tb.task 4).state = .Ready
  parents : (s.tb.task 3).parent = none ∧ (s.tb.task 4).parent = some 3

theorem shell_forks {a b : U64} {m m1 m2 : Machine} {s : Sys} (h : ShellRuns a m s) (h0 : a ≠ 0#64)
    (hc : Vmm.createAddressSpace { m with cr3 := a } = some (b, m1)) (hcl : cloneAddressSpace b a m1 = some m2) :
    ∃ s', step s (.fork 4 0) = some s' ∧ ShellForked s' := by
  obtain ⟨hcu, hi, hb⟩ := h.current
  obtain ⟨ho2, ho3, hsc⟩ := h.own
  obtain ⟨s', hs', h1, h2, h3, h4, h5, h6⟩ : ∃ s', step s (.fork 4 0) = some s' ∧ s'.current = 3 ∧
      s'.cont = Function.update s.cont 4 .own ∧ s'.scheduling = false ∧ s'.tb.live = [4, 3, 2, 1] ∧
      (s'.idle = 2 ∧ s'.boot = 1) ∧
      ∀ p, s'.tb.task p = if p = 4 then { create s.nextId 0 b with
          next := 2, fds := (s.tb.task 3).fds, brkStart := (s.tb.task 3).brkStart, brkCur := (s.tb.task 3).brkCur,
          mmapNext := (s.tb.task 3).mmapNext, fsBase := (s.tb.task 3).fsBase, parent := some 3 }
        else if p = 3 then { s.tb.task 3 with next := 4 } else s.tb.task p := by
    rw [step_eq _ (by rw [hcu, h.live]; decide) (by simp [Event.allowed, hcu, h.live, h.cr3s.1, h0])
      (by rw [hcu, ho3, hsc]; rfl)]
    simp [run, sysFork, forkSpace, hcu, Table.get, h.live, Sys.createAddressSpace, h.loaded, hc, hcl, h.cr3s.1, spawn,
      Table.add, Table.set, Sys.setTask, h.ring.1, hsc, hi, hb, Function.update_apply]
    intro p
    split_ifs <;> rfl
  refine ⟨s', hs', ⟨h1, h5.1, h5.2⟩, ?_, h4, ?_, ?_, ?_⟩
  · rw [h2, Function.update_self, Function.update_of_ne (by decide)]
    exact ⟨ho3, rfl, h3⟩
  · simp [h6, h.ring]
  · simp [h6, h.states, create]
  · simp [h6, h.parent]

/-- the shell exits, its child runs, and the child's `yield` frees the shell -/
theorem shell_orphans {s : Sys} (h : ShellForked s) : ∃ s', [Event.exit 0, .switch, .yield].foldlM step s = some s' ∧
    4 ∈ s'.tb.live ∧ 3 ∉ s'.tb.live ∧ (s'.tb.task 4).parent = some 3 := by
  obtain ⟨hcu, hi, hb⟩ := h.current
  obtain ⟨ho3, ho4, hsc⟩ := h.own
  have hx : step s (.exit 0) = some { s with
      tb := s.tb.set 3 { s.tb.task 3 with exitCode := 0, state := .Dead }, zombie := some 3, scheduling := true } := by
    rw [step_eq _ (by rw [hcu, h.live]; decide) (by simp [Event.allowed, hcu, hi, hb])
      (by rw [hcu, ho3, hsc]; rfl)]
    simp [run, exitCurrent, hcu, Table.get, h.live, h.parents.1, startSchedule, reapZombie, Sys.setTask]
  -- the child is the next ready task on the ring
  have hpick : pick { s with
      tb := s.tb.set 3 { s.tb.task 3 with exitCode := 0, state := .Dead }, zombie := some 3, scheduling := true } =
      some 4 := by
    simp [pick, hcu, Table.get, Table.set, h.live, Sys.fuel, nextReadyAfter, h.ring.1, h.states.2]
  obtain ⟨s1, hs1, h1, h2, h3, h4, h5, h6, h7⟩ : ∃ s1, step { s with
      tb := s.tb.set 3 { s.tb.task 3 with exitCode := 0, state := .Dead }, zombie := some 3, scheduling := true }
      .switch = some s1 ∧ s1.current = 4 ∧ s1.cont = s.cont ∧ s1.scheduling = false ∧ s1.tb.live = [4, 3, 2, 1] ∧
      s1.zombie = some 3 ∧ (∀ p, (s1.tb.task p).next = (s.tb.task p).next) ∧ (s1.tb.task 4).parent = some 3 := by
    rw [step_eq _ (by rw [set_live, h.live, hcu]; decide) rfl rfl]
    simp only [run, finishSchedule, hpick, bind, Option.bind_some]
    simp [hcu, switchTo, Table.get, Table.set, h.live, Sys.setTask, h.parents.2, Function.update_apply]
    intro p
    split_ifs with hp4 hp3
    · rw [hp4]
    · rw [hp3]
    · rfl
  obtain ⟨s2, hs2, h8, h9⟩ : ∃ s2, step s1 .yield = some s2 ∧ s2.tb.live = [4, 2, 1] ∧
      (s2.tb.task 4).parent = some 3 := by
    rw [step_eq _ (by rw [h1, h4]; decide) rfl (by rw [h1, h2, ho4, h3]; rfl)]
    simp [run, startSchedule, reapZombie, h5, h1, unlinkFromRing, prevOf, Sys.fuel, h4, Table.get, h6, h.ring, freeTask,
      Sys.setTask, Table.set, Table.free]
    split_ifs <;> simp [Sys.destroyAddressSpace, h7]
  refine ⟨s2, run_append (run_one hx) (run_append (run_one hs1) (run_one hs2)), ?_, ?_, h9⟩
  · rw [h8]
    decide
  · rw [h8]
    decide

/-- the shell is spawned, runs and forks; it exits, its child runs and yields -/
def shellOrphans : List Event :=
  [.spawnFromElf 3 0] ++ List.replicate 19 .timer ++ [.timer, .switch] ++ [.fork 4 0] ++ [.exit 0, .switch, .yield]

/-- **The orphan's parent.** The child of the shell points to a freed task. -/
theorem orphan_parent_dangles : ¬ ∀ (boot idle : Ptr) (top : U64) (m : Machine) (cpu : Cpu) (es : List Event), boot ≠ idle →
    (es.foldlM stepTraced (Traced.init (Sched.init boot idle top m cpu))).isSome →
    Always stepTraced Lineage (Traced.init (Sched.init boot idle top m cpu)) es := by
  intro hall
  obtain ⟨a, m, b, m1, m2, hc, h0, hc1, hcl⟩ := boot_fork
  obtain ⟨s1, hs1, h1⟩ := shell_runs (m := m) h0
  obtain ⟨s2, hs2, h2⟩ := shell_forks h1 h0 hc1 hcl
  obtain ⟨s3, hs3, h4, h3, hpar⟩ := shell_orphans h2
  have hrun : shellOrphans.foldlM step (init 1 2 0 bootMachine ⟨0, 0, 0⟩) = some s3 :=
    run_append (run_append (run_append (run_append (run_one (spawn_shell hc)) (spawned_timers a m)) hs1) (run_one hs2)) hs3
  obtain ⟨g, hg⟩ := traced_run (fun _ => none) hrun
  have hlast := (hall 1 2 0 bootMachine ⟨0, 0, 0⟩ shellOrphans (by decide)
    (by rw [show Traced.init _ = ⟨_, _⟩ from rfl, hg]; rfl)).last hg
  rcases hlast.parent 4 h4 with ⟨hn, -⟩ | ⟨q, hq, hq', -⟩
  · rw [hpar] at hn
    cases hn
  · rw [hpar] at hq'
    cases hq'
    exact h3 hq

end Orphan

end Retux.Sched
