/-
The loaded CR3 and the tasks' address spaces.

`schedule` leaves CR3 alone when the next task is kernel-only, so the loaded root can be that of a task that is no
longer running. The question is whether it can be one that `destroy_address_space` has freed. It can: an unparented Linux
task exits, a kernel-only task is next and keeps its CR3, and that task's next `schedule` reaps the dead one.

`Inv` is what every run keeps up to there: distinct live roots for distinct tasks, the running Linux task's root loaded,
a dead root never among the live ones. `alive_iff` says that nothing else goes wrong.

- `reap_inv`, `free_inv`: giving up a task, and when that is safe;
- `step_inv`: one event; `step_bad`: the bad one;
- `alive_iff`: over whole runs.
-/
import Mathlib.Tactic
import Retux.Lib.Run
import Retux.Mem.Boot
import Retux.Task.Moves

namespace Retux.Sched

open Retux.Word Retux.Pmm Retux.Vmm Retux.Run

/-! ## What the memory system guarantees -/

section Memory

variable {m m' : Machine} {rs : List ℕ} {X : Set ℕ} {a : U64} {r r' : ℕ}

/-- a live root: a frame of its own, not the kernel's -/
theorem root_spec (hb : Built m rs X) (hr : r ∈ rs) :
    r < MAX_FRAMES ∧ addrOf r ≠ 0 ∧ addrOf r ≠ m.gKernelPml4 ∧ entryToKptr (addrOf r) = r := by
  obtain ⟨L, h⟩ := hb.history
  have ho := (h.roots r).1 hr
  obtain ⟨-, hpos, hlt⟩ := h.inv.own_used ho
  refine ⟨hlt, fun h0 => ?_, fun hk => ?_, kptr_addrOf hlt⟩
  · have := congrArg frameOf h0
    rw [frameOf_addrOf hlt] at this
    have h00 : frameOf (0 : U64) = 0 := rfl
    omega
  · have hroot := h.inv.kern.root
    rw [← hk, frameOf_addrOf hlt] at hroot
    rw [h.inv.apart hroot] at ho; cases ho

theorem addrOf_inj (hb : Built m rs X) (hr : r ∈ rs) (hr' : r' ∈ rs) (h : addrOf r = addrOf r') : r = r' := by
  rw [← frameOf_addrOf (root_spec hb hr).1, h, frameOf_addrOf (root_spec hb hr').1]

theorem create_built (hb : Built m rs X) (hc : createAddressSpace m = some (a, m')) :
    ∃ r, a = addrOf r ∧ r ∉ rs ∧ Built m' (r :: rs) X ∧ m'.cr3 = m.cr3 ∧ m'.gKernelPml4 = m.gKernelPml4 := by
  obtain ⟨L, h⟩ := hb.history
  obtain ⟨L', r, rfl, hlt, hfree, -, -, hst, -⟩ := create_spec h.inv hc
  have hb' := hb.create hc
  rw [frameOf_addrOf hlt] at hb'
  refine ⟨r, rfl, fun hr => ?_, hb', hst.rest.1, hst.rest.2.1⟩
  rw [(h.inv.own_used ((h.roots r).1 hr)).1] at hfree; cases hfree

theorem destroy_built (hb : Built m rs X) (hr : r ∈ rs) :
    Built (destroyAddressSpace (addrOf r) m) (rs.erase r) X ∧ rs.Nodup ∧
      (destroyAddressSpace (addrOf r) m).cr3 = m.cr3 ∧
      (destroyAddressSpace (addrOf r) m).gKernelPml4 = m.gKernelPml4 := by
  obtain ⟨L, h⟩ := hb.history
  have ho := (h.roots r).1 hr
  have he := destroy_eq h.inv ho (addrOf_physMask (h.inv.own_used ho).2.2)
  have hrest := freeAll_rest m ((frames m.mem 4 r []).map addrOf)
  rw [← he] at hrest
  exact ⟨hb.destroy hr, h.nodup, hrest.1, hrest.2.1⟩

theorem clone_built (hb : Built m rs X) (hr : r ∈ rs) (hr' : r' ∈ rs) (hne : r' ≠ r)
    (hc : cloneAddressSpace (addrOf r) (addrOf r') m = some m') :
    Built m' rs X ∧ m'.cr3 = m.cr3 ∧ m'.gKernelPml4 = m.gKernelPml4 := by
  obtain ⟨L, h⟩ := hb.history
  obtain ⟨L', w⟩ := (clone_spec h.inv hne ((h.roots r').1 hr') ((h.roots r).1 hr) (root_spec hb hr').2.2.2
    (root_spec hb hr).2.2.2).post hc
  exact ⟨hb.clone hr hr' hne hc, w.rest.1, w.rest.2.1⟩

/-- an edit of private pages of the loaded space -/
theorem Edit.built {e : Edit} (hb : Built m rs X) (hr : getPml4 m ∈ rs) (he : e.apply m = some m') :
    Built m' rs X ∧ m'.cr3 = m.cr3 ∧ m'.gKernelPml4 = m.gKernelPml4 := by
  obtain ⟨L, h⟩ := hb.history
  have ho := (h.roots _).1 hr
  cases e with
  | map v fl =>
    simp only [Edit.apply] at he
    split_ifs at he with hv
    obtain ⟨⟨a, m1⟩, hm, rfl⟩ := Option.map_eq_some_iff.1 he
    obtain ⟨c, m2, L', rfl, -, ha, -, wr, -, -⟩ := mapFresh_spec h.inv ho hv.1 hv.2 hm
    have hst := (Stage.refl m).alloc ha
    exact ⟨hb.map hr hv.1 hv.2 hm, wr.rest.1.trans hst.rest.1, wr.rest.2.1.trans hst.rest.2.1⟩
  | write v g =>
    simp only [Edit.apply] at he
    split_ifs at he with hv
    obtain ⟨x, hx, rfl⟩ := Option.map_eq_some_iff.1 he
    obtain ⟨e, hl, rfl⟩ := (translate_eq_some_iff h.inv ho hv).1 hx
    rw [frameOf_leaf h.inv hl]
    exact ⟨hb.write g hr ((ownedLeaf_iff h.inv ho).2 ⟨_, rfl, hl.own h.inv⟩), rfl, rfl⟩
  | protect v fl =>
    simp only [Edit.apply] at he
    split_ifs at he with hv
    refine ⟨hb.protect hr hv.1 hv.2 he, ?_⟩
    rcases protect_spec h.inv ho hv.1 hv.2.1 hv.2.2.1 hv.2.2.2 he with ⟨-, rfl⟩ | ⟨L', c, -, w, -⟩
    · exact ⟨rfl, rfl⟩
    · exact ⟨w.rest.1, w.rest.2.1⟩
  | unmap v =>
    simp only [Edit.apply] at he
    split_ifs at he with hv
    refine ⟨hb.unmap hr hv he, ?_⟩
    obtain ⟨L', m1, hm, -, hk, hcr, -⟩ := unmapAndFree_spec h.inv ho hv
    rw [he] at hm
    cases hm
    exact ⟨hcr, hk.gk⟩

end Memory

/-! ## The task table -/

section Table

variable {tb : Table} {p q : Ptr} {t x : Task}

/-- what the invariant reads of a task -/
def view (t : Task) : U64 × Option Ptr × State := (t.cr3, t.parent, t.state)

/-- an update that keeps a task's view keeps all views -/
theorem view_set (h : view t = view (tb.task p)) (q : Ptr) : view ((tb.set p t).task q) = view (tb.task q) := by
  rw [set_task]
  split_ifs with hq
  · rw [hq, h]
  · rfl

end Table

/-! ## The invariant -/

structure Core (rs : List ℕ) (X : Set ℕ) (s : Sys) : Prop where
  built : Built s.m rs X
  cur : s.current ∈ s.tb.live
  idle : s.idle ∈ s.tb.live ∧ (s.tb.task s.idle).state ≠ .Dead
  space : ∀ {p}, p ∈ s.tb.live → (s.tb.task p).cr3 ≠ 0 → ∃ r ∈ rs, (s.tb.task p).cr3 = addrOf r
  inj : ∀ {p q}, p ∈ s.tb.live → q ∈ s.tb.live → (s.tb.task p).cr3 ≠ 0 → (s.tb.task p).cr3 = (s.tb.task q).cr3 → p = q
  /-- the space a task in execve is about to give up -/
  old : ∀ {p a}, p ∈ s.tb.live → s.cont p = .execve a →
    p = s.current ∧ (∃ r ∈ rs, a = addrOf r) ∧ ∀ q ∈ s.tb.live, (s.tb.task q).cr3 ≠ a
  loaded : (s.tb.task s.current).cr3 ≠ 0 → s.m.cr3 = (s.tb.task s.current).cr3
  alive : s.m.cr3 = s.m.gKernelPml4 ∨ ∃ r ∈ rs, s.m.cr3 = addrOf r
  dead : ∀ {a}, a ∈ s.dead → a ≠ s.m.gKernelPml4 ∧ ∀ r ∈ rs, a ≠ addrOf r
  /-- a task waiting to be reaped; a kernel-only task that runs since it exited still has its CR3 -/
  zombie : ∀ {z}, s.zombie = some z → z ∈ s.tb.live ∧ (s.tb.task z).state = .Dead ∧ (s.tb.task z).parent = none ∧
    (z ≠ s.current → (s.tb.task s.current).cr3 = 0 → (s.tb.task z).cr3 ≠ 0 → s.m.cr3 = (s.tb.task z).cr3)
  parent : ∀ {p}, p ∈ s.tb.live → (s.tb.task p).parent ≠ some p ∧
    ((s.tb.task p).parent ≠ none → (s.tb.task p).cr3 ≠ 0)
  wait : ∀ {p c}, p ∈ s.tb.live → s.cont p = .wait c → c ∈ s.tb.live ∧ (s.tb.task c).parent = some p

structure Inv (rs : List ℕ) (X : Set ℕ) (s : Sys) : Prop extends Core rs X s where
  running : s.scheduling = false → (s.tb.task s.current).state ≠ .Dead
  reaped : s.scheduling = true → (s.zombie = none ∨ s.zombie = some s.current) ∧ ∀ a, s.cont s.current ≠ .execve a

section Steps

variable {rs : List ℕ} {X : Set ℕ} {s s' s1 : Sys} {p t : Ptr} {x : Task}

/-- the loaded root is not a dead one -/
theorem Core.not_dead (h : Core rs X s) : s.m.cr3 ∉ s.dead := by
  intro hd
  obtain ⟨h1, h2⟩ := h.dead hd
  rcases h.alive with hk | ⟨r, hr, he⟩
  · exact h1 hk
  · exact h2 r hr he

/-- the task table may change where the invariant does not look -/
theorem Core.congr (h : Core rs X s) (hlive : s'.tb.live = s.tb.live)
    (hv : ∀ q, view (s'.tb.task q) = view (s.tb.task q)) (hc : s'.current = s.current) (hi : s'.idle = s.idle)
    (hz : s'.zombie = s.zombie) (hm : s'.m = s.m) (hk : s'.cont = s.cont) (hd : s'.dead = s.dead) : Core rs X s' := by
  have hcr3 : ∀ q, (s'.tb.task q).cr3 = (s.tb.task q).cr3 := fun q => congrArg Prod.fst (hv q)
  have hpar : ∀ q, (s'.tb.task q).parent = (s.tb.task q).parent := fun q => congrArg (·.2.1) (hv q)
  have hst : ∀ q, (s'.tb.task q).state = (s.tb.task q).state := fun q => congrArg (·.2.2) (hv q)
  constructor
  · rw [hm]; exact h.built
  · rw [hc, hlive]; exact h.cur
  · rw [hi, hlive, hst]; exact h.idle
  · intro p hp; rw [hlive] at hp; rw [hcr3]; exact h.space hp
  · intro p q hp hq; rw [hlive] at hp hq; rw [hcr3, hcr3]; exact h.inj hp hq
  · intro p a hp ha
    rw [hlive] at hp ⊢
    rw [hk] at ha
    obtain ⟨h1, h2, h3⟩ := h.old hp ha
    exact ⟨by rw [hc]; exact h1, h2, fun q hq => by rw [hcr3]; exact h3 q hq⟩
  · rw [hc, hcr3, hm]; exact h.loaded
  · rw [hm]; exact h.alive
  · intro a ha; rw [hd] at ha; rw [hm]; exact h.dead ha
  · intro z hz'
    rw [hz] at hz'
    rw [hlive, hst, hpar, hc, hcr3, hcr3, hm]; exact h.zombie hz'
  · intro p hp; rw [hlive] at hp; rw [hpar, hcr3]; exact h.parent hp
  · intro p c hp hw; rw [hlive] at hp ⊢; rw [hk] at hw; rw [hpar]; exact h.wait hp hw

/-- a task's record updated where the invariant does not look -/
theorem Core.set (h : Core rs X s) (hx : view x = view (s.tb.task p)) : Core rs X (s.setTask p x) :=
  h.congr rfl (view_set hx) rfl rfl rfl rfl rfl rfl

/-- memory edited, roots as they were -/
theorem Core.mem {m' : Machine} (h : Core rs X s) (hb : Built m' rs X) (hcr3 : m'.cr3 = s.m.cr3)
    (hk : m'.gKernelPml4 = s.m.gKernelPml4) : Core rs X { s with m := m' } :=
  ⟨hb, h.cur, h.idle, h.space, h.inj, h.old, fun hc => hcr3.trans (h.loaded hc), by
    show m'.cr3 = m'.gKernelPml4 ∨ ∃ r ∈ rs, m'.cr3 = addrOf r
    rw [hcr3, hk]; exact h.alive, fun ha => by
    show _ ≠ m'.gKernelPml4 ∧ _
    rw [hk]; exact h.dead ha, fun hz => by
    obtain ⟨h1, h2, h3, h4⟩ := h.zombie hz
    exact ⟨h1, h2, h3, fun a b c => hcr3.trans (h4 a b c)⟩, h.parent, h.wait⟩

/-- **A new space.** Its root is no task's. -/
theorem Core.create {a : U64} (h : Core rs X s) (hc : s.createAddressSpace = some (a, s')) :
    ∃ r, a = addrOf r ∧ Core (r :: rs) X s' ∧ r ∉ rs ∧ s'.m.cr3 = s.m.cr3 ∧
      s' = { s with m := s'.m, dead := s'.dead } := by
  obtain ⟨⟨a', m'⟩, hm, heq⟩ := Option.map_eq_some_iff.1 hc
  cases heq
  obtain ⟨r, rfl, hr, hb, hcr3, hk⟩ := create_built h.built hm
  refine ⟨r, rfl, ?_, hr, hcr3, rfl⟩
  constructor
  · exact hb
  · exact h.cur
  · exact h.idle
  · intro p hp hne
    obtain ⟨r', hr', he⟩ := h.space hp hne
    exact ⟨r', List.mem_cons_of_mem _ hr', he⟩
  · exact h.inj
  · intro p a hp ha
    obtain ⟨h1, ⟨r', hr', he⟩, h3⟩ := h.old hp ha
    exact ⟨h1, ⟨r', List.mem_cons_of_mem _ hr', he⟩, h3⟩
  · exact fun hne => hcr3.trans (h.loaded hne)
  · show m'.cr3 = m'.gKernelPml4 ∨ ∃ r' ∈ r :: rs, m'.cr3 = addrOf r'
    rw [hcr3, hk]
    rcases h.alive with ha | ⟨r', hr', he⟩
    · exact Or.inl ha
    · exact Or.inr ⟨r', List.mem_cons_of_mem _ hr', he⟩
  · intro a ha
    obtain ⟨hmem, hne⟩ := List.mem_filter.1 ha
    obtain ⟨h1, h2⟩ := h.dead hmem
    refine ⟨fun hk' => h1 (hk'.trans hk), fun r' hr' => ?_⟩
    rcases List.mem_cons.1 hr' with rfl | hr'
    · simpa using hne
    · exact h2 r' hr'
  · intro z hz
    obtain ⟨h1, h2, h3, h4⟩ := h.zombie hz
    exact ⟨h1, h2, h3, fun a b c => hcr3.trans (h4 a b c)⟩
  · exact h.parent
  · exact h.wait

theorem destroy_tb (a : U64) : (s.destroyAddressSpace a).tb = s.tb := by simp only [Sys.destroyAddressSpace]

theorem destroy_current (a : U64) : (s.destroyAddressSpace a).current = s.current := by simp only [Sys.destroyAddressSpace]

theorem destroy_scheduling (a : U64) : (s.destroyAddressSpace a).scheduling = s.scheduling := by simp only [Sys.destroyAddressSpace]

/-- no task, and no execve, uses a root that is new -/
theorem Core.fresh {r : ℕ} (h : Core rs X s) (hb : Built s'.m (r :: rs) X) (hr : r ∉ rs) :
    addrOf r ≠ 0 ∧ ∀ q ∈ s.tb.live, (s.tb.task q).cr3 ≠ addrOf r := by
  obtain ⟨-, h0, -⟩ := root_spec hb (List.mem_cons_self ..)
  refine ⟨h0, fun q hq he => ?_⟩
  obtain ⟨r', hr', he'⟩ := h.space hq (by rw [he]; exact h0)
  have := addrOf_inj hb (List.mem_cons_self ..) (List.mem_cons_of_mem _ hr') (he.symm.trans he')
  exact hr (this ▸ hr')

/-- **A new task.** Kernel-only, or the first user of a live root. -/
theorem Core.add (h : Core rs X s) (hp : p ∉ s.tb.live) (hown : ∀ a, s.cont s.current ≠ .execve a)
    (hcr3 : x.cr3 = 0 ∨ (∃ r ∈ rs, x.cr3 = addrOf r) ∧ ∀ q ∈ s.tb.live, (s.tb.task q).cr3 ≠ x.cr3)
    (hpar : x.parent = none ∨ x.parent = some s.current ∧ x.cr3 ≠ 0) (n : ℕ) :
    Core rs X { s with tb := s.tb.add p x, nextId := n, cont := Function.update s.cont p .own } := by
  have hne : ∀ {q}, q ∈ s.tb.live → q ≠ p := by rintro q hq rfl; exact hp hq
  -- a task of the new table is the new one, or an old one as it was
  have hcases : ∀ {q}, q ∈ (s.tb.add p x).live → (q = p ∧ (s.tb.add p x).task q = x ∧
      Function.update s.cont p .own q = .own) ∨ (q ∈ s.tb.live ∧ (s.tb.add p x).task q = s.tb.task q ∧
      Function.update s.cont p .own q = s.cont q) := by
    intro q hq
    rcases List.mem_cons.1 hq with rfl | hq
    · exact Or.inl ⟨rfl, Function.update_self .., Function.update_self ..⟩
    · exact Or.inr ⟨hq, Function.update_of_ne (hne hq) _ _, Function.update_of_ne (hne hq) _ _⟩
  have htask : ∀ {q}, q ∈ s.tb.live → (s.tb.add p x).task q = s.tb.task q := fun hq => Function.update_of_ne (hne hq) _ _
  constructor <;> dsimp only
  · exact h.built
  · exact List.mem_cons_of_mem _ h.cur
  · rw [htask h.idle.1]
    exact ⟨List.mem_cons_of_mem _ h.idle.1, h.idle.2⟩
  · intro q hq hnz
    rcases hcases hq with ⟨-, hx, -⟩ | ⟨hql, hx, -⟩
    · rw [hx] at hnz ⊢
      rcases hcr3 with h0 | ⟨hr, -⟩
      · exact absurd h0 hnz
      · exact hr
    · rw [hx] at hnz ⊢; exact h.space hql hnz
  · intro q q' hq hq' hnz heq
    rcases hcases hq with ⟨hqp, hx, -⟩ | ⟨hql, hx, -⟩ <;> rcases hcases hq' with ⟨hqp', hx', -⟩ | ⟨hql', hx', -⟩ <;>
      rw [hx] at hnz heq <;> rw [hx'] at heq
    · rw [hqp, hqp']
    · rcases hcr3 with h0 | ⟨-, hu⟩
      · exact absurd h0 hnz
      · exact absurd heq.symm (hu q' hql')
    · rcases hcr3 with h0 | ⟨-, hu⟩
      · exact absurd (heq.trans h0) hnz
      · exact absurd heq (hu q hql)
    · exact h.inj hql hql' hnz heq
  · intro q a hq ha
    rcases hcases hq with ⟨-, -, hk⟩ | ⟨hql, -, hk⟩
    · rw [hk] at ha; cases ha
    · rw [hk] at ha
      obtain ⟨rfl, -⟩ := h.old hql ha
      exact absurd ha (hown a)
  · rw [htask h.cur]; exact h.loaded
  · exact h.alive
  · exact h.dead
  · intro z hz
    obtain ⟨h1, h2⟩ := h.zombie hz
    rw [htask h1, htask h.cur]
    exact ⟨List.mem_cons_of_mem _ h1, h2⟩
  · intro q hq
    rcases hcases hq with ⟨hqp, hx, -⟩ | ⟨hql, hx, -⟩ <;> rw [hx]
    · rcases hpar with h0 | ⟨h0, hnz⟩
      · rw [h0]; exact ⟨by simp, fun hn => absurd rfl hn⟩
      · rw [h0, hqp]; exact ⟨fun he => hne h.cur (Option.some.inj he), fun _ => hnz⟩
    · exact h.parent hql
  · intro q c hq hw
    rcases hcases hq with ⟨-, -, hk⟩ | ⟨hql, -, hk⟩
    · rw [hk] at hw; cases hw
    · rw [hk] at hw
      obtain ⟨h1, h2⟩ := h.wait hql hw
      exact ⟨List.mem_cons_of_mem _ h1, by rw [htask h1]; exact h2⟩

/-- **A task gone**, with its pointers out of `zombie_` and of wait4. -/
theorem Core.remove (h : Core rs X s) (hc : t ≠ s.current) (hi : t ≠ s.idle) {z' : Option Ptr}
    (hz : ∀ {z}, z' = some z → s.zombie = some z ∧ z ≠ t) {c' : Ptr → Cont}
    (hcont : ∀ q, c' q = s.cont q ∨ c' q = .own) (hw : ∀ q ∈ s.tb.live, c' q ≠ .wait t) :
    Core rs X { s with tb := s.tb.free t, zombie := z', cont := c' } := by
  have hlive : ∀ {q}, q ∈ (s.tb.free t).live ↔ q ∈ s.tb.live ∧ q ≠ t := by
    intro q
    show q ∈ s.tb.live.filter (· ≠ t) ↔ _
    rw [List.mem_filter]; simp
  constructor
  · exact h.built
  · exact hlive.2 ⟨h.cur, hc.symm⟩
  · exact ⟨hlive.2 ⟨h.idle.1, hi.symm⟩, h.idle.2⟩
  · exact fun hp => h.space (hlive.1 hp).1
  · exact fun hp hq => h.inj (hlive.1 hp).1 (hlive.1 hq).1
  · intro p a hp ha
    have ha' : s.cont p = .execve a := by
      rcases hcont p with he | he
      · rw [← he]; exact ha
      · rw [show c' p = .execve a from ha] at he; cases he
    obtain ⟨h1, h2, h3⟩ := h.old (hlive.1 hp).1 ha'
    exact ⟨h1, h2, fun q hq => h3 q (hlive.1 hq).1⟩
  · exact h.loaded
  · exact h.alive
  · exact h.dead
  · intro z hz'
    obtain ⟨hz1, hne⟩ := hz hz'
    obtain ⟨h1, h2⟩ := h.zombie hz1
    exact ⟨hlive.2 ⟨h1, hne⟩, h2⟩
  · exact fun hp => h.parent (hlive.1 hp).1
  · intro p c hp hpc
    have hpc' : s.cont p = .wait c := by
      rcases hcont p with he | he
      · rw [← he]; exact hpc
      · rw [show c' p = .wait c from hpc] at he; cases he
    obtain ⟨h1, h2⟩ := h.wait (hlive.1 hp).1 hpc'
    refine ⟨hlive.2 ⟨h1, ?_⟩, h2⟩
    rintro rfl
    exact hw p (hlive.1 hp).1 hpc

/-- **A space gone** that no task uses and that is not loaded. -/
theorem Core.destroy {r : ℕ} (h : Core rs X s) (hr : r ∈ rs) (hl : s.m.cr3 ≠ addrOf r)
    (hu : ∀ q ∈ s.tb.live, (s.tb.task q).cr3 ≠ addrOf r) (ho : ∀ q ∈ s.tb.live, s.cont q ≠ .execve (addrOf r)) :
    Core (rs.erase r) X (s.destroyAddressSpace (addrOf r)) := by
  obtain ⟨hb, hnd, hcr3, hk⟩ := destroy_built h.built hr
  unfold Sys.destroyAddressSpace
  generalize Vmm.destroyAddressSpace (addrOf r) s.m = m' at hb hcr3 hk ⊢
  have hkeep : ∀ {a : U64}, (∃ r' ∈ rs, a = addrOf r') → a ≠ addrOf r → ∃ r' ∈ rs.erase r, a = addrOf r' := by
    rintro a ⟨r', hr', rfl⟩ hne
    exact ⟨r', (List.mem_erase_of_ne (by rintro rfl; exact hne rfl)).2 hr', rfl⟩
  constructor <;> dsimp only
  · exact hb
  · exact h.cur
  · exact h.idle
  · exact fun hp hnz => hkeep (h.space hp hnz) (hu _ hp)
  · exact h.inj
  · intro p a hp ha
    obtain ⟨h1, h2, h3⟩ := h.old hp ha
    refine ⟨h1, hkeep h2 ?_, h3⟩
    rintro rfl
    exact ho p hp ha
  · exact fun hnz => hcr3.trans (h.loaded hnz)
  · rw [hcr3, hk]
    rcases h.alive with ha | ha
    · exact Or.inl ha
    · exact Or.inr (hkeep ha hl)
  · intro a ha
    rw [hk]
    rcases List.mem_cons.1 ha with rfl | ha
    · refine ⟨(root_spec h.built hr).2.2.1, fun r' hr' he => ?_⟩
      have := addrOf_inj h.built hr (List.mem_of_mem_erase hr') he
      subst this
      exact hnd.not_mem_erase hr'
    · obtain ⟨h1, h2⟩ := h.dead ha
      exact ⟨h1, fun r' hr' => h2 r' (List.mem_of_mem_erase hr')⟩
  · intro z hz
    obtain ⟨h1, h2, h3, h4⟩ := h.zombie hz
    exact ⟨h1, h2, h3, fun a b c => hcr3.trans (h4 a b c)⟩
  · exact h.parent
  · exact h.wait

/-- **`free_task` is safe** for a task other than the running one whose space is not loaded. -/
theorem free_core (h : Core rs X s) (hf : freeTask s t = some s') (hc : t ≠ s.current) (hi : t ≠ s.idle)
    (hl : (s.tb.task t).cr3 ≠ 0 → s.m.cr3 ≠ (s.tb.task t).cr3) (z' : Option Ptr)
    (hz : ∀ {z}, z' = some z → s.zombie = some z ∧ z ≠ t) (c' : Ptr → Cont)
    (hcont : ∀ q, c' q = s.cont q ∨ c' q = .own) (hw : ∀ q ∈ s.tb.live, c' q ≠ .wait t) :
    ∃ rs', Core rs' X { s' with zombie := z', cont := c' } := by
  have hrem := h.remove hc hi hz hcont hw
  obtain ⟨ht, ⟨h0, rfl⟩ | ⟨h0, rfl⟩⟩ := freeTask_eq hf
  · exact ⟨rs, hrem⟩
  · obtain ⟨r, hr, he⟩ := h.space ht h0
    have hlive : ∀ {q}, q ∈ (s.tb.free t).live → q ∈ s.tb.live ∧ q ≠ t := by
      intro q hq
      obtain ⟨h1, h2⟩ := List.mem_filter.1 hq
      exact ⟨h1, by simpa using h2⟩
    have hd := hrem.destroy hr (by rw [← he]; exact hl h0)
      (fun q hq hqe => (hlive hq).2 (h.inj (hlive hq).1 ht (by
        show (s.tb.task q).cr3 ≠ 0
        have : (s.tb.task q).cr3 = addrOf r := hqe
        rw [this, ← he]; exact h0) (hqe.trans he.symm)))
      (fun q hq hqc => by
        have hqc' : s.cont q = .execve (addrOf r) := by
          rcases hcont q with h1 | h1
          · rw [← h1]; exact hqc
          · rw [show c' q = .execve (addrOf r) from hqc] at h1; cases h1
        exact (h.old (hlive hq).1 hqc').2.2 t ht he)
    rw [← he] at hd
    simp only [Sys.destroyAddressSpace] at hd
    exact ⟨_, hd⟩

/-- `unlink_from_ring` changes one `next` -/
theorem unlink_core (h : Core rs X s) (hu : unlinkFromRing s t = some s') :
    Core rs X s' ∧ s'.tb.live = s.tb.live ∧ (∀ q, view (s'.tb.task q) = view (s.tb.task q)) ∧
      s' = { s with tb := s'.tb } := by
  unfold unlinkFromRing at hu
  simp only [bind, Option.bind_eq_some_iff, pure, Option.some.injEq] at hu
  obtain ⟨prev, -, x, -, y, hy, rfl⟩ := hu
  obtain ⟨-, rfl⟩ := get_some.1 hy
  exact ⟨h.set rfl, rfl, view_set rfl, rfl⟩

/-- **Reaping.** Safe unless a kernel-only task reaps a Linux one. -/
theorem reap_core (h : Core rs X s) (hr : reapZombie s = some s')
    (hg : ∀ z, s.zombie = some z → z ≠ s.current → (s.tb.task z).cr3 ≠ 0 → (s.tb.task s.current).cr3 ≠ 0) :
    ∃ rs', Core rs' X s' ∧ (s'.zombie = none ∨ s'.zombie = some s.current) ∧ s'.current = s.current ∧ s'.cont = s.cont ∧
      view (s'.tb.task s.current) = view (s.tb.task s.current) := by
  unfold reapZombie at hr
  cases hz : s.zombie with
  | none =>
    simp only [hz, Option.some.injEq] at hr
    subst hr
    exact ⟨rs, h, Or.inl hz, rfl, rfl, rfl⟩
  | some z =>
    simp only [hz] at hr
    split_ifs at hr with hzc
    · cases hr
      exact ⟨rs, h, Or.inr (by rw [hz, hzc]), rfl, rfl, rfl⟩
    · simp only [bind, Option.bind_eq_some_iff, pure, Option.some.injEq] at hr
      obtain ⟨s1, hu, s2, hf, rfl⟩ := hr
      obtain ⟨hzl, hzd, hzp, -⟩ := h.zombie hz
      obtain ⟨h1, hlive, hview, hs1⟩ := unlink_core h hu
      have hcr3 : ∀ q, (s1.tb.task q).cr3 = (s.tb.task q).cr3 := fun q => congrArg Prod.fst (hview q)
      have hcur : s1.current = s.current := by rw [hs1]
      have hcont1 : s1.cont = s.cont := by rw [hs1]
      have hm1 : s1.m = s.m := by rw [hs1]
      obtain ⟨rs', h2⟩ := free_core h1 hf (by rw [hcur]; exact hzc)
        (by rw [show s1.idle = s.idle by rw [hs1]]; rintro rfl; exact h.idle.2 hzd)
        (fun hnz heq => by
          rw [hcr3] at hnz heq
          have hc0 := hg z hz hzc hnz
          rw [hm1, h.loaded hc0] at heq
          exact hzc (h.inj h.cur hzl hc0 heq).symm)
        none (fun hn => by cases hn) s1.cont (fun _ => Or.inl rfl)
        (fun q hq hw => by
          rw [hcont1] at hw
          rw [hlive] at hq
          rw [(h.wait hq hw).2] at hzp; cases hzp)
      have hrest : s2.current = s1.current ∧ s2.cont = s1.cont ∧ s2.tb.task = s1.tb.task := by
        obtain ⟨-, ⟨-, hs2⟩ | ⟨-, hs2⟩⟩ := freeTask_eq hf <;> simp only [hs2, Table.free, and_self]
      refine ⟨rs', ?_, Or.inl rfl, hrest.1.trans hcur, hrest.2.1.trans hcont1, ?_⟩
      · rw [← hrest.2.1] at h2; exact h2
      · show view (s2.tb.task s.current) = _
        rw [hrest.2.2]; exact hview _

/-- entering `schedule` -/
theorem startSchedule_inv (h : Core rs X s) (hown : ∀ a, s.cont s.current ≠ .execve a)
    (hg : ∀ z, s.zombie = some z → z ≠ s.current → (s.tb.task z).cr3 ≠ 0 → (s.tb.task s.current).cr3 ≠ 0)
    (hs : startSchedule s = some s') : ∃ rs', Inv rs' X s' := by
  obtain ⟨s1, hr, rfl⟩ := Option.map_eq_some_iff.1 hs
  obtain ⟨rs', h1, hz, hc, hk, -⟩ := reap_core h hr hg
  refine ⟨rs', ⟨h1.congr rfl (fun _ => rfl) rfl rfl rfl rfl rfl rfl, fun hf => (nomatch hf), fun _ => ⟨?_, ?_⟩⟩⟩
  · show s1.zombie = none ∨ s1.zombie = some s1.current
    rw [hc]; exact hz
  · show ∀ a, s1.cont s1.current ≠ .execve a
    rw [hc, hk]; exact hown

/-- **Switching.** The next task's space is loaded; a kernel-only one keeps the old task's. -/
theorem switchTo_inv {q : Ptr} (h : Inv rs X s) (hsch : s.scheduling = true) (hq : q ≠ s.current)
    {b : ℕ} {c : Bool}
    (hs : switchTo { s with ticksLeft := b, needResched := c, scheduling := false } q = some s') : Inv rs X s' := by
  unfold switchTo at hs
  simp only [bind, Option.bind_eq_some_iff, pure, Option.some.injEq] at hs
  obtain ⟨old, hold, x, hx, rfl⟩ := hs
  obtain ⟨-, rfl⟩ := get_some.1 hold
  obtain ⟨hql, rfl⟩ := get_some.1 hx
  have hql' : q ∈ s.tb.live := hql
  have hxq : (s.tb.set s.current { s.tb.task s.current with
      state := if (s.tb.task s.current).state = .Running then .Ready else (s.tb.task s.current).state }).task q =
      s.tb.task q := by rw [set_task, if_neg hq]
  simp only [Sys.setTask, hxq]
  -- only the two states change
  generalize htb : Table.set (Table.set s.tb s.current _) q _ = tb'
  have hlive : tb'.live = s.tb.live := by rw [← htb]; rfl
  have hrest : ∀ p, (tb'.task p).cr3 = (s.tb.task p).cr3 ∧ (tb'.task p).parent = (s.tb.task p).parent := by
    intro p
    by_cases hp : p = q
    · rw [← htb, set_task, if_pos hp, hp]; exact ⟨rfl, rfl⟩
    rw [← htb, set_task, if_neg hp, set_task]
    by_cases hp' : p = s.current
    · rw [if_pos hp', hp']; exact ⟨rfl, rfl⟩
    · rw [if_neg hp']; exact ⟨rfl, rfl⟩
  have hstate : ∀ p, p ≠ q → (s.tb.task p).state = .Dead ∧ (tb'.task p).state = .Dead ∨
      (s.tb.task p).state ≠ .Dead ∧ (tb'.task p).state ≠ .Dead := by
    intro p hp
    rw [← htb, set_task, if_neg hp, set_task]
    by_cases hp' : p = s.current
    · rw [if_pos hp', hp']
      cases (s.tb.task s.current).state <;> simp
    · rw [if_neg hp']
      by_cases hpd : (s.tb.task p).state = .Dead
      · exact Or.inl ⟨hpd, hpd⟩
      · exact Or.inr ⟨hpd, hpd⟩
  have hqs : (tb'.task q).state = .Running := by rw [← htb, set_task, if_pos rfl]
  clear htb
  have hm : ∀ {a : U64}, a = (s.tb.task q).cr3 →
      Built (if a = 0 then s.m else { s.m with cr3 := a }) rs X ∧
      (if a = 0 then s.m else { s.m with cr3 := a }).gKernelPml4 = s.m.gKernelPml4 := by
    rintro a rfl
    split_ifs with h0
    · exact ⟨h.built, rfl⟩
    · obtain ⟨r, hr, he⟩ := h.space hql' h0
      rw [he]; exact ⟨h.built.load hr, rfl⟩
  have hnoexec : ∀ {p a}, p ∈ s.tb.live → s.cont p ≠ .execve a := by
    intro p a hp ha
    have hpc := (h.old hp ha).1
    rw [hpc] at ha
    exact (h.reaped hsch).2 a ha
  refine ⟨?_, fun _ => by show (tb'.task q).state ≠ _; rw [hqs]; decide, fun hf => absurd hf Bool.false_ne_true⟩
  constructor <;> dsimp only
  · exact (hm rfl).1
  · rw [hlive]; exact hql'
  · rw [hlive]
    refine ⟨h.idle.1, ?_⟩
    by_cases hiq : s.idle = q
    · rw [hiq, hqs]; decide
    · rcases hstate _ hiq with hh | hh
      · exact absurd hh.1 h.idle.2
      · exact hh.2
  · intro p hp; rw [hlive] at hp; rw [(hrest p).1]; exact h.space hp
  · intro p p' hp hp'; rw [hlive] at hp hp'; rw [(hrest p).1, (hrest p').1]; exact h.inj hp hp'
  · intro p a hp ha; rw [hlive] at hp; exact absurd ha (hnoexec hp)
  · intro hnz
    rw [(hrest q).1] at hnz ⊢
    rw [if_neg hnz]
  · rw [(hm rfl).2]
    by_cases h0 : (s.tb.task q).cr3 = 0
    · rw [if_pos h0]; exact h.alive
    · rw [if_neg h0]; exact Or.inr (h.space hql' h0)
  · intro a ha; rw [(hm rfl).2]; exact h.dead ha
  · intro z hz
    -- a zombie that is left is the task switched away from
    have hzc : z = s.current := by
      rcases (h.reaped hsch).1 with hn | hn
      · rw [hn] at hz; cases hz
      · rw [hn] at hz; exact (Option.some.inj hz).symm
    obtain ⟨h1, h2, h3, -⟩ := h.zombie hz
    have hzq : z ≠ q := by rw [hzc]; exact hq.symm
    rw [hlive, (hrest z).1, (hrest z).2, (hrest q).1]
    refine ⟨h1, ?_, h3, fun _ h0 hnz => ?_⟩
    · rcases hstate z hzq with hh | hh
      · exact hh.2
      · exact absurd h2 hh.1
    · rw [if_pos h0]
      rw [hzc] at hnz ⊢
      exact h.loaded hnz
  · intro p hp; rw [hlive] at hp; rw [(hrest p).1, (hrest p).2]; exact h.parent hp
  · intro p c hp hw; rw [hlive] at hp ⊢; rw [(hrest c).2]; exact h.wait hp hw

theorem finishSchedule_inv (h : Inv rs X s) (hsch : s.scheduling = true) (hs : finishSchedule s = some s') :
    Inv rs X s' := by
  unfold finishSchedule at hs
  simp only [bind, Option.bind_eq_some_iff] at hs
  obtain ⟨q, hq, hs⟩ := hs
  split_ifs at hs with hqc
  · cases hs
    refine ⟨h.toCore.congr rfl (fun _ => rfl) rfl rfl rfl rfl rfl rfl, fun _ => ?_, fun hf => nomatch hf⟩
    rw [hqc] at hq
    rcases pick_spec hq with ⟨-, -, hne⟩ | ⟨-, hr⟩ | ⟨hi, -⟩
    · exact absurd rfl hne
    · show (s.tb.task s.current).state ≠ _
      rw [hr]; decide
    · show (s.tb.task s.current).state ≠ _
      rw [hi]; exact h.idle.2
  · exact switchTo_inv h hsch hqc hs

theorem setCont_apply (c : Cont) (q : Ptr) : (s.setCont c).cont q = if q = s.current then c else s.cont q :=
  Function.update_apply ..

/-- the running task is back in its own code -/
theorem Core.setOwn (h : Core rs X s) : Core rs X (s.setCont .own) := by
  have hcont : ∀ {q c}, c ≠ .own → (s.setCont .own).cont q = c → s.cont q = c := by
    intro q c hc hq
    rw [setCont_apply] at hq
    split_ifs at hq with hqc
    · exact absurd hq.symm hc
    · exact hq
  exact ⟨h.built, h.cur, h.idle, h.space, h.inj, fun hp ha => h.old hp (hcont (by simp) ha), h.loaded, h.alive, h.dead,
    h.zombie, h.parent, fun hp hw => h.wait hp (hcont (by simp) hw)⟩

/-- the running task starts to wait for a child of its own -/
theorem Core.setWait {c : Ptr} (h : Core rs X s) (hc : c ∈ s.tb.live) (hp : (s.tb.task c).parent = some s.current) :
    Core rs X (s.setCont (.wait c)) := by
  refine ⟨h.built, h.cur, h.idle, h.space, h.inj, fun {p a} hl ha => ?_, h.loaded, h.alive, h.dead, h.zombie, h.parent,
    fun {p c'} hl hw => ?_⟩
  · rw [setCont_apply] at ha
    split_ifs at ha with hpc
    exact h.old hl ha
  · rw [setCont_apply] at hw
    split_ifs at hw with hpc
    · cases hw
      exact ⟨hc, by rw [hpc]; exact hp⟩
    · exact h.wait hl hw

/-- **Another space for the running task**, loaded at once: into execve, and back out of it. -/
theorem Core.retarget {r : ℕ} {c : Cont} (h : Core rs X s) (hr : r ∈ rs) (hx : x.cr3 = addrOf r)
    (hpar : x.parent = (s.tb.task s.current).parent) (hst : x.state = (s.tb.task s.current).state)
    (hu : ∀ q ∈ s.tb.live, q ≠ s.current → (s.tb.task q).cr3 ≠ addrOf r)
    (hc : c = .own ∨ ∃ a, c = .execve a ∧ (∃ r' ∈ rs, a = addrOf r') ∧ a ≠ addrOf r ∧
      ∀ q ∈ s.tb.live, q ≠ s.current → (s.tb.task q).cr3 ≠ a) :
    Core rs X (((s.setTask s.current x).loadCr3 (addrOf r)).setCont c) := by
  have h0 : x.cr3 ≠ 0 := by rw [hx]; exact (root_spec h.built hr).2.1
  have hcur : (s.tb.set s.current x).task s.current = x := by rw [set_task, if_pos rfl]
  have hother : ∀ {q}, q ≠ s.current → (s.tb.set s.current x).task q = s.tb.task q := fun hq => by rw [set_task, if_neg hq]
  have hpar' : ∀ q, ((s.tb.set s.current x).task q).parent = (s.tb.task q).parent := by
    intro q
    by_cases hq : q = s.current
    · rw [hq, hcur, hpar]
    · rw [hother hq]
  have hst' : ∀ q, ((s.tb.set s.current x).task q).state = (s.tb.task q).state := by
    intro q
    by_cases hq : q = s.current
    · rw [hq, hcur, hst]
    · rw [hother hq]
  unfold Sys.setCont Sys.loadCr3 Sys.setTask
  constructor <;> dsimp only
  · exact h.built.load hr
  · exact h.cur
  · rw [hst']; exact h.idle
  · intro q hq hnz
    by_cases hqc : q = s.current
    · rw [hqc, hcur]; exact ⟨r, hr, hx⟩
    · rw [hother hqc] at hnz ⊢; exact h.space hq hnz
  · intro q q' hq hq' hnz heq
    by_cases hqc : q = s.current <;> by_cases hqc' : q' = s.current
    · rw [hqc, hqc']
    · rw [hqc, hcur, hother hqc', hx] at heq
      exact absurd heq.symm (hu q' hq' hqc')
    · rw [hqc', hcur, hother hqc, hx] at heq
      exact absurd heq (hu q hq hqc)
    · rw [hother hqc] at hnz heq
      rw [hother hqc'] at heq
      exact h.inj hq hq' hnz heq
  · intro q a hq ha
    rw [Function.update_apply] at ha
    split_ifs at ha with hqc
    · rcases hc with rfl | ⟨a', rfl, ha', hne, hfree⟩
      · cases ha
      · cases ha
        refine ⟨hqc, ha', fun q' hq' => ?_⟩
        by_cases hqc' : q' = s.current
        · rw [hqc', hcur, hx]; exact hne.symm
        · rw [hother hqc']; exact hfree q' hq' hqc'
    · exact absurd (h.old hq ha).1 hqc
  · intro _; rw [hcur, hx]
  · exact Or.inr ⟨r, hr, rfl⟩
  · exact h.dead
  · intro z hz'
    obtain ⟨h1, h2, h3, -⟩ := h.zombie hz'
    rw [hst', hpar', hcur]
    exact ⟨h1, h2, h3, fun _ hc0 => absurd hc0 h0⟩
  · intro q hq
    rw [hpar']
    refine ⟨(h.parent hq).1, fun hn => ?_⟩
    by_cases hqc : q = s.current
    · rw [hqc, hcur]; exact h0
    · rw [hother hqc]; exact (h.parent hq).2 hn
  · intro q c' hq hw
    rw [hpar']
    rw [Function.update_apply] at hw
    split_ifs at hw with hqc
    · rcases hc with rfl | ⟨a', rfl, -⟩ <;> cases hw
    · exact h.wait hq hw

/-- the running task is not the zombie, and its own space is loaded -/
theorem Inv.not_zombie (h : Inv rs X s) (hsch : s.scheduling = false) : s.zombie ≠ some s.current := fun hz =>
  h.running hsch (h.zombie hz).2.1

theorem Inv.pml4 (h : Inv rs X s) (hc : (s.tb.task s.current).cr3 ≠ 0) : getPml4 s.m ∈ rs := by
  obtain ⟨r, hr, he⟩ := h.space h.cur hc
  rw [getPml4, h.loaded hc, he, (root_spec h.built hr).2.2.2]; exact hr

/-- a core with the running task's state and the scheduler's flag as they were -/
theorem Inv.ofCore {rs' : List ℕ} (h : Core rs' X s') (hsch : s'.scheduling = false)
    (hst : (s'.tb.task s'.current).state ≠ .Dead) : Inv rs' X s' :=
  ⟨h, fun _ => hst, fun hf => by rw [hsch] at hf; cases hf⟩

theorem spawn_core {cr3 : U64} {top : U64} (h : Core rs X s) (hp : p ∉ s.tb.live)
    (hown : ∀ a, s.cont s.current ≠ .execve a)
    (hcr3 : cr3 = 0 ∨ (∃ r ∈ rs, cr3 = addrOf r) ∧ ∀ q ∈ s.tb.live, (s.tb.task q).cr3 ≠ cr3)
    (hs : spawn s p top cr3 = some s') :
    Core rs X s' ∧ s'.current = s.current ∧ s'.scheduling = s.scheduling ∧
      view (s'.tb.task s'.current) = view (s.tb.task s.current) := by
  obtain ⟨c, hc, rfl⟩ := Option.map_eq_some_iff.1 hs
  obtain ⟨hl, rfl⟩ := get_some.1 hc
  have hpc : s.current ≠ p := by rintro he; exact hp (he ▸ hl)
  have hadd := h.add hp hown (x := { create s.nextId top cr3 with next := (s.tb.task s.current).next }) hcr3 (Or.inl rfl)
    (s.nextId + 1)
  have hcur : (s.tb.add p { create s.nextId top cr3 with next := (s.tb.task s.current).next }).task s.current =
      s.tb.task s.current := Function.update_of_ne hpc _ _
  refine ⟨hadd.set (p := s.current) (x := { s.tb.task s.current with next := p }) ?_, rfl, rfl, ?_⟩
  · show view _ = view ((s.tb.add p _).task s.current)
    rw [hcur]; rfl
  · show view ((Table.set _ s.current _).task s.current) = _
    rw [set_task, if_pos rfl]; rfl

/-- a new task gets the running one as its parent -/
theorem Core.adopt (h : Core rs X s) (hp : p ≠ s.current) (hpar : (s.tb.task p).parent = none)
    (hz : s.zombie ≠ some p) (hcr3 : (s.tb.task p).cr3 ≠ 0) (hx : view x = ((s.tb.task p).cr3, some s.current,
      (s.tb.task p).state)) : Core rs X (s.setTask p x) := by
  have hx1 : x.cr3 = (s.tb.task p).cr3 := congrArg Prod.fst hx
  have hx2 : x.parent = some s.current := congrArg (·.2.1) hx
  have hx3 : x.state = (s.tb.task p).state := congrArg (·.2.2) hx
  have hself : (s.tb.set p x).task p = x := by rw [set_task, if_pos rfl]
  have hother : ∀ {q}, q ≠ p → (s.tb.set p x).task q = s.tb.task q := fun hq => by rw [set_task, if_neg hq]
  have hc : ∀ q, ((s.tb.set p x).task q).cr3 = (s.tb.task q).cr3 := by
    intro q
    by_cases hq : q = p
    · rw [hq, hself, hx1]
    · rw [hother hq]
  have hst : ∀ q, ((s.tb.set p x).task q).state = (s.tb.task q).state := by
    intro q
    by_cases hq : q = p
    · rw [hq, hself, hx3]
    · rw [hother hq]
  unfold Sys.setTask
  constructor <;> dsimp only
  · exact h.built
  · exact h.cur
  · rw [hst]; exact h.idle
  · intro q hq; rw [hc]; exact h.space hq
  · intro q q' hq hq'; rw [hc, hc]; exact h.inj hq hq'
  · intro q a hq ha
    obtain ⟨h1, h2, h3⟩ := h.old hq ha
    exact ⟨h1, h2, fun q' hq' => by rw [hc]; exact h3 q' hq'⟩
  · rw [hc]; exact h.loaded
  · exact h.alive
  · exact h.dead
  · intro z hz'
    have hzp : z ≠ p := by rintro rfl; exact hz hz'
    rw [hst, hc, hc, hother hzp]; exact h.zombie hz'
  · intro q hq
    rw [hc]
    by_cases hqp : q = p
    · rw [hqp, hself, hx2]; exact ⟨fun he => hp (Option.some.inj he).symm, fun _ => hcr3⟩
    · rw [hother hqp]; exact h.parent hq
  · intro q c hq hw
    obtain ⟨h1, h2⟩ := h.wait hq hw
    have hcp : c ≠ p := by rintro rfl; rw [hpar] at h2; cases h2
    exact ⟨h1, by rw [hother hcp]; exact h2⟩

theorem forkSpace_core {a : U64} (h : Core rs X s) (hc : (s.tb.task s.current).cr3 ≠ 0)
    (hf : forkSpace s = some (a, s')) :
    ∃ r, a = addrOf r ∧ Core (r :: rs) X s' ∧ addrOf r ≠ 0 ∧ (∀ q ∈ s.tb.live, (s.tb.task q).cr3 ≠ addrOf r) ∧
      s' = { s with m := s'.m, dead := s'.dead } := by
  unfold forkSpace at hf
  simp only [bind, Option.bind_eq_some_iff, pure, Option.some.injEq, Prod.mk.injEq] at hf
  obtain ⟨parent, hp, ⟨a', s1⟩, hcr, m', hcl, rfl, rfl⟩ := hf
  obtain ⟨hl, rfl⟩ := get_some.1 hp
  obtain ⟨r, rfl, h1, hr, -, hs1⟩ := h.create hcr
  obtain ⟨h0, hfresh⟩ := h.fresh h1.built hr
  obtain ⟨r', hr', he⟩ := h.space hl hc
  rw [he] at hcl
  have hne : r' ≠ r := by rintro rfl; exact hr hr'
  obtain ⟨hb, hcr3, hk⟩ := clone_built h1.built (List.mem_cons_self ..) (List.mem_cons_of_mem _ hr') hne hcl
  exact ⟨r, rfl, h1.mem hb hcr3 hk, h0, hfresh, by rw [hs1]⟩

theorem sysFork_inv {top : U64} (h : Inv rs X s) (hsch : s.scheduling = false) (hc : (s.tb.task s.current).cr3 ≠ 0)
    (hown : ∀ a, s.cont s.current ≠ .execve a) (hp : p ∉ s.tb.live) (hs : sysFork s p top = some s') :
    ∃ rs', Inv rs' X s' := by
  unfold sysFork at hs
  simp only [bind, Option.bind_eq_some_iff, pure, Option.some.injEq] at hs
  obtain ⟨parent, -, ⟨a, s1⟩, hf, s2, hsp, child, hch, rfl⟩ := hs
  obtain ⟨r, rfl, h1, h0, hfresh, hs1⟩ := forkSpace_core h.toCore hc hf
  have htb : s1.tb = s.tb ∧ s1.current = s.current ∧ s1.cont = s.cont ∧ s1.scheduling = s.scheduling ∧
      s1.zombie = s.zombie := by rw [hs1]; exact ⟨rfl, rfl, rfl, rfl, rfl⟩
  obtain ⟨ht, hcu, hco, hsc, hzo⟩ := htb
  obtain ⟨h2, hc2, hsch2, hv2⟩ := spawn_core h1 (by rw [ht]; exact hp) (by rw [hco, hcu]; exact hown)
    (Or.inr ⟨⟨r, List.mem_cons_self .., rfl⟩, by rw [ht]; exact hfresh⟩) hsp
  obtain ⟨-, rfl⟩ := get_some.1 hch
  have hpc : p ≠ s.current := by rintro rfl; exact hp h.cur
  -- the child as spawn left it
  have hchild : (s2.tb.task p).parent = none ∧ (s2.tb.task p).cr3 = addrOf r ∧ s2.zombie = s.zombie := by
    obtain ⟨c, -, rfl⟩ := Option.map_eq_some_iff.1 hsp
    refine ⟨?_, ?_, hzo⟩
    · show ((Table.set _ s1.current _).task p).parent = none
      rw [set_task, if_neg (by rw [hcu]; exact hpc)]
      rw [add_self]; rfl
    · show ((Table.set _ s1.current _).task p).cr3 = addrOf r
      rw [set_task, if_neg (by rw [hcu]; exact hpc)]
      rw [add_self]; rfl
  have hcur2 : s2.current = s.current := hc2.trans hcu
  have h3 := h2.adopt (p := p) (x := { s2.tb.task p with
      fds := parent.fds, brkStart := parent.brkStart, brkCur := parent.brkCur, mmapNext := parent.mmapNext,
      fsBase := parent.fsBase, parent := some s2.current }) (by rw [hcur2]; exact hpc) hchild.1
    (by rw [hchild.2.2]; intro hz; exact hp (h.zombie hz).1) (by rw [hchild.2.1]; exact h0) rfl
  refine ⟨r :: rs, Inv.ofCore h3 (hsch2.trans (hsc.trans hsch)) ?_⟩
  show ((s2.tb.set p _).task s2.current).state ≠ _
  rw [set_task, if_neg (by rw [hcur2]; exact hpc.symm)]
  have hst : (s2.tb.task s2.current).state = (s1.tb.task s1.current).state := congrArg (·.2.2) hv2
  rw [hst, ht, hcu]
  exact h.running hsch

theorem sysForkFail_inv (h : Inv rs X s) (hsch : s.scheduling = false) (hc : (s.tb.task s.current).cr3 ≠ 0)
    (hown : ∀ a, s.cont s.current ≠ .execve a) (hs : sysForkFail s = some s') : ∃ rs', Inv rs' X s' := by
  obtain ⟨⟨a, s1⟩, hf, rfl⟩ := Option.map_eq_some_iff.1 hs
  obtain ⟨r, rfl, h1, h0, hfresh, hs1⟩ := forkSpace_core h.toCore hc hf
  have htb : s1.tb = s.tb ∧ s1.current = s.current ∧ s1.cont = s.cont ∧ s1.scheduling = s.scheduling := by
    rw [hs1]; exact ⟨rfl, rfl, rfl, rfl⟩
  obtain ⟨ht, hcu, hco, hsc⟩ := htb
  have h2 := h1.destroy (List.mem_cons_self ..) (by
      rw [h1.loaded (by rw [ht, hcu]; exact hc), ht, hcu]; exact hfresh _ h.cur) (by rw [ht]; exact hfresh)
    (fun q hq hqc => by
      rw [ht] at hq
      rw [hco] at hqc
      have := (h.old hq hqc).1
      rw [this] at hqc
      exact hown _ hqc)
  refine ⟨_, Inv.ofCore h2 ?_ ?_⟩
  · rw [destroy_scheduling]; exact hsc.trans hsch
  · rw [destroy_tb, destroy_current, ht, hcu]; exact h.running hsch

theorem execveStart_inv (h : Inv rs X s) (hsch : s.scheduling = false) (hc : (s.tb.task s.current).cr3 ≠ 0)
    (hs : execveStart s = some s') : ∃ rs', Inv rs' X s' := by
  unfold execveStart at hs
  simp only [bind, Option.bind_eq_some_iff, pure, Option.some.injEq] at hs
  obtain ⟨self, hself, ⟨a, s1⟩, hcr, rfl⟩ := hs
  obtain ⟨hl, rfl⟩ := get_some.1 hself
  obtain ⟨r, rfl, h1, hr, -, hs1⟩ := h.toCore.create hcr
  obtain ⟨h0, hfresh⟩ := h.toCore.fresh h1.built hr
  have htb : s1.tb = s.tb ∧ s1.current = s.current ∧ s1.scheduling = s.scheduling := by
    rw [hs1]; exact ⟨rfl, rfl, rfl⟩
  obtain ⟨ht, hcu, hsc⟩ := htb
  obtain ⟨r', hr', he⟩ := h.space hl hc
  simp only
  rw [← hcu]
  refine ⟨_, Inv.ofCore (h1.retarget (x := { s.tb.task s1.current with cr3 := addrOf r }) (List.mem_cons_self ..) rfl
    (by rw [ht]) (by rw [ht]) (fun q hq _ => by
      rw [ht] at hq ⊢; exact hfresh q hq) (Or.inr ⟨_, rfl, ?_, ?_, fun q hq hne heq => ?_⟩)) (hsc.trans hsch) ?_⟩
  · rw [hcu]; exact ⟨r', List.mem_cons_of_mem _ hr', he⟩
  · rw [hcu]; exact hfresh _ hl
  · rw [ht] at hq heq
    rw [hcu] at hne heq
    exact hne (h.inj hl hq hc heq.symm).symm
  · show ((s1.tb.set s1.current _).task s1.current).state ≠ _
    rw [set_task, if_pos rfl, hcu]
    exact h.running hsch

theorem destroy_setCont (a : U64) (c : Cont) :
    (s.destroyAddressSpace a).setCont c = (s.setCont c).destroyAddressSpace a := by
  simp only [Sys.destroyAddressSpace, Sys.setCont]

theorem execveFail_inv {image : Option (U64 × U64)} (h : Inv rs X s) (hsch : s.scheduling = false)
    (hc : (s.tb.task s.current).cr3 ≠ 0) (hs : execveFail s image = some s') : ∃ rs', Inv rs' X s' := by
  unfold execveFail at hs
  split at hs
  swap
  · cases hs
  rename_i old hold
  simp only [bind, Option.bind_eq_some_iff, pure, Option.some.injEq] at hs
  obtain ⟨self, hself, rfl⟩ := hs
  obtain ⟨hl, rfl⟩ := get_some.1 hself
  obtain ⟨-, ⟨r, hr, rfl⟩, hfree⟩ := h.old h.cur hold
  have hxv : view (withImage (s.tb.task s.current) image) = view (s.tb.task s.current) := by
    rcases image with - | ⟨highest, mmapBase⟩ <;> rfl
  generalize withImage (s.tb.task s.current) image = x at hxv ⊢
  have hx2 : x.parent = (s.tb.task s.current).parent := congrArg (·.2.1) hxv
  have hx3 : x.state = (s.tb.task s.current).state := congrArg (·.2.2) hxv
  have h1 := h.retarget (x := { x with cr3 := addrOf r }) hr rfl hx2 hx3 (fun q hq _ => hfree q hq)
    (Or.inl rfl)
  -- the space given up is the one the running task had until now
  obtain ⟨r', hr', he⟩ := h.space hl hc
  have hne : addrOf r ≠ addrOf r' := fun heq => hfree _ hl (he.trans heq.symm)
  rw [destroy_setCont, he]
  have h2 := h1.destroy hr' hne (fun q hq heq => ?_) (fun q hq hqc => ?_)
  · refine ⟨_, Inv.ofCore h2 ?_ ?_⟩
    · rw [destroy_scheduling]; exact hsch
    · rw [destroy_tb, destroy_current]
      show ((s.tb.set s.current _).task s.current).state ≠ _
      rw [set_task, if_pos rfl]
      show x.state ≠ _
      rw [hx3]; exact h.running hsch
  · have heq' : ((s.tb.set s.current { x with cr3 := addrOf r }).task q).cr3 = addrOf r' := heq
    rw [set_task] at heq'
    split_ifs at heq' with hqs
    · exact hne heq'
    · exact hqs (h.inj h.cur hq hc (he.trans heq'.symm)).symm
  · rw [setCont_apply] at hqc
    split_ifs at hqc with hqs
    exact hqs (h.old hq hqc).1

theorem execveCommit_inv {highest base : U64} (h : Inv rs X s) (hsch : s.scheduling = false)
    (hc : (s.tb.task s.current).cr3 ≠ 0) (hs : execveCommit s highest base = some s') : ∃ rs', Inv rs' X s' := by
  unfold execveCommit at hs
  split at hs
  swap
  · cases hs
  rename_i old hold
  simp only [bind, Option.bind_eq_some_iff, pure, Option.some.injEq] at hs
  obtain ⟨self, hself, rfl⟩ := hs
  obtain ⟨hl, rfl⟩ := get_some.1 hself
  obtain ⟨-, ⟨r, hr, rfl⟩, hfree⟩ := h.old h.cur hold
  rw [if_neg (root_spec h.built hr).2.1, destroy_setCont]
  have h1 := (h.toCore.set (p := s.current) (x := setImage (s.tb.task s.current) highest base) rfl).setOwn
  have hcr3 : ∀ q, ((s.tb.set s.current (setImage (s.tb.task s.current) highest base)).task q).cr3 =
      (s.tb.task q).cr3 := fun q => congrArg Prod.fst (view_set (p := s.current)
        (t := setImage (s.tb.task s.current) highest base) rfl q)
  have h2 := h1.destroy hr (fun heq => ?_) (fun q hq heq => ?_) (fun q hq hqc => ?_)
  · refine ⟨_, Inv.ofCore h2 ?_ ?_⟩
    · rw [destroy_scheduling]; exact hsch
    · rw [destroy_tb, destroy_current]
      show ((s.tb.set s.current _).task s.current).state ≠ _
      rw [set_task, if_pos rfl]; exact h.running hsch
  · have heq' : s.m.cr3 = addrOf r := heq
    rw [h.loaded hc] at heq'
    exact hfree _ hl heq'
  · exact hfree q hq ((hcr3 q).symm.trans heq)
  · rw [setCont_apply] at hqc
    split_ifs at hqc with hqs
    exact hqs (h.old hq hqc).1

theorem exitCurrent_inv {code : U64} (h : Inv rs X s) (hsch : s.scheduling = false)
    (hown : ∀ a, s.cont s.current ≠ .execve a) (hi : s.current ≠ s.idle) (hs : exitCurrent s code = some s') :
    ∃ rs', Inv rs' X s' := by
  unfold exitCurrent at hs
  simp only [bind, Option.bind_eq_some_iff] at hs
  obtain ⟨c, hc, hs⟩ := hs
  obtain ⟨hl, rfl⟩ := get_some.1 hc
  have hrest : ∀ q, ((s.tb.set s.current { s.tb.task s.current with exitCode := code, state := .Dead }).task q).cr3 =
      (s.tb.task q).cr3 ∧ ((s.tb.set s.current { s.tb.task s.current with exitCode := code, state := .Dead }).task
        q).parent = (s.tb.task q).parent := by
    intro q
    by_cases hq : q = s.current
    · rw [set_task, if_pos hq, hq]; exact ⟨rfl, rfl⟩
    · rw [set_task, if_neg hq]; exact ⟨rfl, rfl⟩
  have hother : ∀ {q}, q ≠ s.current → (s.tb.set s.current { s.tb.task s.current with
      exitCode := code, state := .Dead }).task q = s.tb.task q := fun hq => by rw [set_task, if_neg hq]
  have hself : ((s.tb.set s.current { s.tb.task s.current with exitCode := code, state := .Dead }).task
      s.current).state = .Dead := by rw [set_task, if_pos rfl]
  have hz' : ∀ {z}, (if (s.tb.task s.current).parent = none then some s.current else s.zombie) = some z →
      z = s.current ∧ (s.tb.task s.current).parent = none ∨
        z ≠ s.current ∧ s.zombie = some z ∧ (s.tb.task s.current).parent ≠ none := by
    intro z hz
    split_ifs at hz with hp
    · exact Or.inl ⟨(Option.some.inj hz).symm, hp⟩
    · refine Or.inr ⟨?_, hz, hp⟩
      rintro rfl
      exact h.not_zombie hsch hz
  have hcore : Core rs X { s with
      tb := s.tb.set s.current { s.tb.task s.current with exitCode := code, state := .Dead }
      zombie := if (s.tb.task s.current).parent = none then some s.current else s.zombie } := by
    constructor <;> dsimp only
    · exact h.built
    · exact hl
    · rw [hother hi.symm]; exact h.idle
    · intro q hq; rw [(hrest q).1]; exact h.space hq
    · intro q q' hq hq'; rw [(hrest q).1, (hrest q').1]; exact h.inj hq hq'
    · intro q a hq ha
      obtain ⟨h1, h2, h3⟩ := h.old hq ha
      exact ⟨h1, h2, fun q' hq' => by rw [(hrest q').1]; exact h3 q' hq'⟩
    · rw [(hrest _).1]; exact h.loaded
    · exact h.alive
    · exact h.dead
    · intro z hz
      rcases hz' hz with ⟨rfl, hp⟩ | ⟨hne, hzo, -⟩
      · exact ⟨hl, hself, by rw [(hrest _).2]; exact hp, fun hne => absurd rfl hne⟩
      · rw [hother hne, (hrest s.current).1]; exact h.zombie hzo
    · intro q hq; rw [(hrest q).1, (hrest q).2]; exact h.parent hq
    · intro q c hq hw; rw [(hrest c).2]; exact h.wait hq hw
  refine startSchedule_inv hcore hown (fun z hz hne _ => ?_) hs
  -- only a parented task can find an older zombie here, and it is a Linux task
  rcases hz' hz with ⟨hzc, -⟩ | ⟨-, -, hp⟩
  · exact absurd hzc hne
  · show ((s.tb.set s.current _).task s.current).cr3 ≠ 0
    rw [(hrest _).1]; exact (h.parent hl).2 hp

theorem wait4Start_inv {pid : ℕ} (h : Inv rs X s) (hsch : s.scheduling = false) (hs : wait4Start s pid = some s') :
    Inv rs X s' := by
  unfold wait4Start at hs
  simp only [bind, Option.bind_eq_some_iff] at hs
  obtain ⟨child, -, hs⟩ := hs
  cases child with
  | none => cases hs; exact h
  | some child =>
    simp only [Option.bind_eq_some_iff] at hs
    obtain ⟨x, hx, hs⟩ := hs
    obtain ⟨hl, rfl⟩ := get_some.1 hx
    split_ifs at hs with hp
    · cases hs
      exact Inv.ofCore (h.toCore.setWait hl hp) hsch (h.running hsch)
    · cases hs; exact h

theorem wait4Again_inv (h : Inv rs X s) (hsch : s.scheduling = false) (hc : (s.tb.task s.current).cr3 ≠ 0)
    (hs : wait4Again s = some s') : ∃ rs', Inv rs' X s' := by
  unfold wait4Again at hs
  split at hs
  swap
  · cases hs
  rename_i child hw
  simp only [bind, Option.bind_eq_some_iff] at hs
  obtain ⟨x, hx, hs⟩ := hs
  obtain ⟨-, rfl⟩ := get_some.1 hx
  obtain ⟨hcl, hcp⟩ := h.wait h.cur hw
  split_ifs at hs with hd
  · -- the child is collected: it is not the running task, and its space is not the loaded one
    simp only [Option.bind_eq_some_iff, pure, Option.some.injEq] at hs
    obtain ⟨s1, hu, s2, hf, rfl⟩ := hs
    obtain ⟨h1, hlive, hview, hs1⟩ := unlink_core h.toCore hu
    have hcr3 : ∀ q, (s1.tb.task q).cr3 = (s.tb.task q).cr3 := fun q => congrArg Prod.fst (hview q)
    have hcur : s1.current = s.current := by rw [hs1]
    have hcont1 : s1.cont = s.cont := by rw [hs1]
    have hm1 : s1.m = s.m := by rw [hs1]
    have hzo1 : s1.zombie = s.zombie := by rw [hs1]
    have hne : child ≠ s.current := by
      rintro rfl
      exact (h.parent hcl).1 hcp
    have hrest : s2.current = s1.current ∧ s2.cont = s1.cont ∧ s2.tb.task = s1.tb.task ∧ s2.zombie = s1.zombie ∧
        s2.scheduling = s1.scheduling := by
      obtain ⟨-, ⟨-, hs2⟩ | ⟨-, hs2⟩⟩ := freeTask_eq hf <;> simp only [hs2, Table.free, and_self]
    obtain ⟨rs', h2⟩ := free_core h1 hf (by rw [hcur]; exact hne)
      (by rw [show s1.idle = s.idle by rw [hs1]]; rintro rfl; exact h.idle.2 hd)
      (fun hnz heq => by
        rw [hcr3] at hnz heq
        rw [hm1, h.loaded hc] at heq
        exact hne (h.inj h.cur hcl hc heq).symm)
      s1.zombie (fun {z} hz => ⟨hz, by
        rintro rfl
        rw [hzo1] at hz
        rw [(h.zombie hz).2.2.1] at hcp; cases hcp⟩)
      (Function.update s1.cont s1.current .own) (fun q => by
        rw [Function.update_apply]
        split_ifs
        · exact Or.inr rfl
        · exact Or.inl rfl)
      (fun q hq hqw => by
        rw [Function.update_apply, hcont1, hcur] at hqw
        rw [hlive] at hq
        split_ifs at hqw with hqc
        have := (h.wait hq hqw).2
        rw [hcp] at this
        exact hqc (Option.some.inj this).symm)
    refine ⟨rs', Inv.ofCore ?_ ?_ ?_⟩
    · rw [← hrest.2.2.2.1, ← hrest.2.1, ← hrest.1] at h2; exact h2
    · show s2.scheduling = false
      rw [hrest.2.2.2.2, show s1.scheduling = s.scheduling by rw [hs1]]; exact hsch
    · show (s2.tb.task s2.current).state ≠ _
      rw [hrest.1, hrest.2.2.1, hcur, show (s1.tb.task s.current).state = (s.tb.task s.current).state from
        congrArg (·.2.2) (hview _)]
      exact h.running hsch
  · exact startSchedule_inv h.toCore (by rw [hw]; simp) (fun _ _ _ _ => hc) hs

/-! ## Runs -/

/-- a kernel-only task does not give up the processor while a Linux task waits to be reaped -/
def Good (s : Sys) (e : Event) : Prop :=
  e = .yield ∨ (e = .timer ∧ (tick s).needResched = true) →
    ∀ z, s.zombie = some z → (s.tb.task s.current).cr3 = 0 → (s.tb.task z).cr3 = 0

theorem tick_core (h : Core rs X s) : Core rs X (tick s) := by
  unfold tick
  split_ifs
  · exact h
  · exact h.congr rfl (fun _ => rfl) rfl rfl rfl rfl rfl rfl

/-- **One event keeps the invariant**, if it is a good one. -/
theorem step_inv {e : Event} (h : Inv rs X s) (hg : Good s e) (hs : step s e = some s') : ∃ rs', Inv rs' X s' := by
  obtain ⟨self, hself, hs⟩ := Option.bind_eq_some_iff.1 hs
  obtain ⟨hl, rfl⟩ := get_some.1 hself
  split_ifs at hs with hen
  rw [Bool.and_eq_true] at hen
  obtain ⟨hal, hat⟩ := hen
  -- outside execve, for the events that need it
  have hexec : s.cont s.current = .own → ∀ a, s.cont s.current ≠ .execve a := by
    intro hc a; rw [hc]; simp
  have hatOwn : (!s.scheduling && s.cont s.current == .own) = true →
      s.scheduling = false ∧ s.cont s.current = .own := by
    intro hh
    simpa using hh
  cases e with
  | spawn p top =>
    obtain ⟨hsch, hc⟩ := hatOwn hat
    obtain ⟨-, hp⟩ : p ≠ 0 ∧ p ∉ s.tb.live := by simpa [Event.allowed] using hal
    obtain ⟨h1, hc1, hs1, hv⟩ := spawn_core h.toCore hp (hexec hc) (Or.inl rfl) hs
    refine ⟨rs, Inv.ofCore h1 (hs1.trans hsch) ?_⟩
    rw [show (s'.tb.task s'.current).state = (s.tb.task s.current).state from congrArg (·.2.2) hv]
    exact h.running hsch
  | spawnFromElf p top =>
    obtain ⟨hsch, hc⟩ := hatOwn hat
    obtain ⟨-, hp⟩ : p ≠ 0 ∧ p ∉ s.tb.live := by simpa [Event.allowed] using hal
    obtain ⟨⟨a, s1⟩, hcr, hsp⟩ := Option.bind_eq_some_iff.1 hs
    obtain ⟨r, rfl, h1, hr, -, hs1⟩ := h.toCore.create hcr
    obtain ⟨-, hfresh⟩ := h.toCore.fresh h1.built hr
    have htb : s1.tb = s.tb ∧ s1.current = s.current ∧ s1.cont = s.cont ∧ s1.scheduling = s.scheduling := by
      rw [hs1]; exact ⟨rfl, rfl, rfl, rfl⟩
    obtain ⟨ht, hcu, hco, hsc⟩ := htb
    obtain ⟨h2, hc2, hsch2, hv⟩ := spawn_core h1 (by rw [ht]; exact hp) (by rw [hco, hcu]; exact hexec hc)
      (Or.inr ⟨⟨r, List.mem_cons_self .., rfl⟩, by rw [ht]; exact hfresh⟩) hsp
    refine ⟨_, Inv.ofCore h2 (hsch2.trans (hsc.trans hsch)) ?_⟩
    rw [show (s'.tb.task s'.current).state = (s1.tb.task s1.current).state from congrArg (·.2.2) hv, ht, hcu]
    exact h.running hsch
  | fork p top =>
    obtain ⟨hsch, hc⟩ := hatOwn hat
    obtain ⟨hc0, -, hp⟩ : (s.tb.task s.current).cr3 ≠ 0 ∧ p ≠ 0 ∧ p ∉ s.tb.live := by simpa [Event.allowed] using hal
    exact sysFork_inv h hsch hc0 (hexec hc) hp hs
  | forkFail =>
    obtain ⟨hsch, hc⟩ := hatOwn hat
    exact sysForkFail_inv h hsch (by simpa [Event.allowed] using hal) (hexec hc) hs
  | execve =>
    obtain ⟨hsch, hc⟩ := hatOwn hat
    exact execveStart_inv h hsch (by simpa [Event.allowed] using hal) hs
  | execveFail image =>
    exact execveFail_inv h (not_scheduling hat (by simp)) (by simpa [Event.allowed] using hal) hs
  | execveCommit highest base =>
    exact execveCommit_inv h (not_scheduling hat (by simp)) (by simpa [Event.allowed] using hal) hs
  | exit code =>
    obtain ⟨hsch, hc⟩ := hatOwn hat
    obtain ⟨hi, -⟩ : s.current ≠ s.idle ∧ s.current ≠ s.boot := by simpa [Event.allowed] using hal
    exact exitCurrent_inv h hsch (hexec hc) hi hs
  | wait4 pid => exact ⟨rs, wait4Start_inv h (not_scheduling hat (by simp)) hs⟩
  | wait4Again =>
    exact wait4Again_inv h (not_scheduling hat (by simp)) (by simpa [Event.allowed] using hal) hs
  | yield =>
    obtain ⟨hsch, hc⟩ := hatOwn hat
    refine startSchedule_inv h.toCore (hexec hc) (fun z hz _ hnz hc0 => ?_) hs
    exact hnz (hg (Or.inl rfl) z hz hc0)
  | timer =>
    obtain ⟨hsch, hc⟩ := hatOwn hat
    obtain ⟨ht, hcu, hco, hzo, hsc, -, -⟩ := tick_rest (s := s)
    have hs1 : (if (tick s).needResched then startSchedule (tick s) else some (tick s)) = some s' := hs
    split_ifs at hs1 with hn
    · refine startSchedule_inv (tick_core h.toCore) (by rw [hco, hcu]; exact hexec hc) (fun z hz _ hnz hc0 => ?_) hs1
      rw [hzo] at hz
      rw [ht] at hnz
      rw [ht, hcu] at hc0
      exact hnz (hg (Or.inr ⟨rfl, hn⟩) z hz hc0)
    · cases hs1
      exact ⟨rs, Inv.ofCore (tick_core h.toCore) (hsc.trans hsch) (by rw [ht, hcu]; exact h.running hsch)⟩
  | switch => exact ⟨rs, finishSchedule_inv h hat hs⟩
  | archSetFs addr =>
    have hsch := not_scheduling hat (by simp)
    obtain ⟨c, hc, rfl⟩ := Option.map_eq_some_iff.1 hs
    obtain ⟨-, rfl⟩ := get_some.1 hc
    have h1 := h.toCore.set (p := s.current) (x := { s.tb.task s.current with fsBase := addr }) rfl
    refine ⟨rs, Inv.ofCore (h1.congr rfl (fun _ => rfl) rfl rfl rfl rfl rfl rfl) hsch ?_⟩
    show ((s.tb.set s.current _).task s.current).state ≠ _
    rw [set_task, if_pos rfl]; exact h.running hsch
  | setLayout b c n =>
    have hsch := not_scheduling hat (by simp)
    cases hs
    refine ⟨rs, Inv.ofCore (h.toCore.set rfl) hsch ?_⟩
    show ((s.tb.set s.current _).task s.current).state ≠ _
    rw [set_task, if_pos rfl]; exact h.running hsch
  | edit e =>
    have hsch := not_scheduling hat (by simp)
    obtain ⟨m', he, rfl⟩ := Option.map_eq_some_iff.1 hs
    obtain ⟨hb, hcr3, hk⟩ := Edit.built h.built (h.pml4 (by simpa [Event.allowed] using hal)) he
    exact ⟨rs, Inv.ofCore (h.toCore.mem hb hcr3 hk) hsch (h.running hsch)⟩

/-- **The bad event.** A kernel-only task reaps a Linux task and keeps its CR3. -/
theorem step_bad {e : Event} (h : Inv rs X s) (hg : ¬ Good s e) (hs : step s e = some s') : s'.m.cr3 ∈ s'.dead := by
  unfold Good at hg
  push Not at hg
  obtain ⟨he, z, hz, hc0, hz0⟩ := hg
  obtain ⟨self, hself, hs⟩ := Option.bind_eq_some_iff.1 hs
  obtain ⟨hl, rfl⟩ := get_some.1 hself
  split_ifs at hs with hen
  rw [Bool.and_eq_true] at hen
  obtain ⟨-, hat⟩ := hen
  have hsch := not_scheduling hat (by rcases he with rfl | ⟨rfl, -⟩ <;> simp)
  have hzc : z ≠ s.current := by rintro rfl; exact h.not_zombie hsch hz
  have hcr3 := (h.zombie hz).2.2.2 hzc hc0 hz0
  -- both events go through `reap_zombie` with the same tasks and the same CR3
  have hreap : ∀ {s0 : Sys}, s0.tb = s.tb → s0.current = s.current → s0.zombie = s.zombie → s0.m = s.m →
      startSchedule s0 = some s' → s'.m.cr3 ∈ s'.dead := by
    intro s0 ht hcu hzo hm hst
    obtain ⟨-, hspace⟩ := startSchedule_frees hst (hzo.trans hz) (by rw [hcu]; exact hzc)
    rw [ht] at hspace
    obtain ⟨hm', hdead⟩ := hspace hz0
    have hlast : (Vmm.destroyAddressSpace (s.tb.task z).cr3 s.m).cr3 = s.m.cr3 := by
      obtain ⟨r, hr, he'⟩ := h.space (h.zombie hz).1 hz0
      rw [he']; exact (destroy_built h.built hr).2.2.1
    rw [hm', hm, hlast, hdead, hcr3]
    exact List.mem_cons_self ..
  rcases he with rfl | ⟨rfl, hn⟩
  · exact hreap rfl rfl rfl rfl hs
  · obtain ⟨ht, hcu, -, hzo, -, hm, -⟩ := tick_rest (s := s)
    have hs1 : (if (tick s).needResched then startSchedule (tick s) else some (tick s)) = some s' := hs
    rw [if_pos hn] at hs1
    exact hreap ht hcu hzo hm hs1

end Steps

section Run

variable {boot idle : Ptr} {top : U64} {m : Machine} {cpu : Cpu}

/-- the state `sched::init` leaves -/
theorem init_inv (hne : boot ≠ idle) (hb : Booted m) (hm : m.cr3 = m.gKernelPml4) :
    Inv [] {f | used m f = true} (init boot idle top m cpu) := by
  have hcr3 : ∀ {p}, p ∈ (init boot idle top m cpu).tb.live → ((init boot idle top m cpu).tb.task p).cr3 = 0 ∧
      ((init boot idle top m cpu).tb.task p).parent = none := fun hp => init_kernel hne hp
  have hcur : boot ∈ (init boot idle top m cpu).tb.live := by show boot ∈ [idle, boot]; simp
  refine ⟨⟨Built.boot hb, hcur, ⟨by show idle ∈ [idle, boot]; simp, ?_⟩, fun hp hnz => absurd (hcr3 hp).1 hnz,
    fun hp _ hnz => absurd (hcr3 hp).1 hnz, fun _ ha => (by cases ha), fun hnz => absurd (hcr3 hcur).1 hnz, Or.inl hm,
    fun ha => (by cases ha), fun hz => (by cases hz), fun hp => ?_, fun _ hw => (by cases hw)⟩, fun _ => ?_,
    fun hf => (nomatch hf)⟩
  · show ((init boot idle top m cpu).tb.task idle).state ≠ _
    rw [init_idle]; simp [create]
  · rw [(hcr3 hp).2]; exact ⟨by simp, fun hn => absurd rfl hn⟩
  · show ((init boot idle top m cpu).tb.task boot).state ≠ _
    rw [init_boot hne]; simp

/-- **The loaded CR3.** In every run from boot, the loaded CR3 is never the root of a freed address space, if and only if
no kernel-only task gives up the processor while a Linux task waits to be reaped. -/
theorem alive_iff (hne : boot ≠ idle) (hb : Booted m) (hm : m.cr3 = m.gKernelPml4) (es : List Event)
    (hrun : (es.foldlM step (init boot idle top m cpu)).isSome) :
    Always step (fun s => s.m.cr3 ∉ s.dead) (init boot idle top m cpu) es ↔
      Each step Good (init boot idle top m cpu) es := by
  refine always_iff_each (I := fun s => ∃ rs, Inv rs {f | used m f = true} s) ?_ ?_ ?_ ⟨[], init_inv hne hb hm⟩ hrun
  · rintro s ⟨rs, h⟩
    exact h.toCore.not_dead
  · rintro s e s' ⟨rs, h⟩ hg hs
    exact step_inv h hg hs
  · rintro s e s' ⟨rs, h⟩ hg hs hn
    exact hn (step_bad h hg hs)

end Run

/-! ## A shell that exits -/

section Shell

variable {s s' : Sys} {top : U64} {cpu : Cpu}

theorem step_eq (e : Event) (hl : s.current ∈ s.tb.live) (ha : e.allowed s (s.tb.task s.current) = true)
    (hc : e.atCont (s.cont s.current) s.scheduling = true) : step s e = run s (s.tb.task s.current) e := by
  unfold step
  rw [get_some.2 ⟨hl, rfl⟩, Option.bind_some, ha, hc]
  rfl

theorem step_timer (hl : s.current ∈ s.tb.live) (hc : s.cont s.current = .own) (hs : s.scheduling = false) :
    step s .timer = timer s := step_eq .timer hl rfl (by rw [hc, hs]; rfl)

/-- the ticks of a timeslice before its last -/
theorem timers_run (hl : s.current ∈ s.tb.live) (hc : s.cont s.current = .own) (hs : s.scheduling = false)
    (hr : s.needResched = false) {n : ℕ} (hn : n < s.ticksLeft) :
    (List.replicate n Event.timer).foldlM step s = some { s with ticksLeft := s.ticksLeft - n } := by
  induction n generalizing s with
  | zero => rfl
  | succ n ih =>
    have htick : tick s = { s with ticksLeft := s.ticksLeft - 1 } := by
      unfold tick
      rw [if_neg (by omega), hr, show (s.ticksLeft == 1) = false by simp; omega]
      cases s; cases hr; rfl
    have htimer : timer s = some { s with ticksLeft := s.ticksLeft - 1 } := by
      unfold timer
      simp only [htick, hr, Bool.false_eq_true, if_false]
    rw [List.replicate_succ, List.foldlM_cons, step_timer hl hc hs, htimer]
    show List.foldlM step _ _ = _
    rw [ih (s := { s with ticksLeft := s.ticksLeft - 1 }) hl hc hs hr (by show n < s.ticksLeft - 1; omega)]
    simp only [Nat.sub_sub, Nat.add_comm 1 n]


/-- boot has started a shell: the ring is boot, shell, idle -/
def shellSpawned (cr3 : U64) (m : Machine) : Sys :=
  { init 1 2 0 m ⟨0, 0, 0⟩ with
    tb := (((init 1 2 0 m ⟨0, 0, 0⟩).tb.add 3 { create 2 0 cr3 with next := 2 }).set 1
      { create 0 0 0 with state := .Running, next := 3 })
    nextId := 3
    cont := Function.update (fun _ => .own) 3 .own }

/-- boot starts a shell and runs out its timeslice; the shell exits, and idle is next -/
def shellExits : List Event :=
  [.spawnFromElf 3 0] ++ List.replicate 19 .timer ++ [.timer, .switch] ++ [.exit 0, .switch]

/-- idle, on the CR3 of the shell that exited -/
structure OnDeadSpace (a : U64) (m : Machine) (s : Sys) : Prop where
  current : s.current = 2 ∧ s.cont 2 = .own ∧ s.scheduling = false
  ticks : s.ticksLeft = 20 ∧ s.needResched = false
  live : s.tb.live = [3, 2, 1]
  ring : (s.tb.task 2).next = 1 ∧ (s.tb.task 1).next = 3
  zombie : s.zombie = some 3 ∧ (s.tb.task 3).cr3 = a
  loaded : s.m = { m with cr3 := a }

theorem spawn_shell {a : U64} {m : Machine} (hc : Vmm.createAddressSpace bootMachine = some (a, m)) :
    step (init 1 2 0 bootMachine ⟨0, 0, 0⟩) (.spawnFromElf 3 0) = some (shellSpawned a m) := by
  rw [step_eq _ (by simp [init, Table.add]) (by simp [init, Table.add, Event.allowed]) (by rfl)]
  simp only [run, spawnFromElf, Sys.createAddressSpace, init, hc, Option.map_some, bind, Option.bind_some, spawn]
  rfl

/-- the rest of boot's timeslice -/
theorem spawned_timers (a : U64) (m : Machine) : (List.replicate 19 Event.timer).foldlM step (shellSpawned a m) =
    some { shellSpawned a m with ticksLeft := (shellSpawned a m).ticksLeft - 19 } :=
  timers_run (by simp [shellSpawned, Table.set, Table.add, init]) (by simp [shellSpawned, init]) rfl rfl
    (by show 19 < 20; decide)

/-- the shell, running -/
structure ShellRuns (a : U64) (m : Machine) (s : Sys) : Prop where
  current : s.current = 3 ∧ s.idle = 2 ∧ s.boot = 1
  own : s.cont 2 = .own ∧ s.cont 3 = .own ∧ s.scheduling = false
  live : s.tb.live = [3, 2, 1]
  ring : (s.tb.task 3).next = 2 ∧ (s.tb.task 2).next = 1 ∧ (s.tb.task 1).next = 3
  states : (s.tb.task 3).state = .Running ∧ (s.tb.task 2).state = .Ready
  cr3s : (s.tb.task 3).cr3 = a ∧ (s.tb.task 2).cr3 = 0
  parent : (s.tb.task 3).parent = none
  loaded : s.m = { m with cr3 := a }

/-- the switch from boot to the shell -/
theorem shell_runs {a : U64} {m : Machine} (h0 : a ≠ 0#64) :
    ∃ s, [Event.timer, .switch].foldlM step { shellSpawned a m with ticksLeft := (shellSpawned a m).ticksLeft - 19 } =
      some s ∧ ShellRuns a m s := by
  obtain ⟨s, hs, hcu, hi, hb, hco, hsc, htb, hm⟩ : ∃ s, [Event.timer, .switch].foldlM step
      { shellSpawned a m with ticksLeft := (shellSpawned a m).ticksLeft - 19 } = some s ∧ s.current = 3 ∧ s.idle = 2 ∧ s.boot = 1 ∧
      s.cont = (shellSpawned a m).cont ∧ s.scheduling = false ∧
      s.tb = ((shellSpawned a m).tb.set 1 { create 0 0 0 with state := .Ready, next := 3 }).set 3
        { create 2 0 a with state := .Running, next := 2 } ∧ s.m = { m with cr3 := a } := by
    simp [step, List.foldlM, shellSpawned, init, Table.get, Table.set, Table.add, Event.allowed, Event.atCont, run, timer,
      tick, startSchedule, reapZombie, create, finishSchedule, pick, nextReadyAfter, Sys.fuel, switchTo,
      Function.update_apply, Sys.setTask, TIMESLICE_TICKS, h0]
  exact ⟨s, hs, ⟨hcu, hi, hb⟩, by rw [hco]; exact ⟨rfl, rfl, hsc⟩, by rw [htb]; rfl, by rw [htb]; exact ⟨rfl, rfl, rfl⟩,
    by rw [htb]; exact ⟨rfl, rfl⟩, by rw [htb]; exact ⟨rfl, rfl⟩, by rw [htb]; rfl, hm⟩

/-- its exit, and the switch to idle -/
theorem shell_exits {a : U64} {m : Machine} {s : Sys} (h : ShellRuns a m s) :
    ∃ s', [Event.exit 0, .switch].foldlM step s = some s' ∧ OnDeadSpace a m s' := by
  obtain ⟨hcu, hi, hb⟩ := h.current
  obtain ⟨ho2, ho3, hsc⟩ := h.own
  have hx : step s (.exit 0) = some { s with
      tb := s.tb.set 3 { s.tb.task 3 with exitCode := 0, state := .Dead }, zombie := some 3, scheduling := true } := by
    rw [step_eq _ (by rw [hcu, h.live]; decide) (by simp [Event.allowed, hcu, hi, hb])
      (by rw [hcu, ho3, hsc]; rfl)]
    simp [run, exitCurrent, hcu, Table.get, h.live, h.parent, startSchedule, reapZombie, Sys.setTask]
  -- idle is the next ready task on the ring
  have hpick : pick { s with
      tb := s.tb.set 3 { s.tb.task 3 with exitCode := 0, state := .Dead }, zombie := some 3, scheduling := true } =
      some 2 := by
    simp [pick, hcu, Table.get, Table.set, h.live, Sys.fuel, nextReadyAfter, h.ring.1, h.states.2]
  obtain ⟨s', hs', h1, h2, h3, h4, h5, h6, h7, h8, h9⟩ : ∃ s', step { s with
      tb := s.tb.set 3 { s.tb.task 3 with exitCode := 0, state := .Dead }, zombie := some 3, scheduling := true }
      .switch = some s' ∧ s'.current = 2 ∧ s'.cont = s.cont ∧ s'.scheduling = false ∧ s'.ticksLeft = TIMESLICE_TICKS ∧
      s'.needResched = false ∧ s'.tb.live = [3, 2, 1] ∧ s'.zombie = some 3 ∧ s'.m = s.m ∧
      (s'.tb.task 3).cr3 = (s.tb.task 3).cr3 ∧
      (s'.tb.task 2).next = (s.tb.task 2).next ∧ (s'.tb.task 1).next = (s.tb.task 1).next := by
    rw [step_eq _ (by rw [set_live, h.live, hcu]; decide) rfl rfl]
    simp only [run, finishSchedule, hpick, bind, Option.bind_some]
    simp [hcu, switchTo, Table.get, Table.set, h.live, Sys.setTask, h.cr3s.2]
  refine ⟨s', run_append (run_one hx) (run_one hs'), ⟨h1, by rw [h2]; exact ho2, h3⟩, ⟨h4, h5⟩, h6,
    ⟨h9.2.1.trans h.ring.2.1, h9.2.2.trans h.ring.2.2⟩, ⟨h7, h9.1.trans h.cr3s.1⟩, h8.trans h.loaded⟩

theorem shellExits_run {a : U64} {m : Machine} (hc : Vmm.createAddressSpace bootMachine = some (a, m)) (h0 : a ≠ 0#64) :
    ∃ s, shellExits.foldlM step (init 1 2 0 bootMachine ⟨0, 0, 0⟩) = some s ∧ OnDeadSpace a m s := by
  obtain ⟨s1, hs1, h1⟩ := shell_runs (m := m) h0
  obtain ⟨s2, hs2, hd⟩ := shell_exits h1
  exact ⟨s2, run_append (run_append (run_append (run_one (spawn_shell hc)) (spawned_timers a m)) hs1) hs2, hd⟩

/-- idle's next timeslice -/
theorem idle_reaps {a : U64} {m : Machine} {s : Sys} (h : OnDeadSpace a m s) (h0 : a ≠ 0#64) :
    ∃ s', (List.replicate 20 Event.timer).foldlM step s = some s' ∧ s'.dead = a :: s.dead ∧
      s'.m = Vmm.destroyAddressSpace a { m with cr3 := a } := by
  obtain ⟨hcu, hco, hsc⟩ := h.current
  have hl : s.current ∈ s.tb.live := by rw [hcu, h.live]; simp
  have ht := timers_run (n := 19) hl (by rw [hcu]; exact hco) hsc h.ticks.2 (by rw [h.ticks.1]; decide)
  rw [show List.replicate 20 Event.timer = List.replicate 19 .timer ++ [.timer] from rfl, List.foldlM_append, ht]
  simp only [bind, Option.bind_some, List.foldlM_cons, List.foldlM_nil]
  rw [step_timer (s := { s with ticksLeft := s.ticksLeft - 19 }) hl (by show s.cont s.current = _; rw [hcu]; exact hco) hsc]
  simp [timer, tick, h.ticks.1, startSchedule, reapZombie, h.zombie.1, hcu, unlinkFromRing, prevOf, Sys.fuel, h.live,
    Table.get, h.ring, Sys.setTask, Table.set, freeTask, h.zombie.2, h0, Sys.destroyAddressSpace,
    h.loaded, Table.free]

/-- **A freed CR3.** The shell exits, and idle reaps it on the shell's own CR3. -/
theorem idle_on_freed_cr3 : ¬ ∀ (boot idle : Ptr) (top : U64) (m : Machine) (cpu : Cpu) (es : List Event), boot ≠ idle →
    Booted m → m.cr3 = m.gKernelPml4 → (es.foldlM step (init boot idle top m cpu)).isSome →
    Always step (fun s => s.m.cr3 ∉ s.dead) (init boot idle top m cpu) es := by
  intro hall
  obtain ⟨r, m, hc, hlt, hb, -⟩ := boot_space
  obtain ⟨-, h0, -⟩ := root_spec hb (List.mem_singleton_self r)
  obtain ⟨s, hs, hd⟩ := shellExits_run hc h0
  obtain ⟨s', hs', hdead, hm⟩ := idle_reaps hd h0
  have hrun : (shellExits ++ List.replicate 20 Event.timer).foldlM step (init 1 2 0 bootMachine ⟨0, 0, 0⟩) = some s' := by
    rw [List.foldlM_append, hs]; exact hs'
  have := (hall 1 2 0 bootMachine ⟨0, 0, 0⟩ _ (by decide) bootMachine_booted rfl (by rw [hrun]; rfl)).last hrun
  refine this ?_
  rw [hdead, hm, (destroy_built hb (List.mem_singleton_self r)).2.2.1]
  exact List.mem_cons_self ..

/-- with nothing to reap, the timer is harmless -/
theorem each_timers (hz : s.zombie = none) (n : ℕ) : Each step Good s (List.replicate n .timer) := by
  induction n generalizing s with
  | zero => trivial
  | succ n ih =>
    refine ⟨fun _ z hz' => (by rw [hz] at hz'; cases hz'), fun s1 h1 => ih ?_⟩
    obtain ⟨self, -, h1⟩ := Option.bind_eq_some_iff.1 h1
    split_ifs at h1 with hen
    have hz' : (tick s).zombie = none := by rw [tick_rest.2.2.2.1]; exact hz
    have h2 : (if (tick s).needResched then startSchedule (tick s) else some (tick s)) = some s1 := h1
    split_ifs at h2 with hn
    · obtain ⟨s2, hr, rfl⟩ := Option.map_eq_some_iff.1 h2
      unfold reapZombie at hr
      rw [hz'] at hr
      cases hr
      exact hz'
    · cases h2
      exact hz'

/-- the shell's own exit, up to idle's timeslice -/
theorem alive_shell : ∃ s, shellExits.foldlM step (init 1 2 0 bootMachine ⟨0, 0, 0⟩) = some s ∧ s.zombie = some 3 ∧
    Always step (fun s => s.m.cr3 ∉ s.dead) (init 1 2 0 bootMachine ⟨0, 0, 0⟩) shellExits := by
  obtain ⟨r, m, hc, hlt, hb, -⟩ := boot_space
  obtain ⟨s, hs, hd⟩ := shellExits_run hc (root_spec hb (List.mem_singleton_self r)).2.1
  refine ⟨s, hs, hd.zombie.1, (alive_iff (by decide) bootMachine_booted rfl shellExits (by rw [hs]; rfl)).2 ?_⟩
  have hspawn : Each step Good (init 1 2 0 bootMachine ⟨0, 0, 0⟩) [.spawnFromElf 3 0] :=
    ⟨fun h => (by simp at h), fun _ _ => trivial⟩
  refine ((hspawn.append fun s1 h1 => ?_).append fun s2 h2 => ?_).append
    fun s3 _ => ⟨fun h => (by simp at h), fun _ _ => ⟨fun h => (by simp at h), fun _ _ => trivial⟩⟩
  · rw [run_one (spawn_shell hc)] at h1
    cases h1
    exact each_timers rfl 19
  · rw [run_append (run_one (spawn_shell hc)) (spawned_timers (addrOf r) m)] at h2
    cases h2
    exact ⟨(each_timers rfl 1).1, fun _ _ => ⟨fun h => (by simp at h), fun _ _ => trivial⟩⟩

end Shell

end Retux.Sched
