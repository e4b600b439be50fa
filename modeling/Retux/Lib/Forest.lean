/-
Trees of nodes in a shared memory, kept apart by an ownership labelling.

A memory maps a node and an index to an entry; `child` reads the node an entry points at. Several trees live in the
same memory. `own f = some (r, p)` says that node f belongs to the tree rooted at r and sits at path p (deepest index
first, so that a child's path is `i :: p`). Only positions with `priv p` belong to a tree; entries elsewhere may point
at anything.

`Inv` says that the labelling is exactly reachability: a labelled node's private entries point at nodes labelled one
level down (`down`), and every labelled node is pointed at from the level above (`up`). Since `own` is a function, no
node is at two positions, in one tree or in two: this is what makes an edit local. The edits are `link` (hang a node
in), `unlink` (take a bottom node out), `relink` (rewrite an entry, same child), `scratch` (write an unlabelled node),
`newRoot` and `dropRoot`.
-/
import Mathlib.Tactic

namespace Retux.Forest

variable {N ι E : Type}

/-- how entries point, and which positions are a tree's own -/
structure Shape (N ι E : Type) where
  child : E → Option N
  priv : List ι → Bool

variable {S : Shape N ι E} {mem : N → ι → E} {own : N → Option (N × List ι)} {r t c f : N} {p : List ι} {i : ι} {e : E}

structure Inv (S : Shape N ι E) (mem : N → ι → E) (own : N → Option (N × List ι)) : Prop where
  priv : ∀ {f r p}, own f = some (r, p) → S.priv p = true
  root : ∀ {f r}, own f = some (r, []) → f = r
  up : ∀ {c r i p}, own c = some (r, i :: p) → ∃ f, own f = some (r, p) ∧ S.child (mem f i) = some c
  down : ∀ {f r p i c}, own f = some (r, p) → S.priv (i :: p) = true → S.child (mem f i) = some c →
    own c = some (r, i :: p)

/-- a position has at most one node -/
theorem Inv.unique (h : Inv S mem own) {f g : N} {r : N} {p : List ι} (hf : own f = some (r, p))
    (hg : own g = some (r, p)) : f = g := by
  induction p generalizing f g with
  | nil => rw [h.root hf, h.root hg]
  | cons i p ih =>
    obtain ⟨f', hf', hcf⟩ := h.up hf
    obtain ⟨g', hg', hcg⟩ := h.up hg
    rw [ih hf' hg', hcg] at hcf
    exact (Option.some.inj hcf).symm

/-- the entry that points at a labelled node -/
theorem Inv.child_of_own (h : Inv S mem own) (ht : own t = some (r, p)) (hc : own c = some (r, i :: p)) :
    S.child (mem t i) = some c := by
  obtain ⟨f, hf, hcf⟩ := h.up hc
  rwa [h.unique ht hf]

/-- every tree with a node has its root -/
theorem Inv.root_own (h : Inv S mem own) {f r : N} {p : List ι} (hf : own f = some (r, p)) : own r = some (r, []) := by
  induction p generalizing f with
  | nil =>
    have hr := h.root hf
    subst hr
    exact hf
  | cons i p ih =>
    obtain ⟨g, hg, -⟩ := h.up hf
    exact ih hg

/-- every tree node's ancestors are in the tree -/
theorem Inv.ancestor (h : Inv S mem own) {f r : N} {p q : List ι} (hf : own f = some (r, q)) (hs : p <:+ q) :
    ∃ g, own g = some (r, p) := by
  induction q generalizing f with
  | nil => rw [List.suffix_nil.1 hs]; exact ⟨f, hf⟩
  | cons i q ih =>
    rcases List.suffix_cons_iff.1 hs with rfl | hs
    · exact ⟨f, hf⟩
    · obtain ⟨g, hg, -⟩ := h.up hf
      exact ih hg hs

/-! ## All nodes of a tree -/

/-- the nodes at and below t, children first, down to depth k; `ix` lists the indices -/
def collect (S : Shape N ι E) (mem : N → ι → E) (ix : List ι) : ℕ → N → List ι → List N
  | 0, t, _ => [t]
  | k + 1, t, p =>
    ix.flatMap (fun i => if S.priv (i :: p) then ((S.child (mem t i)).map fun c => collect S mem ix k c (i :: p)).getD []
      else []) ++ [t]

/-- **The walk finds the tree.** `collect` lists exactly the nodes labelled below t. -/
theorem Inv.mem_collect (h : Inv S mem own) {ix : List ι} (hix : ∀ i, i ∈ ix) {k : ℕ} {t r : N} {p : List ι}
    (ht : own t = some (r, p)) (hdeep : ∀ {f q}, own f = some (r, q) → q.length ≤ p.length + k) {c : N} :
    c ∈ collect S mem ix k t p ↔ ∃ q, own c = some (r, q) ∧ p <:+ q := by
  induction k generalizing t p with
  | zero =>
    simp only [collect, List.mem_singleton]
    constructor
    · rintro rfl; exact ⟨p, ht, List.suffix_refl p⟩
    · rintro ⟨q, hq, hs⟩
      have hl := hdeep hq
      rw [← List.IsSuffix.eq_of_length hs (by have := hs.length_le; omega)] at hq
      exact h.unique hq ht
  | succ k ih =>
    simp only [collect, List.mem_append, List.mem_flatMap, List.mem_singleton]
    constructor
    · rintro (⟨i, -, hc⟩ | rfl)
      · split_ifs at hc with hp
        · cases hch : S.child (mem t i) with
          | none => rw [hch] at hc; simp at hc
          | some d =>
            rw [hch] at hc
            obtain ⟨q, hq, hs⟩ := (ih (h.down ht hp hch) fun hf => by
              have := hdeep hf; simp only [List.length_cons]; omega).1 hc
            exact ⟨q, hq, (List.suffix_cons i p).trans hs⟩
        · simp at hc
      · exact ⟨p, ht, List.suffix_refl p⟩
    · rintro ⟨q, hq, hs⟩
      by_cases hpq : p = q
      · subst hpq; exact Or.inr (h.unique hq ht)
      · -- the child of t on the way to q
        obtain ⟨a, rfl⟩ := hs
        rcases List.eq_nil_or_concat a with rfl | ⟨a, i, rfl⟩
        · exact (hpq rfl).elim
        · have hs' : i :: p <:+ a.concat i ++ p := ⟨a, by simp⟩
          obtain ⟨d, hd⟩ := h.ancestor hq hs'
          have hch := h.child_of_own ht hd
          refine Or.inl ⟨i, hix i, ?_⟩
          rw [if_pos (h.priv hd), hch]
          exact (ih hd fun hf => by have := hdeep hf; simp only [List.length_cons]; omega).2 ⟨_, hq, hs'⟩

/-- **The walk visits each node once.** -/
theorem Inv.nodup_collect (h : Inv S mem own) {ix : List ι} (hix : ∀ i, i ∈ ix) (hnd : ix.Nodup) {k : ℕ} {t r : N}
    {p : List ι} (ht : own t = some (r, p)) (hdeep : ∀ {f q}, own f = some (r, q) → q.length ≤ p.length + k) :
    (collect S mem ix k t p).Nodup := by
  induction k generalizing t p with
  | zero => simp [collect]
  | succ k ih =>
    -- what the walk of entry i lists is labelled below `i :: p`
    have hbelow : ∀ {i c}, c ∈ (if S.priv (i :: p) then ((S.child (mem t i)).map fun c => collect S mem ix k c (i :: p)).getD []
        else []) → ∃ q, own c = some (r, q) ∧ i :: p <:+ q := by
      intro i c hc
      split_ifs at hc with hp
      · cases hch : S.child (mem t i) with
        | none => rw [hch] at hc; simp at hc
        | some d =>
          rw [hch] at hc
          exact (h.mem_collect hix (h.down ht hp hch) fun hf => by
            have := hdeep hf; simp only [List.length_cons]; omega).1 hc
      · simp at hc
    rw [collect, List.nodup_append]
    refine ⟨List.nodup_flatMap.2 ⟨fun i _ => ?_, ?_⟩, by simp, fun c hc c' hc' => ?_⟩
    · split_ifs with hp
      · cases hch : S.child (mem t i) with
        | none => simp
        | some d =>
          exact ih (h.down ht hp hch) fun hf => by have := hdeep hf; simp only [List.length_cons]; omega
      · simp
    · refine hnd.imp fun {i j} hij => ?_
      intro c hci hcj
      obtain ⟨q, hq, hsi⟩ := hbelow hci
      obtain ⟨q', hq', hsj⟩ := hbelow hcj
      rw [hq] at hq'
      cases hq'
      rcases List.suffix_or_suffix_of_suffix hsi hsj with hs | hs
      · have := List.IsSuffix.eq_of_length hs (by simp)
        exact hij (List.cons.inj this).1
      · have := List.IsSuffix.eq_of_length hs (by simp)
        exact hij (List.cons.inj this).1.symm
    · rw [List.mem_singleton] at hc'
      subst hc'
      obtain ⟨i, -, hci⟩ := List.mem_flatMap.1 hc
      obtain ⟨q, hq, hs⟩ := hbelow hci
      rintro rfl
      rw [ht] at hq
      cases hq
      have := hs.length_le
      simp at this

/-! ## Whole nodes -/

variable [DecidableEq N]

/-- write a node no tree owns -/
theorem Inv.scratch (h : Inv S mem own) (hf : own f = none) (g : ι → E) : Inv S (Function.update mem f g) own := by
  have hne : ∀ {t r p}, own t = some (r, p) → t ≠ f := by
    rintro t r p ht rfl; rw [ht] at hf; cases hf
  refine ⟨h.priv, h.root, fun hc => ?_, fun ht hp hc => ?_⟩
  · obtain ⟨t, ht, hchild⟩ := h.up hc
    exact ⟨t, ht, by rw [Function.update_of_ne (hne ht), hchild]⟩
  · rw [Function.update_of_ne (hne ht)] at hc
    exact h.down ht hp hc

/-- a fresh root with no private children -/
theorem Inv.newRoot (h : Inv S mem own) (hr : own r = none) (hpr : S.priv [] = true)
    (hempty : ∀ j, S.priv [j] = true → S.child (mem r j) = none) :
    Inv S mem (Function.update own r (some (r, []))) := by
  have hne : ∀ {t r' p}, own t = some (r', p) → t ≠ r := by
    rintro t r' p ht rfl; rw [ht] at hr; cases hr
  constructor
  · intro f r' p' hf
    by_cases hfr : f = r
    · subst hfr; rw [Function.update_self] at hf; cases hf; exact hpr
    · rw [Function.update_of_ne hfr] at hf; exact h.priv hf
  · intro f r' hf
    by_cases hfr : f = r
    · subst hfr; rw [Function.update_self] at hf; cases hf; rfl
    · rw [Function.update_of_ne hfr] at hf; exact h.root hf
  · intro c r' i p' hc
    by_cases hcr : c = r
    · subst hcr; rw [Function.update_self] at hc; cases hc
    · rw [Function.update_of_ne hcr] at hc
      obtain ⟨f, hf, hchild⟩ := h.up hc
      exact ⟨f, by rw [Function.update_of_ne (hne hf), hf], hchild⟩
  · intro f r' p' i c hf hp' hchild
    by_cases hfr : f = r
    · subst hfr
      rw [Function.update_self] at hf
      cases hf
      rw [hempty i hp'] at hchild; cases hchild
    · rw [Function.update_of_ne hfr] at hf
      have hd := h.down hf hp' hchild
      rw [Function.update_of_ne (hne hd), hd]

/-- forget a whole tree -/
def without (own : N → Option (N × List ι)) (r : N) (f : N) : Option (N × List ι) :=
  (own f).filter fun x => x.1 ≠ r

theorem without_some {r f : N} {x : N × List ι} : without own r f = some x ↔ own f = some x ∧ x.1 ≠ r := by
  unfold without
  cases own f with
  | none => simp
  | some y =>
    simp only [Option.filter_some, decide_eq_true_eq, Option.some.injEq]
    split_ifs with hy
    · simp only [Option.some.injEq]
      constructor
      · rintro rfl; exact ⟨rfl, hy⟩
      · exact And.left
    · simp only [false_iff, not_and]
      rintro rfl; exact hy

theorem Inv.dropRoot (h : Inv S mem own) (r : N) : Inv S mem (without own r) := by
  refine ⟨fun hf => h.priv (without_some.1 hf).1, fun hf => h.root (without_some.1 hf).1, fun hc => ?_,
    fun hf hp hc => ?_⟩
  · obtain ⟨hc, hr⟩ := without_some.1 hc
    obtain ⟨f, hf, hchild⟩ := h.up hc
    exact ⟨f, without_some.2 ⟨hf, hr⟩, hchild⟩
  · obtain ⟨hf, hr⟩ := without_some.1 hf
    exact without_some.2 ⟨h.down hf hp hc, hr⟩

/-! ## Single entries -/

variable [DecidableEq ι]

/-- one entry overwritten -/
def upd (mem : N → ι → E) (t : N) (i : ι) (e : E) : N → ι → E :=
  Function.update mem t (Function.update (mem t) i e)

theorem upd_self (mem : N → ι → E) (t : N) (i : ι) (e : E) : upd mem t i e t i = e := by simp [upd]

theorem upd_of_ne {mem : N → ι → E} {t f : N} {i j : ι} {e : E} (h : ¬ (f = t ∧ j = i)) :
    upd mem t i e f j = mem f j := by
  unfold upd
  by_cases hf : f = t
  · subst hf
    rw [Function.update_self, Function.update_of_ne fun hj => h ⟨rfl, hj⟩]
  · rw [Function.update_of_ne hf]

/-- hang the unlabelled node c in below t -/
theorem Inv.link (h : Inv S mem own) (ht : own t = some (r, p)) (hp : S.priv (i :: p) = true)
    (hold : S.child (mem t i) = none) (hc : own c = none)
    (hempty : ∀ j, S.priv (j :: i :: p) = true → S.child (mem c j) = none) (he : S.child e = some c) :
    Inv S (upd mem t i e) (Function.update own c (some (r, i :: p))) := by
  have hct : c ≠ t := by rintro rfl; rw [ht] at hc; cases hc
  constructor
  · intro f r' p' hf
    by_cases hfc : f = c
    · subst hfc; rw [Function.update_self] at hf; cases hf; exact hp
    · rw [Function.update_of_ne hfc] at hf; exact h.priv hf
  · intro f r' hf
    by_cases hfc : f = c
    · subst hfc; rw [Function.update_self] at hf; cases hf
    · rw [Function.update_of_ne hfc] at hf; exact h.root hf
  · intro c' r' i' p' hc'
    by_cases hcc : c' = c
    · subst hcc
      rw [Function.update_self] at hc'
      cases hc'
      exact ⟨t, by rw [Function.update_of_ne (Ne.symm hct), ht], by rw [upd_self]; exact he⟩
    · rw [Function.update_of_ne hcc] at hc'
      obtain ⟨f, hf, hchild⟩ := h.up hc'
      have hfc : f ≠ c := by rintro rfl; rw [hf] at hc; cases hc
      refine ⟨f, by rw [Function.update_of_ne hfc, hf], ?_⟩
      rw [upd_of_ne, hchild]
      rintro ⟨rfl, rfl⟩
      rw [hold] at hchild; cases hchild
  · intro f r' p' i' c' hf hp' hchild
    by_cases hfc : f = c
    · subst hfc
      rw [Function.update_self] at hf
      cases hf
      rw [upd_of_ne (fun hh => hct hh.1), hempty i' hp'] at hchild
      cases hchild
    · rw [Function.update_of_ne hfc] at hf
      by_cases hti : f = t ∧ i' = i
      · obtain ⟨rfl, rfl⟩ := hti
        rw [upd_self, he] at hchild
        cases hchild
        rw [ht] at hf
        cases hf
        rw [Function.update_self]
      · rw [upd_of_ne hti] at hchild
        have hd := h.down hf hp' hchild
        rw [Function.update_of_ne, hd]
        rintro rfl
        rw [hd] at hc; cases hc

/-- take the bottom node c out from below t -/
theorem Inv.unlink (h : Inv S mem own) (ht : own t = some (r, p)) (hc : own c = some (r, i :: p))
    (hbot : ∀ j, S.priv (j :: i :: p) = false) (he : S.child e = none) :
    Inv S (upd mem t i e) (Function.update own c none) := by
  have hct : c ≠ t := by
    rintro rfl
    rw [hc] at ht
    simp at ht
  constructor
  · intro f r' p' hf
    by_cases hfc : f = c
    · subst hfc; rw [Function.update_self] at hf; cases hf
    · rw [Function.update_of_ne hfc] at hf; exact h.priv hf
  · intro f r' hf
    by_cases hfc : f = c
    · subst hfc; rw [Function.update_self] at hf; cases hf
    · rw [Function.update_of_ne hfc] at hf; exact h.root hf
  · intro c' r' i' p' hc'
    by_cases hcc : c' = c
    · subst hcc; rw [Function.update_self] at hc'; cases hc'
    rw [Function.update_of_ne hcc] at hc'
    obtain ⟨f, hf, hchild⟩ := h.up hc'
    have hfc : f ≠ c := by
      rintro rfl
      rw [hc] at hf
      cases hf
      have := h.priv hc'
      rw [hbot] at this; cases this
    refine ⟨f, by rw [Function.update_of_ne hfc, hf], ?_⟩
    rw [upd_of_ne, hchild]
    rintro ⟨rfl, rfl⟩
    rw [ht] at hf
    cases hf
    exact hcc (h.unique hc' hc)
  · intro f r' p' i' c' hf hp' hchild
    by_cases hfc : f = c
    · subst hfc; rw [Function.update_self] at hf; cases hf
    rw [Function.update_of_ne hfc] at hf
    by_cases hti : f = t ∧ i' = i
    · obtain ⟨rfl, rfl⟩ := hti
      rw [upd_self, he] at hchild; cases hchild
    · rw [upd_of_ne hti] at hchild
      have hd := h.down hf hp' hchild
      rw [Function.update_of_ne, hd]
      rintro rfl
      rw [hc] at hd
      cases hd
      exact hti ⟨h.unique hf ht, rfl⟩

/-- rewrite an entry that keeps its child -/
theorem Inv.relink (h : Inv S mem own) (he : S.child e = S.child (mem t i)) : Inv S (upd mem t i e) own := by
  have hchild : ∀ f j, S.child (upd mem t i e f j) = S.child (mem f j) := by
    intro f j
    by_cases hti : f = t ∧ j = i
    · obtain ⟨rfl, rfl⟩ := hti; rw [upd_self, he]
    · rw [upd_of_ne hti]
  exact ⟨h.priv, h.root, fun hc => by simpa only [hchild] using h.up hc,
    fun hf hp hc => h.down hf hp (by rwa [hchild] at hc)⟩

end Retux.Forest
