/-
Intrusive circular lists. Nothing here names a particular program.

`Path next a l b`: from a, the links lead through the cells of l, in order, to b. `IsRing next a l` is such a path from a
back to a, without repeats. A ring can be read from any of its cells (`rotate`), a cell goes in after a (`insert`) or is
bypassed (`remove`).
-/
import Mathlib.Tactic

namespace Retux.Ring

variable {α : Type} {next next' : α → α} {a b p q t : α} {l l' : List α}

/-! ## Paths -/

/-- from a through l to b -/
def Path (next : α → α) : α → List α → α → Prop
  | a, [], b => next a = b
  | a, x :: l, b => next a = x ∧ Path next x l b

/-- the links of a and of l are all that matters -/
theorem Path.congr (h : Path next a l b) (hn : ∀ x ∈ a :: l, next' x = next x) : Path next' a l b := by
  induction l generalizing a with
  | nil => exact (hn a (List.mem_cons_self ..)).trans h
  | cons x l ih =>
    refine ⟨(hn a (List.mem_cons_self ..)).trans h.1, ih h.2 fun y hy => ?_⟩
    exact hn y (List.mem_cons_of_mem _ hy)

theorem path_append : Path next a (l ++ p :: l') b ↔ Path next a l p ∧ Path next p l' b := by
  induction l generalizing a with
  | nil => exact Iff.rfl
  | cons x l ih =>
    have hih := ih (a := x)
    show next a = x ∧ Path next x (l ++ p :: l') b ↔ (next a = x ∧ Path next x l p) ∧ Path next p l' b
    rw [hih, and_assoc]

/-- a path with another first cell that has the same link -/
theorem Path.head (h : Path next t l b) (hq : next' q = next t) (hn : ∀ x ∈ l, next' x = next x) :
    Path next' q l b := by
  cases l with
  | nil => exact hq.trans h
  | cons x l => exact ⟨hq.trans h.1, h.2.congr hn⟩

/-- a cell bypassed: q, the last before t, takes over t's link -/
theorem Path.bypass (h : Path next a l t) (h' : Path next t l' b) (hl : (a :: l).getLast? = some q)
    (hnd : (a :: l).Nodup) (hq : next' q = next t) (hn : ∀ x ∈ a :: l, x ≠ q → next' x = next x)
    (hn' : ∀ x ∈ l', next' x = next x) : Path next' a (l ++ l') b := by
  induction l generalizing a with
  | nil =>
    have haq : a = q := by simpa using hl
    rw [haq]
    exact h'.head hq hn'
  | cons x l ih =>
    have hl' : (x :: l).getLast? = some q := by rwa [List.getLast?_cons_cons] at hl
    have hqm : q ∈ x :: l := List.mem_of_getLast? hl'
    obtain ⟨hax, hnd'⟩ := List.nodup_cons.1 hnd
    have haq : a ≠ q := by rintro rfl; exact hax hqm
    refine ⟨(hn a (List.mem_cons_self ..) haq).trans h.1, ih h.2 hl' hnd' fun y hy => ?_⟩
    exact hn y (List.mem_cons_of_mem _ hy)

/-- every link of the path leads to its next cell or to its end -/
theorem Path.next_mem (h : Path next a l b) (hp : p ∈ a :: l) : next p ∈ l ++ [b] := by
  induction l generalizing a with
  | nil =>
    have hpa : p = a := by simpa using hp
    rw [hpa, show next a = b from h]
    simp
  | cons x l ih =>
    rcases List.mem_cons.1 hp with rfl | hp
    · rw [h.1]
      simp
    · exact List.mem_cons_of_mem _ (ih h.2 hp)

/-- no two cells of the path lead to the same cell -/
theorem Path.inj (h : Path next a l b) (hnd : (l ++ [b]).Nodup) (hp : p ∈ a :: l) (hq : q ∈ a :: l)
    (he : next p = next q) : p = q := by
  induction l generalizing a with
  | nil =>
    have hpa : p = a := by simpa using hp
    have hqa : q = a := by simpa using hq
    rw [hpa, hqa]
  | cons x l ih =>
    obtain ⟨hx, hnd'⟩ := List.nodup_cons.1 (show (x :: (l ++ [b])).Nodup from hnd)
    rcases List.mem_cons.1 hp with hpa | hp'
    · rcases List.mem_cons.1 hq with hqa | hq'
      · rw [hpa, hqa]
      · have hmem := h.2.next_mem hq'
        rw [← he, hpa, h.1] at hmem
        exact absurd hmem hx
    · rcases List.mem_cons.1 hq with hqa | hq'
      · have hmem := h.2.next_mem hp'
        rw [he, hqa, h.1] at hmem
        exact absurd hmem hx
      · exact ih h.2 hnd' hp' hq'

/-- the last cell of the path leads to its end -/
theorem Path.last (h : Path next a l b) (hl : (a :: l).getLast? = some q) : next q = b := by
  induction l generalizing a with
  | nil =>
    have haq : a = q := by simpa using hl
    rw [← haq]
    exact h
  | cons x l ih =>
    rw [List.getLast?_cons_cons] at hl
    exact ih h.2 hl

/-- there is one path between two cells that does not pass the end on its way -/
theorem Path.unique (h : Path next a l b) (h' : Path next a l' b) (hb : b ∉ l) (hb' : b ∉ l') : l = l' := by
  induction l generalizing a l' with
  | nil =>
    cases l' with
    | nil => rfl
    | cons x l' =>
      have hx : b = x := (show next a = b from h).symm.trans h'.1
      exact absurd (hx ▸ List.mem_cons_self ..) hb'
  | cons x l ih =>
    cases l' with
    | nil =>
      have hx : b = x := (show next a = b from h').symm.trans h.1
      exact absurd (hx ▸ List.mem_cons_self ..) hb
    | cons y l' =>
      have hxy : x = y := h.1.symm.trans h'.1
      subst hxy
      have htail := ih h.2 h'.2 (fun hm => hb (List.mem_cons_of_mem _ hm)) fun hm => hb' (List.mem_cons_of_mem _ hm)
      rw [htail]

/-! ## Rings -/

/-- the cells a, l in order, without repeats, the last one linked to a -/
structure IsRing (next : α → α) (a : α) (l : List α) : Prop where
  nodup : (a :: l).Nodup
  path : Path next a l a

theorem IsRing.congr (h : IsRing next a l) (hn : ∀ x ∈ a :: l, next' x = next x) : IsRing next' a l :=
  ⟨h.nodup, h.path.congr hn⟩

theorem IsRing.unique (h : IsRing next a l) (h' : IsRing next a l') : l = l' :=
  h.path.unique h'.path (List.nodup_cons.1 h.nodup).1 (List.nodup_cons.1 h'.nodup).1

/-- **Any cell will do** as the first. -/
theorem IsRing.rotate (h : IsRing next a (l ++ p :: l')) : IsRing next p (l' ++ a :: l) := by
  obtain ⟨h1, h2⟩ := path_append.1 h.path
  refine ⟨?_, path_append.2 ⟨h2, h1⟩⟩
  have hperm : (p :: l' ++ a :: l).Perm (a :: l ++ p :: l') := List.perm_append_comm
  exact hperm.nodup_iff.2 h.nodup

/-- **A new cell** after a. -/
theorem IsRing.insert (h : IsRing next a l) (hp : p ∉ a :: l) (ha : next' a = p) (hp' : next' p = next a)
    (hn : ∀ x ∈ l, next' x = next x) : IsRing next' a (p :: l) := by
  obtain ⟨hal, hnd⟩ := List.nodup_cons.1 h.nodup
  have hpa : a ≠ p := by rintro rfl; exact hp (List.mem_cons_self ..)
  have hpl : p ∉ l := fun hl => hp (List.mem_cons_of_mem _ hl)
  refine ⟨List.nodup_cons.2 ⟨?_, List.nodup_cons.2 ⟨hpl, hnd⟩⟩, ha, h.path.head hp' hn⟩
  exact fun hm => (List.mem_cons.1 hm).elim hpa hal

/-- **A cell less.** q, the cell before t, is linked past it. -/
theorem IsRing.remove (h : IsRing next a (l ++ t :: l')) (hl : (a :: l).getLast? = some q)
    (hq : next' q = next t) (hn : ∀ x ∈ a :: (l ++ l'), x ≠ q → next' x = next x) : IsRing next' a (l ++ l') := by
  obtain ⟨h1, h2⟩ := path_append.1 h.path
  have hsub : List.Sublist (a :: (l ++ l')) (a :: (l ++ t :: l')) := by simp
  have hnd : ((a :: l) ++ l').Nodup := h.nodup.sublist hsub
  obtain ⟨hndl, -, hdisj⟩ := List.nodup_append.1 hnd
  refine ⟨hnd, h1.bypass h2 hl hndl hq (fun x hx => ?_) fun x hx => ?_⟩
  · exact hn x (by simpa [or_assoc] using Or.inl (b := x ∈ l') (List.mem_cons.1 hx))
  · exact hn x (by simp [hx]) fun hxq => hdisj q (List.mem_of_getLast? hl) x hx hxq.symm

/-- no two cells of a ring have the same link -/
theorem IsRing.inj (h : IsRing next a l) (hp : p ∈ a :: l) (hq : q ∈ a :: l) (he : next p = next q) : p = q := by
  have hperm : (l ++ [a]).Perm (a :: l) := List.perm_append_comm
  exact h.path.inj (hperm.nodup_iff.2 h.nodup) hp hq he

/-- **A cell less**, wherever it is: q is the one cell linked to it. -/
theorem IsRing.erase [DecidableEq α] (h : IsRing next a l) (ht : t ∈ l) (hql : q ∈ a :: l) (hqt : next q = t)
    (hq : next' q = next t) (hn : ∀ x ∈ a :: l, x ≠ q → next' x = next x) : IsRing next' a (l.erase t) := by
  obtain ⟨l1, l2, rfl⟩ := List.append_of_mem ht
  have hnd : (l1 ++ t :: l2).Nodup := (List.nodup_cons.1 h.nodup).2
  have ht1 : t ∉ l1 := fun hm => (List.nodup_append.1 hnd).2.2 t hm t (List.mem_cons_self ..) rfl
  have herase : (l1 ++ t :: l2).erase t = l1 ++ l2 := by
    rw [List.erase_append_right _ ht1, List.erase_cons_head]
  obtain ⟨q', hq'⟩ : ∃ q', (a :: l1).getLast? = some q' := ⟨_, List.getLast?_eq_some_getLast (by simp)⟩
  have hqq : q = q' := by
    have hmem : q' ∈ a :: (l1 ++ t :: l2) :=
      List.mem_append_left (t :: l2) (List.mem_of_getLast? hq')
    exact h.inj hql hmem (hqt.trans ((path_append.1 h.path).1.last hq').symm)
  rw [herase]
  refine h.remove hq' (by rw [← hqq]; exact hq) fun x hx hne => hn x ?_ (by rw [hqq]; exact hne)
  simp only [List.mem_cons, List.mem_append] at hx ⊢
  tauto

end Retux.Ring
