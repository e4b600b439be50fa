/-
One page at a time: what `map`, `unmap` and `protect` do to the loaded address space, read off the tables alone.

`Inv` labels every frame of a task, leaf frames included. Here a leaf may point anywhere: at a frame mapped twice, at a
device, even at a table. What the three editors need is less. `tableAt` gives the table that the walk of a space reaches
along a path, and `WellFormed S` asks of the spaces S that their tables are allocated, that a table on a private path is
below 4 GiB and reached by that path only, and that there are no large pages on private paths. Every task the kernel
builds has such tables (`Built.wellFormed`).

`Quiet` is what `ensure_table` does on the way down: tables appear or are widened, no page of any space moves. The last
store then moves one page (`leafStore_page`).

Result: `one_page`.
-/
import Mathlib.Tactic
import Retux.Mem.Lifetime
import Retux.Mem.Levels

namespace Retux.Vmm

open Retux.Word Retux.Pmm Retux.Forest

/-! ## Tables by path -/

/-- the table an entry leads the walk to, read in the table at path q: only the PML4 has no large pages -/
def follow (q : List Idx) (e : U64) : Option ℕ :=
  if present e = true ∧ (q = [] ∨ huge e = false) then some (entryToKptr e) else none

/-- the table the walk of space R reaches along a path, deepest index first -/
def tableAt (mem : ℕ → Idx → U64) (R : ℕ) : List Idx → Option ℕ
  | [] => some R
  | i :: q => (tableAt mem R q).bind fun t => follow q (mem t i)

/-- q leads to a private page -/
def OnPrivate (q : List Idx) : Prop := ∃ v, isPrivate v = true ∧ q <:+ pathOf v

structure WellFormed (S : Set ℕ) (m : Machine) : Prop where
  used : ∀ {R q t}, R ∈ S → q.length < 4 → tableAt m.mem R q = some t → used m t = true
  below : ∀ {R q t}, R ∈ S → OnPrivate q → q.length < 4 → tableAt m.mem R q = some t → t < MAX_FRAMES
  only : ∀ {R q t R' q'}, R ∈ S → OnPrivate q → q.length < 4 → tableAt m.mem R q = some t → R' ∈ S → q'.length < 4 →
    tableAt m.mem R' q' = some t → R' = R ∧ q' = q
  /-- no large pages on private paths -/
  plain : ∀ {R i q t}, R ∈ S → OnPrivate (i :: q) → q ≠ [] → q.length < 3 → tableAt m.mem R q = some t →
    present (m.mem t i) = true → huge (m.mem t i) = false

section Tables

variable {S : Set ℕ} {m m' : Machine} {mem mem' : ℕ → Idx → U64} {R t c : ℕ} {i : Idx} {q : List Idx} {v : U64}

theorem follow_some {e : U64} :
    follow q e = some c ↔ present e = true ∧ (q = [] ∨ huge e = false) ∧ entryToKptr e = c := by
  unfold follow
  split_ifs with h
  · simp [h.1, h.2]
  · simp only [false_iff]
    intro hh
    exact h ⟨hh.1, hh.2.1⟩

theorem follow_same {e e' : U64} (h : Same e e') : follow q e' = follow q e := by
  unfold follow
  rw [h.1]
  by_cases hp : present e = true
  · rw [(h.2 hp).1, (h.2 hp).2]
  · simp [hp]

theorem tableAt_cons : tableAt mem R (i :: q) = some c ↔
    ∃ t, tableAt mem R q = some t ∧ present (mem t i) = true ∧ (q = [] ∨ huge (mem t i) = false) ∧
      entryToKptr (mem t i) = c := by
  simp only [tableAt, Option.bind_eq_some_iff, follow_some]

theorem OnPrivate.tail (h : OnPrivate (i :: q)) : OnPrivate q := by
  obtain ⟨v, hv, hs⟩ := h
  exact ⟨v, hv, (List.suffix_cons i q).trans hs⟩

theorem OnPrivate.priv (h : OnPrivate q) : Priv q = true := by
  have htail : ∀ l : List Idx, Priv (l ++ q) = true → Priv q = true := by
    intro l
    induction l with
    | nil => exact id
    | cons j l ih => exact fun hp => ih (Priv.tail hp)
  obtain ⟨v, hv, l, hl⟩ := h
  apply htail l
  rw [hl, priv_iff_isPrivate]
  exact hv

/-- the four entries that decide a page -/
theorem suffix_pathOf : i :: q <:+ pathOf v ↔
    i = tableIdx v 12 ∧ q = ptPath v ∨ i = tableIdx v 21 ∧ q = [tableIdx v 30, tableIdx v 39] ∨
      i = tableIdx v 30 ∧ q = [tableIdx v 39] ∨ i = tableIdx v 39 ∧ q = [] := by
  simp [pathOf, ptPath, List.suffix_cons_iff]

theorem suffix_length (h : i :: q <:+ pathOf v) : q.length < 4 := h.length_le

/-- a path that stops before the leaf goes on -/
theorem suffix_next (h : q <:+ pathOf v) (hl : q.length < 4) : ∃ j, j :: q <:+ pathOf v := by
  obtain ⟨l, hl'⟩ := h
  have hne : l ≠ [] := by
    rintro rfl
    have := congrArg List.length hl'
    simp [pathOf] at this
    omega
  refine ⟨l.getLast hne, l.dropLast, ?_⟩
  rw [← hl', List.append_cons, List.dropLast_append_getLast hne]

/-! ## The walk by tables -/

/-- the walk stops at an absent entry -/
theorem translate_absent (hs : i :: q <:+ pathOf v) (ht : tableAt mem R q = some t)
    (h0 : present (mem t i) = false) : translate mem R v = none := by
  rcases suffix_pathOf.1 hs with ⟨rfl, rfl⟩ | ⟨rfl, rfl⟩ | ⟨rfl, rfl⟩ | ⟨rfl, rfl⟩
  · obtain ⟨t2, ht2, p2, g2, rfl⟩ := tableAt_cons.1 ht
    obtain ⟨t3, ht3, p3, g3, rfl⟩ := tableAt_cons.1 ht2
    obtain ⟨t4, ht4, p4, -, rfl⟩ := tableAt_cons.1 ht3
    cases ht4
    simp only [reduceCtorEq, false_or] at g2 g3
    simp [translate, p4, p3, p2, g3, g2, h0]
  · obtain ⟨t3, ht3, p3, g3, rfl⟩ := tableAt_cons.1 ht
    obtain ⟨t4, ht4, p4, -, rfl⟩ := tableAt_cons.1 ht3
    cases ht4
    simp only [reduceCtorEq, false_or] at g3
    simp [translate, p4, p3, g3, h0]
  · obtain ⟨t4, ht4, p4, -, rfl⟩ := tableAt_cons.1 ht
    cases ht4
    simp [translate, p4, h0]
  · cases ht
    simp [translate, h0]

/-- the walk ends at a present entry of the page table -/
theorem translate_leaf (ht : tableAt mem R (ptPath v) = some t) (h1 : present (mem t (tableIdx v 12)) = true) :
    translate mem R v =
      some (entryPhys (mem t (tableIdx v 12)) + (v &&& 0xFFF), leafFlags (mem t (tableIdx v 12))) := by
  obtain ⟨t2, ht2, p2, g2, rfl⟩ := tableAt_cons.1 ht
  obtain ⟨t3, ht3, p3, g3, rfl⟩ := tableAt_cons.1 ht2
  obtain ⟨t4, ht4, p4, -, rfl⟩ := tableAt_cons.1 ht3
  cases ht4
  simp only [reduceCtorEq, false_or] at g2 g3
  simp [translate, p4, p3, p2, g3, g2, h1]

/-- **The walk reads four entries.** It is the same in two memories if each entry it reads is the same, or leads the
same way from a table above the last and is no large page. -/
theorem translate_entries (h : ∀ q i t, i :: q <:+ pathOf v → tableAt mem R q = some t →
    mem' t i = mem t i ∨ q.length < 3 ∧ Same (mem t i) (mem' t i) ∧
      (q ≠ [] → present (mem t i) = true → huge (mem t i) = false)) :
    translate mem' R v = translate mem R v := by
  have hsame : ∀ q i t, i :: q <:+ pathOf v → tableAt mem R q = some t → q.length < 3 → q ≠ [] →
      Same (mem t i) (mem' t i) ∧ (present (mem t i) = true → huge (mem t i) = true → mem' t i = mem t i) := by
    intro q i t hs ht hl hq
    rcases h q i t hs ht with he | ⟨-, hs, hg⟩
    · exact ⟨Same.of_eq he, fun _ _ => he⟩
    · refine ⟨hs, fun hp hh => ?_⟩
      rw [hg hq hp] at hh
      cases hh
  have h3 : ∀ {t3}, child (mem R (tableIdx v 39)) = some t3 → tableAt mem R [tableIdx v 39] = some t3 := by
    intro t3 hc
    obtain ⟨p4, rfl⟩ := child_some.1 hc
    exact tableAt_cons.2 ⟨R, rfl, p4, Or.inl rfl, rfl⟩
  have h2 : ∀ {t3 t2}, child (mem R (tableIdx v 39)) = some t3 → child (mem t3 (tableIdx v 30)) = some t2 →
      huge (mem t3 (tableIdx v 30)) = false → tableAt mem R [tableIdx v 30, tableIdx v 39] = some t2 := by
    intro t3 t2 hc3 hc2 hg
    obtain ⟨p3, rfl⟩ := child_some.1 hc2
    exact tableAt_cons.2 ⟨t3, h3 hc3, p3, Or.inr hg, rfl⟩
  refine translate_congr ?_ (fun t3 hc => ?_) (fun t3 t2 hc3 hc2 hg => ?_) (fun t3 t2 t1 hc3 hc2 hg hc1 hg1 => ?_)
  · rcases h [] (tableIdx v 39) R (suffix_pathOf.2 (by simp)) rfl with he | ⟨-, hs, -⟩
    · exact Same.of_eq he
    · exact hs
  · exact hsame _ _ _ (suffix_pathOf.2 (by simp)) (h3 hc) (by simp) (by simp)
  · exact hsame _ _ _ (suffix_pathOf.2 (by simp)) (h2 hc3 hc2 hg) (by simp) (by simp)
  · obtain ⟨p2, rfl⟩ := child_some.1 hc1
    have ht : tableAt mem R (ptPath v) = some (entryToKptr (mem t2 (tableIdx v 21))) :=
      tableAt_cons.2 ⟨t2, h2 hc3 hc2 hg, p2, Or.inr hg1, rfl⟩
    rcases h (ptPath v) (tableIdx v 12) _ (suffix_pathOf.2 (by simp)) ht with he | ⟨hl, -⟩
    · exact he
    · simp [ptPath] at hl

end Tables

/-! ## One level down -/

/-- an entry that grants the USER and WRITABLE rights f asks for -/
def Grants (f e : U64) : Prop := (f &&& USER ≠ 0 → e &&& USER ≠ 0) ∧ (f &&& WRITABLE ≠ 0 → e &&& WRITABLE ≠ 0)

/-- tables appear or are widened; no page of any space moves -/
structure Quiet (S : Set ℕ) (m m' : Machine) : Prop where
  wf : WellFormed S m'
  walk : ∀ {R}, R ∈ S → ∀ v, translate m'.mem R v = translate m.mem R v
  table : ∀ {R q t}, R ∈ S → q.length < 4 → tableAt m.mem R q = some t → tableAt m'.mem R q = some t
  rights : ∀ {R q t i}, R ∈ S → q.length < 3 → tableAt m.mem R q = some t → present (m.mem t i) = true →
    ∃ w, m'.mem t i = m.mem t i ||| w
  cr3 : m'.cr3 = m.cr3

theorem Quiet.refl {S : Set ℕ} {m : Machine} (h : WellFormed S m) : Quiet S m m :=
  ⟨h, fun _ _ => rfl, fun _ _ ht => ht, fun _ _ _ _ => ⟨0, by simp⟩, rfl⟩

section Down

variable {S : Set ℕ} {m m' m'' : Machine} {r t c : ℕ} {i : Idx} {p : List Idx} {v f fl e w : U64}

theorem bit_or_ne (k : ℕ) (hk : k < 64) (h : e &&& BitVec.twoPow 64 k ≠ 0) :
    (e ||| w) &&& BitVec.twoPow 64 k ≠ 0 := by
  rw [bit_set_iff _ _ hk] at h ⊢
  simp [h]

theorem Grants.or (h : Grants f e) : Grants f (e ||| w) :=
  ⟨fun hu => bit_or_ne 2 (by decide) (h.1 hu), fun hw => bit_or_ne 1 (by decide) (h.2 hw)⟩

theorem Grants.trans (h1 : Grants f w) (h2 : Grants w e) : Grants f e :=
  ⟨fun h => h2.1 (h1.1 h), fun h => h2.2 (h1.2 h)⟩

/-- what `ensure_table` leaves in the entry grants the flags it was given -/
theorem grants_new (a : U64) : Grants fl (a ||| fl ||| PRESENT) := by
  have hfl : Grants fl fl := ⟨id, id⟩
  rw [BitVec.or_comm a fl, BitVec.or_assoc]
  exact hfl.or

theorem grants_widen (e : U64) : Grants fl (e ||| (fl &&& (USER ||| WRITABLE))) := by
  have hboth : ∀ k, k = 1 ∨ k = 2 → fl &&& BitVec.twoPow 64 k ≠ 0 →
      (e ||| (fl &&& (USER ||| WRITABLE))) &&& BitVec.twoPow 64 k ≠ 0 := by
    intro k hk h
    have hk64 : k < 64 := by omega
    have hset : (USER ||| WRITABLE).getLsbD k = true := by
      rcases hk with rfl | rfl <;> decide
    rw [bit_set_iff _ _ hk64] at h ⊢
    simp [h, hset]
  exact ⟨hboth 2 (Or.inr rfl), hboth 1 (Or.inl rfl)⟩

/-- the flags `map_into` gives to the tables on the way grant those of the page -/
theorem grants_intermediate (f : U64) :
    Grants f (if f &&& USER ≠ 0 then PRESENT ||| WRITABLE ||| USER else PRESENT ||| WRITABLE) := by
  split_ifs with h
  · exact ⟨fun _ => by decide, fun _ => by decide⟩
  · exact ⟨fun hu => absurd hu h, fun _ => by decide⟩

theorem Quiet.trans (h1 : Quiet S m m') (h2 : Quiet S m' m'') : Quiet S m m'' := by
  refine ⟨h2.wf, fun hR v => (h2.walk hR v).trans (h1.walk hR v), fun hR hl ht => h2.table hR hl (h1.table hR hl ht),
    fun {R q t i} hR hl ht hp => ?_, h2.cr3.trans h1.cr3⟩
  obtain ⟨w1, e1⟩ := h1.rights hR hl ht hp
  have hp' : present (m'.mem t i) = true := by rw [e1, present_or, hp]; rfl
  obtain ⟨w2, e2⟩ := h2.rights hR hl (h1.table hR (by omega) ht) hp'
  exact ⟨w1 ||| w2, by rw [e2, e1, BitVec.or_assoc]⟩

/-- entries that lead the same way lead to the same tables -/
theorem tableAt_congr {mem mem' : ℕ → Idx → U64} {R : ℕ} {q : List Idx}
    (h : ∀ p t i, i :: p <:+ q → tableAt mem R p = some t → Same (mem t i) (mem' t i)) :
    tableAt mem' R q = tableAt mem R q := by
  induction q with
  | nil => rfl
  | cons i q ih =>
    rw [tableAt, tableAt, ih fun p t j hs => h p t j (hs.trans (List.suffix_cons i q))]
    cases ht : tableAt mem R q with
    | none => rfl
    | some t => exact follow_same (h q t i (List.suffix_refl _) ht)

/-- allocated tables at the places of the old ones are well formed -/
theorem WellFormed.congr (h : WellFormed S m) (hu : ∀ {f}, Vmm.used m f = true → Vmm.used m' f = true)
    (ht : ∀ {R q}, R ∈ S → q.length < 4 → tableAt m'.mem R q = tableAt m.mem R q)
    (hs : ∀ {R i q t}, R ∈ S → q.length < 3 → tableAt m.mem R q = some t → Same (m.mem t i) (m'.mem t i)) :
    WellFormed S m' := by
  constructor
  · intro R q t hR hl htq
    exact hu (h.used hR hl ((ht hR hl).symm.trans htq))
  · intro R q t hR hp hl htq
    exact h.below hR hp hl ((ht hR hl).symm.trans htq)
  · intro R q t R' q' hR hp hl htq hR' hl' htq'
    exact h.only hR hp hl ((ht hR hl).symm.trans htq) hR' hl' ((ht hR' hl').symm.trans htq')
  · intro R i q t hR hp hq hl htq hpr
    have htq' := (ht hR (by omega)).symm.trans htq
    have hsame := hs (i := i) hR hl htq'
    have hpr' : present (m.mem t i) = true := hsame.1.symm.trans hpr
    rw [(hsame.2 hpr').2]
    exact h.plain hR hp hq hl htq' hpr'

/-- widening an entry above the leaves -/
theorem widen_quiet (h : WellFormed S m) (hr : r ∈ S) (hp : OnPrivate (i :: p)) (hl : p.length < 3)
    (ht : tableAt m.mem r p = some t) (hs : Same (m.mem t i) (m.mem t i ||| w)) :
    Quiet S m (m.store t i (m.mem t i ||| w)) := by
  have hentry : ∀ k j, (m.store t i (m.mem t i ||| w)).mem k j = m.mem k j ∨ k = t ∧ j = i ∧
      (m.store t i (m.mem t i ||| w)).mem k j = m.mem t i ||| w := by
    intro k j
    by_cases hk : k = t ∧ j = i
    · obtain ⟨rfl, rfl⟩ := hk
      exact Or.inr ⟨rfl, rfl, store_self ..⟩
    · exact Or.inl (store_of_ne hk)
  have hsame : ∀ k j, Same (m.mem k j) ((m.store t i (m.mem t i ||| w)).mem k j) := by
    intro k j
    rcases hentry k j with he | ⟨rfl, rfl, he⟩
    · exact Same.of_eq he
    · rw [he]
      exact hs
  have htable : ∀ {R q}, tableAt (m.store t i (m.mem t i ||| w)).mem R q = tableAt m.mem R q := fun {R q} =>
    tableAt_congr fun _ k j _ _ => hsame k j
  refine ⟨h.congr (fun hu => hu) (fun _ _ => htable) fun _ _ _ => hsame _ _, fun {R} hR v => ?_,
    fun _ _ hq => htable.trans hq, fun {R q k j} _ _ _ _ => ?_, rfl⟩
  · refine translate_entries fun q j k hq hk => ?_
    rcases hentry k j with he | ⟨rfl, rfl, -⟩
    · exact Or.inl he
    · -- the table is reached on its own path only, so this is the level of the entry
      obtain ⟨rfl, rfl⟩ := h.only hr hp.tail (by omega) ht hR (suffix_length hq) hk
      exact Or.inr ⟨hl, hsame _ _, fun hq hpr => h.plain hr hp hq hl ht hpr⟩
  · rcases hentry k j with he | ⟨rfl, rfl, he⟩
    · exact ⟨0, by rw [he]; simp⟩
    · exact ⟨w, he⟩

/-- memory m' is m with the empty table c below the absent entry i of t -/
structure NewTable (m m' : Machine) (t : ℕ) (i : Idx) (c : ℕ) : Prop where
  free : used m c = false
  lt : c < MAX_FRAMES
  used : ∀ f, Vmm.used m' f = (decide (f = c) || Vmm.used m f)
  mem : ∀ {k j}, k ≠ c → ¬ (k = t ∧ j = i) → m'.mem k j = m.mem k j
  zero : ∀ j, m'.mem c j = 0
  absent : present (m.mem t i) = false
  present : Vmm.present (m'.mem t i) = true
  plain : huge (m'.mem t i) = false
  child : entryToKptr (m'.mem t i) = c
  cr3 : m'.cr3 = m.cr3

/-- a table of S is not the new one -/
theorem NewTable.ne (n : NewTable m m' t i c) (h : WellFormed S m) {R s : ℕ} {q : List Idx} (hR : R ∈ S)
    (hl : q.length < 4) (hs : tableAt m.mem R q = some s) : s ≠ c := by
  rintro rfl
  have hu := h.used hR hl hs
  rw [n.free] at hu
  cases hu

/-- the tables are the old ones and the new one -/
theorem NewTable.table (n : NewTable m m' t i c) (h : WellFormed S m) (hr : r ∈ S) (hp : OnPrivate (i :: p))
    (hl : p.length < 3) (ht : tableAt m.mem r p = some t) {R : ℕ} (hR : R ∈ S) {q : List Idx} (hq : q.length < 4)
    {s : ℕ} : tableAt m'.mem R q = some s ↔ tableAt m.mem R q = some s ∨ R = r ∧ q = i :: p ∧ s = c := by
  induction q generalizing s with
  | nil => simp [tableAt]
  | cons j q ih =>
    simp only [List.length_cons] at hq
    have ih := fun {s} => ih (s := s) (by omega)
    rw [tableAt_cons, tableAt_cons]
    constructor
    · rintro ⟨s', hs', hpr, hg, rfl⟩
      rcases ih.1 hs' with hold | ⟨rfl, rfl, rfl⟩
      · by_cases hk : s' = t ∧ j = i
        · -- the walk takes the new entry, at the end of its path
          obtain ⟨rfl, rfl⟩ := hk
          obtain ⟨rfl, rfl⟩ := h.only hr hp.tail (by omega) ht hR (by omega) hold
          exact Or.inr ⟨rfl, rfl, n.child⟩
        · have he := n.mem (n.ne h hR (by omega) hold) hk
          rw [he] at hpr hg ⊢
          exact Or.inl ⟨s', hold, hpr, hg, rfl⟩
      · rw [n.zero] at hpr
        cases hpr
    · rintro (⟨s', hs', hpr, hg, rfl⟩ | ⟨rfl, heq, rfl⟩)
      · have hk : ¬ (s' = t ∧ j = i) := by
          rintro ⟨rfl, rfl⟩
          rw [n.absent] at hpr
          cases hpr
        have he := n.mem (n.ne h hR (by omega) hs') hk
        exact ⟨s', ih.2 (Or.inl hs'), by rw [he]; exact hpr, by rw [he]; exact hg, by rw [he]⟩
      · cases heq
        exact ⟨t, ih.2 (Or.inl ht), n.present, Or.inr n.plain, n.child⟩

theorem NewTable.wf (n : NewTable m m' t i c) (h : WellFormed S m) (hr : r ∈ S) (hp : OnPrivate (i :: p))
    (hl : p.length < 3) (ht : tableAt m.mem r p = some t) : WellFormed S m' := by
  have htable := fun {R} hR {q} hq {s} => n.table h hr hp hl ht (R := R) hR (q := q) hq (s := s)
  constructor
  · intro R q s hR hq hs
    rw [n.used]
    rcases (htable hR hq).1 hs with hold | ⟨-, -, rfl⟩
    · simp [h.used hR hq hold]
    · simp
  · intro R q s hR hpq hq hs
    rcases (htable hR hq).1 hs with hold | ⟨-, -, rfl⟩
    · exact h.below hR hpq hq hold
    · exact n.lt
  · intro R q s R' q' hR hpq hq hs hR' hq' hs'
    rcases (htable hR hq).1 hs with hold | ⟨rfl, rfl, rfl⟩
    · rcases (htable hR' hq').1 hs' with hold' | ⟨-, -, rfl⟩
      · exact h.only hR hpq hq hold hR' hq' hold'
      · exact absurd rfl (n.ne h hR hq hold)
    · rcases (htable hR' hq').1 hs' with hold' | ⟨rfl, rfl, -⟩
      · exact absurd rfl (n.ne h hR' hq' hold')
      · exact ⟨rfl, rfl⟩
  · intro R j q s hR hpq hne hq hs hpr
    rcases (htable hR (by omega)).1 hs with hold | ⟨-, -, rfl⟩
    · by_cases hk : s = t ∧ j = i
      · obtain ⟨rfl, rfl⟩ := hk
        exact n.plain
      · have he := n.mem (n.ne h hR (by omega) hold) hk
        rw [he] at hpr ⊢
        exact h.plain hR hpq hne hq hold hpr
    · rw [n.zero] at hpr
      cases hpr

/-- a page below the new table is unmapped before and after; the walks of all others do not come by -/
theorem NewTable.walk (n : NewTable m m' t i c) (h : WellFormed S m) (hr : r ∈ S) (hp : OnPrivate (i :: p))
    (hl : p.length < 3) (ht : tableAt m.mem r p = some t) {R : ℕ} (hR : R ∈ S) (v : U64) :
    translate m'.mem R v = translate m.mem R v := by
  by_cases hs : R = r ∧ i :: p <:+ pathOf v
  · obtain ⟨rfl, hs⟩ := hs
    have hnew : tableAt m'.mem R (i :: p) = some c :=
      (n.table h hr hp hl ht hR (by simp; omega)).2 (Or.inr ⟨rfl, rfl, rfl⟩)
    obtain ⟨j, hj⟩ := suffix_next hs (by simp; omega)
    rw [translate_absent hs ht n.absent, translate_absent hj hnew (by rw [n.zero]; rfl)]
  · refine translate_entries fun q j k hq hk => Or.inl (n.mem (n.ne h hR (suffix_length hq) hk) ?_)
    rintro ⟨rfl, rfl⟩
    obtain ⟨rfl, rfl⟩ := h.only hr hp.tail (by omega) ht hR (suffix_length hq) hk
    exact hs ⟨rfl, hq⟩

theorem NewTable.quiet (n : NewTable m m' t i c) (h : WellFormed S m) (hr : r ∈ S) (hp : OnPrivate (i :: p))
    (hl : p.length < 3) (ht : tableAt m.mem r p = some t) : Quiet S m m' := by
  refine ⟨n.wf h hr hp hl ht, n.walk h hr hp hl ht, fun hR hq hs => (n.table h hr hp hl ht hR hq).2 (Or.inl hs),
    fun {R q k j} hR hq hk hpr => ⟨0, ?_⟩, n.cr3⟩
  rw [n.mem (n.ne h hR (by omega) hk)]
  · simp
  · rintro ⟨rfl, rfl⟩
    rw [n.absent] at hpr
    cases hpr

/-- **One level down.** The table below an entry on a private path exists afterwards, the entry grants the flags asked
for, and no page has moved. -/
theorem ensureTable_quiet (h : WellFormed S m) (hr : r ∈ S) (hp : OnPrivate (i :: p)) (hl : p.length < 3)
    (ht : tableAt m.mem r p = some t) (hfl : Flags fl) (hh : huge fl = false)
    (he : ensureTable m t i fl = some (c, m')) :
    Quiet S m m' ∧ tableAt m'.mem r (i :: p) = some c ∧ Grants fl (m'.mem t i) := by
  unfold ensureTable at he
  split_ifs at he with h0
  · rw [absent_iff] at h0
    obtain ⟨⟨a, m1⟩, ha, hres⟩ := Option.map_eq_some_iff.1 he
    obtain ⟨f, rfl, hlt, hfree, hm1, hused, -⟩ := alloc_spec ha
    simp only [frameOf_addrOf hlt] at hres
    have hk : entryToKptr (addrOf f ||| fl ||| PRESENT) = f := kptr_table hlt hfl
    simp only [store_self, hk, Prod.mk.injEq] at hres
    obtain ⟨rfl, rfl⟩ := hres
    have htf : t ≠ f := by
      rintro rfl
      rw [h.used hr (by omega) ht] at hfree
      cases hfree
    have n : NewTable m ((m1.fill f fun _ => 0).store t i (addrOf f ||| fl ||| PRESENT)) t i f := by
      refine ⟨hfree, hlt, hused, fun hkf hk => ?_, fun j => ?_, h0, ?_, ?_, ?_, ?_⟩
      · rw [store_of_ne hk, fill_mem, if_neg hkf, hm1]
      · rw [store_of_ne fun hh => htf hh.1.symm, fill_mem, if_pos rfl]
      · rw [store_self, present_or]
        simp [show present PRESENT = true from rfl]
      · rw [store_self, BitVec.or_assoc, huge_addr_or hlt, huge_or, hh]
        rfl
      · rw [store_self, hk]
      · rw [hm1]
        rfl
    refine ⟨n.quiet h hr hp hl ht, ?_, ?_⟩
    · exact (n.table h hr hp hl ht hr (by simp; omega)).2 (Or.inr ⟨rfl, rfl, rfl⟩)
    · rw [store_self]
      exact grants_new _
  · have h1 : present (m.mem t i) = true := by
      rw [absent_iff] at h0
      simpa using h0
    cases he
    have hs := widen_same (m.mem t i) fl
    have hq := widen_quiet h hr hp hl ht hs
    refine ⟨hq, tableAt_cons.2 ⟨t, hq.table hr (by omega) ht, ?_, ?_, rfl⟩, ?_⟩
    · rw [store_self]
      exact hs.1.trans h1
    · by_cases hne : p = []
      · exact Or.inl hne
      · rw [store_self, (hs.2 h1).2]
        exact Or.inr (h.plain hr hp hne hl ht h1)
    · rw [store_self]
      exact grants_widen _

end Down

/-! ## One page -/

/-- an entry on the way to a page, with the rights f asks for -/
def Granted (m : Machine) (r : ℕ) (f : U64) (i : Idx) (q : List Idx) : Prop :=
  ∃ t, tableAt m.mem r q = some t ∧ present (m.mem t i) = true ∧ Grants f (m.mem t i)

/-- the page of v in space r is at frame p with flags f, and every level above grants what f asks for -/
structure Maps (m : Machine) (r : ℕ) (v p f : U64) : Prop where
  leaf : ∀ {v'}, pathOf v' = pathOf v → translate m.mem r v' = some (p + (v' &&& 0xFFF), f)
  grants : ∀ {i q}, i :: q <:+ ptPath v → Granted m r f i q

/-- an edit of the page of v in space r: well formed as before, and every other page of every space as before -/
structure OnlyPage (S : Set ℕ) (m m' : Machine) (r : ℕ) (v : U64) : Prop where
  wf : WellFormed S m'
  cr3 : m'.cr3 = m.cr3
  rest : ∀ {R}, R ∈ S → ∀ v', ¬ (R = r ∧ pathOf v' = pathOf v) → translate m'.mem R v' = translate m.mem R v'

section Page

variable {S : Set ℕ} {m m' : Machine} {r t c : ℕ} {i : Idx} {q : List Idx} {v v' p f fl e phys : U64}

theorem OnlyPage.refl (h : WellFormed S m) : OnlyPage S m m r v := ⟨h, rfl, fun _ _ _ => rfl⟩

theorem onPrivate_of (hv : isPrivate v = true) (hs : q <:+ pathOf v) : OnPrivate q := ⟨v, hv, hs⟩

theorem suffix_pt : ptPath v <:+ pathOf v := List.suffix_cons _ _

theorem suffix_ptPath : i :: q <:+ ptPath v ↔
    i = tableIdx v 21 ∧ q = [tableIdx v 30, tableIdx v 39] ∨ i = tableIdx v 30 ∧ q = [tableIdx v 39] ∨
      i = tableIdx v 39 ∧ q = [] := by
  simp [ptPath, List.suffix_cons_iff]

theorem Quiet.granted (h : Quiet S m m') (hr : r ∈ S) (hl : q.length < 3) (hg : Granted m r f i q) :
    Granted m' r f i q := by
  obtain ⟨t, ht, hp, hg⟩ := hg
  obtain ⟨w, hw⟩ := h.rights hr hl ht hp
  exact ⟨t, h.table hr (by omega) ht, by rw [hw, present_or, hp]; rfl, by rw [hw]; exact hg.or⟩

/-- the entries of a page built from a frame address and flags -/
theorem entry_parts (hp : entryPhys p = p) (hf : Flags f) : entryPhys (p ||| f) = p ∧ leafFlags (p ||| f) = f := by
  have hf0 : f &&& PHYS_MASK = 0 := by
    apply BitVec.eq_of_toNat_eq
    have hz : (entryPhys f).toNat = 0 := by rw [entryPhys_toNat, show entryToKptr f = 0 from hf]
    exact hz
  have hp' : p &&& PHYS_MASK = p := hp
  have hbit : ∀ k, (p.getLsbD k && PHYS_MASK.getLsbD k) = p.getLsbD k := fun k => by
    rw [← BitVec.getLsbD_and, hp']
  have hfbit : ∀ k, (f.getLsbD k && PHYS_MASK.getLsbD k) = false := fun k => by
    rw [← BitVec.getLsbD_and, hf0]
    simp
  constructor
  · apply BitVec.eq_of_getLsbD_eq
    intro k hk
    have h1 := hbit k
    have h2 := hfbit k
    rw [entryPhys, BitVec.getLsbD_and, BitVec.getLsbD_or]
    cases hpk : p.getLsbD k <;> cases hfk : f.getLsbD k <;> simp_all
  · apply BitVec.eq_of_getLsbD_eq
    intro k hk
    have h1 := hbit k
    have h2 := hfbit k
    rw [leafFlags, BitVec.getLsbD_and, BitVec.getLsbD_or, BitVec.getLsbD_not]
    cases hpk : p.getLsbD k <;> cases hfk : f.getLsbD k <;> simp_all

/-- the frame of an entry, back from an address in it -/
theorem entryPhys_page (e v : U64) : (entryPhys e + (v &&& 0xFFF)) &&& ~~~0xFFF#64 = entryPhys e := by
  have ho : (v &&& 0xFFF).toNat < 4096 := by
    rw [BitVec.toNat_and]
    exact lt_of_le_of_lt Nat.and_le_right (by decide)
  have he : (entryPhys e).toNat = entryToKptr e * 4096 := entryPhys_toNat e
  have hk : entryToKptr e < 2 ^ 40 := by
    rw [kptr_eq]
    exact Nat.mod_lt _ (by decide)
  apply BitVec.eq_of_toNat_eq
  rw [and_not_page, BitVec.toNat_add, he]
  omega

theorem entryPhys_idem (e : U64) : entryPhys (entryPhys e) = entryPhys e := by
  rw [entryPhys, entryPhys, BitVec.and_assoc, BitVec.and_self]

/-- the walk goes on below a private entry, or stops there -/
theorem WellFormed.next (h : WellFormed S m) (hr : r ∈ S) (hp : OnPrivate (i :: q)) (hl : q.length < 3)
    (ht : tableAt m.mem r q = some t) : present (m.mem t i) = false ∨
      present (m.mem t i) = true ∧ tableAt m.mem r (i :: q) = some (entryToKptr (m.mem t i)) := by
  cases hpr : present (m.mem t i) with
  | false => exact Or.inl rfl
  | true =>
    refine Or.inr ⟨rfl, tableAt_cons.2 ⟨t, ht, hpr, ?_, rfl⟩⟩
    by_cases hne : q = []
    · exact Or.inl hne
    · exact Or.inr (h.plain hr hp hne hl ht hpr)

theorem WellFormed.splitIfHuge_eq (h : WellFormed S m) (hr : r ∈ S) (hp : OnPrivate (i :: q)) (hne : q ≠ [])
    (hl : q.length < 3) (ht : tableAt m.mem r q = some t) : splitIfHuge m t i = some m := by
  unfold splitIfHuge
  rw [isHuge_eq]
  cases hpr : present (m.mem t i) with
  | false => rfl
  | true =>
    rw [h.plain hr hp hne hl ht hpr]
    rfl

/-- the tables above a page table do not see a store to it -/
theorem leafStore_above (h : WellFormed S m) (hr : r ∈ S) (hv : isPrivate v = true)
    (ht : tableAt m.mem r (ptPath v) = some t) {R k : ℕ} {j : Idx} (hR : R ∈ S) (hl : q.length < 3)
    (hk : tableAt m.mem R q = some k) : (m.store t (tableIdx v 12) e).mem k j = m.mem k j := by
  apply store_of_ne
  rintro ⟨rfl, -⟩
  obtain ⟨-, rfl⟩ := h.only hr (onPrivate_of hv suffix_pt) (by simp [ptPath]) ht hR (by omega) hk
  simp [ptPath] at hl

theorem leafStore_table (h : WellFormed S m) (hr : r ∈ S) (hv : isPrivate v = true)
    (ht : tableAt m.mem r (ptPath v) = some t) {R : ℕ} (hR : R ∈ S) (hl : q.length < 4) :
    tableAt (m.store t (tableIdx v 12) e).mem R q = tableAt m.mem R q := by
  refine tableAt_congr fun p k j hs hk => Same.of_eq (leafStore_above h hr hv ht hR ?_ hk)
  have := hs.length_le
  simp only [List.length_cons] at this
  omega

/-- **The last store.** An entry of a page table on a private path is one page of one space. -/
theorem leafStore_page (h : WellFormed S m) (hr : r ∈ S) (hv : isPrivate v = true)
    (ht : tableAt m.mem r (ptPath v) = some t) : OnlyPage S m (m.store t (tableIdx v 12) e) r v := by
  refine ⟨h.congr (fun hu => hu) (leafStore_table h hr hv ht) fun hR hl hq =>
    Same.of_eq (leafStore_above h hr hv ht hR hl hq), rfl, fun {R} hR v' hne => ?_⟩
  refine translate_entries fun q j k hs hk => Or.inl (store_of_ne ?_)
  rintro ⟨rfl, rfl⟩
  obtain ⟨rfl, rfl⟩ := h.only hr (onPrivate_of hv suffix_pt) (by simp [ptPath]) ht hR (suffix_length hs) hk
  exact hne ⟨rfl, (hs.eq_of_length (by simp [ptPath, pathOf])).symm⟩

/-- **Mapping a page.** -/
theorem mapInto_page (h : WellFormed S m) (hr : r ∈ S) (hv : isPrivate v = true) (hfl : LeafFlags f)
    (hp : entryPhys p = p) (hphys : phys &&& ~~~0xFFF#64 = p) (hm : mapInto m r v phys f = some m') :
    Maps m' r v p f ∧ OnlyPage S m m' r v := by
  have hpt : OnPrivate (ptPath v) := onPrivate_of hv suffix_pt
  have hgr := grants_intermediate f
  have hint := intermediate_flags f
  unfold mapInto at hm
  simp only [bind, Option.bind_eq_some_iff, pure, Option.some.injEq, hphys] at hm
  obtain ⟨⟨pdpt, m1⟩, e1, ⟨pd, m2⟩, e2, m3, e3, ⟨pt, m4⟩, e4, rfl⟩ := hm
  generalize (if f &&& USER ≠ 0 then PRESENT ||| WRITABLE ||| USER else PRESENT ||| WRITABLE) = w at e1 e2 e4 hgr hint
  obtain ⟨q1, t1, g1⟩ := ensureTable_quiet h hr hpt.tail.tail (by simp) rfl hint.1 hint.2 e1
  obtain ⟨q2, t2, g2⟩ := ensureTable_quiet q1.wf hr hpt.tail (by simp) t1 hint.1 hint.2 e2
  rw [q2.wf.splitIfHuge_eq hr hpt (by simp) (by simp) t2] at e3
  cases e3
  obtain ⟨q4, t4, g4⟩ := ensureTable_quiet q2.wf hr hpt (by simp) t2 hint.1 hint.2 e4
  -- each entry on the way, at the time it was made
  have n1 : Granted m1 r f (tableIdx v 39) [] := by
    obtain ⟨t, ht, hpr, -⟩ := tableAt_cons.1 t1
    cases ht
    exact ⟨r, rfl, hpr, hgr.trans g1⟩
  have n2 : Granted m2 r f (tableIdx v 30) [tableIdx v 39] := by
    obtain ⟨t, ht, hpr, -⟩ := tableAt_cons.1 t2
    rw [q2.table hr (by simp) t1] at ht
    cases ht
    exact ⟨_, q2.table hr (by simp) t1, hpr, hgr.trans g2⟩
  have n4 : Granted m4 r f (tableIdx v 21) [tableIdx v 30, tableIdx v 39] := by
    obtain ⟨t, ht, hpr, -⟩ := tableAt_cons.1 t4
    rw [q4.table hr (by simp) t2] at ht
    cases ht
    exact ⟨_, q4.table hr (by simp) t2, hpr, hgr.trans g4⟩
  have hquiet := (q1.trans q2).trans q4
  have hpage := leafStore_page (e := p ||| f) q4.wf hr hv t4
  have hpart := entry_parts hp hfl.1
  refine ⟨⟨fun {v'} hv' => ?_, fun {i q} hs => ?_⟩, hpage.wf, hpage.cr3.trans hquiet.cr3, fun hR v' hne => ?_⟩
  · have hsame : tableIdx v' 12 = tableIdx v 12 ∧ ptPath v' = ptPath v := by simpa [pathOf, ptPath] using hv'
    have hentry : (m4.store pt (tableIdx v 12) (p ||| f)).mem pt (tableIdx v' 12) = p ||| f := by
      rw [hsame.1, store_self]
    have htab : tableAt (m4.store pt (tableIdx v 12) (p ||| f)).mem r (ptPath v') = some pt := by
      rw [hsame.2, leafStore_table q4.wf hr hv t4 hr (by simp [ptPath])]
      exact t4
    rw [translate_leaf htab (by rw [hentry, present_or, hfl.2.1, Bool.or_true]), hentry, hpart.1, hpart.2]
  · have hlast : q.length < 3 → Granted m4 r f i q → Granted (m4.store pt (tableIdx v 12) (p ||| f)) r f i q := by
      rintro hl ⟨k, hk, hpr, hg⟩
      have hkeep := leafStore_above (e := p ||| f) (j := i) q4.wf hr hv t4 hr hl hk
      exact ⟨k, (leafStore_table q4.wf hr hv t4 hr (by omega)).trans hk, by rw [hkeep]; exact hpr,
        by rw [hkeep]; exact hg⟩
    rcases suffix_ptPath.1 hs with ⟨rfl, rfl⟩ | ⟨rfl, rfl⟩ | ⟨rfl, rfl⟩
    · exact hlast (by simp) n4
    · exact hlast (by simp) (q4.granted hr (by simp) n2)
    · exact hlast (by simp) ((q2.trans q4).granted hr (by simp) n1)
  · exact (hpage.rest hR v' hne).trans (hquiet.walk hR v')

/-- in a space whose tables for a page exist, `map_into` takes no frame -/
theorem mapInto_total (h : WellFormed S m) (hr : r ∈ S) (hv : isPrivate v = true)
    (ht : tableAt m.mem r (ptPath v) = some t) : ∃ m', mapInto m r v phys f = some m' := by
  have hpt : OnPrivate (ptPath v) := onPrivate_of hv suffix_pt
  have hint := intermediate_flags f
  unfold mapInto
  simp only [bind]
  generalize (if f &&& USER ≠ 0 then PRESENT ||| WRITABLE ||| USER else PRESENT ||| WRITABLE) = w at hint
  have hdown : ∀ {m1 : Machine} {i : Idx} {p : List Idx} {k c : ℕ}, tableAt m1.mem r p = some k →
      tableAt m1.mem r (i :: p) = some c → ∃ c' m2, ensureTable m1 k i w = some (c', m2) := by
    intro m1 i p k c hk hc
    obtain ⟨k', hk', hpr, -⟩ := tableAt_cons.1 hc
    rw [hk] at hk'
    cases hk'
    exact ⟨_, _, ensureTable_present hpr⟩
  obtain ⟨t2, ht2, -⟩ := tableAt_cons.1 ht
  obtain ⟨t3, ht3, -⟩ := tableAt_cons.1 ht2
  obtain ⟨c1, m1, e1⟩ := hdown rfl ht3
  obtain ⟨q1, k1, -⟩ := ensureTable_quiet h hr hpt.tail.tail (by simp) rfl hint.1 hint.2 e1
  obtain ⟨c2, m2, e2⟩ := hdown k1 (q1.table hr (by simp) ht2)
  obtain ⟨q2, k2, -⟩ := ensureTable_quiet q1.wf hr hpt.tail (by simp) k1 hint.1 hint.2 e2
  obtain ⟨c4, m4, e4⟩ := hdown k2 (q2.table hr (by simp) (q1.table hr (by simp) ht))
  simp only [e1, e2, e4, q2.wf.splitIfHuge_eq hr hpt (by simp) (by simp) k2, Option.bind_some]
  exact ⟨_, rfl⟩

/-- a private page has its page table, or its walk stops above and `unmap` has nothing to do -/
theorem unmap_cases (h : WellFormed S m) (hr : getPml4 m ∈ S) (hv : isPrivate v = true) :
    (∃ t, tableAt m.mem (getPml4 m) (ptPath v) = some t ∧ unmap m v = some (m.store t (tableIdx v 12) 0)) ∨
      unmap m v = some m ∧ ∃ i q t, i :: q <:+ pathOf v ∧ tableAt m.mem (getPml4 m) q = some t ∧
        present (m.mem t i) = false := by
  have hpt : OnPrivate (ptPath v) := onPrivate_of hv suffix_pt
  unfold unmap
  simp only [absent_iff]
  rcases h.next hr hpt.tail.tail (by simp) rfl with p4 | ⟨p4, t3⟩
  · rw [if_pos p4]
    exact Or.inr ⟨rfl, _, [], _, suffix_pathOf.2 (by simp), rfl, p4⟩
  rw [if_neg (by simp [p4])]
  rcases h.next hr hpt.tail (by simp) t3 with p3 | ⟨p3, t2⟩
  · rw [if_pos p3]
    exact Or.inr ⟨rfl, _, _, _, suffix_pathOf.2 (by simp), t3, p3⟩
  rw [if_neg (by simp [p3])]
  simp only [bind, h.splitIfHuge_eq hr hpt (by simp) (by simp) t2, Option.bind_some]
  rcases h.next hr hpt (by simp) t2 with p2 | ⟨p2, t1⟩
  · rw [if_pos p2]
    exact Or.inr ⟨rfl, _, _, _, suffix_pathOf.2 (by simp), t2, p2⟩
  rw [if_neg (by simp [p2])]
  exact Or.inl ⟨_, t1, rfl⟩

/-- **Unmapping a page.** -/
theorem unmap_page (h : WellFormed S m) (hr : getPml4 m ∈ S) (hv : isPrivate v = true) :
    ∃ m', unmap m v = some m' ∧ (∀ v', pathOf v' = pathOf v → translate m'.mem (getPml4 m) v' = none) ∧
      OnlyPage S m m' (getPml4 m) v := by
  rcases unmap_cases h hr hv with ⟨t, ht, hu⟩ | ⟨hu, i, q, t, hs, ht, h0⟩
  · refine ⟨_, hu, fun v' hv' => ?_, leafStore_page h hr hv ht⟩
    have htab : tableAt (m.store t (tableIdx v 12) 0).mem (getPml4 m) (ptPath v) = some t := by
      rw [leafStore_table h hr hv ht hr (by simp [ptPath])]
      exact ht
    refine translate_absent (i := tableIdx v 12) (q := ptPath v) ?_ htab (by rw [store_self]; rfl)
    rw [hv']
    exact List.suffix_refl _
  · exact ⟨m, hu, fun v' hv' => translate_absent (by rw [hv']; exact hs) ht h0, OnlyPage.refl h⟩

/-- **Protecting a page.** -/
theorem protect_page (h : WellFormed S m) (hr : getPml4 m ∈ S) (hv : isPrivate v = true) (hfl : LeafFlags f) :
    ∃ m', protect m v f = some m' ∧ (virtToPhys m v = 0 → m' = m) ∧
      (virtToPhys m v ≠ 0 → Maps m' (getPml4 m) v (virtToPhys m v &&& ~~~0xFFF#64) f) ∧
      OnlyPage S m m' (getPml4 m) v := by
  unfold protect
  by_cases h0 : virtToPhys m v = 0
  · rw [if_pos h0]
    exact ⟨m, rfl, fun _ => rfl, fun hn => absurd h0 hn, OnlyPage.refl h⟩
  · rw [if_neg h0]
    -- the page has a table and an entry in it, or its walk would give 0
    have hnone : translate m.mem (getPml4 m) v ≠ none := by
      intro hn
      rw [virtToPhys_eq, hn] at h0
      exact h0 rfl
    rcases unmap_cases h hr hv with ⟨t, ht, -⟩ | ⟨-, i, q, t, hs, ht, habs⟩
    · cases hpr : present (m.mem t (tableIdx v 12)) with
      | false => exact absurd (translate_absent (List.suffix_refl _) ht hpr) hnone
      | true =>
        have hphys : virtToPhys m v = entryPhys (m.mem t (tableIdx v 12)) + (v &&& 0xFFF) := by
          rw [virtToPhys_eq, translate_leaf ht hpr]
          rfl
        have hpage : virtToPhys m v &&& ~~~0xFFF#64 = entryPhys (m.mem t (tableIdx v 12)) := by
          rw [hphys]
          exact entryPhys_page _ _
        obtain ⟨m', hm⟩ : ∃ m', map m v (virtToPhys m v) f = some m' := mapInto_total h hr hv ht
        obtain ⟨hmaps, honly⟩ := mapInto_page h hr hv hfl (entryPhys_idem _) hpage hm
        rw [hpage]
        exact ⟨m', hm, fun he => absurd he h0, fun _ => hmaps, honly⟩
    · exact absurd (translate_absent hs ht habs) hnone

/-- where a page is, as the kernel asks for it -/
theorem Maps.virtToPhys (h : Maps m r v p f) (hr : getPml4 m = r) (hv : pathOf v' = pathOf v) :
    Vmm.virtToPhys m v' = p + (v' &&& 0xFFF) := by
  rw [virtToPhys_eq, hr, h.leaf hv]
  rfl

end Page

/-! ## The spaces of tasks -/

section Spaces

variable {L : Layout} {m : Machine} {S : Set ℕ} {R t : ℕ} {q : List Idx}

/-- on a private path the tables are the space's own -/
theorem Inv.own_tableAt (h : Inv L m) (hR : L.own R = some (R, [])) (hp : Priv q = true)
    (ht : tableAt m.mem R q = some t) : L.own t = some (R, q) := by
  induction q generalizing t with
  | nil =>
    cases ht
    exact hR
  | cons i q ih =>
    obtain ⟨s, hs, hpr, -, rfl⟩ := tableAt_cons.1 ht
    exact h.down (ih (Priv.tail hp) hs) hp hpr

/-- and elsewhere they are its own or the kernel's -/
theorem Inv.tableAt_cases (h : Inv L m) (hR : L.own R = some (R, [])) (hl : q.length < 4)
    (ht : tableAt m.mem R q = some t) : L.own t = some (R, q) ∨ L.klv t = some (3 - q.length) := by
  induction q generalizing t with
  | nil =>
    cases ht
    exact Or.inl hR
  | cons i q ih =>
    simp only [List.length_cons] at hl
    obtain ⟨s, hs, hpr, hg, rfl⟩ := tableAt_cons.1 ht
    rcases ih (by omega) hs with ho | hk
    · cases hp : Priv (i :: q) with
      | true => exact Or.inl (h.down ho hp hpr)
      | false =>
        -- the walk leaves the space: through a shared slot, or below slot 0
        have hq : Priv q = true := h.tree.priv ho
        rcases q with - | ⟨i4, - | ⟨i3, - | ⟨i2, q⟩⟩⟩
        · exact Or.inr (h.shr_pml4 ho hp hpr)
        · have h0 : i4 = 0 := by
            by_contra h0
            rw [Priv, if_neg h0] at hp
            rw [hp] at hq
            cases hq
          subst h0
          rw [h.slot0_end ho (by simpa [Priv] using hp)] at hpr
          cases hpr
        · have h0 : i3 = 0 := by
            by_contra h0
            simp only [Priv, h0, if_false] at hp hq
            rw [hp] at hq
            cases hq
          subst h0
          rcases h.shr_pd ho hp hpr with ⟨hh, -⟩ | ⟨-, hk⟩
          · simp [hh] at hg
          · exact Or.inr hk
        · simp only [List.length_cons] at hl
          omega
    · rcases q with - | ⟨i4, - | ⟨i3, - | ⟨i2, q⟩⟩⟩
      · exact Or.inr (h.kern.pml4 hk hpr)
      · exact Or.inr (h.kern.pdpt hk hpr).2
      · rcases h.kern.pd hk hpr with ⟨hh, -⟩ | ⟨-, hk⟩
        · simp [hh] at hg
        · exact Or.inr hk
      · simp only [List.length_cons] at hl
        omega

theorem Inv.wellFormed (h : Inv L m) (hS : ∀ R ∈ S, L.own R = some (R, [])) : WellFormed S m := by
  constructor
  · intro R q t hR hl ht
    rcases h.tableAt_cases (hS R hR) hl ht with ho | hk
    · exact (h.own_used ho).1
    · exact (h.kern.used hk).1
  · intro R q t hR hp hl ht
    exact (h.own_used (h.own_tableAt (hS R hR) hp.priv ht)).2.2
  · intro R q t R' q' hR hp hl ht hR' hl' ht'
    have ho := h.own_tableAt (hS R hR) hp.priv ht
    rcases h.tableAt_cases (hS R' hR') hl' ht' with ho' | hk
    · rw [ho] at ho'
      cases ho'
      exact ⟨rfl, rfl⟩
    · rw [h.klv_none ho] at hk
      cases hk
  · intro R i q t hR hp _ _ ht hpr
    exact h.own_huge (h.own_tableAt (hS R hR) hp.tail.priv ht) hp.priv hpr

/-- **The tasks' spaces are well formed**, whatever the kernel did to them. -/
theorem Built.wellFormed {rs : List ℕ} {X : Set ℕ} (h : Built m rs X) : WellFormed {r | r ∈ rs} m := by
  obtain ⟨L, hist⟩ := h.history
  exact hist.inv.wellFormed fun r hr => (hist.roots r).1 hr

end Spaces

/-! ## The three editors -/

/-- flags made of PRESENT and any of WRITABLE, USER and NO_EXECUTE -/
theorem leafFlags_rights (g : U64) : LeafFlags (PRESENT ||| (g &&& (WRITABLE ||| USER ||| NO_EXECUTE))) := by
  have hflags : Flags (g &&& (WRITABLE ||| USER ||| NO_EXECUTE)) := by
    rw [BitVec.and_comm]
    exact Flags.and g (by decide)
  refine ⟨Flags.or (by decide) hflags, ?_, ?_⟩
  · rw [present_or, show present PRESENT = true from rfl, Bool.true_or]
  · have hmask : huge (WRITABLE ||| USER ||| NO_EXECUTE) = false := by decide
    have hpresent : huge PRESENT = false := by decide
    unfold huge at hmask hpresent ⊢
    rw [BitVec.getLsbD_or, BitVec.getLsbD_and, hmask, hpresent, Bool.and_false, Bool.or_false]

/-- **One page.** In any well-formed spaces S, of which one is loaded, each editor changes one private page of the
loaded one: `map` puts it at p with flags f, under levels that grant what f asks for; `unmap` takes it away; `protect`
keeps the frame and sets the flags, if there is one. Every other page of every space keeps its translation and flags,
and the spaces stay well formed. `map` needs four free frames at most, the other two none. -/
theorem one_page {S : Set ℕ} {m : Machine} {v p g : U64} (h : WellFormed S m) (hr : getPml4 m ∈ S)
    (hv : isPrivate v = true) (hp : entryPhys p = p) :
    let f := PRESENT ||| (g &&& (WRITABLE ||| USER ||| NO_EXECUTE))
    ((4 ≤ freeCount m.pmm → ∃ m', map m v p f = some m') ∧
      ∀ m', map m v p f = some m' →
        (∀ v', pathOf v' = pathOf v → virtToPhys m' v' = p + (v' &&& 0xFFF)) ∧ Maps m' (getPml4 m) v p f ∧
          OnlyPage S m m' (getPml4 m) v) ∧
    (∃ m', unmap m v = some m' ∧ (∀ v', pathOf v' = pathOf v → virtToPhys m' v' = 0) ∧
      OnlyPage S m m' (getPml4 m) v) ∧
    ∃ m', protect m v f = some m' ∧ (virtToPhys m v = 0 → m' = m) ∧
      (virtToPhys m v ≠ 0 → Maps m' (getPml4 m) v (virtToPhys m v &&& ~~~0xFFF#64) f) ∧
      OnlyPage S m m' (getPml4 m) v := by
  intro f
  have hf : LeafFlags f := leafFlags_rights g
  have hroot : ∀ {m'}, OnlyPage S m m' (getPml4 m) v → getPml4 m' = getPml4 m := fun ho => by
    rw [getPml4, ho.cr3, getPml4]
  have hmask : p &&& ~~~0xFFF#64 = p := by
    have := entryPhys_page p 0
    rw [hp] at this
    simpa using this
  refine ⟨⟨mapInto_isSome, fun m' hm => ?_⟩, ?_, protect_page h hr hv hf⟩
  · obtain ⟨hmaps, honly⟩ := mapInto_page h hr hv hf hp hmask hm
    exact ⟨fun v' hv' => hmaps.virtToPhys (hroot honly) hv', hmaps, honly⟩
  · obtain ⟨m', hu, hnone, honly⟩ := unmap_page h hr hv
    refine ⟨m', hu, fun v' hv' => ?_, honly⟩
    rw [virtToPhys_eq, hroot honly, hnone v' hv']
    rfl

/-- a page of the first address space after boot -/
theorem one_page_sample : ∃ m m', map m sampleVirt (addrOf 0x9000) sampleFlags = some m' ∧
    virtToPhys m' sampleVirt = addrOf 0x9000 := by
  obtain ⟨r, m, -, -, hb, hcr, hfree, -⟩ := boot_space
  have hw := hb.wellFormed
  have hp : entryPhys (addrOf 0x9000) = addrOf 0x9000 := addrOf_physMask (by decide)
  have h := (one_page (v := sampleVirt) (g := sampleFlags) hw (by rw [hcr]; simp) sample_private hp).1
  have hf : PRESENT ||| (sampleFlags &&& (WRITABLE ||| USER ||| NO_EXECUTE)) = sampleFlags := by decide
  rw [hf] at h
  obtain ⟨m', hm⟩ := h.1 (by show 4 ≤ freeCount m.pmm; omega)
  refine ⟨_, m', hm, ?_⟩
  rw [(h.2 m' hm).1 sampleVirt rfl]
  decide

end Retux.Vmm
