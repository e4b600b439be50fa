/-
Address spaces: what belongs to a task, what it shares, and the invariant that keeps the two apart.

Ownership is not recorded anywhere in the kernel: clone and destroy re-derive it from indices. `Layout` records it as a
ghost. `own f = some (r, p)` puts frame f into the address space with PML4 frame r at path p (deepest index first): the
PML4 itself at [], its slot-0 PDPT at [0], page tables at three indices, leaf frames at four. `klv` gives the level of
the kernel tables (3 = PML4 ... 0 = PT) that every address space borrows.

`Priv` says which positions are private. In slot 0 they are the PDPT, its first four PDs and, below the first PD, the
page tables of the window [2 MiB, 16 MiB) (entries 1 to 7). The heap and physmap slots are shared; every other slot is
private as a whole. `priv_iff_isPrivate` ties this to addresses.

`Inv` is the representation invariant: the private positions form a forest (`Forest.Inv`), owned frames are allocated,
non-zero and no kernel tables, private entries are never huge, and whatever a private table borrows points into kernel
tables or is a supervisor huge page.
-/
import Mathlib.Tactic
import Retux.Lib.Forest
import Retux.Mem.Entry

namespace Retux.Vmm

open Retux.Word Retux.Pmm Retux.Forest

/-! ## Private positions -/

def Priv : List Idx → Bool
  | [] => true
  | [i4] => i4 ≠ HEAP_PML4_IDX && i4 ≠ PHYSMAP_PML4_IDX
  | [i3, i4] => if i4 = 0 then i3.val < 4 else Priv [i4]
  | [i2, i3, i4] => if i4 = 0 then i3 = 0 && 1 ≤ i2.val && i2.val < 8 else Priv [i4]
  | [_, i2, i3, i4] => Priv [i2, i3, i4]
  | _ => false

/-- the task-private addresses: the window of slot 0, and every slot but 0, the heap's and the physmap's -/
def isPrivate (virt : U64) : Bool :=
  if tableIdx virt 39 = 0 then RESERVED_LOW.toNat ≤ virt.toNat % 2 ^ 48 && virt.toNat % 2 ^ 48 < RESERVED_HIGH.toNat
  else tableIdx virt 39 ≠ HEAP_PML4_IDX && tableIdx virt 39 ≠ PHYSMAP_PML4_IDX

/-- the page of an address as a path -/
def pathOf (virt : U64) : List Idx := [tableIdx virt 12, tableIdx virt 21, tableIdx virt 30, tableIdx virt 39]

theorem Priv.tail {i : Idx} {p : List Idx} (h : Priv (i :: p) = true) : Priv p = true := by
  match p, h with
  | [], _ => rfl
  | [i4], h =>
    simp only [Priv] at h ⊢
    split_ifs at h with h0
    · subst h0; decide
    · exact h
  | [i3, i4], h =>
    simp only [Priv] at h ⊢
    split_ifs at h ⊢ with h0
    · simp only [Bool.and_eq_true, decide_eq_true_eq] at h
      rw [h.1.1]; rfl
    · exact h
  | [i2, i3, i4], h => exact h
  | _ :: _ :: _ :: _ :: [], h => simp [Priv] at h
  | _ :: _ :: _ :: _ :: _ :: _, h => simp [Priv] at h

theorem Priv.length_le {p : List Idx} (h : Priv p = true) : p.length ≤ 4 := by
  match p, h with
  | [], _ => simp
  | [_], _ => simp
  | [_, _], _ => simp
  | [_, _, _], _ => simp
  | [_, _, _, _], _ => simp
  | _ :: _ :: _ :: _ :: _ :: _, h => simp [Priv] at h

theorem priv_bottom {i : Idx} {p : List Idx} (h : 4 ≤ p.length) : Priv (i :: p) = false := by
  cases hp : Priv (i :: p) with
  | false => rfl
  | true => have := Priv.length_le hp; simp at this; omega

/-- the reserved test of `create_address_space` is the window test on indices -/
theorem reserved_iff (i3 i2 : Idx) :
    (RESERVED_LOW ≤ virt2mb i3 i2 ∧ virt2mb i3 i2 < RESERVED_HIGH) ↔ i3 = 0 ∧ 1 ≤ i2.val ∧ i2.val < 8 := by
  have h3 := i3.isLt
  have h2 := i2.isLt
  rw [BitVec.le_def, BitVec.lt_def, virt2mb_toNat, show RESERVED_LOW.toNat = 2097152 from rfl,
    show RESERVED_HIGH.toNat = 16777216 from rfl, Fin.ext_iff]
  norm_num
  omega

/-- the indices of a low address outside the window -/
theorem low_idx {v : U64} (hv : v.toNat < 2 ^ 32) (hw : ¬ (RESERVED_LOW ≤ v ∧ v < RESERVED_HIGH)) :
    tableIdx v 39 = 0 ∧ (tableIdx v 30).val < 4 ∧
      ¬ (RESERVED_LOW ≤ virt2mb (tableIdx v 30) (tableIdx v 21) ∧
        virt2mb (tableIdx v 30) (tableIdx v 21) < RESERVED_HIGH) ∧
      Priv [tableIdx v 21, tableIdx v 30, 0] = false := by
  have hres : ¬ (RESERVED_LOW ≤ virt2mb (tableIdx v 30) (tableIdx v 21) ∧
      virt2mb (tableIdx v 30) (tableIdx v 21) < RESERVED_HIGH) := by
    rw [reserved_iff]
    rintro ⟨e3, e2⟩
    have e3' : v.toNat / 2 ^ 30 % 512 = 0 := congrArg Fin.val e3
    have e2' : 1 ≤ v.toNat / 2 ^ 21 % 512 ∧ v.toNat / 2 ^ 21 % 512 < 8 := e2
    refine hw ⟨?_, ?_⟩
    · rw [BitVec.le_def, show RESERVED_LOW.toNat = 2097152 from rfl]; omega
    · rw [BitVec.lt_def, show RESERVED_HIGH.toNat = 16777216 from rfl]; omega
  refine ⟨Fin.ext ?_, ?_, hres, ?_⟩
  · show v.toNat / 2 ^ 39 % 512 = 0
    omega
  · show v.toNat / 2 ^ 30 % 512 < 4
    omega
  · rw [reserved_iff] at hres
    simp only [Priv, if_true]
    simpa [and_assoc] using hres

theorem priv_iff_isPrivate (virt : U64) : Priv (pathOf virt) = isPrivate virt := by
  have hv := virt.isLt
  simp only [pathOf, Priv, isPrivate]
  split_ifs with h0
  · have h0' : virt.toNat / 2 ^ 39 % 512 = 0 := congrArg Fin.val h0
    rw [Bool.eq_iff_iff]
    simp only [Bool.and_eq_true, decide_eq_true_eq, show RESERVED_LOW.toNat = 2097152 from rfl,
      show RESERVED_HIGH.toNat = 16777216 from rfl, Fin.ext_iff, tableIdx, Fin.val_zero]
    norm_num at h0' ⊢
    omega
  · rfl

/-- the addresses of a page have one path -/
theorem path_same {v w : U64} (h : v.toNat / 4096 = w.toNat / 4096) : pathOf v = pathOf w := by
  simp only [pathOf, List.cons.injEq, and_true, tableIdx, Fin.mk.injEq]
  omega

theorem private_same {v w : U64} (h : pathOf v = pathOf w) : isPrivate v = isPrivate w := by
  rw [← priv_iff_isPrivate, ← priv_iff_isPrivate, h]

/-! ## The layout and its invariant -/

def used (m : Machine) (f : ℕ) : Bool := isUsed m.pmm.bitmap f

/-- the frame a present entry points at -/
def child (e : U64) : Option ℕ := if present e then some (entryToKptr e) else none

def shape : Shape ℕ Idx U64 := ⟨child, Priv⟩

structure Layout where
  own : ℕ → Option (ℕ × List Idx)
  klv : ℕ → Option ℕ

/-- the kernel's own tables -/
structure Kern (klv : ℕ → Option ℕ) (m : Machine) : Prop where
  root : klv (frameOf m.gKernelPml4) = some 3
  used : ∀ {f k}, klv f = some k → used m f = true ∧ 0 < f ∧ f < MAX_FRAMES
  pml4 : ∀ {f i}, klv f = some 3 → present (m.mem f i) = true → klv (entryToKptr (m.mem f i)) = some 2
  pdpt : ∀ {f i}, klv f = some 2 → present (m.mem f i) = true →
    huge (m.mem f i) = false ∧ klv (entryToKptr (m.mem f i)) = some 1
  pd : ∀ {f i}, klv f = some 1 → present (m.mem f i) = true →
    huge (m.mem f i) = true ∧ user (m.mem f i) = false ∨
      huge (m.mem f i) = false ∧ klv (entryToKptr (m.mem f i)) = some 0
  pt_user : ∀ {f i}, klv f = some 0 → present (m.mem f i) = true → user (m.mem f i) = false
  pt_zero : ∀ {f i}, klv f = some 0 → present (m.mem f i) = false → m.mem f i = 0
  /-- the low 4 GiB are covered -/
  slot0 : present (m.mem (frameOf m.gKernelPml4) 0) = true
  slot0_pd : ∀ i : Idx, i.val < 4 → present (m.mem (entryToKptr (m.mem (frameOf m.gKernelPml4) 0)) i) = true

structure Inv (L : Layout) (m : Machine) : Prop where
  tree : Forest.Inv shape m.mem L.own
  kern : Kern L.klv m
  apart : ∀ {f k}, L.klv f = some k → L.own f = none
  zero : used m 0 = true
  own_used : ∀ {f x}, L.own f = some x → used m f = true ∧ 0 < f ∧ f < MAX_FRAMES
  own_huge : ∀ {f r p i}, L.own f = some (r, p) → Priv (i :: p) = true → present (m.mem f i) = true →
    huge (m.mem f i) = false
  slot0 : ∀ {f r}, L.own f = some (r, []) → present (m.mem f 0) = true
  slot0_pd : ∀ {f r} {i : Idx}, L.own f = some (r, [0]) → i.val < 4 → present (m.mem f i) = true
  slot0_end : ∀ {f r} {i : Idx}, L.own f = some (r, [0]) → 4 ≤ i.val → m.mem f i = 0
  shr_pml4 : ∀ {f r i}, L.own f = some (r, []) → Priv [i] = false → present (m.mem f i) = true →
    L.klv (entryToKptr (m.mem f i)) = some 2
  shr_pd : ∀ {f r i3 i2}, L.own f = some (r, [i3, 0]) → Priv [i2, i3, 0] = false → present (m.mem f i2) = true →
    huge (m.mem f i2) = true ∧ user (m.mem f i2) = false ∨
      huge (m.mem f i2) = false ∧ L.klv (entryToKptr (m.mem f i2)) = some 0

theorem child_some {e : U64} {c : ℕ} : child e = some c ↔ present e = true ∧ entryToKptr e = c := by
  unfold child
  split_ifs with h <;> simp [h]

theorem child_none {e : U64} : child e = none ↔ present e = false := by
  unfold child
  split_ifs with h <;> simp [h]

/-- the private child of a private entry -/
theorem Inv.down {L : Layout} {m : Machine} (h : Inv L m) {f r : ℕ} {p : List Idx} {i : Idx}
    (hf : L.own f = some (r, p)) (hp : Priv (i :: p) = true) (he : present (m.mem f i) = true) :
    L.own (entryToKptr (m.mem f i)) = some (r, i :: p) :=
  h.tree.down hf hp (child_some.2 ⟨he, rfl⟩)

/-- a frame nobody uses is nobody's -/
theorem Inv.fresh {L : Layout} {m : Machine} (h : Inv L m) {f : ℕ} (hf : used m f = false) :
    L.own f = none ∧ L.klv f = none ∧ f ≠ 0 := by
  refine ⟨?_, ?_, ?_⟩
  · cases ho : L.own f with
    | none => rfl
    | some x => rw [(h.own_used ho).1] at hf; cases hf
  · cases hk : L.klv f with
    | none => rfl
    | some k => rw [(h.kern.used hk).1] at hf; cases hf
  · rintro rfl; rw [h.zero] at hf; cases hf

/-! ## Memory nobody owns -/

theorem Kern.congr {klv : ℕ → Option ℕ} {m m' : Machine} (h : Kern klv m) (hk : m'.gKernelPml4 = m.gKernelPml4)
    (hmem : ∀ f k, klv f = some k → m'.mem f = m.mem f)
    (hused : ∀ f k, klv f = some k → Vmm.used m f = true → Vmm.used m' f = true) : Kern klv m' := by
  refine ⟨by rw [hk]; exact h.root, fun hf => ?_, fun hf he => ?_, fun hf he => ?_, fun hf he => ?_, fun hf he => ?_,
    fun hf he => ?_, ?_, fun i hi => ?_⟩
  · obtain ⟨h1, h2, h3⟩ := h.used hf
    exact ⟨hused _ _ hf h1, h2, h3⟩
  · rw [hmem _ _ hf] at he ⊢; exact h.pml4 hf he
  · rw [hmem _ _ hf] at he ⊢; exact h.pdpt hf he
  · rw [hmem _ _ hf] at he ⊢; exact h.pd hf he
  · rw [hmem _ _ hf] at he ⊢; exact h.pt_user hf he
  · rw [hmem _ _ hf] at he ⊢; exact h.pt_zero hf he
  · rw [hk, hmem _ _ h.root]; exact h.slot0
  · rw [hk, hmem _ _ h.root, hmem _ _ (h.pml4 h.root h.slot0)]; exact h.slot0_pd i hi

/-- the invariant reads the tables it labels, and needs them to stay allocated -/
theorem Inv.congr {L : Layout} {m m' : Machine} (h : Inv L m) (hk : m'.gKernelPml4 = m.gKernelPml4)
    (hmem : ∀ f, L.own f ≠ none ∨ L.klv f ≠ none → m'.mem f = m.mem f)
    (hused : ∀ f, L.own f ≠ none ∨ L.klv f ≠ none ∨ f = 0 → used m f = true → used m' f = true) : Inv L m' := by
  have ho : ∀ {f x}, L.own f = some x → m'.mem f = m.mem f := fun hf => hmem _ (Or.inl (by rw [hf]; simp))
  constructor
  · refine ⟨h.tree.priv, h.tree.root, fun hc => ?_, fun hf hp hc => ?_⟩
    · obtain ⟨f, hf, hc⟩ := h.tree.up hc
      exact ⟨f, hf, by rw [ho hf]; exact hc⟩
    · rw [ho hf] at hc; exact h.tree.down hf hp hc
  · exact h.kern.congr hk (fun f k hf => hmem f (Or.inr (by rw [hf]; simp)))
      (fun f k hf => hused f (Or.inr (Or.inl (by rw [hf]; simp))))
  · exact h.apart
  · exact hused 0 (Or.inr (Or.inr rfl)) h.zero
  · intro f x hf
    obtain ⟨h1, h2, h3⟩ := h.own_used hf
    exact ⟨hused f (Or.inl (by rw [hf]; simp)) h1, h2, h3⟩
  · intro f r p i hf hp he; rw [ho hf] at he ⊢; exact h.own_huge hf hp he
  · intro f r hf; rw [ho hf]; exact h.slot0 hf
  · intro f r i hf hi; rw [ho hf]; exact h.slot0_pd hf hi
  · intro f r i hf hi; rw [ho hf]; exact h.slot0_end hf hi
  · intro f r i hf hp he; rw [ho hf] at he ⊢; exact h.shr_pml4 hf hp he
  · intro f r i3 i2 hf hp he; rw [ho hf] at he ⊢; exact h.shr_pd hf hp he

/-! ## Editing one private entry -/

section Edit

variable {L : Layout} {m : Machine} {t r c : ℕ} {p : List Idx} {i : Idx} {e : U64}

theorem store_self (m : Machine) (t : ℕ) (i : Idx) (e : U64) : (m.store t i e).mem t i = e := upd_self _ _ _ _

theorem store_of_ne {f : ℕ} {j : Idx} (h : ¬ (f = t ∧ j = i)) : (m.store t i e).mem f j = m.mem f j := upd_of_ne h

theorem store_row {f : ℕ} (h : f ≠ t) : (m.store t i e).mem f = m.mem f := by
  funext j; exact store_of_ne fun hh => h hh.1

/-- a private table is no kernel table -/
theorem Inv.klv_none (h : Inv L m) (ht : L.own t = some (r, p)) : L.klv t = none := by
  cases hk : L.klv t with
  | none => rfl
  | some k => rw [h.apart hk] at ht; cases ht

/-- the kernel tables do not see a private store -/
theorem Inv.kern_store (h : Inv L m) (ht : L.own t = some (r, p)) : Kern L.klv (m.store t i e) := by
  refine h.kern.congr rfl (fun f k hf => store_row ?_) (fun _ _ _ hu => hu)
  rintro rfl
  rw [h.klv_none ht] at hf; cases hf

/-- the clauses of `Inv` about entries that are not private do not see a private store -/
theorem store_shared (ht : L.own t = some (r, p)) (hp : Priv (i :: p) = true) {f r' : ℕ} {p' : List Idx} {j : Idx}
    (hf : L.own f = some (r', p')) (hj : Priv (j :: p') = false) : (m.store t i e).mem f j = m.mem f j := by
  apply store_of_ne
  rintro ⟨rfl, rfl⟩
  rw [ht] at hf
  cases hf
  rw [hp] at hj; cases hj

/-- an edit of one private entry keeps `Inv` if it keeps the forest, the entry is not huge, and the entries that must
be present stay present -/
theorem Inv.store {own' : ℕ → Option (ℕ × List Idx)} (h : Inv L m) (ht : L.own t = some (r, p))
    (hp : Priv (i :: p) = true) (htree : Forest.Inv shape (upd m.mem t i e) own')
    (hhuge : present e = true → huge e = false) (hpres : p.length < 2 → present (m.mem t i) = true → present e = true)
    (hown : ∀ f, own' f = L.own f ∨ own' f = none ∨
      own' f = some (r, i :: p) ∧ L.klv f = none ∧ used m f = true ∧ 0 < f ∧ f < MAX_FRAMES ∧
        (p.length < 2 → present (m.mem t i) = true → own' f = L.own f) ∧ (p.length < 3 → ∀ j, m.mem f j = 0) ∧
        f ≠ t) :
    Inv { L with own := own' } (m.store t i e) := by
  -- a label of the new layout is old, or is the new child's
  have hcases : ∀ {f r' p'}, own' f = some (r', p') → L.own f = some (r', p') ∨
      (r' = r ∧ p' = i :: p ∧ L.klv f = none ∧ used m f = true ∧ 0 < f ∧ f < MAX_FRAMES ∧
        (p.length < 2 → present (m.mem t i) = true → own' f = L.own f) ∧ (p.length < 3 → ∀ j, m.mem f j = 0) ∧
        f ≠ t) := by
    intro f r' p' hf
    rcases hown f with h1 | h1 | ⟨h1, h2⟩
    · exact Or.inl (h1 ▸ hf)
    · rw [h1] at hf; cases hf
    · rw [h1] at hf; cases hf; exact Or.inr ⟨rfl, rfl, h1 ▸ h2⟩
  -- a new child under slot 0's first two levels is impossible: those entries are always present
  have hdeep : ∀ {f r' p'}, own' f = some (r', p') → p' = [] ∨ p' = [0] ∨ (∃ i3, p' = [i3, 0]) →
      L.own f = some (r', p') := by
    intro f r' p' hf hp'
    rcases hcases hf with h1 | ⟨-, rfl, -, -, -, -, hsame, -⟩
    · exact h1
    · rcases hp' with hp' | hp' | ⟨i3, hp'⟩
      · cases hp'
      · cases hp'
        rw [← hsame (by simp) (h.slot0 ht)]; exact hf
      · cases hp'
        have hi3 : i.val < 4 := by simpa [Priv] using hp
        rw [← hsame (by simp) (h.slot0_pd ht hi3)]; exact hf
  constructor
  · exact htree
  · exact h.kern_store ht
  · intro f k hk
    cases ho : own' f with
    | none => exact ho
    | some x =>
      rcases hcases (show _ = some (x.1, x.2) from ho) with h1 | ⟨-, -, h1, -⟩
      · rw [h.apart hk] at h1; cases h1
      · have hk' : L.klv f = some k := hk
        rw [h1] at hk'; cases hk'
  · exact h.zero
  · intro f x hf
    rcases hcases (show _ = some (x.1, x.2) from hf) with h1 | ⟨-, -, -, h2, h3, h4, -⟩
    · exact h.own_used h1
    · exact ⟨h2, h3, h4⟩
  · intro f r' p' j hf hpj he
    rcases hcases hf with h1 | ⟨rfl, rfl, -, -, -, -, -, hz, hft⟩
    · by_cases hti : f = t ∧ j = i
      · obtain ⟨rfl, rfl⟩ := hti
        rw [store_self] at he ⊢; exact hhuge he
      · rw [store_of_ne hti] at he ⊢; exact h.own_huge h1 hpj he
    · rw [store_of_ne fun hh => hft hh.1] at he ⊢
      have hlen : p.length < 3 := by
        have := Priv.length_le hpj
        simp only [List.length_cons] at this; omega
      rw [hz hlen] at he; cases he
  · intro f r' hf
    have h1 := hdeep hf (Or.inl rfl)
    by_cases hti : f = t ∧ (0 : Idx) = i
    · obtain ⟨rfl, rfl⟩ := hti
      rw [ht] at h1; cases h1
      rw [store_self]; exact hpres (by simp) (h.slot0 ht)
    · rw [store_of_ne hti]; exact h.slot0 h1
  · intro f r' j hf hj
    have h1 := hdeep hf (Or.inr (Or.inl rfl))
    by_cases hti : f = t ∧ j = i
    · obtain ⟨rfl, rfl⟩ := hti
      rw [ht] at h1; cases h1
      rw [store_self]; exact hpres (by simp) (h.slot0_pd ht hj)
    · rw [store_of_ne hti]; exact h.slot0_pd h1 hj
  · intro f r' j hf hj
    have h1 := hdeep hf (Or.inr (Or.inl rfl))
    have hnp : Priv [j, 0] = false := by simp [Priv]; omega
    rw [store_shared ht hp h1 hnp]; exact h.slot0_end h1 hj
  · intro f r' j hf hpj he
    have h1 := hdeep hf (Or.inl rfl)
    rw [store_shared ht hp h1 hpj] at he ⊢; exact h.shr_pml4 h1 hpj he
  · intro f r' i3 i2 hf hpj he
    have h1 := hdeep hf (Or.inr (Or.inr ⟨i3, rfl⟩))
    rw [store_shared ht hp h1 hpj] at he ⊢; exact h.shr_pd h1 hpj he

/-- hang the unowned frame c in at an absent private entry -/
theorem Inv.link (h : Inv L m) (ht : L.own t = some (r, p)) (hp : Priv (i :: p) = true)
    (hold : present (m.mem t i) = false) (hc : L.own c = none) (hck : L.klv c = none)
    (hcu : used m c = true ∧ 0 < c ∧ c < MAX_FRAMES) (hz : p.length < 3 → ∀ j, m.mem c j = 0) (he : present e = true)
    (hek : entryToKptr e = c) (heh : huge e = false) :
    Inv { L with own := Function.update L.own c (some (r, i :: p)) } (m.store t i e) := by
  have hct : c ≠ t := by rintro rfl; rw [ht] at hc; cases hc
  refine h.store ht hp ?_ (fun _ => heh) (fun _ _ => he) fun f => ?_
  · refine h.tree.link ht hp (child_none.2 hold) hc (fun j hj => ?_) (child_some.2 ⟨he, hek⟩)
    have hlen : p.length < 3 := by
      have := Priv.length_le hj
      simp only [List.length_cons] at this; omega
    show child (m.mem c j) = none
    rw [hz hlen j]; rfl
  · by_cases hfc : f = c
    · subst hfc
      refine Or.inr (Or.inr ⟨Function.update_self .., hck, hcu.1, hcu.2.1, hcu.2.2, fun _ hpr => ?_, hz, hct⟩)
      rw [hold] at hpr; cases hpr
    · exact Or.inl (Function.update_of_ne hfc _ _)

/-- rewrite the flags of a present private entry -/
theorem Inv.relink (h : Inv L m) (ht : L.own t = some (r, p)) (hp : Priv (i :: p) = true)
    (hold : present (m.mem t i) = true) (he : present e = true) (hek : entryToKptr e = entryToKptr (m.mem t i))
    (heh : huge e = false) : Inv L (m.store t i e) := by
  refine h.store ht hp (h.tree.relink ?_) (fun _ => heh) (fun _ _ => he) fun f => Or.inl rfl
  show child e = child (m.mem t i)
  rw [child_some.2 ⟨hold, rfl⟩, child_some.2 ⟨he, hek⟩]

/-- clear a present leaf entry -/
theorem Inv.unlink (h : Inv L m) (ht : L.own t = some (r, p)) (hlen : p.length = 3) (hp : Priv (i :: p) = true)
    (hold : present (m.mem t i) = true) :
    Inv { L with own := Function.update L.own (entryToKptr (m.mem t i)) none } (m.store t i 0) := by
  refine h.store ht hp (h.tree.unlink ht (h.down ht hp hold) (fun j => priv_bottom (by simp [hlen])) rfl)
    (fun he => by cases he) (fun hl => by omega) fun f => ?_
  by_cases hfc : f = entryToKptr (m.mem t i)
  · subst hfc; exact Or.inr (Or.inl (Function.update_self ..))
  · exact Or.inl (Function.update_of_ne hfc _ _)

end Edit

end Retux.Vmm
