/-
The kernel view: the heap, the physmap and the low 4 GiB outside the private window look the same in every address
space.

`Inv` follows every private leaf to the frame it owns. `vmm::map` itself checks nothing: a caller may map any physical
address with any flags. What coherence needs survives that, because it is about tables only. Every table gets a `Zone`:
the kernel's tables for the low range, which nobody writes once address spaces exist (`Zoned.frozen`), the heap's
tables, which hang below one PDPT in every PML4 (`Zoned.root`), and the private tables of one address space. Private
edits stay in their zone, heap growth stays in the heap's, under whichever CR3.

- `Zoned.ensure`: `ensure_table` one level down stays in the zone;
- `Zoned.view`: the invariant gives the same translations;
- `kernel_view`: in every run after `heap::init`.
-/
import Mathlib.Tactic
import Retux.Lib.Run
import Retux.Mem.Boot
import Retux.Mem.Regs
import Retux.Mem.Levels

namespace Retux.Vmm

open Retux.Word Retux.Pmm Retux.Forest

/-! ## Heap growth and address spaces as a machine -/

def HEAP_START : U64 := HEAP_VIRT_BASE

/-- 4 GiB in all -/
def HEAP_MAX : U64 := HEAP_VIRT_BASE + 0xFFFFFFFF

/-- memory, the end of the heap, and the PML4 frames of the address spaces made so far -/
structure Mm where
  m : Machine
  heapEnd : U64
  spaces : List ℕ

/-- one round of `grow_heap` -/
def growPage (virt : U64) (m : Machine) (i : ℕ) : Option Machine := do
  let (phys, m) ← m.allocFrame
  if phys = 0 then none else map m (virt + BitVec.ofNat 64 i * 4096) phys KERNEL_RW

/-- `grow_heap`, up to the first block header -/
def growHeap (s : Mm) (pages : U64) : Option Mm :=
  let virt := s.heapEnd
  if HEAP_MAX < virt + pages * 4096 then none else do
    let m ← (List.range pages.toNat).foldlM (growPage virt) s.m
    return { s with m := m, heapEnd := virt + pages * 4096 }

/-- `heap::init` -/
def heapInit (m : Machine) : Option Mm := growHeap ⟨m, HEAP_START, []⟩ 256

inductive MmEvent
  | create
  /-- a CR3 switch: to the boot PML4 or to an address space -/
  | load (r : ℕ)
  | map (virt phys flags : U64)
  | unmap (virt : U64)
  | grow (pages : U64)
  /-- somebody takes a frame and fills it -/
  | alloc (g : Idx → U64)

/-- `none`: the event cannot happen here, or the kernel halts in it -/
def mmStep (s : Mm) : MmEvent → Option Mm
  | .create => (createAddressSpace s.m).map fun (a, m) => { s with m := m, spaces := frameOf a :: s.spaces }
  | .load r =>
    if r = frameOf s.m.gKernelPml4 ∨ r ∈ s.spaces then some { s with m := { s.m with cr3 := addrOf r } } else none
  | .map virt phys flags =>
    if getPml4 s.m ∈ s.spaces ∧ isPrivate virt then (map s.m virt phys flags).map fun m => { s with m := m } else none
  | .unmap virt =>
    if getPml4 s.m ∈ s.spaces ∧ isPrivate virt then (unmap s.m virt).map fun m => { s with m := m } else none
  | .grow pages => growHeap s pages
  | .alloc g => s.m.allocFrame.map fun (a, m) => { s with m := m.fill (frameOf a) g }

/-- what every address space must see alike -/
def KernelAddr (v : U64) : Prop :=
  (HEAP_START ≤ v ∧ v ≤ HEAP_MAX) ∨ (PHYSMAP_BASE.toNat ≤ v.toNat ∧ v.toNat < PHYSMAP_BASE.toNat + 2 ^ 32) ∨
    (v.toNat < 2 ^ 32 ∧ ¬ (RESERVED_LOW ≤ v ∧ v < RESERVED_HIGH))

/-! ## Zones -/

inductive Zone
  /-- the kernel's PML4, and its tables for the low 4 GiB -/
  | fixed
  /-- a table of the heap: 2 = PDPT, 0 = PT -/
  | heap (k : ℕ)
  /-- a private table, by its path -/
  | space (r : ℕ) (p : List Idx)
  deriving DecidableEq

/-- the zone of the table below an entry, for the entries that get edited -/
def below : Zone → Idx → Option Zone
  | .fixed, _ => none
  | .heap 0, _ => none
  | .heap (k + 1), _ => some (.heap k)
  | .space r p, i => if p.length < 3 ∧ Priv (i :: p) = true then some (.space r (i :: p)) else none

/-- page tables: their entries are leaves -/
def Zone.IsPt : Zone → Prop
  | .fixed => False
  | .heap k => k = 0
  | .space _ p => p.length = 3

/-- `M` is memory before the first address space, K the boot PML4, H the heap's PDPT -/
structure Zoned (M : ℕ → Idx → U64) (K H : ℕ) (z : ℕ → Option Zone) (m : Machine) : Prop where
  gk : frameOf m.gKernelPml4 = K
  used : ∀ {f Z}, z f = some Z → used m f = true ∧ f < MAX_FRAMES
  kernel : z K = some .fixed
  slot : present (M K 0) = true
  pdpt : z (entryToKptr (M K 0)) = some .fixed ∧ entryToKptr (M K 0) ≠ K
  pd : ∀ i : Idx, i.val < 4 → present (M (entryToKptr (M K 0)) i) = true ∧
    huge (M (entryToKptr (M K 0)) i) = false ∧ z (entryToKptr (M (entryToKptr (M K 0)) i)) = some .fixed ∧
    entryToKptr (M (entryToKptr (M K 0)) i) ≠ K
  frozen : ∀ {f i}, z f = some .fixed → ¬ (f = K ∧ i = HEAP_PML4_IDX) → m.mem f i = M f i
  heap : z H = some (.heap 2)
  self : ∀ {f r}, z f = some (.space r []) → f = r
  root : ∀ {f}, f = K ∨ z f = some (.space f []) → child (m.mem f HEAP_PML4_IDX) = some H
  link : ∀ {f Z i Z'}, z f = some Z → below Z i = some Z' → present (m.mem f i) = true →
    huge (m.mem f i) = false ∧ z (entryToKptr (m.mem f i)) = some Z'
  phys : ∀ {f r}, z f = some (.space r []) → m.mem f PHYSMAP_PML4_IDX = M K PHYSMAP_PML4_IDX
  slot0 : ∀ {f r}, z f = some (.space r []) → present (m.mem f 0) = true
  slot0_pd : ∀ {f r} {i : Idx}, z f = some (.space r [0]) → i.val < 4 → present (m.mem f i) = true
  borrowed : ∀ {f r} {i3 i2 : Idx}, z f = some (.space r [i3, 0]) → i3.val < 4 → Priv [i2, i3, 0] = false →
    m.mem f i2 = borrowedPd (M (entryToKptr (M (entryToKptr (M K 0)) i3))) i3 i2

/-- labels stay, new ones go to new frames -/
def Extends (z z' : ℕ → Option Zone) : Prop := ∀ {f Z}, z f = some Z → z' f = some Z

section Zoned

variable {M : ℕ → Idx → U64} {K H t c : ℕ} {z : ℕ → Option Zone} {m m' : Machine} {Z Z' : Zone} {i : Idx} {e fl : U64}

/-! ## Edits -/

theorem below_space {r : ℕ} {p : List Idx} (h : below (.space r p) i = some Z') :
    p.length < 3 ∧ Priv (i :: p) = true ∧ Z' = .space r (i :: p) := by
  simp only [below] at h
  split_ifs at h with hp
  cases h
  exact ⟨hp.1, hp.2, rfl⟩

/-- frames without a zone may be written, and more may be in use -/
theorem Zoned.congr (h : Zoned M K H z m) (hg : m'.gKernelPml4 = m.gKernelPml4)
    (hm : ∀ f Z, z f = some Z → m'.mem f = m.mem f) (hu : ∀ f, Vmm.used m f = true → Vmm.used m' f = true) :
    Zoned M K H z m' where
  gk := by rw [hg]; exact h.gk
  used := fun hf => ⟨hu _ (h.used hf).1, (h.used hf).2⟩
  kernel := h.kernel
  slot := h.slot
  pdpt := h.pdpt
  pd := h.pd
  frozen := fun hf hi => by rw [hm _ _ hf]; exact h.frozen hf hi
  heap := h.heap
  self := h.self
  root := fun hf => by
    rcases hf with rfl | hf
    · rw [hm _ _ h.kernel]; exact h.root (Or.inl rfl)
    · rw [hm _ _ hf]; exact h.root (Or.inr hf)
  link := fun hf hb hp => by rw [hm _ _ hf] at hp ⊢; exact h.link hf hb hp
  phys := fun hf => by rw [hm _ _ hf]; exact h.phys hf
  slot0 := fun hf => by rw [hm _ _ hf]; exact h.slot0 hf
  slot0_pd := fun hf hi => by rw [hm _ _ hf]; exact h.slot0_pd hf hi
  borrowed := fun hf hi hp => by rw [hm _ _ hf]; exact h.borrowed hf hi hp

/-- an editable entry gets a present link into its zone -/
theorem Zoned.store (h : Zoned M K H z m) (ht : z t = some Z) (hb : below Z i = some Z') (hp : present e = true)
    (hh : huge e = false) (hk : z (entryToKptr e) = some Z') : Zoned M K H z (m.store t i e) := by
  -- an entry whose zone has nothing editable at that index is another one
  have hother : ∀ {f Y j}, z f = some Y → below Y j = none → (m.store t i e).mem f j = m.mem f j := by
    intro f Y j hf hn
    refine store_of_ne ?_
    rintro ⟨rfl, rfl⟩
    rw [ht] at hf
    cases hf
    rw [hb] at hn
    cases hn
  have hpres : ∀ f j, present (m.mem f j) = true → present ((m.store t i e).mem f j) = true := by
    intro f j hj
    by_cases hfj : f = t ∧ j = i
    · rw [hfj.1, hfj.2, store_self]; exact hp
    · rw [store_of_ne hfj]; exact hj
  have hslot : ∀ r (j : Idx), Priv [j] = false → below (.space r []) j = none := by
    intro r j hj
    simp [below, hj]
  refine ⟨h.gk, h.used, h.kernel, h.slot, h.pdpt, h.pd, ?_, h.heap, h.self, ?_, ?_, ?_, ?_, ?_, ?_⟩
  · intro f j hf hj
    rw [hother hf rfl]
    exact h.frozen hf hj
  · rintro f (rfl | hf)
    · rw [hother h.kernel rfl]; exact h.root (Or.inl rfl)
    · rw [hother hf (hslot _ _ (by decide))]; exact h.root (Or.inr hf)
  · intro f Y j Y' hf hY hj
    by_cases hfj : f = t ∧ j = i
    · obtain ⟨rfl, rfl⟩ := hfj
      rw [ht] at hf
      cases hf
      rw [hb] at hY
      cases hY
      rw [store_self]
      exact ⟨hh, hk⟩
    · rw [store_of_ne hfj] at hj ⊢
      exact h.link hf hY hj
  · intro f r hf
    rw [hother hf (hslot _ _ (by decide))]
    exact h.phys hf
  · exact fun hf => hpres _ _ (h.slot0 hf)
  · exact fun hf hi => hpres _ _ (h.slot0_pd hf hi)
  · intro f r i3 i2 hf hi hj
    rw [hother hf (by simp [below, hj])]
    exact h.borrowed hf hi hj

/-- writing a page table -/
theorem Zoned.storeLeaf (h : Zoned M K H z m) (ht : z t = some Z) (hZ : Z.IsPt) (i : Idx) (e : U64) :
    Zoned M K H z (m.store t i e) := by
  have hrow : ∀ {f Y}, z f = some Y → ¬ Y.IsPt → (m.store t i e).mem f = m.mem f := by
    intro f Y hf hn
    refine store_row ?_
    rintro rfl
    rw [ht] at hf
    cases hf
    exact hn hZ
  have hspace : ∀ r p, List.length p < 3 → ¬ (Zone.space r p).IsPt := by
    intro r p hp hq
    have hlen : p.length = 3 := hq
    omega
  refine ⟨h.gk, h.used, h.kernel, h.slot, h.pdpt, h.pd, ?_, h.heap, h.self, ?_, ?_, ?_, ?_, ?_, ?_⟩
  · intro f j hf hj
    rw [hrow hf id]
    exact h.frozen hf hj
  · rintro f (rfl | hf)
    · rw [hrow h.kernel id]; exact h.root (Or.inl rfl)
    · rw [hrow hf (hspace _ _ (by simp))]; exact h.root (Or.inr hf)
  · intro f Y j Y' hf hY hj
    have hn : ¬ Y.IsPt := by
      intro hq
      cases Y with
      | fixed => exact hq
      | heap k =>
        have hk : k = 0 := hq
        subst hk
        cases hY
      | space r p =>
        have hp : p.length = 3 := hq
        have := (below_space hY).1
        omega
    rw [hrow hf hn] at hj ⊢
    exact h.link hf hY hj
  · intro f r hf
    rw [hrow hf (hspace _ _ (by simp))]
    exact h.phys hf
  · intro f r hf
    rw [hrow hf (hspace _ _ (by simp))]
    exact h.slot0 hf
  · intro f r j hf hj
    rw [hrow hf (hspace _ _ (by simp))]
    exact h.slot0_pd hf hj
  · intro f r i3 i2 hf hi hj
    rw [hrow hf (hspace _ _ (by simp))]
    exact h.borrowed hf hi hj

/-- widening the heap slot of a PML4: every PML4 still leads to the heap's PDPT -/
theorem Zoned.storeRoot (h : Zoned M K H z m) (ht : t = K ∨ z t = some (.space t [])) (he : child e = some H) :
    Zoned M K H z (m.store t HEAP_PML4_IDX e) := by
  have hother : ∀ {f} {j : Idx}, j ≠ HEAP_PML4_IDX → (m.store t HEAP_PML4_IDX e).mem f j = m.mem f j :=
    fun hj => store_of_ne fun hh => hj hh.2
  -- what is no PML4 is not written
  have hrow : ∀ {f Y}, z f = some Y → Y ≠ .fixed → (∀ r, Y ≠ .space r []) →
      (m.store t HEAP_PML4_IDX e).mem f = m.mem f := by
    intro f Y hf h1 h2
    refine store_row ?_
    rintro rfl
    rcases ht with rfl | ht
    · rw [h.kernel] at hf; cases hf; exact h1 rfl
    · rw [ht] at hf; cases hf; exact h2 _ rfl
  refine ⟨h.gk, h.used, h.kernel, h.slot, h.pdpt, h.pd, ?_, h.heap, h.self, ?_, ?_, ?_, ?_, ?_, ?_⟩
  · intro f j hf hj
    rw [store_of_ne]
    · exact h.frozen hf hj
    rintro ⟨rfl, rfl⟩
    rcases ht with rfl | ht
    · exact hj ⟨rfl, rfl⟩
    · rw [ht] at hf; cases hf
  · intro f hf
    by_cases hft : f = t
    · rw [hft, store_self]; exact he
    · rw [store_row hft]; exact h.root hf
  · intro f Y j Y' hf hY hj
    have hne : ¬ (f = t ∧ j = HEAP_PML4_IDX) := by
      rintro ⟨rfl, rfl⟩
      rcases ht with rfl | ht
      · rw [h.kernel] at hf; cases hf; cases hY
      · rw [ht] at hf
        cases hf
        have := (below_space hY).2.1
        revert this
        decide
    rw [store_of_ne hne] at hj ⊢
    exact h.link hf hY hj
  · intro f r hf
    rw [hother (by decide)]
    exact h.phys hf
  · intro f r hf
    rw [hother (by decide)]
    exact h.slot0 hf
  · intro f r j hf hj
    rw [hrow hf (by simp) (by simp)]
    exact h.slot0_pd hf hj
  · intro f r i3 i2 hf hi hj
    rw [hrow hf (by simp) (by simp)]
    exact h.borrowed hf hi hj

/-- an empty table in a fresh frame gets its zone -/
theorem Zoned.label (h : Zoned M K H z m) (hc : z c = none) (hu : Vmm.used m c = true) (hlt : c < MAX_FRAMES)
    (hz : ∀ j, m.mem c j = 0) (h1 : Z' ≠ .fixed) (h2 : ∀ r, Z' ≠ .space r []) (h3 : ∀ r, Z' ≠ .space r [0])
    (h4 : ∀ r i, Z' ≠ .space r [i, 0]) : Zoned M K H (Function.update z c (some Z')) m := by
  have hold : ∀ {f Y}, z f = some Y → Function.update z c (some Z') f = some Y := by
    intro f Y hf
    rw [Function.update_of_ne]
    · exact hf
    rintro rfl
    rw [hc] at hf
    cases hf
  -- a label other than the new one is an old one
  have hback : ∀ {f Y}, Function.update z c (some Z') f = some Y → Y ≠ Z' → z f = some Y := by
    intro f Y hf hne
    by_cases hfc : f = c
    · rw [hfc, Function.update_self] at hf
      cases hf
      exact absurd rfl hne
    · rwa [Function.update_of_ne hfc] at hf
  refine ⟨h.gk, ?_, hold h.kernel, h.slot, ⟨hold h.pdpt.1, h.pdpt.2⟩, ?_, ?_, hold h.heap, ?_, ?_, ?_, ?_, ?_, ?_, ?_⟩
  · intro f Y hf
    by_cases hfc : f = c
    · rw [hfc]; exact ⟨hu, hlt⟩
    · rw [Function.update_of_ne hfc] at hf; exact h.used hf
  · intro i hi
    obtain ⟨ha, hb, hd, he⟩ := h.pd i hi
    exact ⟨ha, hb, hold hd, he⟩
  · exact fun hf hj => h.frozen (hback hf (Ne.symm h1)) hj
  · exact fun hf => h.self (hback hf (Ne.symm (h2 _)))
  · rintro f (rfl | hf)
    · exact h.root (Or.inl rfl)
    · exact h.root (Or.inr (hback hf (Ne.symm (h2 _))))
  · intro f Y j Y' hf hY hj
    by_cases hfc : f = c
    · rw [hfc, hz] at hj; cases hj
    · rw [Function.update_of_ne hfc] at hf
      obtain ⟨ha, hb⟩ := h.link hf hY hj
      exact ⟨ha, hold hb⟩
  · exact fun hf => h.phys (hback hf (Ne.symm (h2 _)))
  · exact fun hf => h.slot0 (hback hf (Ne.symm (h2 _)))
  · exact fun hf hi => h.slot0_pd (hback hf (Ne.symm (h3 _))) hi
  · exact fun hf hi hj => h.borrowed (hback hf (Ne.symm (h4 _ _))) hi hj

/-- an absent entry with an editable zone leads to none of the tables `create_address_space` makes -/
theorem Zoned.absent_zone (h : Zoned M K H z m) (ht : z t = some Z) (hb : below Z i = some Z')
    (h0 : present (m.mem t i) = false) :
    Z' ≠ .fixed ∧ (∀ r, Z' ≠ .space r []) ∧ (∀ r, Z' ≠ .space r [0]) ∧ ∀ r i, Z' ≠ .space r [i, 0] := by
  cases Z with
  | fixed => cases hb
  | heap k =>
    cases k with
    | zero => cases hb
    | succ k =>
      cases hb
      exact ⟨by simp, by simp, by simp, by simp⟩
  | space r p =>
    obtain ⟨hlen, hpriv, rfl⟩ := below_space hb
    refine ⟨by simp, by simp, ?_, ?_⟩
    · rintro r' hr
      simp only [Zone.space.injEq, List.cons.injEq] at hr
      obtain ⟨rfl, rfl, rfl⟩ := hr
      rw [h.slot0 ht] at h0
      cases h0
    · rintro r' j hr
      simp only [Zone.space.injEq, List.cons.injEq] at hr
      obtain ⟨rfl, rfl, rfl⟩ := hr
      have hi : i.val < 4 := by simpa [Priv] using hpriv
      rw [h.slot0_pd ht hi] at h0
      cases h0

/-- allocating does not touch a zone -/
theorem Zoned.alloc {a : U64} (h : Zoned M K H z m) (ha : m.allocFrame = some (a, m')) (g : Idx → U64) :
    Zoned M K H z (m'.fill (frameOf a) g) ∧ z (frameOf a) = none := by
  obtain ⟨f, rfl, hlt, hfree, hm, hu, -⟩ := alloc_spec ha
  rw [frameOf_addrOf hlt]
  have hz : z f = none := by
    cases hzf : z f with
    | none => rfl
    | some Y =>
      rw [(h.used hzf).1] at hfree
      cases hfree
  refine ⟨h.congr ?_ (fun k Y hk => ?_) fun k hk => ?_, hz⟩
  · show m'.gKernelPml4 = _
    rw [hm]
  · rw [fill_mem, if_neg, hm]
    rintro rfl
    rw [hz] at hk
    cases hk
  · show Vmm.used m' k = true
    rw [hu, hk, Bool.or_true]

/-- **One level down.** `ensure_table` stays in the zone of the table it edits. -/
theorem Zoned.ensure (h : Zoned M K H z m) (ht : z t = some Z) (hb : below Z i = some Z') (hfl : Flags fl)
    (hh : huge fl = false) (he : ensureTable m t i fl = some (c, m')) :
    ∃ z', Zoned M K H z' m' ∧ z' c = some Z' ∧ Extends z z' := by
  unfold ensureTable at he
  split_ifs at he with h0
  · rw [absent_iff] at h0
    obtain ⟨⟨a, m1⟩, ha, hres⟩ := Option.map_eq_some_iff.1 he
    obtain ⟨h1, hz⟩ := h.alloc ha fun _ => 0
    obtain ⟨f, rfl, hlt, -, -, hu, -⟩ := alloc_spec ha
    rw [frameOf_addrOf hlt] at h1 hz
    simp only [frameOf_addrOf hlt] at hres
    obtain ⟨n1, n2, n3, n4⟩ := h.absent_zone ht hb h0
    have hu1 : Vmm.used (m1.fill f fun _ => 0) f = true := by
      show Vmm.used m1 f = true
      rw [hu]
      simp
    have h2 := h1.label hz hu1 hlt (fun j => by rw [fill_mem, if_pos rfl]) n1 n2 n3 n4
    have hold : Extends z (Function.update z f (some Z')) := by
      intro k Y hk
      rw [Function.update_of_ne]
      · exact hk
      rintro rfl
      rw [hz] at hk
      cases hk
    have hk : entryToKptr (addrOf f ||| fl ||| PRESENT) = f := kptr_table hlt hfl
    have hpr : present (addrOf f ||| fl ||| PRESENT) = true := present_table _
    have hhu : huge (addrOf f ||| fl ||| PRESENT) = false := huge_table hlt hh
    simp only [store_self, hk, Prod.mk.injEq] at hres
    obtain ⟨rfl, rfl⟩ := hres
    exact ⟨_, h2.store (hold ht) hb hpr hhu (by rw [hk, Function.update_self]), Function.update_self .., hold⟩
  · have h1 : present (m.mem t i) = true := by rw [absent_iff] at h0; simpa using h0
    obtain ⟨hg, hk⟩ := h.link ht hb h1
    cases he
    refine ⟨z, h.store ht hb ?_ ?_ ?_, ?_, fun hf => hf⟩
    · rw [present_widen]; exact h1
    · rw [huge_widen]; exact hg
    · rw [kptr_widen]; exact hk
    · rw [store_self, kptr_widen]; exact hk

/-- an editable PD entry is never huge -/
theorem Zoned.not_split (h : Zoned M K H z m) (ht : z t = some Z) (hb : below Z i = some Z') :
    splitIfHuge m t i = some m := by
  unfold splitIfHuge
  rw [if_neg]
  rw [isHuge_eq, Bool.and_eq_true]
  rintro ⟨hp, hg⟩
  rw [(h.link ht hb hp).1] at hg
  cases hg

/-- below a PDPT, `map_into` works in one zone -/
theorem Zoned.tail {Z2 Z1 Z0 : Zone} {i3 i2 : Idx} {pd pt : ℕ} {m1 m2 m3 : Machine} (h : Zoned M K H z m)
    (ht : z t = some Z2) (h2 : below Z2 i3 = some Z1) (h1 : below Z1 i2 = some Z0) (h0 : Z0.IsPt) (hfl : Flags fl)
    (hh : huge fl = false) (e1 : ensureTable m t i3 fl = some (pd, m1)) (hs : splitIfHuge m1 pd i2 = some m2)
    (e3 : ensureTable m2 pd i2 fl = some (pt, m3)) (i1 : Idx) (e : U64) :
    ∃ z', Zoned M K H z' (m3.store pt i1 e) ∧ Extends z z' := by
  obtain ⟨za, ha, hpd, xa⟩ := h.ensure ht h2 hfl hh e1
  rw [ha.not_split hpd h1] at hs
  cases hs
  obtain ⟨zb, hb, hpt, xb⟩ := ha.ensure hpd h1 hfl hh e3
  exact ⟨zb, hb.storeLeaf hpt h0 _ _, fun hf => xb (xa hf)⟩

/-! ## Mapping -/

/-- `map` at a private address -/
theorem Zoned.mapPrivate {r : ℕ} {v phys : U64} (h : Zoned M K H z m) (hr : z r = some (.space r []))
    (hv : isPrivate v = true) (hm : mapInto m r v phys fl = some m') : ∃ z', Zoned M K H z' m' ∧ Extends z z' := by
  obtain ⟨hfl, hh⟩ := intermediate_flags fl
  unfold mapInto at hm
  simp only [bind, Option.bind_eq_some_iff, pure, Option.some.injEq] at hm
  obtain ⟨⟨pdpt, m1⟩, e1, ⟨pd, m2⟩, e2, m3, hs, ⟨pt, m4⟩, e4, rfl⟩ := hm
  have b3 : below (.space r []) (tableIdx v 39) = some (.space r [tableIdx v 39]) :=
    if_pos ⟨by simp, priv_slot hv⟩
  have b2 : below (.space r [tableIdx v 39]) (tableIdx v 30) = some (.space r [tableIdx v 30, tableIdx v 39]) :=
    if_pos ⟨by simp, priv_pdptPath hv⟩
  have b1 : below (.space r [tableIdx v 30, tableIdx v 39]) (tableIdx v 21) = some (.space r (ptPath v)) :=
    if_pos ⟨by simp, priv_pdPath hv⟩
  obtain ⟨z1, h1, hpdpt, x1⟩ := h.ensure hr b3 hfl hh e1
  obtain ⟨z2, h2, x2⟩ := h1.tail hpdpt b2 b1 rfl hfl hh e2 hs e4 (tableIdx v 12) ((phys &&& ~~~0xFFF#64) ||| fl)
  exact ⟨z2, h2, fun hf => x2 (x1 hf)⟩

/-- `map` at a heap address, under any PML4 that has the heap's slot -/
theorem Zoned.mapHeap {v phys : U64} (h : Zoned M K H z m) (ht : t = K ∨ z t = some (.space t []))
    (hv : tableIdx v 39 = HEAP_PML4_IDX) (hm : mapInto m t v phys fl = some m') :
    ∃ z', Zoned M K H z' m' ∧ Extends z z' := by
  obtain ⟨hfl, hh⟩ := intermediate_flags fl
  unfold mapInto at hm
  simp only [bind, Option.bind_eq_some_iff, pure, Option.some.injEq] at hm
  obtain ⟨⟨pdpt, m1⟩, e1, ⟨pd, m2⟩, e2, m3, hs, ⟨pt, m4⟩, e4, rfl⟩ := hm
  obtain ⟨hp, hk⟩ := child_some.1 (h.root ht)
  rw [hv, ensureTable_present hp] at e1
  cases e1
  refine (h.storeRoot ht (child_some.2 ⟨(present_widen _ _).trans hp, (kptr_widen _ _).trans hk⟩)).tail ?_
    (show below (.heap 2) (tableIdx v 30) = some (.heap 1) from rfl)
    (show below (.heap 1) (tableIdx v 21) = some (.heap 0) from rfl) rfl hfl hh e2 hs e4 _ _
  rw [hk]
  exact h.heap

/-- `unmap` at a private address -/
theorem Zoned.unmapPrivate {r : ℕ} {v : U64} (h : Zoned M K H z m) (hr : z r = some (.space r [])) (hg : getPml4 m = r)
    (hv : isPrivate v = true) (hm : unmap m v = some m') : Zoned M K H z m' := by
  rw [unmap_eq, hg] at hm
  cases ht : toPd m.mem r v with
  | none =>
    rw [ht] at hm
    cases hm
    exact h
  | some t =>
    rw [ht] at hm
    obtain ⟨t3, hc3, hc2⟩ := toPd_some.1 ht
    obtain ⟨p4, rfl⟩ := child_some.1 hc3
    obtain ⟨p3, rfl⟩ := child_some.1 hc2
    have z3 := (h.link (i := tableIdx v 39) hr (if_pos ⟨by simp, priv_slot hv⟩) p4).2
    have z2 := (h.link (i := tableIdx v 30) z3 (if_pos ⟨by simp, priv_pdptPath hv⟩) p3).2
    have b1 : below (.space r [tableIdx v 30, tableIdx v 39]) (tableIdx v 21) = some (.space r (ptPath v)) :=
      if_pos ⟨by simp, priv_pdPath hv⟩
    have hsplit : splitIfHuge m _ (tableIdx v 21) = some m := h.not_split z2 b1
    simp only [hsplit, Option.bind_some] at hm
    split_ifs at hm with p2
    · cases hm
      exact h
    · cases hm
      exact h.storeLeaf (h.link z2 b1 (by simpa using p2)).2 rfl _ _

end Zoned

/-! ## A new address space -/

/-- the zones of the six frames of a new space -/
noncomputable def addZone (z : ℕ → Option Zone) (r t : ℕ) (d : Idx → ℕ) (f : ℕ) : Option Zone :=
  open Classical in
  if f = r then some (.space r []) else if f = t then some (.space r [0]) else
    if h : ∃ i : Idx, i.val < 4 ∧ f = d i then some (.space r [h.choose, 0]) else z f

section NewSpace

variable {M : ℕ → Idx → U64} {K H r t : ℕ} {z : ℕ → Option Zone} {m m' : Machine} {d : Idx → ℕ}

theorem addZone_t (n : NewSpace m r t d m') : addZone z r t d t = some (.space r [0]) := by
  simp [addZone, Ne.symm n.ne]

theorem addZone_d (n : NewSpace m r t d m') {i : Idx} (hi : i.val < 4) :
    addZone z r t d (d i) = some (.space r [i, 0]) := by
  have h : ∃ j : Idx, j.val < 4 ∧ d i = d j := ⟨i, hi, rfl⟩
  obtain ⟨hj, hij⟩ := h.choose_spec
  have hc : h.choose = i := (n.rounds.inj _ _ hi hj hij).symm
  obtain ⟨-, hr, ht, -⟩ := n.rounds.fresh i hi
  rw [addZone, if_neg hr, if_neg ht, dif_pos h, hc]

theorem addZone_cases {f : ℕ} {Z : Zone} (hf : addZone z r t d f = some Z) :
    (f = r ∧ Z = .space r []) ∨ (f = t ∧ Z = .space r [0]) ∨ (∃ i : Idx, i.val < 4 ∧ f = d i ∧ Z = .space r [i, 0]) ∨
      z f = some Z := by
  unfold addZone at hf
  split_ifs at hf with h1 h2 h3
  · cases hf; exact Or.inl ⟨h1, rfl⟩
  · cases hf; exact Or.inr (Or.inl ⟨h2, rfl⟩)
  · cases hf
    obtain ⟨hi, hfd⟩ := h3.choose_spec
    exact Or.inr (Or.inr (Or.inl ⟨_, hi, hfd, rfl⟩))
  · exact Or.inr (Or.inr (Or.inr hf))

/-- a frame that was free has no zone yet -/
theorem Zoned.extends_addZone (h : Zoned M K H z m) (n : NewSpace m r t d m') : Extends z (addZone z r t d) := by
  intro f Z hf
  have hu := (h.used hf).1
  have hne : ∀ g, Vmm.used m g = false → f ≠ g := by
    rintro g hg rfl
    rw [hu] at hg
    cases hg
  have hd : ¬ ∃ i : Idx, i.val < 4 ∧ f = d i := by
    rintro ⟨i, hi, hfd⟩
    exact hne _ (n.rounds.fresh i hi).1 hfd
  rw [addZone, if_neg (hne r n.free.1), if_neg (hne t n.free.2), dif_neg hd]
  exact hf

/-- what `create_address_space` reads of the kernel is what was there at first -/
theorem Zoned.lowMap (h : Zoned M K H z m) : LowMap m ∧ kernelPdpt m = entryToKptr (M K 0) ∧
    ∀ i : Idx, i.val < 4 → kernelPd m i = entryToKptr (M (entryToKptr (M K 0)) i) ∧ m.mem (kernelPd m i) = M (kernelPd m i) := by
  have h0 : m.mem K 0 = M K 0 := h.frozen h.kernel fun hh => absurd hh.2 (by decide)
  have hkp : kernelPdpt m = entryToKptr (M K 0) := by rw [kernelPdpt, h.gk, h0]
  have hrow : ∀ i, m.mem (entryToKptr (M K 0)) i = M (entryToKptr (M K 0)) i := fun i =>
    h.frozen h.pdpt.1 fun hh => h.pdpt.2 hh.1
  have hkd : ∀ i, kernelPd m i = entryToKptr (M (entryToKptr (M K 0)) i) := fun i => by rw [kernelPd, hkp, hrow]
  refine ⟨⟨?_, ?_, ?_, fun i hi => ?_, fun i hi => ?_⟩, hkp, fun i hi => ⟨hkd i, ?_⟩⟩
  · rw [h.gk]; exact (h.used h.kernel).1
  · rw [h.gk, h0]; exact h.slot
  · rw [hkp]; exact (h.used h.pdpt.1).1
  · rw [hkp, hrow]; exact (h.pd i hi).1
  · rw [hkd]; exact (h.used (h.pd i hi).2.2.1).1
  · rw [hkd]
    funext j
    exact h.frozen (h.pd i hi).2.2.1 fun hh => (h.pd i hi).2.2.2 hh.1

/-- **A new address space** gets its own zone; what it borrows is the kernel's. -/
theorem Zoned.create {a : U64} (h : Zoned M K H z m) (hc : createAddressSpace m = some (a, m')) :
    ∃ r z', a = addrOf r ∧ r < MAX_FRAMES ∧ Zoned M K H z' m' ∧ z' r = some (.space r []) ∧ Extends z z' := by
  obtain ⟨hlow, hkp, hkd⟩ := h.lowMap
  obtain ⟨r, t, d, rfl, n⟩ := create_rows hlow hc
  have w := n.rounds
  have hx : Extends z (addZone z r t d) := h.extends_addZone n
  have hold : ∀ {f Z}, z f = some Z → m'.mem f = m.mem f := fun hf => w.stage.mem (h.used hf).1
  have hlink : ∀ {c : ℕ}, c < MAX_FRAMES → present (addrOf c ||| (PRESENT ||| WRITABLE ||| USER)) = true ∧
      huge (addrOf c ||| (PRESENT ||| WRITABLE ||| USER)) = false ∧
      entryToKptr (addrOf c ||| (PRESENT ||| WRITABLE ||| USER)) = c := fun hc =>
    ⟨by rw [present_addr_or hc]; decide, by rw [huge_addr_or hc]; decide, kptr_addr_or hc (by decide)⟩
  have hself : addZone z r t d r = some (.space r []) := by simp [addZone]
  have hslots : ∀ {j : Idx}, j = HEAP_PML4_IDX ∨ j = PHYSMAP_PML4_IDX → m'.mem r j = m.mem K j := by
    intro j hj
    have hj0 : j ≠ 0 := by rcases hj with rfl | rfl <;> decide
    rw [n.pml4, if_neg hj0, if_pos hj, h.gk]
  refine ⟨r, addZone z r t d, rfl, n.lt.1, ⟨?_, ?_, hx h.kernel, h.slot, ⟨hx h.pdpt.1, h.pdpt.2⟩, ?_, ?_, hx h.heap, ?_,
    ?_, ?_, ?_, ?_, ?_, ?_⟩, hself, hx⟩
  · rw [w.stage.rest.2.1]; exact h.gk
  · intro f Z hf
    rcases addZone_cases hf with ⟨rfl, -⟩ | ⟨rfl, -⟩ | ⟨i, hi, rfl, -⟩ | hf
    · exact ⟨(w.used f).2 (Or.inr (Or.inl rfl)), n.lt.1⟩
    · exact ⟨(w.used f).2 (Or.inr (Or.inr (Or.inl rfl))), n.lt.2⟩
    · exact ⟨(w.used _).2 (Or.inr (Or.inr (Or.inr ⟨i, hi, rfl⟩))), (w.fresh i hi).2.2.2⟩
    · exact ⟨w.stage.used (h.used hf).1, (h.used hf).2⟩
  · intro i hi
    obtain ⟨h1, h2, h3, h4⟩ := h.pd i hi
    exact ⟨h1, h2, hx h3, h4⟩
  · intro f i hf hi
    rcases addZone_cases hf with ⟨-, h1⟩ | ⟨-, h1⟩ | ⟨i, -, -, h1⟩ | hf
    · cases h1
    · cases h1
    · cases h1
    · rw [hold hf]; exact h.frozen hf hi
  · intro f r' hf
    rcases addZone_cases hf with ⟨rfl, h1⟩ | ⟨-, h1⟩ | ⟨i, -, -, h1⟩ | hf
    · cases h1; rfl
    · cases h1
    · cases h1
    · exact h.self hf
  · rintro f (rfl | hf)
    · rw [hold h.kernel]; exact h.root (Or.inl rfl)
    · rcases addZone_cases hf with ⟨rfl, -⟩ | ⟨-, h1⟩ | ⟨i, -, -, h1⟩ | hf
      · rw [hslots (Or.inl rfl)]; exact h.root (Or.inl rfl)
      · cases h1
      · cases h1
      · rw [hold hf]; exact h.root (Or.inr hf)
  · intro f Z i Z' hf hb hp
    rcases addZone_cases hf with ⟨rfl, rfl⟩ | ⟨rfl, rfl⟩ | ⟨i3, hi3, rfl, rfl⟩ | hf
    · -- the PML4: slot 0 is the only private one
      obtain ⟨-, hpriv, rfl⟩ := below_space hb
      have hns : ¬ (i = HEAP_PML4_IDX ∨ i = PHYSMAP_PML4_IDX) := by
        rintro (rfl | rfl) <;> revert hpriv <;> decide
      rw [n.pml4, if_neg hns] at hp ⊢
      split_ifs at hp ⊢ with h0
      · obtain ⟨-, hh, hk⟩ := hlink n.lt.2
        rw [hk, h0]
        exact ⟨hh, addZone_t n⟩
      · cases hp
    · obtain ⟨-, hpriv, rfl⟩ := below_space hb
      rw [w.pdpt] at hp ⊢
      split_ifs at hp ⊢ with h4
      · obtain ⟨-, hh, hk⟩ := hlink (w.fresh i h4).2.2.2
        rw [hk]
        exact ⟨hh, addZone_d n h4⟩
      · cases hp
    · -- the window is empty
      obtain ⟨-, hpriv, rfl⟩ := below_space hb
      have hwin : RESERVED_LOW ≤ virt2mb i3 i ∧ virt2mb i3 i < RESERVED_HIGH := by
        rw [reserved_iff]
        simpa [Priv, and_assoc] using hpriv
      rw [w.pd i3 hi3, borrowedPd, if_neg (fun hh => hh.1 hwin)] at hp
      cases hp
    · rw [hold hf] at hp ⊢
      obtain ⟨hh, hk⟩ := h.link hf hb hp
      exact ⟨hh, hx hk⟩
  · intro f r' hf
    rcases addZone_cases hf with ⟨rfl, -⟩ | ⟨-, h1⟩ | ⟨i, -, -, h1⟩ | hf
    · rw [hslots (Or.inr rfl)]
      exact h.frozen h.kernel fun hh => absurd hh.2 (by decide)
    · cases h1
    · cases h1
    · rw [hold hf]; exact h.phys hf
  · intro f r' hf
    rcases addZone_cases hf with ⟨rfl, -⟩ | ⟨-, h1⟩ | ⟨i, -, -, h1⟩ | hf
    · rw [n.pml4, if_pos rfl]; exact (hlink n.lt.2).1
    · cases h1
    · cases h1
    · rw [hold hf]; exact h.slot0 hf
  · intro f r' i hf hi
    rcases addZone_cases hf with ⟨-, h1⟩ | ⟨rfl, -⟩ | ⟨i3, -, -, h1⟩ | hf
    · cases h1
    · rw [w.pdpt, if_pos hi]; exact (hlink (w.fresh i hi).2.2.2).1
    · cases h1
    · rw [hold hf]; exact h.slot0_pd hf hi
  · intro f r' i3 i2 hf hi hp
    rcases addZone_cases hf with ⟨-, h1⟩ | ⟨-, h1⟩ | ⟨i, -, rfl, h1⟩ | hf
    · cases h1
    · cases h1
    · cases h1
      rw [w.pd i3 hi, (hkd i3 hi).2, (hkd i3 hi).1]
    · rw [hold hf]; exact h.borrowed hf hi hp

end NewSpace

/-! ## The heap -/

/-- kernel tables are fixed, the first new PDPT is the heap's -/
def bootZone (klv : ℕ → Option ℕ) (H f : ℕ) : Option Zone :=
  if f = H then some (.heap 2) else if (klv f).isSome then some .fixed else none

theorem bootZone_cases {klv : ℕ → Option ℕ} {H f : ℕ} {Z : Zone} (h : bootZone klv H f = some Z) :
    (f = H ∧ Z = .heap 2) ∨ (f ≠ H ∧ Z = .fixed ∧ ∃ k, klv f = some k) := by
  unfold bootZone at h
  split_ifs at h with h1 h2
  · cases h; exact Or.inl ⟨h1, rfl⟩
  · cases h; exact Or.inr ⟨h1, rfl, Option.isSome_iff_exists.1 h2⟩

section Heap

variable {M : ℕ → Idx → U64} {K H c : ℕ} {z : ℕ → Option Zone} {m m' : Machine} {fl virt : U64} {klv : ℕ → Option ℕ}

/-- the first heap page makes the heap's PDPT, below the boot PML4 -/
theorem zoned_first (hk : Kern klv m) (h0 : present (m.mem (frameOf m.gKernelPml4) HEAP_PML4_IDX) = false)
    (hfl : Flags fl) (he : ensureTable m (frameOf m.gKernelPml4) HEAP_PML4_IDX fl = some (c, m')) :
    Zoned m.mem (frameOf m.gKernelPml4) c (bootZone klv c) m' := by
  unfold ensureTable at he
  rw [if_pos ((absent_iff _).2 h0)] at he
  obtain ⟨⟨a, m1⟩, ha, hres⟩ := Option.map_eq_some_iff.1 he
  obtain ⟨f, rfl, hlt, hfree, hm, hu, -⟩ := alloc_spec ha
  have hkf : entryToKptr (addrOf f ||| fl ||| PRESENT) = f := kptr_table hlt hfl
  have hpr : present (addrOf f ||| fl ||| PRESENT) = true := present_table _
  simp only [frameOf_addrOf hlt, store_self, hkf, Prod.mk.injEq] at hres
  obtain ⟨rfl, rfl⟩ := hres
  have hne : ∀ {g k}, klv g = some k → g ≠ f := by
    rintro g k hg rfl
    rw [(hk.used hg).1] at hfree
    cases hfree
  have hfix : ∀ {g k}, klv g = some k → bootZone klv f g = some .fixed := by
    intro g k hg
    rw [bootZone, if_neg (hne hg), hg]
    rfl
  have hkp := hk.pml4 hk.root hk.slot0
  have hzero : ∀ j, ((m1.fill f fun _ => 0).store (frameOf m.gKernelPml4) HEAP_PML4_IDX
      (addrOf f ||| fl ||| PRESENT)).mem f j = 0 := by
    intro j
    rw [store_row (Ne.symm (hne hk.root)), fill_mem, if_pos rfl]
  refine ⟨?_, ?_, hfix hk.root, hk.slot0, ⟨hfix hkp, ?_⟩, ?_, ?_, if_pos rfl, ?_, ?_, ?_, ?_, ?_, ?_, ?_⟩
  · show frameOf m1.gKernelPml4 = _
    rw [hm]
  · intro g Z hg
    show Vmm.used m1 g = true ∧ _
    rcases bootZone_cases hg with ⟨rfl, -⟩ | ⟨-, -, k, hgk⟩
    · exact ⟨by rw [hu]; simp, hlt⟩
    · exact ⟨by rw [hu, (hk.used hgk).1, Bool.or_true], (hk.used hgk).2.2⟩
  · intro heq
    rw [heq, hk.root] at hkp
    cases hkp
  · intro i hi
    have hpd := hk.pdpt hkp (hk.slot0_pd i hi)
    refine ⟨hk.slot0_pd i hi, hpd.1, hfix hpd.2, ?_⟩
    intro heq
    rw [heq, hk.root] at hpd
    cases hpd.2
  · intro g i hg hi
    rcases bootZone_cases hg with ⟨-, hZ⟩ | ⟨hgf, -, -⟩
    · cases hZ
    · rw [store_of_ne hi, fill_mem, if_neg hgf, hm]
  · intro g r hg
    rcases bootZone_cases hg with ⟨-, hZ⟩ | ⟨-, hZ, -⟩ <;> cases hZ
  · rintro g (rfl | hg)
    · rw [store_self]
      exact child_some.2 ⟨hpr, hkf⟩
    · rcases bootZone_cases hg with ⟨-, hZ⟩ | ⟨-, hZ, -⟩ <;> cases hZ
  · intro g Z i Z' hg hb hp
    rcases bootZone_cases hg with ⟨rfl, -⟩ | ⟨-, rfl, -⟩
    · rw [hzero] at hp; cases hp
    · cases hb
  · intro g r hg
    rcases bootZone_cases hg with ⟨-, hZ⟩ | ⟨-, hZ, -⟩ <;> cases hZ
  · intro g r hg
    rcases bootZone_cases hg with ⟨-, hZ⟩ | ⟨-, hZ, -⟩ <;> cases hZ
  · intro g r i hg
    rcases bootZone_cases hg with ⟨-, hZ⟩ | ⟨-, hZ, -⟩ <;> cases hZ
  · intro g r i3 i2 hg
    rcases bootZone_cases hg with ⟨-, hZ⟩ | ⟨-, hZ, -⟩ <;> cases hZ

/-- what one round of `grow_heap` does -/
theorem growPage_some {i : ℕ} (hg : growPage virt m i = some m') :
    ∃ a m1, m.allocFrame = some (a, m1) ∧ mapInto m1 (getPml4 m1) (virt + BitVec.ofNat 64 i * 4096) a KERNEL_RW = some m' := by
  unfold growPage at hg
  obtain ⟨⟨a, m1⟩, ha, hm⟩ := Option.bind_eq_some_iff.1 hg
  simp only at hm
  split_ifs at hm
  exact ⟨a, m1, ha, hm⟩

theorem growPage_regs {i : ℕ} (hg : growPage virt m i = some m') : Regs m m' := by
  obtain ⟨a, m1, ha, hm⟩ := growPage_some hg
  exact (allocFrame_regs ha).trans (mapInto_regs hm)

/-- a round takes a frame at least -/
theorem growPage_freeCount {i : ℕ} (hg : growPage virt m i = some m') : freeCount m'.pmm + 1 ≤ freeCount m.pmm := by
  obtain ⟨a, m1, ha, hm⟩ := growPage_some hg
  obtain ⟨-, -, -, -, -, -, hc⟩ := alloc_spec ha
  have := (mapInto_freeCount hm).1
  omega

/-- allocating, without a fill -/
theorem Zoned.alloc_only {a : U64} (h : Zoned M K H z m) (ha : m.allocFrame = some (a, m')) : Zoned M K H z m' := by
  obtain ⟨f, -, -, -, hm, hu, -⟩ := alloc_spec ha
  refine h.congr ?_ (fun k Y _ => ?_) fun k hk => ?_
  · rw [hm]
  · rw [hm]
  · rw [hu, hk, Bool.or_true]

/-- **Heap growth under any CR3.** -/
theorem Zoned.growPage {i : ℕ} (h : Zoned M K H z m) (hr : getPml4 m = K ∨ z (getPml4 m) = some (.space (getPml4 m) []))
    (hv : tableIdx (virt + BitVec.ofNat 64 i * 4096) 39 = HEAP_PML4_IDX) (hg : Vmm.growPage virt m i = some m') :
    ∃ z', Zoned M K H z' m' ∧ Extends z z' := by
  obtain ⟨a, m1, ha, hm⟩ := growPage_some hg
  have hcr3 : getPml4 m1 = getPml4 m := by rw [getPml4, (allocFrame_regs ha).1]; rfl
  rw [hcr3] at hm
  exact (h.alloc_only ha).mapHeap hr hv hm

theorem Zoned.growPages {l : List ℕ} (h : Zoned M K H z m)
    (hr : getPml4 m = K ∨ z (getPml4 m) = some (.space (getPml4 m) []))
    (hl : ∀ i ∈ l, tableIdx (virt + BitVec.ofNat 64 i * 4096) 39 = HEAP_PML4_IDX)
    (hg : l.foldlM (Vmm.growPage virt) m = some m') : ∃ z', Zoned M K H z' m' ∧ Extends z z' := by
  induction l generalizing m z with
  | nil =>
    cases hg
    exact ⟨z, h, fun hf => hf⟩
  | cons i l ih =>
    rw [List.foldlM_cons] at hg
    obtain ⟨m1, h1, h2⟩ := Option.bind_eq_some_iff.1 hg
    obtain ⟨z1, hz1, x1⟩ := h.growPage hr (hl i (List.mem_cons_self ..)) h1
    have hcr3 : getPml4 m1 = getPml4 m := by rw [getPml4, (growPage_regs h1).1]; rfl
    have hr1 : getPml4 m1 = K ∨ z1 (getPml4 m1) = some (.space (getPml4 m1) []) := by
      rw [hcr3]
      exact hr.imp id fun hz => x1 hz
    obtain ⟨z2, hz2, x2⟩ := ih hz1 hr1 (fun j hj => hl j (List.mem_cons_of_mem _ hj)) h2
    exact ⟨z2, hz2, fun hf => x2 (x1 hf)⟩

theorem growPages_freeCount {l : List ℕ} (hg : l.foldlM (growPage virt) m = some m') :
    freeCount m'.pmm + l.length ≤ freeCount m.pmm := by
  induction l generalizing m with
  | nil =>
    cases hg
    rw [List.length_nil, Nat.add_zero]
  | cons i l ih =>
    rw [List.foldlM_cons] at hg
    obtain ⟨m1, h1, h2⟩ := Option.bind_eq_some_iff.1 hg
    have c1 := growPage_freeCount h1
    have c2 := ih h2
    rw [List.length_cons]
    omega

/-- the pages of a heap that fits physical memory lie in the heap's slot, the 64-bit sums included -/
theorem heap_page {i n : ℕ} (hlo : HEAP_START.toNat ≤ virt.toNat) (hhi : virt.toNat ≤ HEAP_MAX.toNat)
    (hn : n ≤ MAX_FRAMES) (hi : i < n) : tableIdx (virt + BitVec.ofNat 64 i * 4096) 39 = HEAP_PML4_IDX := by
  have h1 : HEAP_START.toNat = 0xFFFF800000000000 := by decide
  have h2 : HEAP_MAX.toNat = 0xFFFF8000FFFFFFFF := by decide
  apply Fin.ext
  rw [HEAP_PML4_IDX_eq]
  show (virt + BitVec.ofNat 64 i * 4096).toNat / 2 ^ 39 % 512 = 256
  rw [BitVec.toNat_add, BitVec.toNat_mul, BitVec.toNat_ofNat]
  show (virt.toNat + i % 2 ^ 64 * 4096 % 2 ^ 64) % 2 ^ 64 / 2 ^ 39 % 512 = 256
  unfold MAX_FRAMES at hn
  omega

end Heap

/-! ## The same view -/

section View

variable {M : ℕ → Idx → U64} {K H r : ℕ} {z : ℕ → Option Zone} {m m' : Machine} {v : U64}

/-- two PML4s with the same child in v's slot -/
theorem translate_child {mem : ℕ → Idx → U64} (h : child (mem r (tableIdx v 39)) = child (mem K (tableIdx v 39))) :
    translate mem r v = translate mem K v := by
  have hp : present (mem r (tableIdx v 39)) = present (mem K (tableIdx v 39)) := by
    have := congrArg Option.isSome h
    unfold child at this
    cases h1 : present (mem r (tableIdx v 39)) <;> cases h2 : present (mem K (tableIdx v 39)) <;> simp_all
  unfold translate
  cases h1 : present (mem K (tableIdx v 39)) with
  | false =>
    rw [h1] at hp
    simp only [hp, h1, if_true]
  | true =>
    rw [h1] at hp
    have hk : entryToKptr (mem r (tableIdx v 39)) = entryToKptr (mem K (tableIdx v 39)) := by
      rw [child_some.2 ⟨hp, rfl⟩] at h
      exact (child_some.1 h.symm).2.symm
    simp only [hp, h1, hk]

/-- a low address outside the window is read through the copied PD entry -/
theorem Zoned.view_low (h : Zoned M K H z m) (hr : z r = some (.space r [])) (hv : v.toNat < 2 ^ 32)
    (hw : ¬ (RESERVED_LOW ≤ v ∧ v < RESERVED_HIGH)) : translate m.mem r v = translate m.mem K v := by
  obtain ⟨h4, h3, hres, hpriv⟩ := low_idx hv hw
  -- the private way down
  have p4 := h.slot0 hr
  have b3 : below (.space r []) 0 = some (.space r [0]) := by
    simp only [below]
    exact if_pos (by decide)
  have z3 := (h.link hr b3 p4).2
  have p3 := h.slot0_pd z3 h3
  have b2 : below (.space r [0]) (tableIdx v 30) = some (.space r [tableIdx v 30, 0]) :=
    if_pos ⟨by simp, by simpa [Priv] using h3⟩
  obtain ⟨g3, z2⟩ := h.link z3 b2 p3
  have e2 := h.borrowed z2 h3 hpriv
  -- the kernel's way down
  have k4 : m.mem K 0 = M K 0 := h.frozen h.kernel fun hh => absurd hh.2 (by decide)
  have k3 : m.mem (entryToKptr (M K 0)) (tableIdx v 30) = M (entryToKptr (M K 0)) (tableIdx v 30) :=
    h.frozen h.pdpt.1 fun hh => h.pdpt.2 hh.1
  obtain ⟨q3, w3, f2, n2⟩ := h.pd _ h3
  have k2 : m.mem (entryToKptr (M (entryToKptr (M K 0)) (tableIdx v 30))) =
      M (entryToKptr (M (entryToKptr (M K 0)) (tableIdx v 30))) := funext fun i => h.frozen f2 fun hh => n2 hh.1
  refine translate_borrowed (T := entryToKptr (M K 0)) (D := entryToKptr (M (entryToKptr (M K 0)) (tableIdx v 30))) h4
    hres (child_some.2 ⟨p4, rfl⟩) (child_some.2 ⟨p3, rfl⟩) g3 (by rw [k2]; exact e2) ?_ ?_ ?_ fun _ _ => rfl
  · rw [k4]; exact child_some.2 ⟨h.slot, rfl⟩
  · rw [k3]; exact child_some.2 ⟨q3, rfl⟩
  · rw [k3]; exact w3

/-- **One view.** An address space translates every kernel address as the boot PML4 does. -/
theorem Zoned.view (h : Zoned M K H z m) (hr : z r = some (.space r [])) (hv : KernelAddr v) :
    translate m.mem r v = translate m.mem K v := by
  have hk : m.mem K PHYSMAP_PML4_IDX = M K PHYSMAP_PML4_IDX := h.frozen h.kernel fun hh => absurd hh.2 (by decide)
  rcases hv with ⟨hlo, hhi⟩ | ⟨hlo, hhi⟩ | ⟨hlt, hw⟩
  · have hslot : tableIdx v 39 = HEAP_PML4_IDX := by
      have h1 : HEAP_START.toNat = 0xFFFF800000000000 := by decide
      have h2 : HEAP_MAX.toNat = 0xFFFF8000FFFFFFFF := by decide
      rw [BitVec.le_def] at hlo hhi
      apply Fin.ext
      rw [HEAP_PML4_IDX_eq]
      show v.toNat / 2 ^ 39 % 512 = 256
      omega
    refine translate_child ?_
    rw [hslot, h.root (Or.inl rfl), h.root (Or.inr hr)]
  · have hslot : tableIdx v 39 = PHYSMAP_PML4_IDX := by
      have h1 : PHYSMAP_BASE.toNat = 0xFFFFC00000000000 := by decide
      apply Fin.ext
      rw [PHYSMAP_PML4_IDX_eq]
      show v.toNat / 2 ^ 39 % 512 = 384
      omega
    refine translate_child ?_
    rw [hslot, h.phys hr, hk]
  · exact h.view_low hr hlt hw

/-! ## Runs -/

/-- the invariant of a run: zones for the tables, one for each address space; the heap within its range -/
structure MmInv (M : ℕ → Idx → U64) (K H : ℕ) (s : Mm) : Prop where
  zones : ∃ z, Zoned M K H z s.m ∧ (∀ r ∈ s.spaces, z r = some (.space r [])) ∧
    (getPml4 s.m = K ∨ getPml4 s.m ∈ s.spaces)
  low : HEAP_START.toNat ≤ s.heapEnd.toNat
  high : s.heapEnd.toNat ≤ HEAP_MAX.toNat

/-- the end of the heap after a growth that did not halt -/
theorem heapEnd_bounds {virt : U64} (pages : U64) (hlo : HEAP_START.toNat ≤ virt.toNat) (hhi : virt.toNat ≤ HEAP_MAX.toNat)
    (hp : pages.toNat ≤ MAX_FRAMES) (hmax : ¬ HEAP_MAX < virt + pages * 4096) :
    HEAP_START.toNat ≤ (virt + pages * 4096).toNat ∧ (virt + pages * 4096).toNat ≤ HEAP_MAX.toNat := by
  have h1 : HEAP_START.toNat = 0xFFFF800000000000 := by decide
  have h2 : HEAP_MAX.toNat = 0xFFFF8000FFFFFFFF := by decide
  have hsum : (virt + pages * 4096).toNat = virt.toNat + pages.toNat * 4096 := by
    rw [BitVec.toNat_add, BitVec.toNat_mul]
    show (virt.toNat + pages.toNat * 4096 % 2 ^ 64) % 2 ^ 64 = _
    unfold MAX_FRAMES at hp
    omega
  rw [BitVec.lt_def] at hmax
  omega

theorem growHeap_inv {s s' : Mm} {pages : U64} (h : MmInv M K H s) (hg : growHeap s pages = some s') : MmInv M K H s' := by
  obtain ⟨z, hz, hs, hr⟩ := h.zones
  unfold growHeap at hg
  simp only at hg
  split_ifs at hg with hmax
  obtain ⟨m1, hm, hres⟩ := Option.bind_eq_some_iff.1 hg
  cases hres
  have hcount := growPages_freeCount hm
  rw [List.length_range] at hcount
  have hle := freeCount_le s.m.pmm
  have hregs : Regs s.m m1 := Regs.foldM (fun m i m' h => growPage_regs h) hm
  have hcr3 : getPml4 m1 = getPml4 s.m := by rw [getPml4, hregs.1]; rfl
  have hact : getPml4 s.m = K ∨ z (getPml4 s.m) = some (.space (getPml4 s.m) []) := hr.imp id fun hm => hs _ hm
  obtain ⟨z', hz', hx⟩ := hz.growPages hact (fun i hi => heap_page h.low h.high (n := pages.toNat) (by omega)
    (List.mem_range.1 hi)) hm
  obtain ⟨b1, b2⟩ := heapEnd_bounds pages h.low h.high (by omega) hmax
  refine ⟨⟨z', hz', fun r hr => hx (hs r hr), ?_⟩, b1, b2⟩
  show getPml4 m1 = K ∨ getPml4 m1 ∈ s.spaces
  rw [hcr3]
  exact hr

/-- **Step.** -/
theorem mmStep_inv (s : Mm) (e : MmEvent) (s' : Mm) (h : MmInv M K H s) (hstep : mmStep s e = some s') :
    MmInv M K H s' := by
  obtain ⟨z, hz, hs, hr⟩ := h.zones
  cases e with
  | create =>
    obtain ⟨⟨a, m1⟩, hc, hres⟩ := Option.map_eq_some_iff.1 hstep
    cases hres
    obtain ⟨r, z', rfl, hlt, hz', hzr, hx⟩ := hz.create hc
    have hcr3 : getPml4 m1 = getPml4 s.m := by rw [getPml4, (createAddressSpace_regs hc).1]; rfl
    refine ⟨⟨z', hz', fun r' hr' => ?_, ?_⟩, h.low, h.high⟩
    · have hmem : r' ∈ frameOf (addrOf r) :: s.spaces := hr'
      rw [frameOf_addrOf hlt, List.mem_cons] at hmem
      rcases hmem with rfl | hr'
      · exact hzr
      · exact hx (hs r' hr')
    · show getPml4 m1 = K ∨ _
      rw [hcr3]
      exact hr.imp id fun hm => List.mem_cons_of_mem _ hm
  | load r =>
    simp only [mmStep] at hstep
    split_ifs at hstep with hc
    cases hstep
    have hlt : r < MAX_FRAMES := by
      rcases hc with hc | hc
      · rw [hc, hz.gk]; exact (hz.used hz.kernel).2
      · exact (hz.used (hs r hc)).2
    refine ⟨⟨z, hz.congr rfl (fun _ _ _ => rfl) fun _ hf => hf, hs, ?_⟩, h.low, h.high⟩
    show entryToKptr (addrOf r) = K ∨ entryToKptr (addrOf r) ∈ s.spaces
    rw [kptr_addrOf hlt]
    exact hc.imp (fun he => he.trans hz.gk) id
  | map virt phys flags =>
    simp only [mmStep] at hstep
    split_ifs at hstep with hc
    obtain ⟨m1, hm, hres⟩ := Option.map_eq_some_iff.1 hstep
    cases hres
    obtain ⟨z', hz', hx⟩ := hz.mapPrivate (hs _ hc.1) hc.2 hm
    have hcr3 : getPml4 m1 = getPml4 s.m := by rw [getPml4, (mapInto_regs hm).1]; rfl
    exact ⟨⟨z', hz', fun r hr => hx (hs r hr), by show getPml4 m1 = K ∨ _; rw [hcr3]; exact hr⟩, h.low, h.high⟩
  | unmap virt =>
    simp only [mmStep] at hstep
    split_ifs at hstep with hc
    obtain ⟨m1, hm, hres⟩ := Option.map_eq_some_iff.1 hstep
    cases hres
    have hcr3 : getPml4 m1 = getPml4 s.m := by rw [getPml4, (unmap_regs hm).1]; rfl
    exact ⟨⟨z, hz.unmapPrivate (hs _ hc.1) rfl hc.2 hm, hs, by show getPml4 m1 = K ∨ _; rw [hcr3]; exact hr⟩, h.low,
      h.high⟩
  | grow pages => exact growHeap_inv h hstep
  | alloc g =>
    obtain ⟨⟨a, m1⟩, ha, hres⟩ := Option.map_eq_some_iff.1 hstep
    cases hres
    have hcr3 : getPml4 (m1.fill (frameOf a) g) = getPml4 s.m := by
      show entryToKptr m1.cr3 = _
      rw [(allocFrame_regs ha).1]
      rfl
    exact ⟨⟨z, (hz.alloc ha g).1, hs, by show getPml4 (m1.fill (frameOf a) g) = K ∨ _; rw [hcr3]; exact hr⟩, h.low, h.high⟩

/-- `heap::init` on the boot tables starts the invariant -/
theorem heapInit_inv {s : Mm} (hb : Booted m) (hcr3 : getPml4 m = frameOf m.gKernelPml4)
    (h0 : present (m.mem (frameOf m.gKernelPml4) HEAP_PML4_IDX) = false) (hi : heapInit m = some s) :
    ∃ M H, MmInv M (frameOf m.gKernelPml4) H s := by
  obtain ⟨klv, hk⟩ := hb.kern
  unfold heapInit growHeap at hi
  simp only at hi
  split_ifs at hi with hmax
  obtain ⟨m1, hm, hres⟩ := Option.bind_eq_some_iff.1 hi
  cases hres
  have hrange : List.range (256 : U64).toNat = 0 :: (List.range 255).map Nat.succ := List.range_succ_eq_map
  rw [hrange, List.foldlM_cons] at hm
  obtain ⟨m2, hfirst, hrest⟩ := Option.bind_eq_some_iff.1 hm
  -- the first page: the heap slot is empty
  obtain ⟨a, m3, ha, hmap⟩ := growPage_some hfirst
  obtain ⟨f, -, -, -, hm3, hu, -⟩ := alloc_spec ha
  have hk3 : Kern klv m3 := by
    refine hk.congr ?_ (fun f k _ => ?_) fun f k _ hf => ?_
    · rw [hm3]
    · rw [hm3]
    · rw [hu, hf, Bool.or_true]
  have hgk : m3.gKernelPml4 = m.gKernelPml4 := (allocFrame_regs ha).2
  have hroot : getPml4 m3 = frameOf m3.gKernelPml4 := by
    rw [getPml4, (allocFrame_regs ha).1, hgk]
    exact hcr3
  have hslot : tableIdx (HEAP_START + BitVec.ofNat 64 0 * 4096) 39 = HEAP_PML4_IDX := by decide
  obtain ⟨hfl, hh⟩ := intermediate_flags KERNEL_RW
  unfold mapInto at hmap
  simp only [bind, Option.bind_eq_some_iff, pure, Option.some.injEq] at hmap
  obtain ⟨⟨pdpt, m4⟩, e1, ⟨pd, m5⟩, e2, m6, hs, ⟨pt, m7⟩, e4, rfl⟩ := hmap
  rw [hroot, hslot] at e1
  have hmem : m3.mem = m.mem := by rw [hm3]
  have hz := zoned_first hk3 (by rw [hgk, hmem]; exact h0) hfl e1
  obtain ⟨z, hz1, -⟩ := hz.tail hz.heap (show below (.heap 2) _ = some (.heap 1) from rfl)
    (show below (.heap 1) _ = some (.heap 0) from rfl) rfl hfl hh e2 hs e4 (tableIdx (HEAP_START + BitVec.ofNat 64 0 * 4096) 12)
    ((a &&& ~~~0xFFF#64) ||| KERNEL_RW)
  -- the rest of the loop
  have hact : getPml4 (m7.store pt (tableIdx (HEAP_START + BitVec.ofNat 64 0 * 4096) 12)
      ((a &&& ~~~0xFFF#64) ||| KERNEL_RW)) = frameOf m3.gKernelPml4 := by
    rw [← hroot, getPml4, (growPage_regs hfirst).1, getPml4, (allocFrame_regs ha).1]
  have hslots : ∀ i ∈ (List.range 255).map Nat.succ, tableIdx (HEAP_START + BitVec.ofNat 64 i * 4096) 39 = HEAP_PML4_IDX := by
    intro i hi
    obtain ⟨j, hj, rfl⟩ := List.mem_map.1 hi
    rw [List.mem_range] at hj
    exact heap_page le_rfl (by decide) (show 256 ≤ MAX_FRAMES by decide) (by omega)
  obtain ⟨z', hz', -⟩ := hz1.growPages (Or.inl hact) hslots hrest
  have hregs : Regs _ m1 := Regs.foldM (fun m i m' h => growPage_regs h) hrest
  obtain ⟨b1, b2⟩ := heapEnd_bounds _ le_rfl (by decide) (by decide) hmax
  refine ⟨m3.mem, pdpt, ⟨z', by rw [← hgk]; exact hz', fun r hr => by simp at hr, Or.inl ?_⟩, b1, b2⟩
  show getPml4 m1 = _
  rw [getPml4, hregs.1, ← hgk]
  exact hact

end View

/-- **The kernel view is the same everywhere.** From the boot tables, after `heap::init`, whatever address spaces are
made, whatever is mapped or unmapped at private addresses in them, and under whichever CR3 the heap grows: every heap
address, every physmap address below 4 GiB and every low address outside the window translates in each of them as in
the boot PML4. -/
theorem kernel_view (m : Machine) (s0 s : Mm) (es : List MmEvent) (hb : Booted m)
    (hcr3 : getPml4 m = frameOf m.gKernelPml4)
    (h0 : present (m.mem (frameOf m.gKernelPml4) HEAP_PML4_IDX) = false) (hi : heapInit m = some s0)
    (hrun : es.foldlM mmStep s0 = some s) (r : ℕ) (hr : r ∈ s.spaces) (v : U64) (hv : KernelAddr v) :
    translate s.m.mem r v = translate s.m.mem (frameOf s.m.gKernelPml4) v := by
  obtain ⟨M, H, hinv⟩ := heapInit_inv hb hcr3 h0 hi
  obtain ⟨z, hz, hs, -⟩ := (Run.run_inv mmStep_inv hinv hrun).zones
  rw [hz.gk]
  exact hz.view (hs r hr) hv

/-! ## A run -/

theorem growHeap_eq {s : Mm} {pages : U64} {m' : Machine} (hmax : ¬ HEAP_MAX < s.heapEnd + pages * 4096)
    (h : (List.range pages.toNat).foldlM (growPage s.heapEnd) s.m = some m') :
    growHeap s pages = some { s with m := m', heapEnd := s.heapEnd + pages * 4096 } := by
  rw [growHeap, if_neg hmax, h]
  rfl

/-- five frames for each page are enough -/
theorem growPages_isSome (virt : U64) {m : Machine} (l : List ℕ) (hz : used m 0 = true)
    (hf : 5 * l.length ≤ freeCount m.pmm) : ∃ m', l.foldlM (growPage virt) m = some m' ∧
      freeCount m.pmm ≤ freeCount m'.pmm + 5 * l.length ∧ used m' 0 = true := by
  induction l generalizing m with
  | nil => exact ⟨m, rfl, by simp, hz⟩
  | cons i l ih =>
    rw [List.length_cons] at hf ⊢
    obtain ⟨a, m1, ha⟩ := alloc_isSome (m := m) (by omega)
    obtain ⟨f, hfa, hlt, hfree, hm1, hu, hc⟩ := alloc_spec ha
    obtain ⟨m2, hm⟩ : ∃ m2, mapInto m1 (getPml4 m1) (virt + BitVec.ofNat 64 i * 4096) a KERNEL_RW = some m2 :=
      mapInto_isSome (by omega)
    have hne : a ≠ 0 := by
      intro h0
      have hf0 : f = 0 := by
        rw [← frameOf_addrOf hlt, ← hfa, h0]
        rfl
      rw [hf0, hz] at hfree
      cases hfree
    have hpage : growPage virt m i = some m2 := by
      rw [growPage, ha]
      show (if a = 0 then none else map m1 _ a KERNEL_RW) = some m2
      rw [if_neg hne]
      exact hm
    have hz2 : used m2 0 = true := mapInto_used hm (by rw [hu, hz, Bool.or_true])
    have hcost := (mapInto_freeCount hm).2
    obtain ⟨m', hm', hc', hz'⟩ := ih hz2 (by omega)
    refine ⟨m', ?_, by omega, hz'⟩
    rw [List.foldlM_cons, hpage]
    exact hm'

/-- an address space is made, and the heap grows by a page under it: its first new page is the kernel's too -/
theorem kernel_view_grow : ∃ s0 s r, heapInit bootMachine = some s0 ∧
    [.create, .load r, .grow 1].foldlM mmStep s0 = some s ∧ r ∈ s.spaces ∧
    translate s.m.mem r (HEAP_START + 0x100000) = translate s.m.mem (frameOf s.m.gKernelPml4) (HEAP_START + 0x100000) := by
  have hz : used bootMachine 0 = true := by rw [boot_used]; rfl
  have hfree := boot_free_frames
  unfold MAX_FRAMES at hfree
  obtain ⟨m1, h1, c1, z1⟩ := growPages_isSome HEAP_START (List.range 256) hz (by rw [List.length_range]; omega)
  rw [List.length_range] at c1
  have hinit : heapInit bootMachine = some ⟨m1, HEAP_START + 256 * 4096, []⟩ := by
    exact growHeap_eq (by decide) h1
  obtain ⟨a, m2, h2, c2⟩ := create_isSome (m := m1) (by omega)
  have hroot : frameOf bootMachine.gKernelPml4 = 1 := frameOf_addrOf (by decide)
  have hcr3 : getPml4 bootMachine = frameOf bootMachine.gKernelPml4 := by rw [hroot]; exact kptr_addrOf (by decide)
  have hempty : present (bootMachine.mem (frameOf bootMachine.gKernelPml4) HEAP_PML4_IDX) = false := by
    rw [hroot]
    rfl
  obtain ⟨M, H, hinv⟩ := heapInit_inv bootMachine_booted hcr3 hempty hinit
  obtain ⟨z, hzd, -⟩ := hinv.zones
  obtain ⟨r, t, d, rfl, n⟩ := create_rows hzd.lowMap.1 h2
  have z2 : used { m2 with cr3 := addrOf r } 0 = true := n.rounds.stage.used z1
  obtain ⟨m3, h3, -⟩ := growPages_isSome (HEAP_START + 256 * 4096) (m := { m2 with cr3 := addrOf r }) (List.range 1)
    z2 (by rw [List.length_range]; show 5 * 1 ≤ freeCount m2.pmm; omega)
  have hrun : [.create, .load r, .grow 1].foldlM mmStep ⟨m1, HEAP_START + 256 * 4096, []⟩ =
      some ⟨m3, HEAP_START + 256 * 4096 + 1 * 4096, [r]⟩ := by
    have e1 : mmStep ⟨m1, HEAP_START + 256 * 4096, []⟩ .create = some ⟨m2, HEAP_START + 256 * 4096, [r]⟩ := by
      simp only [mmStep, h2, Option.map_some, frameOf_addrOf n.lt.1]
    have e2 : mmStep ⟨m2, HEAP_START + 256 * 4096, [r]⟩ (.load r) =
        some ⟨{ m2 with cr3 := addrOf r }, HEAP_START + 256 * 4096, [r]⟩ := by
      simp only [mmStep, List.mem_singleton, or_true, if_true]
    have e3 : mmStep ⟨{ m2 with cr3 := addrOf r }, HEAP_START + 256 * 4096, [r]⟩ (.grow 1) =
        some ⟨m3, HEAP_START + 256 * 4096 + 1 * 4096, [r]⟩ := by
      have hmax : ¬ HEAP_MAX < HEAP_START + 256 * 4096 + 1 * 4096 := by decide
      rw [mmStep]
      exact growHeap_eq hmax h3
    rw [List.foldlM_cons, e1]
    exact (Run.run_append (Run.run_one e2) (Run.run_one e3) : [.load r, .grow 1].foldlM mmStep _ = _)
  refine ⟨_, _, r, hinit, hrun, List.mem_singleton_self r, ?_⟩
  exact kernel_view bootMachine _ _ _ bootMachine_booted hcr3 hempty hinit hrun r (List.mem_singleton_self r) _
    (Or.inl ⟨by decide, by decide⟩)

end Retux.Vmm
