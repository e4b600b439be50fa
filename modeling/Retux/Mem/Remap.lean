/-
Remapping under the boot tables (`remap_kernel`, and the device mappings of APIC, HPET and AHCI setup): every
`vmm::map(a, a, f)` with a below 4 GiB.

The identity map and the physmap hang below two PML4 slots over the same four PDs, so one edit changes both views. The
edits go through the physmap that is being edited (`mapVia`), and a huge page is split by a table that is filled through
it. `Remapped` is the invariant: the upper three levels are those of boot.asm, and each 2 MiB page is still huge or
has its own page table, whose entries are the identity with the last flags given.

- `Remapped.translate_view`: both views of a page walk to that page;
- `mapVia_remapped`: one `map` keeps the invariant;
- `remap_identity`: any finite sequence of them.
-/
import Mathlib.Tactic
import Retux.Mem.Physmap
import Retux.Mem.Boot

namespace Retux.Vmm

open Retux.Word Retux.Pmm

/-! ## The boot tables -/

/-- the frames of boot.asm's tables -/
structure Tables where
  p4 : ℕ
  p3 : ℕ
  p3Physmap : ℕ
  /-- p2_table to p2_table4 -/
  p2 : Fin 4 → ℕ

def Tables.frames (T : Tables) : List ℕ := [T.p4, T.p3, T.p3Physmap, T.p2 0, T.p2 1, T.p2 2, T.p2 3]

/-- GiB of a PDPT entry -/
def gib (i : Fin 4) : Idx := Fin.castLE (by decide) i

/-- the upper levels as `set_up_page_tables` leaves them, loaded, and not for the PMM to hand out -/
structure Upper (T : Tables) (m : Machine) : Prop where
  nodup : T.frames.Nodup
  lt : ∀ f ∈ T.frames, f < MAX_FRAMES
  used : ∀ f ∈ T.frames, used m f = true
  cr3 : getPml4 m = T.p4
  low : m.mem T.p4 0 = bootLink T.p3
  physmap : m.mem T.p4 PHYSMAP_PML4_IDX = bootLink T.p3Physmap
  pdpt : ∀ i, m.mem T.p3 (gib i) = bootLink (T.p2 i) ∧ m.mem T.p3Physmap (gib i) = bootLink (T.p2 i)

/-- what `set_up_page_tables` leaves: 2048 huge pages -/
structure AtBoot (T : Tables) (m : Machine) : Prop extends Upper T m where
  pd : ∀ i j, m.mem (T.p2 i) j = bootHuge i j

/-- what the callers pass: PRESENT plus any of WRITABLE, NO_EXECUTE, PWT, PCD -/
def RemapFlags (f : U64) : Prop :=
  ∃ w nx pwt pcd : Bool, f = PRESENT ||| (if w then WRITABLE else 0) ||| (if nx then NO_EXECUTE else 0) |||
    (if pwt then PWT else 0) ||| (if pcd then PCD else 0)

/-- the flags last given to page n by the calls `es` -/
def lastGiven (es : List (U64 × U64)) (n : ℕ) : Option U64 :=
  es.foldl (fun g x => if frameOf x.1 = n then some x.2 else g) none

/-! ## Pages and their views -/

/-- v lies in page n of the identity map, or in page n of the physmap -/
def View (v : U64) (n : ℕ) : Prop := frameOf v = n ∨ frameOf v = frameOf PHYSMAP_BASE + n

/-- GiB of a page, 2 MiB page within it, 4 KiB page within that -/
def pageGib (n : ℕ) : Fin 4 := ⟨n / 2 ^ 18 % 4, Nat.mod_lt _ (by decide)⟩
def pagePd (n : ℕ) : Idx := ⟨n / 512 % 512, Nat.mod_lt _ (by decide)⟩
def pagePt (n : ℕ) : Idx := ⟨n % 512, Nat.mod_lt _ (by decide)⟩

theorem page_ext {n k : ℕ} (hn : n < MAX_FRAMES) (hk : k < MAX_FRAMES) (hg : pageGib n = pageGib k)
    (hd : pagePd n = pagePd k) (ht : pagePt n = pagePt k) : n = k := by
  simp only [pageGib, pagePd, pagePt, Fin.mk.injEq, MAX_FRAMES] at *
  omega

theorem view_idx {v : U64} {n : ℕ} (hn : n < MAX_FRAMES) (h : View v n) :
    (tableIdx v 39 = 0 ∨ tableIdx v 39 = PHYSMAP_PML4_IDX) ∧ tableIdx v 30 = gib (pageGib n) ∧
      tableIdx v 21 = pagePd n ∧ tableIdx v 12 = pagePt n := by
  have hv := v.isLt
  have hb : frameOf PHYSMAP_BASE = 0xFFFFC00000000 := by decide
  rw [View, hb] at h
  simp only [frameOf, PAGE_SIZE, MAX_FRAMES] at h hn
  simp only [tableIdx, PHYSMAP_PML4_IDX_eq, gib, pageGib, pagePd, pagePt, Fin.ext_iff, Fin.val_castLE]
  have h384 : ((384 : Idx) : ℕ) = 384 := rfl
  have h0 : ((0 : Idx) : ℕ) = 0 := rfl
  rw [h384, h0]
  omega

/-- the 2 MiB page holding page n -/
def hugeBase (n : ℕ) : ℕ := n / 512 * 512

theorem bootHuge_eq (n : ℕ) (hn : n < MAX_FRAMES) :
    bootHuge (pageGib n) (pagePd n) = addrOf (hugeBase n) ||| (PRESENT ||| WRITABLE ||| HUGE_PAGE) := by
  have hnat : (((pageGib n).val * 512 + (pagePd n).val) * 2 ^ 21) = hugeBase n * 4096 := by
    simp only [pageGib, pagePd, hugeBase, MAX_FRAMES] at *
    omega
  rw [bootHuge, hnat]
  rfl

theorem hugeBase_lt {n : ℕ} (hn : n < MAX_FRAMES) : hugeBase n < MAX_FRAMES := by
  unfold hugeBase MAX_FRAMES at *
  omega

/-- a 2 MiB base has no bits below 21 -/
theorem hugeBase_mask {n : ℕ} (hn : n < MAX_FRAMES) :
    addrOf (hugeBase n) &&& 0x000FFFFFFFE00000 = addrOf (hugeBase n) := by
  have hmask : ∀ i : Fin 64, (0x000FFFFFFFE00000 : U64).getLsbD i = decide (21 ≤ i.val ∧ i.val < 52) := by decide
  have hlow : ∀ i, i < 21 → (addrOf (hugeBase n)).getLsbD i = false := by
    intro i hi
    have hnat : hugeBase n * 4096 = n / 512 * 2 ^ 21 := by unfold hugeBase; omega
    rw [← BitVec.testBit_toNat, addrOf_toNat (hugeBase_lt hn), hnat, Nat.testBit_mul_two_pow]
    simp [Nat.not_le.2 hi]
  apply BitVec.eq_of_getLsbD_eq
  intro i hi
  rw [BitVec.getLsbD_and, hmask ⟨i, hi⟩]
  rcases lt_or_ge i 21 with h | h
  · rw [hlow i h, Bool.false_and]
  · by_cases h52 : i < 52
    · simp [h, h52]
    · rw [bit_addrOf (hugeBase_lt hn) (by omega), Bool.false_and]

theorem and_low_toNat (v : U64) : (v &&& 0x1FFFFF).toNat = v.toNat % 2 ^ 21 ∧ (v &&& 0xFFF).toNat = v.toNat % 2 ^ 12 := by
  constructor
  · rw [BitVec.toNat_and, show (0x1FFFFF : U64).toNat = 2 ^ 21 - 1 from rfl, Nat.and_two_pow_sub_one_eq_mod]
  · rw [BitVec.toNat_and, show (0xFFF : U64).toNat = 2 ^ 12 - 1 from rfl, Nat.and_two_pow_sub_one_eq_mod]

/-- within a 2 MiB page, the big offset and the small one reach the same byte -/
theorem huge_offset {v : U64} {n : ℕ} (hn : n < MAX_FRAMES) (h : View v n) :
    addrOf (hugeBase n) + (v &&& 0x1FFFFF) = addrOf n + (v &&& 0xFFF) := by
  have hb : frameOf PHYSMAP_BASE = 0xFFFFC00000000 := by decide
  rw [View, hb] at h
  apply BitVec.eq_of_toNat_eq
  rw [BitVec.toNat_add, BitVec.toNat_add, addrOf_toNat hn, addrOf_toNat (hugeBase_lt hn), (and_low_toNat v).1,
    (and_low_toNat v).2]
  simp only [frameOf, PAGE_SIZE, hugeBase, MAX_FRAMES] at *
  omega

/-! ## Flags -/

theorem RemapFlags.spec {f : U64} (h : RemapFlags f) : Flags f ∧ present f = true ∧ f &&& USER = 0 := by
  obtain ⟨w, nx, pwt, pcd, rfl⟩ := h
  cases w <;> cases nx <;> cases pwt <;> cases pcd <;> decide

/-- PRESENT | WRITABLE until a call names the page -/
def flagsOf (G : ℕ → Option U64) (n : ℕ) : U64 := (G n).getD (PRESENT ||| WRITABLE)

/-! ## The invariant -/

/-- `pt i j` is the page table that replaced huge page j of GiB i, `G n` the flags last given to page n -/
structure Remapped (T : Tables) (pt : Fin 4 → Idx → Option ℕ) (G : ℕ → Option U64) (m : Machine) : Prop where
  upper : Upper T m
  whole : ∀ i j, pt i j = none → m.mem (T.p2 i) j = bootHuge i j
  split : ∀ i j t, pt i j = some t → m.mem (T.p2 i) j = bootLink t
  leaf : ∀ n t, n < MAX_FRAMES → pt (pageGib n) (pagePd n) = some t → m.mem t (pagePt n) = addrOf n ||| flagsOf G n
  table : ∀ i j t, pt i j = some t → t < MAX_FRAMES ∧ used m t = true ∧ t ∉ T.frames
  inj : ∀ i j i' j' t, pt i j = some t → pt i' j' = some t → i = i' ∧ j = j'
  given : ∀ n f, n < MAX_FRAMES → G n = some f → RemapFlags f ∧ pt (pageGib n) (pagePd n) ≠ none

theorem AtBoot.remapped {T : Tables} {m : Machine} (h : AtBoot T m) :
    Remapped T (fun _ _ => none) (fun _ => none) m where
  upper := h.toUpper
  whole := fun i j _ => h.pd i j
  split := fun _ _ _ h => by cases h
  leaf := fun _ _ _ h => by cases h
  table := fun _ _ _ h => by cases h
  inj := fun _ _ _ _ _ h => by cases h
  given := fun _ _ _ h => by cases h

section Invariant

variable {T : Tables} {pt : Fin 4 → Idx → Option ℕ} {G : ℕ → Option U64} {m m' : Machine} {n t : ℕ} {v f : U64}

theorem Tables.p2_mem (T : Tables) (i : Fin 4) : T.p2 i ∈ T.frames := by
  fin_cases i <;> simp [Tables.frames]

theorem Tables.p2_inj (h : T.frames.Nodup) {i j : Fin 4} (hij : T.p2 i = T.p2 j) : i = j := by
  fin_cases i <;> fin_cases j <;> simp_all [Tables.frames]

/-- a PD is none of the three tables above -/
theorem Tables.p2_upper (h : T.frames.Nodup) (i : Fin 4) : T.p2 i ≠ T.p4 ∧ T.p2 i ≠ T.p3 ∧ T.p2 i ≠ T.p3Physmap := by
  simp only [Tables.frames, List.nodup_cons, List.mem_cons, List.not_mem_nil, or_false, not_or] at h
  obtain ⟨⟨-, -, a0, a1, a2, a3⟩, ⟨-, b0, b1, b2, b3⟩, ⟨c0, c1, c2, c3⟩, -⟩ := h
  fin_cases i
  · exact ⟨Ne.symm a0, Ne.symm b0, Ne.symm c0⟩
  · exact ⟨Ne.symm a1, Ne.symm b1, Ne.symm c1⟩
  · exact ⟨Ne.symm a2, Ne.symm b2, Ne.symm c2⟩
  · exact ⟨Ne.symm a3, Ne.symm b3, Ne.symm c3⟩

theorem Upper.congr (h : Upper T m) (hm : ∀ f, f = T.p4 ∨ f = T.p3 ∨ f = T.p3Physmap → m'.mem f = m.mem f)
    (hc : m'.cr3 = m.cr3) (hu : ∀ f, Vmm.used m f = true → Vmm.used m' f = true) : Upper T m' where
  nodup := h.nodup
  lt := h.lt
  used := fun f hf => hu f (h.used f hf)
  cr3 := by rw [getPml4, hc]; exact h.cr3
  low := by rw [hm _ (Or.inl rfl)]; exact h.low
  physmap := by rw [hm _ (Or.inl rfl)]; exact h.physmap
  pdpt := fun i => by rw [hm _ (Or.inr (Or.inl rfl)), hm _ (Or.inr (Or.inr rfl))]; exact h.pdpt i

/-- a frame that is no table of either kind -/
def Apart (T : Tables) (pt : Fin 4 → Idx → Option ℕ) (t : ℕ) : Prop := t ∉ T.frames ∧ ∀ i j, pt i j ≠ some t

theorem Remapped.apart_of_free (h : Remapped T pt G m) (ht : used m t = false) : Apart T pt t := by
  constructor
  · intro hf
    rw [h.upper.used t hf] at ht
    cases ht
  · intro i j hp
    rw [(h.table i j t hp).2.1] at ht
    cases ht

/-- edits of frames that are no tables keep the invariant -/
theorem Remapped.congr (h : Remapped T pt G m) (hm : ∀ f, ¬ Apart T pt f → m'.mem f = m.mem f) (hc : m'.cr3 = m.cr3)
    (hu : ∀ f, Vmm.used m f = true → Vmm.used m' f = true) : Remapped T pt G m' := by
  have hT : ∀ f ∈ T.frames, m'.mem f = m.mem f := fun f hf => hm f fun ha => ha.1 hf
  have hpt : ∀ i j t, pt i j = some t → m'.mem t = m.mem t := fun i j t hp => hm t fun ha => ha.2 i j hp
  refine ⟨h.upper.congr ?_ hc hu, ?_, ?_, ?_, ?_, h.inj, h.given⟩
  · rintro f (rfl | rfl | rfl) <;> exact hT _ (by simp [Tables.frames])
  · intro i j hp
    rw [hT _ (T.p2_mem i)]
    exact h.whole i j hp
  · intro i j t hp
    rw [hT _ (T.p2_mem i)]
    exact h.split i j t hp
  · intro n t hn hp
    rw [hpt _ _ t hp]
    exact h.leaf n t hn hp
  · intro i j t hp
    obtain ⟨h1, h2, h3⟩ := h.table i j t hp
    exact ⟨h1, hu t h2, h3⟩

theorem Remapped.flagsOf_spec (h : Remapped T pt G m) (hn : n < MAX_FRAMES) : RemapFlags (flagsOf G n) := by
  unfold flagsOf
  cases hg : G n with
  | none => exact ⟨true, false, false, false, by decide⟩
  | some f => exact (h.given n f hn hg).1

/-- the upper walk: both views of page n reach its PD -/
theorem Remapped.walk (h : Remapped T pt G m) (hn : n < MAX_FRAMES) (hv : View v n) :
    translate m.mem T.p4 v =
      let e2 := m.mem (T.p2 (pageGib n)) (pagePd n)
      if present e2 = false then none else
      if huge e2 then some ((entryPhys e2 &&& 0x000FFFFFFFE00000) + (v &&& 0x1FFFFF), leafFlags e2) else
      let e1 := m.mem (entryToKptr e2) (pagePt n)
      if present e1 = false then none else some (entryPhys e1 + (v &&& 0xFFF), leafFlags e1) := by
  obtain ⟨h4, h3, h2, h1⟩ := view_idx hn hv
  have hlt := h.upper.lt
  obtain ⟨p3, -, k3⟩ := bootLink_spec (hlt T.p3 (by simp [Tables.frames]))
  obtain ⟨q3, -, l3⟩ := bootLink_spec (hlt T.p3Physmap (by simp [Tables.frames]))
  obtain ⟨p2, g2, k2⟩ := bootLink_spec (hlt _ (T.p2_mem (pageGib n)))
  obtain ⟨d3, d3'⟩ := h.upper.pdpt (pageGib n)
  unfold translate
  rw [h3, h2, h1]
  rcases h4 with h4 | h4
  · simp only [h4, h.upper.low, p3, k3, d3, p2, g2, k2, Bool.true_eq_false, Bool.false_eq_true, if_false]
  · simp only [h4, h.upper.physmap, q3, l3, d3', p2, g2, k2, Bool.true_eq_false, Bool.false_eq_true, if_false]

/-- **Both views.** Page n is reached at its own address and in the physmap, with the flags last given to it; while
its 2 MiB page is whole, the HUGE bit shows too. -/
theorem Remapped.translate_view (h : Remapped T pt G m) (hn : n < MAX_FRAMES) (hv : View v n) :
    translate m.mem T.p4 v = some (addrOf n + (v &&& 0xFFF),
      if pt (pageGib n) (pagePd n) = none then PRESENT ||| WRITABLE ||| HUGE_PAGE else flagsOf G n) := by
  rw [h.walk hn hv]
  cases hp : pt (pageGib n) (pagePd n) with
  | none =>
    have hfl : Flags (PRESENT ||| WRITABLE ||| HUGE_PAGE) := by decide
    have hlt := hugeBase_lt hn
    have hk : entryToKptr (addrOf (hugeBase n) ||| (PRESENT ||| WRITABLE ||| HUGE_PAGE)) = hugeBase n :=
      kptr_addr_or hlt hfl
    have hphys : entryPhys (addrOf (hugeBase n) ||| (PRESENT ||| WRITABLE ||| HUGE_PAGE)) = addrOf (hugeBase n) := by
      rw [entryPhys_eq (by rw [hk]; exact hlt), hk]
    have hpres : present (addrOf (hugeBase n) ||| (PRESENT ||| WRITABLE ||| HUGE_PAGE)) = true := by
      rw [present_addr_or hlt]; decide
    have hhuge : huge (addrOf (hugeBase n) ||| (PRESENT ||| WRITABLE ||| HUGE_PAGE)) = true := by
      rw [huge_addr_or hlt]; decide
    simp only [h.whole _ _ hp, bootHuge_eq n hn, hpres, hhuge, hphys, hugeBase_mask hn, huge_offset hn hv,
      leafFlags_addr_or hlt hfl, Bool.true_eq_false, if_false, if_true]
  | some t =>
    obtain ⟨hfl, hpf, -⟩ := (h.flagsOf_spec hn).spec
    obtain ⟨pt1, gt1, kt1⟩ := bootLink_spec (h.table _ _ t hp).1
    have hphys : entryPhys (addrOf n ||| flagsOf G n) = addrOf n := by
      rw [entryPhys_eq (by rw [kptr_addr_or hn hfl]; exact hn), kptr_addr_or hn hfl]
    have hpres : present (addrOf n ||| flagsOf G n) = true := by rw [present_addr_or hn]; exact hpf
    simp only [h.split _ _ t hp, pt1, gt1, kt1, h.leaf n t hn hp, hpres, hphys, leafFlags_addr_or hn hfl,
      Bool.true_eq_false, Bool.false_eq_true, if_false, reduceCtorEq]

theorem physmap_view {g : ℕ} (hg : g < MAX_FRAMES) : View (PHYSMAP_BASE + addrOf g) g := by
  right
  have hb : PHYSMAP_BASE.toNat = 0xFFFFC00000000000 := by decide
  rw [frameOf, frameOf, BitVec.toNat_add, addrOf_toNat hg, hb, PAGE_SIZE]
  unfold MAX_FRAMES at hg
  omega

/-- the kernel reaches every frame while the invariant holds -/
theorem Remapped.direct (h : Remapped T pt G m) : Direct m := by
  intro g hg
  have ho : (PHYSMAP_BASE + addrOf g) &&& 0xFFF = 0 := by
    apply BitVec.eq_of_toNat_eq
    have hb : PHYSMAP_BASE.toNat = 0xFFFFC00000000000 := by decide
    rw [(and_low_toNat _).2, BitVec.toNat_add, addrOf_toNat hg, hb]
    show _ = 0
    omega
  rw [reach, h.upper.cr3, h.translate_view hg (physmap_view hg), ho, Option.map_some]
  have hz : addrOf g + 0 = addrOf g := by simp
  show some (frameOf (addrOf g + 0)) = some g
  rw [hz, frameOf_addrOf hg]

/-! ## Edits -/

/-- a link of the boot tables is as wide as `ensure_table` wants it: nothing changes -/
theorem ensureTableVia_link (h : Direct m) {g : ℕ} (hg : g < MAX_FRAMES) {i : Idx} (ht : t < MAX_FRAMES)
    (he : m.mem g i = bootLink t) : ensureTableVia m g i (PRESENT ||| WRITABLE) = some (t, m) := by
  obtain ⟨hp, -, hk⟩ := bootLink_spec ht
  have hwide : bootLink t ||| ((PRESENT ||| WRITABLE) &&& (USER ||| WRITABLE)) = bootLink t := by
    rw [bootLink, BitVec.or_assoc]
    congr 1
  have habs : ¬ bootLink t &&& PRESENT = 0 := by
    rw [absent_iff, hp]
    decide
  have hstore : m.store g i (bootLink t) = m := by
    rw [← he]
    exact store_same m g i
  unfold ensureTableVia
  simp only [readVia_eq h hg, storeVia_eq h hg, he, Option.bind_eq_bind, Option.bind_some, habs, if_false, hwide, hstore,
    hk, Option.pure_def]

/-- huge page (i, j) now has page table t -/
def setPt (pt : Fin 4 → Idx → Option ℕ) (i : Fin 4) (j : Idx) (t : ℕ) : Fin 4 → Idx → Option ℕ :=
  fun i' j' => if i' = i ∧ j' = j then some t else pt i' j'

/-- the page table `split_huge_page` fills for the 2 MiB page of n -/
def splitTable (n : ℕ) (k : Idx) : U64 := addrOf (hugeBase n + k.val) ||| (PRESENT ||| WRITABLE)

/-- the entries `split_huge_page` computes from a boot entry -/
theorem splitTable_eq (hn : n < MAX_FRAMES) (k : Idx) :
    ((bootHuge (pageGib n) (pagePd n) &&& 0x000FFFFFFFE00000) + BitVec.ofNat 64 k * 0x1000) |||
      ((bootHuge (pageGib n) (pagePd n) &&& 0xFFF) &&& ~~~(HUGE_PAGE ||| BitVec.twoPow 64 12)) = splitTable n k := by
  have hbase : (addrOf (hugeBase n) ||| (PRESENT ||| WRITABLE ||| HUGE_PAGE)) &&& 0x000FFFFFFFE00000 =
      addrOf (hugeBase n) := by
    have hz : (PRESENT ||| WRITABLE ||| HUGE_PAGE) &&& 0x000FFFFFFFE00000 = 0 := by decide
    rw [BitVec.and_or_distrib_right, hugeBase_mask hn, hz]
    simp
  have hflags : ((addrOf (hugeBase n) ||| (PRESENT ||| WRITABLE ||| HUGE_PAGE)) &&& 0xFFF) &&&
      ~~~(HUGE_PAGE ||| BitVec.twoPow 64 12) = PRESENT ||| WRITABLE := by
    have hz : addrOf (hugeBase n) &&& 0xFFF = 0 := by
      apply BitVec.eq_of_toNat_eq
      rw [(and_low_toNat _).2, addrOf_toNat (hugeBase_lt hn)]
      exact Nat.mul_mod_left ..
    rw [BitVec.and_or_distrib_right, hz]
    decide
  have hk := k.isLt
  have hsum : addrOf (hugeBase n) + BitVec.ofNat 64 k * 0x1000 = addrOf (hugeBase n + k.val) := by
    have hlt : hugeBase n + k.val < MAX_FRAMES := by
      unfold hugeBase MAX_FRAMES at *
      omega
    apply BitVec.eq_of_toNat_eq
    rw [BitVec.toNat_add, BitVec.toNat_mul, BitVec.toNat_ofNat, addrOf_toNat hlt, addrOf_toNat (hugeBase_lt hn)]
    show (hugeBase n * 4096 + k.val % 2 ^ 64 * 4096 % 2 ^ 64) % 2 ^ 64 = _
    unfold MAX_FRAMES at hlt
    omega
  rw [bootHuge_eq n hn, hbase, hflags, hsum]
  rfl

/-- what a split leaves: the new table below the PD, every page as it was -/
theorem Remapped.splitStore (h : Remapped T pt G m) (hn : n < MAX_FRAMES) (hp : pt (pageGib n) (pagePd n) = none)
    (ht : t < MAX_FRAMES) (hu : used m t = true) (ha : Apart T pt t) :
    Remapped T (setPt pt (pageGib n) (pagePd n) t) G
      ((m.fill t (splitTable n)).store (T.p2 (pageGib n)) (pagePd n) (bootLink t)) := by
  set i := pageGib n
  set j := pagePd n
  set m2 := (m.fill t (splitTable n)).store (T.p2 i) j (bootLink t)
  have htp : ∀ i', t ≠ T.p2 i' := fun i' he => ha.1 (he ▸ T.p2_mem i')
  have hrow : ∀ f, f ≠ T.p2 i → f ≠ t → m2.mem f = m.mem f := by
    intro f h1 h2
    show ((m.fill t (splitTable n)).store (T.p2 i) j (bootLink t)).mem f = _
    rw [store_row h1, fill_mem, if_neg h2]
  have hnew : m2.mem t = splitTable n := by
    show ((m.fill t (splitTable n)).store (T.p2 i) j (bootLink t)).mem t = _
    rw [store_row (htp i), fill_mem, if_pos rfl]
  -- the PDs: one entry changes
  have hpd : ∀ i' j', m2.mem (T.p2 i') j' = if i' = i ∧ j' = j then bootLink t else m.mem (T.p2 i') j' := by
    intro i' j'
    by_cases hij : i' = i ∧ j' = j
    · rw [if_pos hij, hij.1, hij.2]
      exact store_self _ _ _ _
    · rw [if_neg hij]
      have hne : ¬ (T.p2 i' = T.p2 i ∧ j' = j) := fun hh => hij ⟨T.p2_inj h.upper.nodup hh.1, hh.2⟩
      show ((m.fill t (splitTable n)).store (T.p2 i) j (bootLink t)).mem _ _ = _
      rw [store_of_ne hne, fill_mem, if_neg (Ne.symm (htp i'))]
  refine ⟨h.upper.congr ?_ rfl fun _ hf => hf, ?_, ?_, ?_, ?_, ?_, ?_⟩
  · intro f hf
    obtain ⟨h4, h3, hm⟩ := T.p2_upper h.upper.nodup i
    refine hrow f ?_ ?_
    · rcases hf with rfl | rfl | rfl
      · exact Ne.symm h4
      · exact Ne.symm h3
      · exact Ne.symm hm
    · rintro rfl
      exact ha.1 (by rcases hf with hf | hf | hf <;> rw [hf] <;> simp [Tables.frames])
  · intro i' j' hpt
    unfold setPt at hpt
    split_ifs at hpt with hij
    rw [hpd, if_neg hij]
    exact h.whole i' j' hpt
  · intro i' j' t' hpt
    unfold setPt at hpt
    rw [hpd]
    split_ifs at hpt ⊢ with hij
    · cases hpt; rfl
    · exact h.split i' j' t' hpt
  · intro n' t' hn' hpt
    unfold setPt at hpt
    split_ifs at hpt with hij
    · cases hpt
      -- no page of the huge page had been named
      have hG : G n' = none := by
        cases hg : G n' with
        | none => rfl
        | some f =>
          have := (h.given n' f hn' hg).2
          rw [hij.1, hij.2] at this
          exact absurd hp this
      have hsum : hugeBase n + (pagePt n').val = n' := by
        have h1 : (pageGib n').val = (pageGib n).val := congrArg Fin.val hij.1
        have h2 : (pagePd n').val = (pagePd n).val := congrArg Fin.val hij.2
        simp only [pageGib, pagePd, pagePt, hugeBase, MAX_FRAMES] at *
        omega
      rw [hnew, splitTable, hsum, flagsOf, hG]
      rfl
    · obtain ⟨-, -, hT⟩ := h.table _ _ t' hpt
      have h1 : t' ≠ T.p2 i := fun he => hT (he ▸ T.p2_mem i)
      have h2 : t' ≠ t := by
        rintro rfl
        exact ha.2 _ _ hpt
      rw [hrow t' h1 h2]
      exact h.leaf n' t' hn' hpt
  · intro i' j' t' hpt
    unfold setPt at hpt
    split_ifs at hpt with hij
    · cases hpt
      exact ⟨ht, hu, ha.1⟩
    · exact h.table i' j' t' hpt
  · intro i1 j1 i2 j2 t' h1 h2
    unfold setPt at h1 h2
    split_ifs at h1 h2 with hij1 hij2 hij2
    · exact ⟨hij1.1.trans hij2.1.symm, hij1.2.trans hij2.2.symm⟩
    · cases h1
      exact absurd h2 (ha.2 _ _)
    · cases h2
      exact absurd h1 (ha.2 _ _)
    · exact h.inj i1 j1 i2 j2 t' h1 h2
  · intro n' f hn' hg
    obtain ⟨hfl, hne⟩ := h.given n' f hn' hg
    refine ⟨hfl, ?_⟩
    unfold setPt
    split_ifs
    · exact Option.some_ne_none t
    · exact hne

/-- `split_huge_page` through the physmap: the table is filled through the map that is being edited -/
theorem splitVia_remapped (h : Remapped T pt G m) (hn : n < MAX_FRAMES) (hp : pt (pageGib n) (pagePd n) = none) :
    (0 < freeCount m.pmm → ∃ m', splitHugePageVia m (T.p2 (pageGib n)) (pagePd n) = some m') ∧
    ∀ m', splitHugePageVia m (T.p2 (pageGib n)) (pagePd n) = some m' → freeCount m.pmm = freeCount m'.pmm + 1 ∧
      ∃ t, Remapped T (setPt pt (pageGib n) (pagePd n) t) G m' := by
  have hlt := h.upper.lt _ (T.p2_mem (pageGib n))
  have hrun : ∀ a m1, m.allocFrame = some (a, m1) → ∃ t m',
      splitHugePageVia m (T.p2 (pageGib n)) (pagePd n) = some m' ∧ freeCount m.pmm = freeCount m'.pmm + 1 ∧
      Remapped T (setPt pt (pageGib n) (pagePd n) t) G m' := by
    intro a m1 hal
    obtain ⟨t, rfl, ht, hfree, hm1, hused, hcount⟩ := alloc_spec hal
    have hap := h.apart_of_free hfree
    have h1 : Remapped T pt G m1 := by
      refine h.congr (fun f _ => ?_) ?_ fun f hf => ?_
      · rw [hm1]
      · rw [hm1]
      · rw [hused, hf, Bool.or_true]
    -- the stores of the fill loop hit a frame that is no table yet
    have hkeep : ∀ m i e, Remapped T pt G m → Remapped T pt G (m.store t i e) := by
      intro m i e hm
      refine hm.congr (fun f hf => store_row ?_) rfl fun _ hf => hf
      rintro rfl
      exact hf hap
    have h2 : Remapped T pt G (m1.fill t (splitTable n)) := by
      refine h1.congr (fun f hf => ?_) rfl fun _ hf => hf
      rw [fill_mem, if_neg]
      rintro rfl
      exact hf hap
    have hu : used m1 t = true := by rw [hused]; simp
    refine ⟨t, _, ?_, ?_, h1.splitStore hn hp ht hu hap⟩
    · have hlink : addrOf t ||| PRESENT ||| WRITABLE = bootLink t := BitVec.or_assoc ..
      unfold splitHugePageVia
      simp only [readVia_eq h.direct hlt, h.whole _ _ hp, splitTable_eq hn, hal, Option.bind_eq_bind, Option.bind_some,
        frameOf_addrOf ht, fillVia_eq (fun _ hm => hm.direct) hkeep ht h1, storeVia_eq h2.direct hlt, hlink]
    · exact hcount
  constructor
  · intro hf
    obtain ⟨a, m1, hal⟩ := alloc_isSome hf
    obtain ⟨t, m', hs, -⟩ := hrun a m1 hal
    exact ⟨m', hs⟩
  · intro m' hs
    cases hal : m.allocFrame with
    | none =>
      unfold splitHugePageVia at hs
      simp only [readVia_eq h.direct hlt, hal, Option.bind_eq_bind, Option.bind_some, Option.bind_none,
        reduceCtorEq] at hs
    | some r =>
      obtain ⟨t, m2, hs2, hc, hr⟩ := hrun r.1 r.2 hal
      rw [hs] at hs2
      cases hs2
      exact ⟨hc, t, hr⟩

/-- the last store of `map_into` -/
theorem Remapped.leafStore (h : Remapped T pt G m) (hn : n < MAX_FRAMES)
    (hp : pt (pageGib n) (pagePd n) = some t) (hf : RemapFlags f) :
    Remapped T pt (Function.update G n (some f)) (m.store t (pagePt n) (addrOf n ||| f)) := by
  obtain ⟨-, -, hT⟩ := h.table _ _ t hp
  have hT' : ∀ g ∈ T.frames, (m.store t (pagePt n) (addrOf n ||| f)).mem g = m.mem g := by
    intro g hg
    refine store_row ?_
    rintro rfl
    exact hT hg
  refine ⟨h.upper.congr ?_ rfl fun _ hf => hf, ?_, ?_, ?_, h.table, h.inj, ?_⟩
  · rintro g (rfl | rfl | rfl) <;> exact hT' _ (by simp [Tables.frames])
  · intro i j hpt
    rw [hT' _ (T.p2_mem i)]
    exact h.whole i j hpt
  · intro i j t' hpt
    rw [hT' _ (T.p2_mem i)]
    exact h.split i j t' hpt
  · intro n' t' hn' hpt
    by_cases hnn : n' = n
    · rw [hnn] at hpt ⊢
      rw [hp] at hpt
      cases hpt
      rw [store_self, flagsOf, Function.update_self]
      rfl
    · have hne : ¬ (t' = t ∧ pagePt n' = pagePt n) := by
        rintro ⟨rfl, hpg⟩
        obtain ⟨h1, h2⟩ := h.inj _ _ _ _ _ hpt hp
        exact hnn (page_ext hn' hn h1 h2 hpg)
      have hfl : flagsOf (Function.update G n (some f)) n' = flagsOf G n' := by
        rw [flagsOf, Function.update_of_ne hnn]
        rfl
      rw [store_of_ne hne, hfl]
      exact h.leaf n' t' hn' hpt
  · intro n' f' hn' hg
    by_cases hnn : n' = n
    · rw [hnn, Function.update_self] at hg
      cases hg
      rw [hnn, hp]
      exact ⟨hf, Option.some_ne_none t⟩
    · rw [Function.update_of_ne hnn] at hg
      exact h.given n' f' hn' hg

/-! ## Calls -/

theorem frameOf_lt {a : U64} (ha : a.toNat < 2 ^ 32) : frameOf a < MAX_FRAMES := by
  unfold frameOf PAGE_SIZE MAX_FRAMES
  omega

/-- the upper levels are there: `map_into` starts its work at the PD -/
theorem mapVia_upper {a : U64} (h : Remapped T pt G m) (ha : a.toNat < 2 ^ 32) (hf : RemapFlags f) :
    mapVia m a a f = (do
      let m ← if isHuge (m.mem (T.p2 (pageGib (frameOf a))) (pagePd (frameOf a)))
        then splitHugePageVia m (T.p2 (pageGib (frameOf a))) (pagePd (frameOf a)) else some m
      let (pt, m) ← ensureTableVia m (T.p2 (pageGib (frameOf a))) (pagePd (frameOf a)) (PRESENT ||| WRITABLE)
      storeVia m pt (pagePt (frameOf a)) (addrOf (frameOf a) ||| f)) := by
  have hn := frameOf_lt ha
  obtain ⟨-, h3, h2, h1⟩ := view_idx hn (Or.inl rfl)
  have h4 : tableIdx a 39 = 0 := by
    apply Fin.ext
    show a.toNat / 2 ^ 39 % 512 = 0
    omega
  have hphys : a &&& ~~~0xFFF#64 = addrOf (frameOf a) := by
    apply BitVec.eq_of_toNat_eq
    rw [and_not_page, addrOf_toNat hn]
    rfl
  have hlt := h.upper.lt
  have l4 := hlt T.p4 (by simp [Tables.frames])
  have l3 := hlt T.p3 (by simp [Tables.frames])
  have l2 := hlt _ (T.p2_mem (pageGib (frameOf a)))
  have e4 := ensureTableVia_link h.direct l4 l3 h.upper.low
  have e3 := ensureTableVia_link h.direct l3 l2 (h.upper.pdpt (pageGib (frameOf a))).1
  unfold mapVia mapIntoVia
  simp only [h.upper.cr3, h4, h3, h2, h1, hf.spec.2.2, hphys, e4, e3, readVia_eq h.direct l2, ne_eq, not_true_eq_false,
    if_false, Option.bind_eq_bind, Option.bind_some]

/-- a page whose 2 MiB page is split already -/
theorem mapVia_split {a : U64} (h : Remapped T pt G m) (ha : a.toNat < 2 ^ 32) (hf : RemapFlags f)
    (hp : pt (pageGib (frameOf a)) (pagePd (frameOf a)) = some t) :
    mapVia m a a f = some (m.store t (pagePt (frameOf a)) (addrOf (frameOf a) ||| f)) := by
  obtain ⟨ht, -, -⟩ := h.table _ _ t hp
  have he := h.split _ _ t hp
  have hnh : isHuge (bootLink t) = false := by
    rw [isHuge_eq, (bootLink_spec ht).2.1, Bool.and_false]
  rw [mapVia_upper h ha hf, he, hnh]
  simp only [Bool.false_eq_true, if_false, Option.bind_eq_bind, Option.bind_some,
    ensureTableVia_link h.direct (h.upper.lt _ (T.p2_mem _)) ht he, storeVia_eq h.direct ht]

/-- a page whose 2 MiB page is whole: split it, then as above -/
theorem mapVia_whole {a : U64} (h : Remapped T pt G m) (ha : a.toNat < 2 ^ 32) (hf : RemapFlags f)
    (hp : pt (pageGib (frameOf a)) (pagePd (frameOf a)) = none) :
    mapVia m a a f =
      (splitHugePageVia m (T.p2 (pageGib (frameOf a))) (pagePd (frameOf a))).bind fun m1 => mapVia m1 a a f := by
  have hh : isHuge (bootHuge (pageGib (frameOf a)) (pagePd (frameOf a))) = true := by
    have hlt := hugeBase_lt (frameOf_lt ha)
    rw [isHuge_eq, bootHuge_eq _ (frameOf_lt ha), present_addr_or hlt, huge_addr_or hlt]
    decide
  rw [mapVia_upper h ha hf, h.whole _ _ hp, hh]
  simp only [if_true, Option.bind_eq_bind]
  cases hs : splitHugePageVia m (T.p2 (pageGib (frameOf a))) (pagePd (frameOf a)) with
  | none => rw [Option.bind_none, Option.bind_none]
  | some m1 =>
    obtain ⟨-, t, h1⟩ := (splitVia_remapped h (frameOf_lt ha) hp).2 m1 hs
    have hp1 : setPt pt (pageGib (frameOf a)) (pagePd (frameOf a)) t (pageGib (frameOf a)) (pagePd (frameOf a)) =
        some t := if_pos ⟨rfl, rfl⟩
    obtain ⟨ht, -, -⟩ := h1.table _ _ t hp1
    rw [Option.bind_some, Option.bind_some, mapVia_split h1 ha hf hp1,
      ensureTableVia_link h1.direct (h1.upper.lt _ (T.p2_mem _)) ht (h1.split _ _ t hp1), Option.bind_some]
    exact storeVia_eq h1.direct ht _ _

/-- **Step.** `map(a, a, f)` keeps the invariant, and takes one frame at most. -/
theorem mapVia_remapped {a : U64} (h : Remapped T pt G m) (ha : a.toNat < 2 ^ 32) (hf : RemapFlags f) :
    (0 < freeCount m.pmm → ∃ m', mapVia m a a f = some m') ∧
    ∀ m', mapVia m a a f = some m' → freeCount m.pmm ≤ freeCount m'.pmm + 1 ∧
      ∃ pt', Remapped T pt' (Function.update G (frameOf a) (some f)) m' := by
  have hn := frameOf_lt ha
  cases hp : pt (pageGib (frameOf a)) (pagePd (frameOf a)) with
  | some t =>
    rw [mapVia_split h ha hf hp]
    refine ⟨fun _ => ⟨_, rfl⟩, ?_⟩
    rintro m' ⟨⟩
    exact ⟨Nat.le_succ _, pt, h.leafStore hn hp hf⟩
  | none =>
    obtain ⟨hsome, hspec⟩ := splitVia_remapped h hn hp
    have hp1 : ∀ t, setPt pt (pageGib (frameOf a)) (pagePd (frameOf a)) t (pageGib (frameOf a)) (pagePd (frameOf a)) =
        some t := fun t => if_pos ⟨rfl, rfl⟩
    rw [mapVia_whole h ha hf hp]
    constructor
    · intro hfree
      obtain ⟨m1, hs⟩ := hsome hfree
      obtain ⟨-, t, h1⟩ := hspec m1 hs
      rw [hs, Option.bind_some, mapVia_split h1 ha hf (hp1 t)]
      exact ⟨_, rfl⟩
    · intro m' hm
      obtain ⟨m1, hs, hm1⟩ := Option.bind_eq_some_iff.1 hm
      obtain ⟨hcount, t, h1⟩ := hspec m1 hs
      rw [mapVia_split h1 ha hf (hp1 t)] at hm1
      cases hm1
      exact ⟨hcount.le, _, h1.leafStore hn (hp1 t) hf⟩

/-! ## Sequences of calls -/

/-- `vmm::map(a, a, f)` for each pair in turn -/
def remap (es : List (U64 × U64)) (m : Machine) : Option Machine := es.foldlM (fun m x => mapVia m x.1 x.1 x.2) m

/-- the flags of the pages after the calls -/
def given (G : ℕ → Option U64) (es : List (U64 × U64)) : ℕ → Option U64 :=
  es.foldl (fun G x => Function.update G (frameOf x.1) (some x.2)) G

theorem given_apply (G : ℕ → Option U64) (es : List (U64 × U64)) (n : ℕ) :
    given G es n = es.foldl (fun g x => if frameOf x.1 = n then some x.2 else g) (G n) := by
  induction es generalizing G with
  | nil => rfl
  | cons x es ih =>
    rw [given, List.foldl_cons, List.foldl_cons]
    show given _ es n = _
    rw [ih, Function.update_apply]
    simp only [eq_comm]

/-- **Run.** Any finite sequence keeps the invariant; one frame for each call is enough. -/
theorem remap_remapped (h : Remapped T pt G m) {es : List (U64 × U64)}
    (he : ∀ x ∈ es, x.1.toNat < 2 ^ 32 ∧ RemapFlags x.2) :
    (es.length ≤ freeCount m.pmm → ∃ m', remap es m = some m') ∧
    ∀ m', remap es m = some m' → ∃ pt', Remapped T pt' (given G es) m' := by
  induction es generalizing m pt G with
  | nil =>
    refine ⟨fun _ => ⟨m, rfl⟩, ?_⟩
    rintro m' ⟨⟩
    exact ⟨pt, h⟩
  | cons x es ih =>
    obtain ⟨ha, hf⟩ := he x (List.mem_cons_self ..)
    have hrest : ∀ y ∈ es, y.1.toNat < 2 ^ 32 ∧ RemapFlags y.2 := fun y hy => he y (List.mem_cons_of_mem _ hy)
    obtain ⟨hsome, hspec⟩ := mapVia_remapped h ha hf
    constructor
    · intro hlen
      rw [List.length_cons] at hlen
      obtain ⟨m1, hm1⟩ := hsome (by omega)
      obtain ⟨hcount, pt1, h1⟩ := hspec m1 hm1
      obtain ⟨m', hm'⟩ := (ih h1 hrest).1 (by omega)
      refine ⟨m', ?_⟩
      rw [remap, List.foldlM_cons, hm1]
      exact hm'
    · intro m' hm
      rw [remap, List.foldlM_cons] at hm
      obtain ⟨m1, hm1, hm'⟩ := Option.bind_eq_some_iff.1 hm
      obtain ⟨-, pt1, h1⟩ := hspec m1 hm1
      exact (ih h1 hrest).2 m' hm'

theorem page_offset {p : U64} (hn : frameOf p < MAX_FRAMES) : addrOf (frameOf p) + (p &&& 0xFFF) = p := by
  apply BitVec.eq_of_toNat_eq
  rw [BitVec.toNat_add, addrOf_toNat hn, (and_low_toNat p).2, frameOf, PAGE_SIZE]
  omega

/-- the identity map -/
theorem Remapped.identity (h : Remapped T pt G m) {p : U64} (hp : p.toNat < 2 ^ 32) :
    ∃ fl, translate m.mem T.p4 p = some (p, fl) := by
  have hn := frameOf_lt hp
  have hlow := h.translate_view hn (v := p) (Or.inl rfl)
  rw [page_offset hn] at hlow
  exact ⟨_, hlow⟩

end Invariant

/-- **Both maps survive.** From the tables of boot.asm, whatever sequence of `map(a, a, f)` boot code issues: with a
frame for each call the sequence completes, and after it every physical address below 4 GiB is reached at itself and in
the physmap, with the flags last given to its page in both views, or present, writable and supervisor if none were. -/
theorem remap_identity (T : Tables) (m : Machine) (es : List (U64 × U64)) (hb : AtBoot T m)
    (he : ∀ x ∈ es, x.1.toNat < 2 ^ 32 ∧ RemapFlags x.2) :
    (es.length ≤ freeCount m.pmm → ∃ m', remap es m = some m') ∧
    ∀ m', remap es m = some m' → getPml4 m' = T.p4 ∧ ∀ p : U64, p.toNat < 2 ^ 32 → ∃ fl,
      translate m'.mem T.p4 p = some (p, fl) ∧ translate m'.mem T.p4 (PHYSMAP_BASE + p) = some (p, fl) ∧
      (∀ f, lastGiven es (frameOf p) = some f → fl = f) ∧
      (lastGiven es (frameOf p) = none → present fl = true ∧ fl &&& WRITABLE ≠ 0 ∧ fl &&& USER = 0) := by
  obtain ⟨hsome, hspec⟩ := remap_remapped hb.remapped he
  refine ⟨hsome, fun m' hm => ?_⟩
  obtain ⟨pt, h⟩ := hspec m' hm
  refine ⟨h.upper.cr3, fun p hp => ?_⟩
  have hn := frameOf_lt hp
  have hlast : given (fun _ => none) es (frameOf p) = lastGiven es (frameOf p) := given_apply _ es _
  have hpage := page_offset hn
  have hoff : (PHYSMAP_BASE + p) &&& 0xFFF = p &&& 0xFFF := by
    apply BitVec.eq_of_toNat_eq
    have hbase : PHYSMAP_BASE.toNat = 0xFFFFC00000000000 := by decide
    rw [(and_low_toNat _).2, (and_low_toNat _).2, BitVec.toNat_add, hbase]
    omega
  have hview : View (PHYSMAP_BASE + p) (frameOf p) := by
    right
    have hbase : PHYSMAP_BASE.toNat = 0xFFFFC00000000000 := by decide
    rw [frameOf, frameOf, frameOf, BitVec.toNat_add, hbase, PAGE_SIZE]
    omega
  have hlow := h.translate_view hn (v := p) (Or.inl rfl)
  have hhigh := h.translate_view hn hview
  rw [hpage] at hlow
  rw [hoff, hpage] at hhigh
  refine ⟨_, hlow, hhigh, ?_, ?_⟩
  · intro f hf
    rw [← hlast] at hf
    rw [if_neg (h.given _ f hn hf).2, flagsOf, hf]
    rfl
  · intro hnone
    rw [← hlast] at hnone
    split_ifs
    · decide
    · rw [flagsOf, hnone]
      decide

/-- boot.asm's own tables -/
theorem bootMachine_atBoot : AtBoot ⟨1, 2, 7, fun i => 3 + i.val⟩ bootMachine := by
  have hlt : ∀ f ∈ (⟨1, 2, 7, fun i => 3 + i.val⟩ : Tables).frames, f < 8 := by decide
  refine ⟨⟨by decide, ?_, ?_, kptr_addrOf (by decide), rfl, rfl, ?_⟩, ?_⟩
  · intro f hf
    exact lt_trans (hlt f hf) (by decide)
  · intro f hf
    rw [boot_used]
    exact decide_eq_true (hlt f hf)
  · intro i
    fin_cases i <;> exact ⟨rfl, rfl⟩
  · intro i j
    fin_cases i <;> rfl

/-- an APIC-style mapping under them: device registers, uncached -/
theorem remap_identity_apic : AtBoot ⟨1, 2, 7, fun i => 3 + i.val⟩ bootMachine ∧
    ∃ m', remap [(0xFEC00000, PRESENT ||| WRITABLE ||| NO_EXECUTE ||| PWT ||| PCD)] bootMachine = some m' ∧
      translate m'.mem 1 0xFEC00ABC = some (0xFEC00ABC, PRESENT ||| WRITABLE ||| NO_EXECUTE ||| PWT ||| PCD) := by
  have hb := bootMachine_atBoot
  have he : ∀ x ∈ [((0xFEC00000 : U64), PRESENT ||| WRITABLE ||| NO_EXECUTE ||| PWT ||| PCD)],
      x.1.toNat < 2 ^ 32 ∧ RemapFlags x.2 := by
    intro x hx
    rw [List.mem_singleton] at hx
    subst hx
    exact ⟨by decide, true, true, true, true, rfl⟩
  obtain ⟨hsome, hspec⟩ := remap_identity _ bootMachine _ hb he
  have hfree := boot_freeCount
  obtain ⟨m', hm'⟩ := hsome (by simp only [List.length_singleton]; omega)
  obtain ⟨-, hall⟩ := hspec m' hm'
  obtain ⟨fl, hid, -, hgiven, -⟩ := hall 0xFEC00ABC (by decide)
  have hfl := hgiven _ rfl
  subst hfl
  exact ⟨hb, m', hm', hid⟩

end Retux.Vmm
