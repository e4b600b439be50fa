/-
The physical memory manager (`mem/pmm.cpp`): one bit per 4 KiB frame below 4 GiB, 1 = used.

`allocFrame` scans the bitmap from frame 0 and takes the first clear bit; `none` is the halt on exhaustion. `freeFrame`
ignores frames past the bitmap and frames that are already free. Addresses are 64-bit words, frames are numbers:
`frameOf` is the frame behind a physical address.

Results:
- `isUsed_setUsed`, `isUsed_setFree`: the bitmap is a set of frames;
- `allocFrame_spec`: the frame returned was free, is below the bitmap's end, and is the only one whose bit changes;
- `allocFrame_isSome`: allocation succeeds exactly while `freeCount` is positive, and takes one from it.
-/
import Mathlib.Tactic
import Retux.Lib.Word

namespace Retux.Pmm

open Retux.Word

/-! ## Model -/

def PAGE_SIZE : ℕ := 4096

/-- 4 GiB of 4 KiB frames -/
def MAX_FRAMES : ℕ := 1048576

/-- the bitmap and the two counters -/
structure St where
  bitmap : ℕ → BitVec 8
  totalFrames : U64
  usedFrames : U64

def setUsed (b : ℕ → BitVec 8) (frame : ℕ) : ℕ → BitVec 8 :=
  Function.update b (frame / 8) (b (frame / 8) ||| BitVec.twoPow 8 (frame % 8))

def setFree (b : ℕ → BitVec 8) (frame : ℕ) : ℕ → BitVec 8 :=
  Function.update b (frame / 8) (b (frame / 8) &&& ~~~BitVec.twoPow 8 (frame % 8))

def isUsed (b : ℕ → BitVec 8) (frame : ℕ) : Bool :=
  b (frame / 8) &&& BitVec.twoPow 8 (frame % 8) ≠ 0

/-- the scan of `alloc_frame`: the first clear bit among `n` frames from `i` on -/
def firstFree (b : ℕ → BitVec 8) : ℕ → ℕ → Option ℕ
  | _, 0 => none
  | i, n + 1 => if isUsed b i then firstFree b (i + 1) n else some i

/-- frame number of a physical address -/
def frameOf (phys : U64) : ℕ := phys.toNat / PAGE_SIZE

/-- physical address of a frame -/
def addrOf (frame : ℕ) : U64 := BitVec.ofNat 64 (frame * PAGE_SIZE)

def allocFrame (p : St) : Option (U64 × St) :=
  (firstFree p.bitmap 0 MAX_FRAMES).map fun i =>
    (addrOf i, { p with bitmap := setUsed p.bitmap i, usedFrames := p.usedFrames + 1#64 })

def freeFrame (p : St) (physAddr : U64) : St :=
  let frame := frameOf physAddr
  if frame ≥ MAX_FRAMES ∨ isUsed p.bitmap frame = false then p
  else { p with bitmap := setFree p.bitmap frame, usedFrames := p.usedFrames - 1#64 }

/-! ## The bitmap as a set -/

theorem isUsed_iff (b : ℕ → BitVec 8) (f : ℕ) : isUsed b f = (b (f / 8)).getLsbD (f % 8) := by
  have hk : f % 8 < 8 := Nat.mod_lt _ (by decide)
  unfold isUsed
  rw [BitVec.and_twoPow]
  split_ifs with h
  · have hne : BitVec.twoPow 8 (f % 8) ≠ 0#8 := by
      intro h0
      have hb : (BitVec.twoPow 8 (f % 8)).getLsbD (f % 8) = true := by simp [hk]
      rw [h0] at hb
      simp at hb
    simp [h, hne]
  · simp [h]

theorem isUsed_setUsed (b : ℕ → BitVec 8) (f g : ℕ) : isUsed (setUsed b f) g = (decide (g = f) || isUsed b g) := by
  rw [isUsed_iff, isUsed_iff, setUsed]
  have hf : f % 8 < 8 := Nat.mod_lt _ (by decide)
  have hg : g % 8 < 8 := Nat.mod_lt _ (by decide)
  by_cases hd : g / 8 = f / 8
  · rw [hd, Function.update_self, BitVec.getLsbD_or, BitVec.getLsbD_twoPow, Bool.or_comm]
    congr 1
    simp only [hf, decide_true, Bool.true_and, decide_eq_decide]
    constructor <;> intro h <;> omega
  · rw [Function.update_of_ne hd]
    have : g ≠ f := by rintro rfl; exact hd rfl
    simp [this]

theorem isUsed_setFree (b : ℕ → BitVec 8) (f g : ℕ) : isUsed (setFree b f) g = (!decide (g = f) && isUsed b g) := by
  rw [isUsed_iff, isUsed_iff, setFree]
  have hf : f % 8 < 8 := Nat.mod_lt _ (by decide)
  have hg : g % 8 < 8 := Nat.mod_lt _ (by decide)
  by_cases hd : g / 8 = f / 8
  · rw [hd, Function.update_self, BitVec.getLsbD_and, BitVec.getLsbD_not, BitVec.getLsbD_twoPow, Bool.and_comm]
    congr 1
    simp only [hg, hf, decide_true, Bool.true_and]
    congr 1
    rw [decide_eq_decide]
    constructor <;> intro h <;> omega
  · rw [Function.update_of_ne hd]
    have : g ≠ f := by rintro rfl; exact hd rfl
    simp [this]

/-! ## Addresses and frames -/

theorem addrOf_toNat {f : ℕ} (hf : f < MAX_FRAMES) : (addrOf f).toNat = f * 4096 := by
  unfold MAX_FRAMES at hf
  simp only [addrOf, PAGE_SIZE, BitVec.toNat_ofNat]
  omega

theorem frameOf_addrOf {f : ℕ} (hf : f < MAX_FRAMES) : frameOf (addrOf f) = f := by
  rw [frameOf, addrOf_toNat hf, PAGE_SIZE]
  omega

/-! ## Allocation -/

theorem firstFree_some {b : ℕ → BitVec 8} {i n k : ℕ} (h : firstFree b i n = some k) :
    i ≤ k ∧ k < i + n ∧ isUsed b k = false := by
  induction n generalizing i with
  | zero => simp [firstFree] at h
  | succ n ih =>
    unfold firstFree at h
    split_ifs at h with hu
    · obtain ⟨h1, h2, h3⟩ := ih h
      exact ⟨by omega, by omega, h3⟩
    · cases h
      exact ⟨le_rfl, by omega, by simpa using hu⟩

theorem firstFree_none {b : ℕ → BitVec 8} {i n : ℕ} (h : firstFree b i n = none) (k : ℕ) (hi : i ≤ k)
    (hk : k < i + n) : isUsed b k = true := by
  induction n generalizing i with
  | zero => omega
  | succ n ih =>
    unfold firstFree at h
    split_ifs at h with hu
    rcases Nat.eq_or_lt_of_le hi with rfl | hlt
    · exact hu
    · exact ih h hlt (by omega)

/-- **Allocation.** The frame returned was free and lies below the bitmap's end; afterwards it is used and no other
frame's bit has changed. -/
theorem allocFrame_spec {p p' : St} {a : U64} (h : allocFrame p = some (a, p')) :
    ∃ f, a = addrOf f ∧ f < MAX_FRAMES ∧ isUsed p.bitmap f = false ∧
      ∀ g, isUsed p'.bitmap g = (decide (g = f) || isUsed p.bitmap g) := by
  unfold allocFrame at h
  obtain ⟨f, hf, he⟩ := Option.map_eq_some_iff.1 h
  obtain ⟨_, hlt, hfree⟩ := firstFree_some hf
  cases he
  exact ⟨f, rfl, by omega, hfree, isUsed_setUsed _ _⟩

/-- frames the allocator can still hand out -/
def freeCount (p : St) : ℕ := ((Finset.range MAX_FRAMES).filter fun f => isUsed p.bitmap f = false).card

theorem freeCount_le (p : St) : freeCount p ≤ MAX_FRAMES :=
  (Finset.card_filter_le _ _).trans (by simp)

theorem allocFrame_isSome {p : St} (h : 0 < freeCount p) : ∃ a p', allocFrame p = some (a, p') := by
  cases hf : firstFree p.bitmap 0 MAX_FRAMES with
  | some f => exact ⟨_, _, by rw [allocFrame, hf]; rfl⟩
  | none =>
    obtain ⟨g, hg⟩ := Finset.card_pos.1 h
    simp only [Finset.mem_filter, Finset.mem_range] at hg
    have := firstFree_none hf g (Nat.zero_le _) (by omega)
    rw [hg.2] at this
    exact absurd this (by decide)

/-- a frame taken is one free frame less -/
theorem freeCount_take (p p' : St) {f : ℕ} (hlt : f < MAX_FRAMES) (hfree : isUsed p.bitmap f = false)
    (hbits : ∀ g, isUsed p'.bitmap g = (decide (g = f) || isUsed p.bitmap g)) : freeCount p = freeCount p' + 1 := by
  have hset : (Finset.range MAX_FRAMES).filter (fun g => isUsed p'.bitmap g = false) =
      ((Finset.range MAX_FRAMES).filter (fun g => isUsed p.bitmap g = false)).erase f := by
    ext g
    simp only [Finset.mem_filter, Finset.mem_erase, hbits, Bool.or_eq_false_iff, decide_eq_false_iff_not]
    constructor
    · rintro ⟨h1, h2, h3⟩; exact ⟨h2, h1, h3⟩
    · rintro ⟨h2, h1, h3⟩; exact ⟨h1, h2, h3⟩
  unfold freeCount
  rw [hset, Finset.card_erase_of_mem (by simp [hlt, hfree])]
  have hpos : 0 < ((Finset.range MAX_FRAMES).filter fun g => isUsed p.bitmap g = false).card :=
    Finset.card_pos.2 ⟨f, by simp [hlt, hfree]⟩
  omega

theorem allocFrame_freeCount {p p' : St} {a : U64} (h : allocFrame p = some (a, p')) :
    freeCount p = freeCount p' + 1 := by
  obtain ⟨f, -, hlt, hfree, hbits⟩ := allocFrame_spec h
  exact freeCount_take _ _ hlt hfree hbits

/-! ## Freeing -/

theorem freeFrame_isUsed (p : St) (a : U64) (ha : frameOf a < MAX_FRAMES) (g : ℕ) :
    isUsed (freeFrame p a).bitmap g = (!decide (g = frameOf a) && isUsed p.bitmap g) := by
  unfold freeFrame
  by_cases hu : isUsed p.bitmap (frameOf a) = false
  · simp only [hu, or_true, ite_true]
    by_cases hg : g = frameOf a
    · simp [hg, hu]
    · simp [hg]
  · rw [if_neg (not_or.2 ⟨Nat.not_le.2 ha, hu⟩)]
    exact isUsed_setFree _ _ _

end Retux.Pmm
