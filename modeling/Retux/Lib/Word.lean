/-
64-bit machine words and the loops over them. Nothing here names a particular program.

- single-bit masks: `x & (1 << k)` is non-zero exactly when bit k of x is set (`bit_set_iff`), and masking with the
  frame-address bits 51:12 of a page-table entry is division by 4096 (`and_frame_mask`);
- rounding down: `x & ~(2^k - 1)` (`and_not_low`), to 4 KiB `x & ~0xFFF` (`and_not_page`), and what is left over
  (`and_page`, `sub_page`);
- `forPages`: the C loop `for (va = start; va < stop; va += 4096)` over wrapping addresses. `forPages_eq_foldlM` turns
  it into a fold over the list of pages, for page-aligned bounds.
-/
import Mathlib.Tactic

namespace Retux.Word

abbrev U64 := BitVec 64

/-- so that membership in a list of addresses can be decided -/
instance u64LawfulBEq : LawfulBEq U64 := inferInstance

/-! ## Bits -/

theorem bit_set_iff (x : U64) (k : ℕ) (hk : k < 64) : x &&& BitVec.twoPow 64 k ≠ 0 ↔ x.getLsbD k = true := by
  rw [BitVec.and_twoPow]
  split_ifs with h
  · have hb : (BitVec.twoPow 64 k).getLsbD k = true := by simp [hk]
    simp only [ne_eq, h, iff_true]
    intro h0
    rw [h0] at hb
    simp at hb
  · simp [h]

/-- a mask that is known bit by bit -/
theorem bits_of_fin {x : U64} {p : ℕ → Bool} (h : ∀ i : Fin 64, x.getLsbD i = p i) (hp : ∀ i, 64 ≤ i → p i = false)
    (i : ℕ) : x.getLsbD i = p i := by
  by_cases hi : i < 64
  · exact h ⟨i, hi⟩
  · rw [BitVec.getLsbD_of_ge _ _ (by omega), hp i (by omega)]

/-- the frame-address bits 51:12 of a page-table entry -/
def frameMask : U64 := 0x000FFFFFFFFFF000

theorem frameMask_bit (i : ℕ) : frameMask.getLsbD i = decide (12 ≤ i ∧ i < 52) := by
  have h : ∀ i : Fin 64, frameMask.getLsbD i = decide (12 ≤ i.val ∧ i.val < 52) := by decide
  exact bits_of_fin (p := fun i => decide (12 ≤ i ∧ i < 52)) h (fun i hi => by simp; omega) i

theorem and_frame_mask (e : U64) : (e &&& frameMask).toNat / 4096 = e.toNat / 4096 % 2 ^ 40 := by
  apply Nat.eq_of_testBit_eq
  intro i
  rw [show (4096 : ℕ) = 2 ^ 12 from rfl, Nat.testBit_div_two_pow, Nat.testBit_mod_two_pow, Nat.testBit_div_two_pow,
    BitVec.testBit_toNat, BitVec.testBit_toNat, BitVec.getLsbD_and, frameMask_bit]
  by_cases h : i < 40 <;> simp [h] <;> omega

/-- clearing the low k bits rounds down to a multiple of 2^k -/
theorem and_not_low (x : U64) (k : ℕ) :
    (x &&& ~~~BitVec.ofNat 64 (2 ^ k - 1)).toNat = x.toNat / 2 ^ k * 2 ^ k := by
  apply Nat.eq_of_testBit_eq
  intro i
  rw [Nat.testBit_mul_two_pow, Nat.testBit_div_two_pow, BitVec.testBit_toNat, BitVec.getLsbD_and, BitVec.getLsbD_not,
    BitVec.getLsbD_ofNat, Nat.testBit_two_pow_sub_one]
  by_cases h : k ≤ i
  · rw [Nat.sub_add_cancel h, BitVec.testBit_toNat]
    by_cases hi : i < 64
    · simp [h, hi, Nat.not_lt.2 h]
    · simp [BitVec.getLsbD_of_ge x i (by omega)]
  · have hi : i < k := Nat.lt_of_not_le h
    simp [h, hi]

/-- clearing the low 12 bits rounds down to a page -/
theorem and_not_page (x : U64) : (x &&& ~~~0xFFF#64).toNat = x.toNat / 4096 * 4096 := and_not_low x 12

/-- the offset within a page -/
theorem and_page (x : U64) : (x &&& 0xFFF).toNat = x.toNat % 4096 := by
  rw [BitVec.toNat_and, show (0xFFF : U64).toNat = 2 ^ 12 - 1 from rfl, Nat.and_two_pow_sub_one_eq_mod]

theorem aligned_offset {x : U64} (ha : x.toNat % 4096 = 0) : x &&& 0xFFF = 0#64 :=
  BitVec.eq_of_toNat_eq ((and_page x).trans ha)

/-- an address is its page and its offset -/
theorem sub_page (x : U64) : x - (x &&& ~~~0xFFF#64) = x &&& 0xFFF := by
  have hdown := and_not_page x
  have hle : x &&& ~~~0xFFF#64 ≤ x := by
    rw [BitVec.le_def]
    omega
  apply BitVec.eq_of_toNat_eq
  rw [BitVec.toNat_sub_of_le hle, hdown, and_page]
  omega

/-! ## Loops over pages -/

/-- `for (va = start; va < stop; va += 4096) s = f(s, va)`: addresses wrap at 2^64, and `none` is a loop that has not
left after `fuel` rounds -/
def forPages {σ : Type} (f : σ → U64 → Option σ) (stop : U64) : ℕ → U64 → σ → Option σ
  | 0, _, _ => none
  | fuel + 1, va, s => if va < stop then (f s va).bind (forPages f stop fuel (va + 4096#64)) else some s

/-- the pages from start up to stop, in order -/
def pages (start stop : U64) : List U64 :=
  (List.range ((stop.toNat - start.toNat) / 4096)).map fun k => BitVec.ofNat 64 (start.toNat + 4096 * k)

theorem pages_nil {start stop : U64} (h : ¬ start < stop) : pages start stop = [] := by
  have h0 : stop.toNat - start.toNat = 0 := by
    rw [BitVec.lt_def] at h; omega
  simp [pages, h0]

theorem add_page {start stop : U64} (ha : start.toNat % 4096 = 0) (hb : stop.toNat % 4096 = 0)
    (h : start.toNat < stop.toNat) : (start + 4096#64).toNat = start.toNat + 4096 := by
  have hs := stop.isLt
  simp only [BitVec.toNat_add, BitVec.toNat_ofNat]
  omega

theorem pages_cons {start stop : U64} (ha : start.toNat % 4096 = 0) (hb : stop.toNat % 4096 = 0) (h : start < stop) :
    pages start stop = start :: pages (start + 4096#64) stop := by
  rw [BitVec.lt_def] at h
  have hs := stop.isLt
  have hnext := add_page ha hb h
  have hn : (stop.toNat - start.toNat) / 4096 = (stop.toNat - (start + 4096#64).toNat) / 4096 + 1 := by
    rw [hnext]; omega
  unfold pages
  rw [hn, List.range_succ_eq_map, List.map_cons, List.map_map, hnext]
  have hhead : BitVec.ofNat 64 (start.toNat + 4096 * 0) = start := by simp
  rw [hhead]
  refine congrArg (List.cons start) (List.map_congr_left fun k _ => ?_)
  have : start.toNat + 4096 * (k + 1) = start.toNat + 4096 + 4096 * k := by omega
  simp only [Function.comp, Nat.succ_eq_add_one, this]

theorem mem_pages {start stop va : U64} (ha : start.toNat % 4096 = 0) (hb : stop.toNat % 4096 = 0) :
    va ∈ pages start stop ↔ start.toNat ≤ va.toNat ∧ va.toNat < stop.toNat ∧ va.toNat % 4096 = 0 := by
  have hs := stop.isLt
  simp only [pages, List.mem_map, List.mem_range]
  constructor
  · rintro ⟨k, hk, rfl⟩
    simp only [BitVec.toNat_ofNat]
    rw [Nat.mod_eq_of_lt (by omega)]
    omega
  · rintro ⟨h1, h2, h3⟩
    refine ⟨(va.toNat - start.toNat) / 4096, by omega, ?_⟩
    apply BitVec.eq_of_toNat_eq
    simp only [BitVec.toNat_ofNat]
    have := va.isLt
    rw [Nat.mod_eq_of_lt] <;> omega

theorem pages_nodup (start stop : U64) : (pages start stop).Nodup := by
  unfold pages
  refine (List.nodup_map_iff_inj_on List.nodup_range).2 fun i hi j hj h => ?_
  rw [List.mem_range] at hi hj
  have hs := stop.isLt
  have := congrArg BitVec.toNat h
  simp only [BitVec.toNat_ofNat] at this
  rw [Nat.mod_eq_of_lt (by omega), Nat.mod_eq_of_lt (by omega)] at this
  omega

/-- **The page loop is a fold.** For page-aligned bounds, the wrapping C loop visits exactly `pages start stop`, and
2^52 + 1 rounds are always enough. -/
theorem forPages_eq_foldlM {σ : Type} (f : σ → U64 → Option σ) (stop : U64) (hb : stop.toNat % 4096 = 0) (fuel : ℕ)
    (start : U64) (ha : start.toNat % 4096 = 0) (hf : (stop.toNat - start.toNat) / 4096 < fuel) (s : σ) :
    forPages f stop fuel start s = (pages start stop).foldlM f s := by
  induction fuel generalizing start s with
  | zero => omega
  | succ fuel ih =>
    unfold forPages
    split_ifs with h
    · rw [pages_cons ha hb h, List.foldlM_cons]
      have hs := stop.isLt
      rw [BitVec.lt_def] at h
      have hnext := add_page ha hb h
      have hrec : forPages f stop fuel (start + 4096#64) = fun s => (pages (start + 4096#64) stop).foldlM f s := by
        funext s
        exact ih _ (by omega) (by omega) s
      rw [hrec]
      rfl
    · rw [pages_nil h]; rfl

end Retux.Word
