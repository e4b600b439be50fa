/-
Bit-level facts about page-table entries and the indices of a virtual address: what the rest of the development uses
instead of unfolding masks.

- `present e`, `huge e`, `user e` read one flag bit; the source's tests `e & PRESENT` are those bits (`absent_iff`,
  `huge_iff`);
- an entry built as `frame | flags` points at that frame and carries exactly those flags (`kptr_addr_or`,
  `bit_addr_or`), for flags that have no address bits (`Flags`);
- `ensure_table`'s widening `e |= flags & (USER | WRITABLE)` keeps the frame, PRESENT and HUGE (`kptr_widen`, ...).
-/
import Mathlib.Tactic
import Retux.Mem.Vmm

namespace Retux.Vmm

open Retux.Word Retux.Pmm

/-! ## Flag bits -/

def present (e : U64) : Bool := e.getLsbD 0
def huge (e : U64) : Bool := e.getLsbD 7
def user (e : U64) : Bool := e.getLsbD 2

theorem absent_iff (e : U64) : e &&& PRESENT = 0 ↔ present e = false := by
  have := bit_set_iff e 0 (by decide)
  unfold present PRESENT
  cases h : e.getLsbD 0 <;> simp_all

theorem huge_iff (e : U64) : e &&& HUGE_PAGE ≠ 0 ↔ huge e = true := bit_set_iff e 7 (by decide)

theorem isHuge_eq (e : U64) : isHuge e = (present e && huge e) := by
  have h0 := absent_iff e
  have h7 := huge_iff e
  unfold isHuge
  cases hp : present e <;> cases hh : huge e <;> simp_all

@[simp] theorem present_zero : present 0 = false := rfl

/-! ## Frames -/

theorem kptr_eq (e : U64) : entryToKptr e = e.toNat / 4096 % 2 ^ 40 := and_frame_mask e

theorem kptr_or (x y : U64) : entryToKptr (x ||| y) = entryToKptr x ||| entryToKptr y := by
  simp only [kptr_eq]
  apply Nat.eq_of_testBit_eq
  intro i
  rw [show (4096 : ℕ) = 2 ^ 12 from rfl]
  simp only [Nat.testBit_or, Nat.testBit_mod_two_pow, Nat.testBit_div_two_pow, BitVec.toNat_or]
  cases decide (i < 40) <;> simp

/-- no address bits: what may be or-ed into an entry -/
def Flags (fl : U64) : Prop := entryToKptr fl = 0

instance (fl : U64) : Decidable (Flags fl) := inferInstanceAs (Decidable (entryToKptr fl = 0))

theorem Flags.or {x y : U64} (hx : Flags x) (hy : Flags y) : Flags (x ||| y) := by
  unfold Flags at *
  rw [kptr_or, hx, hy]
  rfl

theorem Flags.and {x : U64} (y : U64) (hx : Flags x) : Flags (x &&& y) := by
  unfold Flags at *
  rw [kptr_eq] at hx ⊢
  apply Nat.eq_of_testBit_eq
  intro i
  have h := congrArg (fun n => n.testBit i) hx
  rw [show (4096 : ℕ) = 2 ^ 12 from rfl] at h ⊢
  simp only [Nat.testBit_mod_two_pow, Nat.testBit_div_two_pow, Nat.zero_testBit, BitVec.toNat_and, Nat.testBit_and,
    Bool.and_eq_false_iff] at h ⊢
  rcases h with h | h
  · exact Or.inl h
  · exact Or.inr (Or.inl h)

theorem kptr_addrOf {f : ℕ} (hf : f < MAX_FRAMES) : entryToKptr (addrOf f) = f := by
  rw [kptr_eq, addrOf_toNat hf]
  unfold MAX_FRAMES at hf
  omega

theorem kptr_addr_or {f : ℕ} {fl : U64} (hf : f < MAX_FRAMES) (hfl : Flags fl) : entryToKptr (addrOf f ||| fl) = f := by
  rw [kptr_or, kptr_addrOf hf, hfl]
  simp

/-- a frame address has no bits below 12 and none from 32 on -/
theorem bit_addrOf {f k : ℕ} (hf : f < MAX_FRAMES) (hk : k < 12 ∨ 32 ≤ k) : (addrOf f).getLsbD k = false := by
  rw [← BitVec.testBit_toNat, addrOf_toNat hf, show (4096 : ℕ) = 2 ^ 12 from rfl, Nat.testBit_mul_two_pow]
  unfold MAX_FRAMES at hf
  rcases hk with hk | hk
  · simp [Nat.not_le.2 hk]
  · have : f.testBit (k - 12) = false :=
      Nat.testBit_lt_two_pow (lt_of_lt_of_le hf (by
        rw [show (1048576 : ℕ) = 2 ^ 20 from rfl]; exact Nat.pow_le_pow_right (by decide) (by omega)))
    simp [this]

theorem bit_addr_or {f k : ℕ} {fl : U64} (hf : f < MAX_FRAMES) (hk : k < 12 ∨ 32 ≤ k) :
    (addrOf f ||| fl).getLsbD k = fl.getLsbD k := by
  rw [BitVec.getLsbD_or, bit_addrOf hf hk, Bool.false_or]

theorem present_or (x y : U64) : present (x ||| y) = (present x || present y) := BitVec.getLsbD_or

theorem huge_or (x y : U64) : huge (x ||| y) = (huge x || huge y) := BitVec.getLsbD_or

theorem present_addr_or {f : ℕ} {fl : U64} (hf : f < MAX_FRAMES) : present (addrOf f ||| fl) = present fl :=
  bit_addr_or hf (by decide)

theorem huge_addr_or {f : ℕ} {fl : U64} (hf : f < MAX_FRAMES) : huge (addrOf f ||| fl) = huge fl :=
  bit_addr_or hf (by decide)

/-- the entry that `ensure_table` writes for a new table -/
theorem kptr_table {f : ℕ} {fl : U64} (hf : f < MAX_FRAMES) (hfl : Flags fl) :
    entryToKptr (addrOf f ||| fl ||| PRESENT) = f := by
  rw [BitVec.or_assoc]
  exact kptr_addr_or hf (hfl.or (by decide))

theorem present_table (e : U64) : present (e ||| PRESENT) = true := by
  rw [present_or, show present PRESENT = true from rfl, Bool.or_true]

theorem huge_table {f : ℕ} {fl : U64} (hf : f < MAX_FRAMES) (hh : huge fl = false) :
    huge (addrOf f ||| fl ||| PRESENT) = false := by
  rw [BitVec.or_assoc, huge_addr_or hf, huge_or, hh]
  rfl

theorem entryPhys_toNat (e : U64) : (entryPhys e).toNat = entryToKptr e * 4096 := by
  have hdvd : (e &&& frameMask).toNat % 4096 = 0 := by
    apply Nat.eq_of_testBit_eq
    intro i
    rw [show (4096 : ℕ) = 2 ^ 12 from rfl, Nat.testBit_mod_two_pow, BitVec.testBit_toNat, BitVec.getLsbD_and,
      frameMask_bit, Nat.zero_testBit]
    by_cases h : i < 12
    · simp [h, Nat.not_le.2 h]
    · simp [h]
  unfold entryToKptr entryPhys frameOf PAGE_SIZE PHYS_MASK
  omega

theorem entryPhys_eq {e : U64} (h : entryToKptr e < MAX_FRAMES) : entryPhys e = addrOf (entryToKptr e) := by
  apply BitVec.eq_of_toNat_eq
  rw [entryPhys_toNat, addrOf_toNat h]

theorem addrOf_physMask {f : ℕ} (hf : f < MAX_FRAMES) : addrOf f &&& PHYS_MASK = addrOf f := by
  have h := entryPhys_eq (e := addrOf f) (by rw [kptr_addrOf hf]; exact hf)
  rw [kptr_addrOf hf] at h
  exact h

/-- the offset within the page does not leave the frame -/
theorem addrOf_add_offset {f : ℕ} (hf : f < MAX_FRAMES) (v : U64) :
    frameOf (addrOf f + (v &&& 0xFFF)) = f ∧ (addrOf f + (v &&& 0xFFF)) &&& ~~~0xFFF#64 = addrOf f := by
  have ho : (v &&& 0xFFF).toNat < 4096 := by
    rw [BitVec.toNat_and]
    exact lt_of_le_of_lt Nat.and_le_right (by decide)
  have hsum : (addrOf f + (v &&& 0xFFF)).toNat = f * 4096 + (v &&& 0xFFF).toNat := by
    have hf' := hf
    unfold MAX_FRAMES at hf'
    rw [BitVec.toNat_add, addrOf_toNat hf]
    omega
  constructor
  · rw [frameOf, hsum, PAGE_SIZE]; omega
  · apply BitVec.eq_of_toNat_eq
    rw [and_not_page, hsum, addrOf_toNat hf]; omega

/-! ## Widening -/

theorem widen_flags (fl : U64) : Flags (fl &&& (USER ||| WRITABLE)) := by
  rw [BitVec.and_comm]
  exact Flags.and fl (by decide)

theorem kptr_widen (e fl : U64) : entryToKptr (e ||| (fl &&& (USER ||| WRITABLE))) = entryToKptr e := by
  rw [kptr_or, widen_flags]
  simp

/-- widening sets USER and WRITABLE at most: every other bit stays -/
theorem bit_widen {k : ℕ} (hk : k ≠ 1 ∧ k ≠ 2) (e fl : U64) :
    (e ||| (fl &&& (USER ||| WRITABLE))).getLsbD k = e.getLsbD k := by
  have h : (USER ||| WRITABLE).getLsbD k = false := by
    simp only [USER, WRITABLE, BitVec.getLsbD_or, BitVec.getLsbD_twoPow]
    have h1 : ¬ (2 : ℕ) = k := fun h => hk.2 h.symm
    have h2 : ¬ (1 : ℕ) = k := fun h => hk.1 h.symm
    simp [h1, h2]
  rw [BitVec.getLsbD_or, BitVec.getLsbD_and, h]
  simp

theorem present_widen (e fl : U64) : present (e ||| (fl &&& (USER ||| WRITABLE))) = present e :=
  bit_widen (by decide) e fl

theorem huge_widen (e fl : U64) : huge (e ||| (fl &&& (USER ||| WRITABLE))) = huge e :=
  bit_widen (by decide) e fl

/-! ## Indices -/

@[simp] theorem HEAP_PML4_IDX_eq : HEAP_PML4_IDX = 256 := by decide
@[simp] theorem PHYSMAP_PML4_IDX_eq : PHYSMAP_PML4_IDX = 384 := by decide

theorem mkVirt_toNat (i4 i3 i2 i1 : Idx) :
    (mkVirt i4 i3 i2 i1).toNat = i4.val * 2 ^ 39 + i3.val * 2 ^ 30 + i2.val * 2 ^ 21 + i1.val * 2 ^ 12 := by
  -- a shifted index as a number
  have hs : ∀ (i : Idx) (k : ℕ), k ≤ 39 → (BitVec.ofNat 64 i.val <<< k).toNat = i.val * 2 ^ k := by
    intro i k hk
    have hi := i.isLt
    have hpow : 2 ^ k ≤ 2 ^ 39 := Nat.pow_le_pow_right (by decide) hk
    have hlt : i.val * 2 ^ k < 2 ^ 64 := by
      calc i.val * 2 ^ k ≤ 512 * 2 ^ 39 := Nat.mul_le_mul (by omega) hpow
        _ < 2 ^ 64 := by norm_num
    have hi64 : i.val % 2 ^ 64 = i.val := Nat.mod_eq_of_lt (by omega)
    rw [BitVec.toNat_shiftLeft, BitVec.toNat_ofNat, hi64, Nat.shiftLeft_eq, Nat.mod_eq_of_lt hlt]
  unfold mkVirt
  rw [BitVec.toNat_or, BitVec.toNat_or, BitVec.toNat_or, hs i4 39 (by decide), hs i3 30 (by decide),
    hs i2 21 (by decide), hs i1 12 (by decide)]
  -- the next index up starts where this one ends
  have hb : ∀ (i : Idx) (k : ℕ), i.val * 2 ^ k < 2 ^ (9 + k) := fun i k => by
    rw [pow_add]; exact Nat.mul_lt_mul_of_pos_right i.isLt (by positivity)
  have e3 : i3.val * 2 ^ 30 < 2 ^ 39 := hb i3 30
  have e2 : i2.val * 2 ^ 21 < 2 ^ 30 := hb i2 21
  have e1 : i1.val * 2 ^ 12 < 2 ^ 21 := hb i1 12
  rw [Nat.mul_comm i4.val, ← Nat.two_pow_add_eq_or_of_lt e3,
    show 2 ^ 39 * i4.val + i3.val * 2 ^ 30 = 2 ^ 30 * (2 ^ 9 * i4.val + i3.val) by ring,
    ← Nat.two_pow_add_eq_or_of_lt e2,
    show 2 ^ 30 * (2 ^ 9 * i4.val + i3.val) + i2.val * 2 ^ 21 =
      2 ^ 21 * (2 ^ 18 * i4.val + 2 ^ 9 * i3.val + i2.val) by ring,
    ← Nat.two_pow_add_eq_or_of_lt e1]

@[simp] theorem tableIdx_mkVirt_39 (i4 i3 i2 i1 : Idx) : tableIdx (mkVirt i4 i3 i2 i1) 39 = i4 := by
  apply Fin.ext
  simp only [tableIdx, mkVirt_toNat]
  omega

@[simp] theorem tableIdx_mkVirt_30 (i4 i3 i2 i1 : Idx) : tableIdx (mkVirt i4 i3 i2 i1) 30 = i3 := by
  apply Fin.ext
  simp only [tableIdx, mkVirt_toNat]
  omega

@[simp] theorem tableIdx_mkVirt_21 (i4 i3 i2 i1 : Idx) : tableIdx (mkVirt i4 i3 i2 i1) 21 = i2 := by
  apply Fin.ext
  simp only [tableIdx, mkVirt_toNat]
  omega

@[simp] theorem tableIdx_mkVirt_12 (i4 i3 i2 i1 : Idx) : tableIdx (mkVirt i4 i3 i2 i1) 12 = i1 := by
  apply Fin.ext
  simp only [tableIdx, mkVirt_toNat]
  omega

theorem virt2mb_eq (i3 i2 : Idx) : virt2mb i3 i2 = mkVirt 0 i3 i2 0 := by
  unfold virt2mb mkVirt
  simp

theorem virt2mb_toNat (i3 i2 : Idx) : (virt2mb i3 i2).toNat = i3.val * 2 ^ 30 + i2.val * 2 ^ 21 := by
  rw [virt2mb_eq, mkVirt_toNat]
  simp

end Retux.Vmm
