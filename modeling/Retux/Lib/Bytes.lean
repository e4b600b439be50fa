/-
Byte memory. Nothing here names a particular program.

`Mem` keeps, beside the bytes, every address written so far (`log`, a ghost, newest first): a zero stored over a zero is
a store all the same. `put` stores a list of bytes from an address on, and is what a correct copy amounts to:
`put_append` composes two of them, `mem_put_log`, `put_byte` and `put_rest` say what is written, and what is there
afterwards. Addresses wrap at 2^64.

`byteOf` and `setByteOf` read and write one byte of a word, `le` is a word's low bytes in memory order and `ofLe` the
number a list of bytes stands for. `Holds` says what lies in a buffer: `Holds.field` reads a word back.
-/
import Mathlib.Tactic
import Retux.Lib.Word

namespace Retux.Bytes

open Retux.Word

abbrev U8 := BitVec 8
abbrev U32 := BitVec 32

structure Mem where
  byte : U64 → U8
  log : List U64

/-- the address of byte i of an object at a -/
def nth (a : U64) (i : ℕ) : U64 := a + BitVec.ofNat 64 i

namespace Mem

def write (m : Mem) (a : U64) (x : U8) : Mem := ⟨Function.update m.byte a x, a :: m.log⟩

/-- `xs` at a, a + 1, .. -/
def put (m : Mem) : U64 → List U8 → Mem
  | _, [] => m
  | a, x :: xs => (m.write a x).put (a + 1) xs

end Mem

section Put

variable {m : Mem} {a b : U64} {x : U8} {xs ys : List U8} {i j : ℕ}

@[simp] theorem nth_zero : nth a 0 = a := BitVec.add_zero a

theorem nth_add : nth (nth a i) j = nth a (i + j) := by
  unfold nth
  rw [BitVec.add_assoc, ← BitVec.ofNat_add]

theorem nth_succ : nth (a + 1) i = nth a (i + 1) := by
  rw [show a + 1 = nth a 1 from rfl, nth_add, Nat.add_comm]

/-- addresses that do not wrap -/
theorem nth_toNat (h : a.toNat + i < 2 ^ 64) : (nth a i).toNat = a.toNat + i := by
  rw [nth, BitVec.toNat_add, BitVec.toNat_ofNat]
  omega

theorem nth_inj (hi : i < 2 ^ 64) (hj : j < 2 ^ 64) (h : nth a i = nth a j) : i = j := by
  have ht := congrArg BitVec.toNat ((BitVec.add_right_inj a).1 h)
  rwa [BitVec.toNat_ofNat, BitVec.toNat_ofNat, Nat.mod_eq_of_lt hi, Nat.mod_eq_of_lt hj] at ht

theorem put_append : m.put a (xs ++ ys) = (m.put a xs).put (nth a xs.length) ys := by
  induction xs generalizing m a with
  | nil => rw [List.nil_append, List.length_nil, nth_zero, Mem.put]
  | cons x xs ih => rw [List.cons_append, Mem.put, ih, Mem.put, nth_succ, List.length_cons]

/-- what a put writes -/
theorem mem_put_log : b ∈ (m.put a xs).log ↔ (∃ i, i < xs.length ∧ b = nth a i) ∨ b ∈ m.log := by
  induction xs generalizing m a with
  | nil => simp [Mem.put]
  | cons x xs ih =>
    rw [Mem.put, ih, Mem.write, List.mem_cons]
    constructor
    · rintro (⟨i, hi, rfl⟩ | rfl | h)
      · exact Or.inl ⟨i + 1, Nat.succ_lt_succ hi, nth_succ⟩
      · exact Or.inl ⟨0, Nat.succ_pos _, nth_zero.symm⟩
      · exact Or.inr h
    · rintro (⟨i, hi, rfl⟩ | h)
      · cases i with
        | zero => exact Or.inr (Or.inl nth_zero)
        | succ i => exact Or.inl ⟨i, Nat.lt_of_succ_lt_succ hi, nth_succ.symm⟩
      · exact Or.inr (Or.inr h)

/-- bytes a put does not write -/
theorem put_rest (h : ∀ i, i < xs.length → b ≠ nth a i) : (m.put a xs).byte b = m.byte b := by
  induction xs generalizing m a with
  | nil => rfl
  | cons x xs ih =>
    rw [Mem.put, ih fun i hi => by rw [nth_succ]; exact h (i + 1) (Nat.succ_lt_succ hi)]
    exact Function.update_of_ne (fun hb => h 0 (Nat.succ_pos _) (hb.trans nth_zero.symm)) _ _

/-- bytes it writes -/
theorem put_byte (hw : xs.length ≤ 2 ^ 64) (hi : i < xs.length) : (m.put a xs).byte (nth a i) = xs[i] := by
  induction xs generalizing m a i with
  | nil => exact absurd hi (Nat.not_lt_zero _)
  | cons x xs ih =>
    rw [List.length_cons] at hw
    rw [Mem.put]
    cases i with
    | zero =>
      rw [put_rest, nth_zero]
      · exact Function.update_self ..
      · intro j hj h
        rw [nth_succ] at h
        exact absurd (nth_inj (by omega) (by omega) h) (by omega)
    | succ i =>
      rw [← nth_succ]
      exact ih (by omega) (Nat.lt_of_succ_lt_succ hi)

end Put

/-! ## Bytes of a word -/

/-- byte k from the low end -/
def byteOf (w : U64) (k : ℕ) : U8 := w.extractLsb' (8 * k) 8

def setByteOf (w : U64) (k : ℕ) (x : U8) : U64 :=
  (w &&& ~~~((0xFF : U64) <<< (8 * k))) ||| (x.setWidth 64 <<< (8 * k))

/-- the low n bytes of a word, little end first -/
def le (n : ℕ) (w : U64) : List U8 := (List.range n).map (byteOf w)

def ofLe : List U8 → ℕ
  | [] => 0
  | x :: xs => x.toNat + 256 * ofLe xs

/-- the n bytes at index p of a buffer, as a number -/
def field (buf : ℕ → U8) (p n : ℕ) : ℕ := ofLe ((List.range n).map fun k => buf (p + k))

/-- the bytes xs at index p -/
def Holds (buf : ℕ → U8) (p : ℕ) (xs : List U8) : Prop := ∀ i (hi : i < xs.length), buf (p + i) = xs[i]

section Words

variable {buf : ℕ → U8} {p : ℕ} {w : U64} {x : U8} {xs ys : List U8} {j k n : ℕ}

theorem byteOf_toNat : (byteOf w k).toNat = w.toNat / 256 ^ k % 256 := by
  rw [byteOf, BitVec.extractLsb'_toNat, Nat.shiftRight_eq_div_pow, Nat.pow_mul]

theorem byteOf_setByteOf (hj : j < 8) (hk : k < 8) :
    byteOf (setByteOf w k x) j = if j = k then x else byteOf w j := by
  apply BitVec.eq_of_getLsbD_eq
  intro i hi
  have hin : (0xFF : U64).getLsbD (8 * j + i - 8 * k) = decide (8 * j + i - 8 * k < 8) := by
    have h : ∀ b : Fin 64, (0xFF : U64).getLsbD b = decide (b.val < 8) := by decide
    exact h ⟨8 * j + i - 8 * k, by omega⟩
  have hlt : 8 * j + i < 64 := by omega
  unfold byteOf setByteOf
  simp only [BitVec.getLsbD_extractLsb', BitVec.getLsbD_or, BitVec.getLsbD_and, BitVec.getLsbD_not,
    BitVec.getLsbD_shiftLeft, BitVec.getLsbD_setWidth, hin, hi, hlt, decide_true, Bool.true_and]
  split_ifs with hjk
  · subst hjk
    have hlow : 8 * j + i - 8 * j = i := by omega
    have hge : ¬ 8 * j + i < 8 * j := by omega
    have h64 : i < 64 := by omega
    simp [hlow, hge, hi, hlt, h64]
  · rw [BitVec.getLsbD_extractLsb']
    rcases Nat.lt_or_gt_of_ne hjk with h | h
    · have hbelow : 8 * j + i < 8 * k := by omega
      simp [hbelow, hi]
    · have habove : ¬ 8 * j + i - 8 * k < 8 := by omega
      have hx : x.getLsbD (8 * j + i - 8 * k) = false := BitVec.getLsbD_of_ge _ _ (by omega)
      simp [habove, hx, hi]

@[simp] theorem length_le : (le n w).length = n := by simp [le]

theorem ofLe_lt : ofLe xs < 256 ^ xs.length := by
  induction xs with
  | nil => exact Nat.one_pos
  | cons x xs ih =>
    have hx := x.isLt
    rw [ofLe, List.length_cons, pow_succ]
    omega

theorem field_lt {n : ℕ} : field buf p n < 256 ^ n := by
  have hlt : ofLe ((List.range n).map fun k => buf (p + k)) < _ := ofLe_lt
  rwa [List.length_map, List.length_range] at hlt

theorem ofLe_append : ofLe (xs ++ ys) = ofLe xs + 256 ^ xs.length * ofLe ys := by
  induction xs with
  | nil => simp [ofLe]
  | cons x xs ih =>
    rw [List.cons_append, ofLe, ofLe, ih, List.length_cons]
    ring

/-- **Little endian.** The low n bytes stand for the word modulo 256^n. -/
theorem ofLe_le : ofLe (le n w) = w.toNat % 256 ^ n := by
  induction n with
  | zero => simp [le, ofLe, Nat.mod_one]
  | succ n ih =>
    have hsplit : le (n + 1) w = le n w ++ [byteOf w n] := by simp [le, List.range_succ]
    rw [hsplit, ofLe_append, ih, length_le, ofLe, ofLe, byteOf_toNat, Nat.mul_zero, Nat.add_zero, pow_succ,
      Nat.mod_mul]

theorem Holds.left (h : Holds buf p (xs ++ ys)) : Holds buf p xs := fun i hi => by
  rw [h i (by rw [List.length_append]; omega), List.getElem_append_left hi]

theorem Holds.right (h : Holds buf p (xs ++ ys)) : Holds buf (p + xs.length) ys := fun i hi => by
  rw [Nat.add_assoc, h (xs.length + i) (by rw [List.length_append]; omega),
    List.getElem_append_right (Nat.le_add_right _ _)]
  exact getElem_congr_idx (Nat.add_sub_cancel_left ..)

theorem Holds.ofLe (h : Holds buf p xs) : field buf p xs.length = Bytes.ofLe xs := by
  refine congrArg Bytes.ofLe (List.ext_getElem (by simp) fun k hk _ => ?_)
  rw [List.length_map, List.length_range] at hk
  rw [List.getElem_map, List.getElem_range, h k hk]

/-- a word in a buffer -/
theorem Holds.field (h : Holds buf p (le n w)) : Bytes.field buf p n = w.toNat % 256 ^ n := by
  have hbytes := h.ofLe
  rwa [length_le, ofLe_le] at hbytes

theorem field_shift {q : ℕ} : field (fun i => buf (q + i)) p n = field buf (q + p) n := by
  simp only [field, Nat.add_assoc]

theorem field_congr {buf' : ℕ → U8} {q : ℕ} (h : ∀ k < n, buf (p + k) = buf' (q + k)) : field buf p n = field buf' q n := by
  unfold field
  rw [List.map_congr_left fun k hk => h k (List.mem_range.1 hk)]

end Words

end Retux.Bytes
