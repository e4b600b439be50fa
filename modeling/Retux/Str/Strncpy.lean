/-
Copying strings and blocks (`lib/string.cpp`).

`strncpy` runs two loops on one count, each ending on `n--`. The first leaves the bytes still to pad if it met the NUL,
but 2^64 - 1 if the count ran out first, and the second pads as many: `strncpy_long`. `strncpy_iff` is the result: it is
a bounded copy exactly when the source is shorter than the bound.
-/
import Mathlib.Tactic
import Retux.Lib.Bytes

namespace Retux.Str

open Retux.Word Retux.Bytes

/-! ## Model -/

/-- the source is an object apart -/
def memcpy (m : Mem) (dest : U64) (src : ℕ → U8) : ℕ → Mem
  | 0 => m
  | n + 1 => memcpy (m.write dest (src 0)) (dest + 1) (fun i => src (i + 1)) n

/-- `while (n-- && (*d++ = *src++));`, with d and n as it leaves them -/
def copyLoop (m : Mem) (d src : U64) : ℕ → Mem × U64 × U64
  | 0 => (m, d, 0 - 1)
  | n + 1 =>
    let c := m.byte src
    let m := m.write d c
    if c = 0 then (m, d + 1, BitVec.ofNat 64 n) else copyLoop m (d + 1) (src + 1) n

/-- `while (n--) *d++ = '\0';` -/
def padLoop (m : Mem) (d : U64) : ℕ → Mem
  | 0 => m
  | n + 1 => padLoop (m.write d 0) (d + 1) n

def strncpy (m : Mem) (dest src n : U64) : Mem :=
  let (m, d, n) := copyLoop m dest src n.toNat
  padLoop m d n.toNat

/-! ## Strings -/

/-- the NUL-terminated string s at a -/
def CString (b : U64 → U8) (a : U64) (s : List U8) : Prop :=
  0 ∉ s ∧ ∀ i, i ≤ s.length → b (nth a i) = s.getD i 0

/-- no byte of the source is overwritten before it is read -/
def Apart (dest src : U64) (k : ℕ) : Prop := ∀ i, i ≤ k → ∀ j, j < i → nth src i ≠ nth dest j

/-- exactly the n bytes at dest are written, with s and then NULs -/
structure BoundedCopy (b : U64 → U8) (dest n : U64) (s : List U8) (m : Mem) : Prop where
  written : ∀ a, a ∈ m.log ↔ ∃ i, i < n.toNat ∧ a = nth dest i
  bytes : ∀ i, i < n.toNat → m.byte (nth dest i) = s.getD i 0
  rest : ∀ a, a ∉ m.log → m.byte a = b a

section Strncpy

variable {m : Mem} {b : U64 → U8} {dest src n : U64} {s : List U8} {k : ℕ}

theorem memcpy_eq {f : ℕ → U8} : memcpy m dest f k = m.put dest ((List.range k).map f) := by
  induction k generalizing m dest f with
  | zero => rfl
  | succ k ih =>
    rw [memcpy, ih, List.range_succ_eq_map, List.map_cons, List.map_map, Mem.put]
    rfl

theorem padLoop_eq : padLoop m dest k = m.put dest (List.replicate k 0) := by
  induction k generalizing m dest with
  | zero => rfl
  | succ k ih => rw [padLoop, ih, List.replicate_succ, Mem.put]

theorem Apart.tail (h : Apart dest src (k + 1)) : Apart (dest + 1) (src + 1) k := fun i hi j hj => by
  rw [nth_succ, nth_succ]
  exact h (i + 1) (by omega) (j + 1) (by omega)

theorem CString.tail {c : U8} (h : CString m.byte src (c :: s)) (hsep : Apart dest src (s.length + 1)) :
    CString (m.write dest c).byte (src + 1) s := by
  refine ⟨fun h0 => h.1 (List.mem_cons_of_mem _ h0), fun i hi => ?_⟩
  have hne : nth (src + 1) i ≠ dest := by
    rw [nth_succ]
    simpa using hsep (i + 1) (by omega) 0 (Nat.succ_pos i)
  refine (Function.update_of_ne hne _ _).trans ?_
  rw [nth_succ]
  exact h.2 (i + 1) (by rw [List.length_cons]; omega)

/-- the string ends first: what is left in n is the padding -/
theorem copyLoop_short (hs : CString m.byte src s) (hsep : Apart dest src s.length) (hk : s.length < k) :
    copyLoop m dest src k =
      (m.put dest (s ++ [0]), nth dest (s.length + 1), BitVec.ofNat 64 (k - (s.length + 1))) := by
  induction s generalizing m dest src k with
  | nil =>
    obtain ⟨k, rfl⟩ := Nat.exists_eq_succ_of_ne_zero (Nat.ne_zero_of_lt hk)
    have h0 : m.byte src = 0 := by simpa using hs.2 0 le_rfl
    rw [copyLoop, h0]
    rfl
  | cons c s ih =>
    obtain ⟨k, rfl⟩ := Nat.exists_eq_succ_of_ne_zero (Nat.ne_zero_of_lt hk)
    rw [List.length_cons] at hsep hk
    have hc : m.byte src = c := by simpa using hs.2 0 (Nat.zero_le _)
    have hne : c ≠ 0 := fun h0 => hs.1 (h0 ▸ List.mem_cons_self ..)
    rw [copyLoop, hc]
    simp only [if_neg hne]
    rw [ih (hs.tail hsep) hsep.tail (by omega), nth_succ, List.length_cons, List.cons_append, Mem.put,
      show k.succ - (s.length + 1 + 1) = k - (s.length + 1) by omega]

/-- the count runs out first: n has wrapped -/
theorem copyLoop_long (hs : CString m.byte src s) (hsep : Apart dest src s.length) (hk : k ≤ s.length) :
    copyLoop m dest src k = (m.put dest (s.take k), nth dest k, 0 - 1) := by
  induction k generalizing m dest src s with
  | zero => simp [copyLoop, Mem.put]
  | succ k ih =>
    cases s with
    | nil => exact absurd hk (by simp)
    | cons c s =>
      rw [List.length_cons] at hsep hk
      have hc : m.byte src = c := by simpa using hs.2 0 (Nat.zero_le _)
      have hne : c ≠ 0 := fun h0 => hs.1 (h0 ▸ List.mem_cons_self ..)
      rw [copyLoop, hc]
      simp only [if_neg hne]
      rw [ih (hs.tail hsep) hsep.tail (by omega), nth_succ, List.take_succ_cons, Mem.put]

/-- **Shorter than the bound.** -/
theorem strncpy_short (hs : CString m.byte src s) (hsep : Apart dest src s.length) (hn : s.length < n.toNat) :
    strncpy m dest src n = m.put dest (s ++ List.replicate (n.toNat - s.length) 0) := by
  have hlt := n.isLt
  have hpad : n.toNat - s.length = n.toNat - (s.length + 1) + 1 := by omega
  have hleft : (BitVec.ofNat 64 (n.toNat - (s.length + 1))).toNat = n.toNat - (s.length + 1) := by
    rw [BitVec.toNat_ofNat]
    exact Nat.mod_eq_of_lt (by omega)
  rw [strncpy, copyLoop_short hs hsep hn]
  simp only [padLoop_eq, hleft]
  calc (m.put dest (s ++ [0])).put (nth dest (s.length + 1)) (List.replicate (n.toNat - (s.length + 1)) 0)
      = m.put dest ((s ++ [0]) ++ List.replicate (n.toNat - (s.length + 1)) 0) := by
        have hlen : (s ++ [0]).length = s.length + 1 := by simp
        rw [← hlen, ← put_append]
    _ = m.put dest (s ++ List.replicate (n.toNat - s.length) 0) := by
        rw [hpad, List.replicate_succ, ← List.append_cons]

/-- **At least as long as the bound.** The padding goes once around memory. -/
theorem strncpy_long (hs : CString m.byte src s) (hsep : Apart dest src s.length) (hn : n.toNat ≤ s.length) :
    strncpy m dest src n =
      (m.put dest (s.take n.toNat)).put (nth dest n.toNat) (List.replicate (2 ^ 64 - 1) 0) := by
  have hwrap : (0 - 1 : U64).toNat = 2 ^ 64 - 1 := by decide
  rw [strncpy, copyLoop_long hs hsep hn]
  simp only [padLoop_eq]
  rw [hwrap]

/-- then the bytes behind the buffer are written -/
theorem long_overruns (hs : CString m.byte src s) (hsep : Apart dest src s.length) (hn : n.toNat ≤ s.length)
    (hk : k < 2 ^ 64 - 1) : nth dest (n.toNat + k) ∈ (strncpy m dest src n).log := by
  rw [strncpy_long hs hsep hn, ← nth_add]
  exact mem_put_log.2 (Or.inl ⟨k, by rw [List.length_replicate]; exact hk, rfl⟩)

theorem long_not_bounded (hs : CString b src s) (hsep : Apart dest src s.length) (hn : n.toNat ≤ s.length) :
    ¬ BoundedCopy b dest n s (strncpy ⟨b, []⟩ dest src n) := by
  have hlt := n.isLt
  intro h
  have hbehind : nth dest (n.toNat + 0) ∈ (strncpy ⟨b, []⟩ dest src n).log := long_overruns hs hsep hn (by decide)
  rw [Nat.add_zero] at hbehind
  obtain ⟨i, hi, heq⟩ := (h.written _).1 hbehind
  exact absurd (nth_inj (by omega) (by omega) heq) (by omega)

/-- **`strncpy` is a bounded copy, exactly when** the source string is shorter than the bound. -/
theorem strncpy_iff (hs : CString b src s) (hsep : Apart dest src s.length) :
    BoundedCopy b dest n s (strncpy ⟨b, []⟩ dest src n) ↔ s.length < n.toNat := by
  have hlt := n.isLt
  constructor
  · intro h
    by_contra hn
    exact long_not_bounded hs hsep (Nat.not_lt.1 hn) h
  · intro hn
    have hlen : (s ++ List.replicate (n.toNat - s.length) 0).length = n.toNat := by
      rw [List.length_append, List.length_replicate]
      omega
    rw [strncpy_short hs hsep hn]
    refine ⟨fun a => ?_, fun i hi => ?_, fun a ha => ?_⟩
    · rw [mem_put_log, hlen]
      simp
    · rw [put_byte (by omega) (by omega)]
      by_cases his : i < s.length
      · simp [his]
      · simp [List.getElem_append_right (Nat.not_lt.1 his), List.getElem?_eq_none (Nat.not_lt.1 his)]
    · rw [put_rest fun i hi heq => ha (mem_put_log.2 (Or.inl ⟨i, hi, heq⟩))]

end Strncpy

/-- the string "a" at 256, in a memory of zeros -/
def sampleBytes (a : U64) : U8 := if a = 0x100 then 0x61 else 0

theorem sample_cstring : CString sampleBytes 0x100 [0x61] ∧ Apart 0x200 0x100 1 := by
  unfold CString Apart
  decide

/-- "a" into a field of eight bytes -/
theorem strncpy_sample : BoundedCopy sampleBytes 0x200 8 [0x61] (strncpy ⟨sampleBytes, []⟩ 0x200 0x100 8) :=
  (strncpy_iff sample_cstring.1 sample_cstring.2).2 (by decide)

/-- **A string that fills the field.** "a" with bound 1 is padded through all of memory. -/
theorem strncpy_overruns : ¬ ∀ (b : U64 → U8) (dest src n : U64) (s : List U8), CString b src s →
    Apart dest src s.length → BoundedCopy b dest n s (strncpy ⟨b, []⟩ dest src n) := by
  intro hall
  exact long_not_bounded sample_cstring.1 sample_cstring.2 (by decide)
    (hall sampleBytes 0x200 0x100 1 [0x61] sample_cstring.1 sample_cstring.2)

end Retux.Str
