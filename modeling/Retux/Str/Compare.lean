/-
Measuring and comparing strings (`lib/string.cpp`).

A string is the bytes from an index of a buffer on, up to a NUL; `IsStr` says which list of bytes that is. The results
say that the loops compute on lists: `strnlen_eq`, `strcmp_iff`.
-/
import Mathlib.Tactic
import Mathlib.Data.List.GetD
import Retux.Lib.Bytes

namespace Retux.Str

open Retux.Bytes

/-! ## Model -/

def strnlen (s : ℕ → U8) (a : ℕ) : ℕ → ℕ
  | 0 => 0
  | max + 1 => if s a = 0 then 0 else strnlen s (a + 1) max + 1

/-- the second string is a list without a NUL -/
def strcmp (s1 : ℕ → U8) (a : ℕ) : List U8 → ℤ
  | [] => (s1 a).toNat
  | c :: s2 => if s1 a ≠ 0 ∧ s1 a = c then strcmp s1 (a + 1) s2 else (s1 a).toNat - c.toNat

/-- the first n characters; the second string is again a list without a NUL -/
def strncmp (s1 : ℕ → U8) (a : ℕ) : List U8 → ℕ → ℤ
  | _, 0 => 0
  | [], _ + 1 => (s1 a).toNat
  | c :: s2, n + 1 => if s1 a ≠ 0 ∧ s1 a = c then strncmp s1 (a + 1) s2 n else (s1 a).toNat - c.toNat

/-! ## Strings in a buffer -/

/-- the list l and a NUL at index a -/
def IsStr (s : ℕ → U8) (a : ℕ) (l : List U8) : Prop := 0 ∉ l ∧ ∀ i, i ≤ l.length → s (a + i) = l.getD i 0

/-- the text l in a field of w bytes, with a NUL after it unless it fills the field -/
structure IsField (s : ℕ → U8) (a w : ℕ) (l : List U8) : Prop where
  text : 0 ∉ l
  fits : l.length ≤ w
  bytes : Holds s a l
  stop : l.length < w → s (a + l.length) = 0

section Strings

variable {s : ℕ → U8} {a max w : ℕ} {c : U8} {l l' : List U8}

theorem IsStr.head (h : IsStr s a (c :: l)) : s a = c ∧ c ≠ 0 := by
  refine ⟨h.2 0 (Nat.zero_le _), ?_⟩
  rintro rfl
  exact h.1 (List.mem_cons_self ..)

theorem IsStr.tail (h : IsStr s a (c :: l)) : IsStr s (a + 1) l := by
  refine ⟨fun h0 => h.1 (List.mem_cons_of_mem _ h0), fun i hi => ?_⟩
  rw [Nat.add_assoc, Nat.add_comm 1]
  exact h.2 (i + 1) (Nat.succ_le_succ hi)

theorem IsStr.stop (h : IsStr s a []) : s a = 0 := h.2 0 le_rfl

theorem Holds.isStr (h : Holds s a (l ++ [0])) (hl : 0 ∉ l) : IsStr s a l := by
  refine ⟨hl, fun i hi => ?_⟩
  rcases Nat.lt_or_eq_of_le hi with hlt | rfl
  · rw [h.left i hlt, List.getD_eq_getElem _ _ hlt]
  · have hstop := h.right 0 (by simp)
    rw [Nat.add_zero] at hstop
    rw [hstop]
    simp

/-- the string again, byte by byte -/
theorem IsStr.bytes (h : IsStr s a l) : (List.range l.length).map (fun k => s (a + k)) = l := by
  refine List.ext_getElem (by simp) fun i hi _ => ?_
  have hi' : i < l.length := by simpa using hi
  rw [List.getElem_map, List.getElem_range, h.2 i (Nat.le_of_lt hi'), List.getD_eq_getElem _ _ hi']

/-- a list in memory, as a buffer of its own -/
theorem isStr_getD (h : 0 ∉ l) : IsStr (fun i => l.getD i 0) 0 l := ⟨h, fun i _ => by rw [Nat.zero_add]⟩

theorem strnlen_eq (h : IsStr s a l) (hm : l.length ≤ max) : strnlen s a max = l.length := by
  induction l generalizing a max with
  | nil =>
    cases max with
    | zero => rfl
    | succ max => rw [strnlen, if_pos h.stop, List.length_nil]
  | cons c l ih =>
    cases max with
    | zero => exact absurd hm (by simp)
    | succ max =>
      rw [strnlen, h.head.1, if_neg h.head.2, ih h.tail (Nat.le_of_succ_le_succ hm), List.length_cons]

theorem strnlen_field (h : IsField s a w l) : strnlen s a w = l.length := by
  induction l generalizing a w with
  | nil =>
    cases w with
    | zero => rfl
    | succ w =>
      have hstop : s a = 0 := h.stop (Nat.succ_pos w)
      rw [strnlen, if_pos hstop, List.length_nil]
  | cons c l ih =>
    have hlen := h.fits
    rw [List.length_cons] at hlen
    obtain ⟨w, rfl⟩ : ∃ v, w = v + 1 := ⟨w - 1, by omega⟩
    have hc : s a = c := h.bytes 0 (Nat.succ_pos _)
    have hne : c ≠ 0 := fun h0 => h.text (h0 ▸ List.mem_cons_self ..)
    have htail : IsField s (a + 1) w l := by
      refine ⟨fun h0 => h.text (List.mem_cons_of_mem _ h0), by omega, fun i hi => ?_, fun hlt => ?_⟩
      · rw [Nat.add_assoc, Nat.add_comm 1]
        exact h.bytes (i + 1) (Nat.succ_lt_succ hi)
      · rw [Nat.add_assoc, Nat.add_comm 1]
        exact h.stop (Nat.succ_lt_succ hlt)
    rw [strnlen, hc, if_neg hne, ih htail, List.length_cons]

/-- **Comparing.** `strcmp` is 0 on equal strings only. -/
theorem strcmp_iff (h : IsStr s a l) (h' : 0 ∉ l') : strcmp s a l' = 0 ↔ l = l' := by
  have hzero : (0 : U8).toNat = 0 := rfl
  induction l' generalizing a l with
  | nil =>
    cases l with
    | nil => simp [strcmp, h.stop]
    | cons c l =>
      have hpos : c.toNat ≠ 0 := fun h0 => h.head.2 (BitVec.eq_of_toNat_eq h0)
      simp [strcmp, h.head.1, hpos]
  | cons c' l' ih =>
    have hc' : c' ≠ 0 := fun h0 => h' (h0 ▸ List.mem_cons_self ..)
    have hpos : c'.toNat ≠ 0 := fun h0 => hc' (BitVec.eq_of_toNat_eq h0)
    rw [strcmp]
    cases l with
    | nil =>
      rw [h.stop, if_neg fun hh => hh.1 rfl, hzero]
      simp [hpos]
    | cons c l =>
      rw [h.head.1]
      by_cases hcc : c = c'
      · have hrest : strcmp s (a + 1) l' = 0 ↔ l = l' := ih h.tail fun h0 => h' (List.mem_cons_of_mem _ h0)
        rw [if_pos ⟨h.head.2, hcc⟩, hrest, hcc, List.cons.injEq]
        simp
      · rw [if_neg fun hh => hcc hh.2, sub_eq_zero, List.cons.injEq]
        constructor
        · intro heq
          exact absurd (BitVec.eq_of_toNat_eq (Int.ofNat_inj.1 heq)) hcc
        · intro heq
          exact absurd heq.1 hcc

/-- a text in memory compares equal to itself -/
theorem strncmp_of_holds (h : Holds s a l) (h0 : 0 ∉ l) : strncmp s a l l.length = 0 := by
  induction l generalizing a with
  | nil => rfl
  | cons c l ih =>
    have hc : s a = c := h 0 (Nat.succ_pos _)
    have hne : c ≠ 0 := fun hz => h0 (hz ▸ List.mem_cons_self ..)
    have htail : Holds s (a + 1) l := by
      intro i hi
      rw [Nat.add_assoc, Nat.add_comm 1]
      exact h (i + 1) (Nat.succ_lt_succ hi)
    rw [List.length_cons, strncmp, hc, if_pos ⟨hne, rfl⟩]
    exact ih htail fun hz => h0 (List.mem_cons_of_mem _ hz)

end Strings

end Retux.Str
