/-
Decimal numbers in texts. Nothing here names a particular program.

`dec n` is n in decimal, most significant digit first. `number` reads a number off the front of a text, as far as the
digits go; `unlines` reads a text of lines, each a label without digits, a number and a fixed suffix.

- `number_dec`, `unlines_lines`: reading undoes writing;
- `dec_succ`: the digits one by one, from the last on;
- `dec_length`: how many there are.
-/
import Mathlib.Tactic
import Mathlib.Data.Nat.Digits.Lemmas
import Retux.Lib.Bytes

namespace Retux.Decimal

open Retux.Word Retux.Bytes

def digit (d : ℕ) : U8 := BitVec.ofNat 8 (48 + d)

def isDigit (x : U8) : Bool := 48 ≤ x.toNat && x.toNat ≤ 57

def dec (n : ℕ) : List U8 := if n = 0 then [digit 0] else (Nat.digits 10 n).reverse.map digit

/-- what digits say -/
def value (xs : List U8) : ℕ := xs.foldl (fun n x => 10 * n + (x.toNat - 48)) 0

/-- the number in front, and what follows it -/
def number (xs : List U8) : Option (ℕ × List U8) :=
  if xs.takeWhile isDigit = [] then none else some (value (xs.takeWhile isDigit), xs.dropWhile isDigit)

/-- xs behind its prefix s -/
def behind (s xs : List U8) : Option (List U8) := if s.isPrefixOf xs then some (xs.drop s.length) else none

def line (suffix : List U8) (f : List U8 × ℕ) : List U8 := f.1 ++ (dec f.2 ++ suffix)

def unline (suffix xs : List U8) : Option ((List U8 × ℕ) × List U8) := do
  let (n, rest) ← number (xs.dropWhile fun x => !isDigit x)
  let rest ← behind suffix rest
  return ((xs.takeWhile fun x => !isDigit x, n), rest)

def unlines (suffix : List U8) : ℕ → List U8 → Option (List (List U8 × ℕ))
  | _, [] => some []
  | 0, _ :: _ => none
  | fuel + 1, x :: xs => do
    let (f, rest) ← unline suffix (x :: xs)
    let fs ← unlines suffix fuel rest
    return f :: fs

section Digits

variable {n k d : ℕ} {xs rest suffix : List U8}

theorem digit_toNat (hd : d < 10) : (digit d).toNat = 48 + d := by
  unfold digit
  rw [BitVec.toNat_ofNat]
  omega

theorem digit_isDigit (hd : d < 10) : isDigit (digit d) = true := by
  unfold isDigit
  rw [digit_toNat hd]
  simp
  omega

theorem dec_digits (x : U8) (hx : x ∈ dec n) : isDigit x = true := by
  unfold dec at hx
  split_ifs at hx
  · rw [List.mem_singleton.1 hx]
    exact digit_isDigit (by decide)
  · obtain ⟨d, hd, rfl⟩ := List.mem_map.1 hx
    exact digit_isDigit (Nat.digits_lt_base (by decide) (List.mem_reverse.1 hd))

theorem dec_ne_nil : dec n ≠ [] := by
  unfold dec
  split_ifs with h0
  · exact List.cons_ne_nil _ _
  · rw [Ne, List.map_eq_nil_iff, List.reverse_eq_nil_iff, Nat.digits_eq_nil_iff_eq_zero]
    exact h0

theorem value_snoc (x : U8) : value (xs ++ [x]) = 10 * value xs + (x.toNat - 48) := by
  unfold value
  rw [List.foldl_append]
  rfl

/-- a digit more: the last -/
theorem dec_last (h : 10 ≤ n) : dec n = dec (n / 10) ++ [digit (n % 10)] := by
  have h0 : n ≠ 0 := by omega
  have h1 : n / 10 ≠ 0 := by omega
  unfold dec
  rw [if_neg h0, if_neg h1, Nat.digits_def' (by decide) (Nat.pos_of_ne_zero h0), List.reverse_cons, List.map_append]
  rfl

theorem dec_small (h : n < 10) : dec n = [digit n] := by
  unfold dec
  split_ifs with h0
  · rw [h0]
  · rw [Nat.digits_of_lt 10 n h0 h]
    rfl

theorem value_dec : value (dec n) = n := by
  induction n using Nat.strong_induction_on with
  | _ n ih =>
    by_cases h : n < 10
    · rw [dec_small h]
      show 10 * 0 + ((digit n).toNat - 48) = n
      rw [digit_toNat h]
      omega
    · have hlt : n % 10 < 10 := Nat.mod_lt _ (by decide)
      rw [dec_last (Nat.not_lt.1 h), value_snoc, ih (n / 10) (by omega), digit_toNat hlt]
      omega

theorem dec_length (h : n < 10 ^ (k + 1)) : (dec n).length ≤ k + 1 := by
  induction k generalizing n with
  | zero => rw [dec_small (by simpa using h), List.length_singleton]
  | succ k ih =>
    by_cases hn : n < 10
    · rw [dec_small hn, List.length_singleton]
      omega
    · have hq : n / 10 < 10 ^ (k + 1) := by
        rw [Nat.div_lt_iff_lt_mul (by decide), ← pow_succ]
        exact h
      rw [dec_last (Nat.not_lt.1 hn), List.length_append, List.length_singleton]
      exact Nat.succ_le_succ (ih hq)

/-- the text behind a number -/
def Ends (rest : List U8) : Prop := ∀ x ∈ rest.head?, isDigit x = false

theorem takeWhile_ends {p : U8 → Bool} (hxs : ∀ x ∈ xs, p x = true) (hr : ∀ x ∈ rest.head?, p x = false) :
    (xs ++ rest).takeWhile p = xs ∧ (xs ++ rest).dropWhile p = rest := by
  induction xs with
  | nil =>
    cases rest with
    | nil => exact ⟨rfl, rfl⟩
    | cons x rest =>
      have hx : p x = false := hr x rfl
      refine ⟨?_, ?_⟩
      · rw [List.nil_append, List.takeWhile_cons_of_neg (by rw [hx]; decide)]
      · rw [List.nil_append, List.dropWhile_cons_of_neg (by rw [hx]; decide)]
  | cons x xs ih =>
    have hx : p x = true := hxs x (List.mem_cons_self ..)
    obtain ⟨h1, h2⟩ := ih fun y hy => hxs y (List.mem_cons_of_mem _ hy)
    refine ⟨?_, ?_⟩
    · rw [List.cons_append, List.takeWhile_cons_of_pos hx, h1]
    · rw [List.cons_append, List.dropWhile_cons_of_pos hx, h2]

/-- **Reading a number.** -/
theorem number_dec (h : Ends rest) : number (dec n ++ rest) = some (n, rest) := by
  obtain ⟨h1, h2⟩ := takeWhile_ends dec_digits h
  unfold number
  rw [h1, h2, if_neg dec_ne_nil, value_dec]

theorem behind_append : behind suffix (suffix ++ rest) = some rest := by
  unfold behind
  rw [if_pos (List.isPrefixOf_iff_prefix.2 (List.prefix_append ..)), List.drop_left]

end Digits

section Lines

variable {suffix xs rest : List U8} {f : List U8 × ℕ} {fs : List (List U8 × ℕ)} {fuel : ℕ}

theorem unline_line (hs : Ends (suffix ++ rest)) (hf : ∀ x ∈ f.1, isDigit x = false) :
    unline suffix (line suffix f ++ rest) = some (f, rest) := by
  have hlabel : ∀ x ∈ f.1, (!isDigit x) = true := by
    intro x hx
    rw [hf x hx]
    rfl
  have hnum : ∀ x ∈ (dec f.2 ++ (suffix ++ rest)).head?, (!isDigit x) = false := by
    intro x hx
    have hmem : x ∈ dec f.2 := by
      cases hd : dec f.2 with
      | nil => exact absurd hd dec_ne_nil
      | cons y ys =>
        rw [hd, List.cons_append, List.head?_cons] at hx
        rw [Option.mem_some_iff.1 hx]
        exact List.mem_cons_self ..
    rw [dec_digits x hmem]
    rfl
  obtain ⟨h1, h2⟩ := takeWhile_ends hlabel hnum
  have hassoc : line suffix f ++ rest = f.1 ++ (dec f.2 ++ (suffix ++ rest)) := by
    simp only [line, List.append_assoc]
  unfold unline
  rw [hassoc, h1, h2, number_dec hs]
  simp only [bind, Option.bind_some, behind_append]
  rfl

/-- **Reading the lines.** -/
theorem unlines_lines (hne : suffix ≠ []) (hs : Ends suffix) (hf : ∀ f ∈ fs, ∀ x ∈ f.1, isDigit x = false)
    (hfuel : fs.length ≤ fuel) : unlines suffix fuel (fs.flatMap (line suffix)) = some fs := by
  induction fs generalizing fuel with
  | nil => cases fuel <;> rfl
  | cons f fs ih =>
    obtain ⟨fuel, rfl⟩ : ∃ k, fuel = k + 1 := ⟨fuel - 1, by rw [List.length_cons] at hfuel; omega⟩
    have hends : ∀ rest, Ends (suffix ++ rest) := by
      intro rest x hx
      cases suffix with
      | nil => exact absurd rfl hne
      | cons y ys => exact hs x hx
    have hline := unline_line (hends (fs.flatMap (line suffix))) (hf f (List.mem_cons_self ..))
    have hrest := ih (fun g hg => hf g (List.mem_cons_of_mem _ hg)) (Nat.le_of_succ_le_succ hfuel)
    rw [List.flatMap_cons]
    -- a line is not empty
    cases hxs : line suffix f ++ fs.flatMap (line suffix) with
    | nil => simp [line, dec_ne_nil] at hxs
    | cons x xs =>
      rw [hxs] at hline
      simp only [unlines, hline, hrest, bind, Option.bind_some]
      rfl

end Lines

end Retux.Decimal
