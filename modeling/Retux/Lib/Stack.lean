/-
Words in memory, and a stack of them that grows down. Nothing here names a particular program.

`Words m a ws` says that the words ws stand at a, a + 8 and so on, as the fields of a struct do. A push puts one word
below them (`Words.push`), a struct is stored whole (`put`), and a write elsewhere keeps what stands (`Words.congr`,
`put_mem`). Addresses are compared as numbers, so that a block never wraps. A wide register is stored as its words, low
end first, and read back (`ofWords_wordsOf`).
-/
import Mathlib.Tactic

namespace Retux.Stack

/-- memory by words; the addresses in use are multiples of 8 -/
abbrev Mem := BitVec 64 → BitVec 64

def Words (m : Mem) : BitVec 64 → List (BitVec 64) → Prop
  | _, [] => True
  | a, w :: ws => m a = w ∧ Words m (a + 8#64) ws

/-- a is one of the n words from b on -/
def Within (a b : BitVec 64) (n : ℕ) : Prop := b.toNat ≤ a.toNat ∧ a.toNat < b.toNat + 8 * n

section Words

variable {m m' : Mem} {a v : BitVec 64} {ws ws' : List (BitVec 64)}

theorem add_eight (h : a.toNat + 8 < 2 ^ 64) : (a + 8#64).toNat = a.toNat + 8 := by
  rw [BitVec.toNat_add, show (8#64 : BitVec 64).toNat = 8 from rfl]
  omega

theorem sub_words {n : ℕ} (h : 8 * n ≤ a.toNat) : (a - BitVec.ofNat 64 (8 * n)).toNat = a.toNat - 8 * n := by
  have ha := a.isLt
  rw [BitVec.toNat_sub, BitVec.toNat_ofNat]
  omega

/-- a write elsewhere -/
theorem Words.congr (h : Words m a ws) (hw : a.toNat + 8 * ws.length ≤ 2 ^ 64)
    (hm : ∀ b, Within b a ws.length → m' b = m b) : Words m' a ws := by
  induction ws generalizing a with
  | nil => trivial
  | cons w ws ih =>
    rw [List.length_cons] at hw
    refine ⟨(hm a ⟨le_rfl, by rw [List.length_cons]; omega⟩).trans h.1, ?_⟩
    cases ws with
    | nil => trivial
    | cons w' ws =>
      rw [List.length_cons] at hw
      have h8 : (a + 8#64).toNat = a.toNat + 8 := add_eight (by omega)
      refine ih h.2 (by rw [h8, List.length_cons]; omega) fun b hb => hm b ?_
      unfold Within at *
      rw [h8] at hb
      rw [List.length_cons]
      omega

/-- **Push.** -/
theorem Words.push (h : Words m a ws) (h8 : 8 ≤ a.toNat) (hw : a.toNat + 8 * ws.length ≤ 2 ^ 64) (v : BitVec 64) :
    Words (Function.update m (a - 8#64) v) (a - 8#64) (v :: ws) := by
  refine ⟨Function.update_self .., ?_⟩
  rw [BitVec.sub_add_cancel]
  refine h.congr hw fun b hb => Function.update_of_ne ?_ _ _
  rintro rfl
  have hs : (a - BitVec.ofNat 64 (8 * 1)).toNat = a.toNat - 8 * 1 := sub_words h8
  have hb1 : a.toNat ≤ (a - 8#64).toNat := hb.1
  rw [show a - 8#64 = a - BitVec.ofNat 64 (8 * 1) from rfl, hs] at hb1
  omega

/-- a store of consecutive words -/
def put (m : Mem) : BitVec 64 → List (BitVec 64) → Mem
  | _, [] => m
  | a, w :: ws => Function.update (put m (a + 8#64) ws) a w

theorem put_words (m : Mem) (hw : a.toNat + 8 * ws.length ≤ 2 ^ 64) : Words (put m a ws) a ws := by
  induction ws generalizing a with
  | nil => trivial
  | cons w ws ih =>
    refine ⟨Function.update_self .., ?_⟩
    cases ws with
    | nil => trivial
    | cons w' ws =>
      simp only [List.length_cons] at hw ih
      have h8 : (a + 8#64).toNat = a.toNat + 8 := add_eight (by omega)
      have hw' : (a + 8#64).toNat + 8 * (w' :: ws).length ≤ 2 ^ 64 := by
        rw [h8, List.length_cons]
        omega
      refine Words.congr (ih (by omega)) hw' fun b hb => Function.update_of_ne ?_ _ _
      intro hba
      rw [hba] at hb
      have hle : (a + 8#64).toNat ≤ a.toNat := hb.1
      omega

theorem put_mem (m : Mem) (hw : a.toNat + 8 * ws.length ≤ 2 ^ 64) {b : BitVec 64} (hb : ¬ Within b a ws.length) :
    put m a ws b = m b := by
  induction ws generalizing a with
  | nil => rfl
  | cons w ws ih =>
    unfold Within at hb ih
    rw [List.length_cons] at hw hb
    have hne : b ≠ a := by
      rintro rfl
      omega
    refine (Function.update_of_ne hne _ _).trans ?_
    cases ws with
    | nil => rfl
    | cons w' ws =>
      rw [List.length_cons] at hw hb ih
      have h8 : (a + 8#64).toNat = a.toNat + 8 := add_eight (by omega)
      exact ih (by omega) (by omega)

theorem Words.left (h : Words m a (ws ++ ws')) : Words m a ws := by
  induction ws generalizing a with
  | nil => trivial
  | cons w ws ih => exact ⟨h.1, ih h.2⟩

end Words

/-! ## Wide values -/

def readWords (m : Mem) : BitVec 64 → ℕ → List (BitVec 64)
  | _, 0 => []
  | a, n + 1 => m a :: readWords m (a + 8#64) n

/-- the low n words of a number -/
def wordsOf (x : ℕ) : ℕ → List (BitVec 64)
  | 0 => []
  | n + 1 => BitVec.ofNat 64 x :: wordsOf (x / 2 ^ 64) n

def ofWords : List (BitVec 64) → ℕ
  | [] => 0
  | w :: ws => w.toNat + 2 ^ 64 * ofWords ws

section Wide

variable {m : Mem} {a : BitVec 64} {ws : List (BitVec 64)} {x n : ℕ}

@[simp] theorem wordsOf_length : (wordsOf x n).length = n := by
  induction n generalizing x with
  | zero => rfl
  | succ n ih => rw [wordsOf, List.length_cons, ih]

theorem ofWords_wordsOf : ofWords (wordsOf x n) = x % 2 ^ (64 * n) := by
  induction n generalizing x with
  | zero => simp [wordsOf, ofWords, Nat.mod_one]
  | succ n ih =>
    rw [wordsOf, ofWords, ih, BitVec.toNat_ofNat, Nat.mul_succ, Nat.add_comm (64 * n), pow_add, Nat.mod_mul]

/-- **Wide registers.** Words put together again. -/
theorem ofNat_ofWords {w : ℕ} (v : BitVec w) (hw : w = 64 * n) : BitVec.ofNat w (ofWords (wordsOf v.toNat n)) = v := by
  subst hw
  rw [ofWords_wordsOf, Nat.mod_eq_of_lt v.isLt, BitVec.ofNat_toNat, BitVec.setWidth_eq]

theorem Words.read (h : Words m a ws) : readWords m a ws.length = ws := by
  induction ws generalizing a with
  | nil => rfl
  | cons w ws ih => rw [List.length_cons, readWords, h.1, ih h.2]

end Wide

end Retux.Stack
