/-
Boundary tags and free lists. Nothing here names a particular program.

An interval is cut into cells, one after the other. Every cell carries its size and whether it is free twice: in a
header of two words at its start and in a footer of two words at its end. The word after the header of a free cell is a
link, and the free cells hang on a list through it. Memory is a function from byte offsets to words of 64 bits.

- `At`: which cell starts where; `frees`: where the free ones start;
- `Tagged`: the tags are what the cells say. `Tagged.splice` is the rule for a change of a few neighbouring cells: the
  words of the others may change in their links only;
- `Linked`: the list in memory, `Linked.remove` and `Linked.congr`.
-/
import Mathlib.Tactic
import Retux.Lib.Bytes

namespace Retux.Tags

open Retux.Word Retux.Bytes

/-! ## Cells -/

structure Cell where
  size : ℕ
  free : Bool

/-- two tags and a link -/
def MIN : ℕ := 40

def total (cs : List Cell) : ℕ := (cs.map Cell.size).sum

/-- cell d of the list starts at o, where the first starts at a -/
def At : ℕ → List Cell → ℕ → Cell → Prop
  | _, [], _, _ => False
  | a, c :: cs, o, d => (o = a ∧ d = c) ∨ At (a + c.size) cs o d

/-- where the free cells start -/
def frees : ℕ → List Cell → List ℕ
  | _, [] => []
  | a, c :: cs => if c.free then a :: frees (a + c.size) cs else frees (a + c.size) cs

/-- cells with room for their tags, of whole words -/
def Sized (cs : List Cell) : Prop := ∀ c ∈ cs, MIN ≤ c.size ∧ 8 ∣ c.size

/-- no two neighbours are free -/
def Merged (cs : List Cell) : Prop := cs.IsChain fun c d => ¬ (c.free = true ∧ d.free = true)

section Cells

variable {a o o' x : ℕ} {c c' d : Cell} {cs xs ys : List Cell}

@[simp] theorem total_nil : total [] = 0 := rfl

@[simp] theorem total_cons : total (c :: cs) = c.size + total cs := by simp [total]

@[simp] theorem total_append : total (xs ++ ys) = total xs + total ys := by simp [total]

@[simp] theorem at_nil : ¬ At a [] o c := fun h => h

@[simp] theorem at_cons : At a (c :: cs) o d ↔ (o = a ∧ d = c) ∨ At (a + c.size) cs o d := Iff.rfl

@[simp] theorem at_append : At a (xs ++ ys) o c ↔ At a xs o c ∨ At (a + total xs) ys o c := by
  induction xs generalizing a with
  | nil => simp
  | cons x xs ih => rw [List.cons_append, at_cons, ih, at_cons, total_cons, Nat.add_assoc, or_assoc]

theorem At.mem (h : At a cs o c) : c ∈ cs := by
  induction cs generalizing a with
  | nil => exact absurd h at_nil
  | cons d cs ih =>
    rcases h with ⟨-, rfl⟩ | h
    · exact List.mem_cons_self ..
    · exact List.mem_cons_of_mem _ (ih h)

theorem At.bounds (h : At a cs o c) : a ≤ o ∧ o + c.size ≤ a + total cs := by
  induction cs generalizing a with
  | nil => exact absurd h at_nil
  | cons d cs ih =>
    rw [total_cons]
    rcases h with ⟨rfl, rfl⟩ | h
    · omega
    · have := ih h
      omega

/-- the cells before and after it -/
theorem At.split (h : At a cs o c) : ∃ pre post, cs = pre ++ c :: post ∧ o = a + total pre := by
  induction cs generalizing a with
  | nil => exact absurd h at_nil
  | cons d cs ih =>
    rcases h with ⟨rfl, rfl⟩ | h
    · exact ⟨[], cs, rfl, rfl⟩
    · obtain ⟨pre, post, rfl, ho⟩ := ih h
      exact ⟨d :: pre, post, rfl, by rw [ho, total_cons, Nat.add_assoc]⟩

/-- two cells are the same or apart -/
theorem At.apart (h : At a cs o c) (h' : At a cs o' c') :
    (o = o' ∧ c = c') ∨ o + c.size ≤ o' ∨ o' + c'.size ≤ o := by
  induction cs generalizing a with
  | nil => exact absurd h at_nil
  | cons d cs ih =>
    rcases h with ⟨rfl, rfl⟩ | h <;> rcases h' with ⟨rfl, rfl⟩ | h'
    · exact Or.inl ⟨rfl, rfl⟩
    · exact Or.inr (Or.inl h'.bounds.1)
    · exact Or.inr (Or.inr h.bounds.1)
    · exact ih h h'

theorem mem_frees : o ∈ frees a cs ↔ ∃ c, At a cs o c ∧ c.free = true := by
  induction cs generalizing a with
  | nil => simp [frees]
  | cons d cs ih =>
    unfold frees
    cases hd : d.free with
    | false =>
      rw [if_neg (by simp), ih]
      constructor
      · rintro ⟨c, hc, hf⟩
        exact ⟨c, Or.inr hc, hf⟩
      · rintro ⟨c, ⟨-, rfl⟩ | hc, hf⟩
        · rw [hd] at hf
          cases hf
        · exact ⟨c, hc, hf⟩
    | true =>
      rw [if_pos rfl, List.mem_cons, ih]
      constructor
      · rintro (rfl | ⟨c, hc, hf⟩)
        · exact ⟨d, Or.inl ⟨rfl, rfl⟩, hd⟩
        · exact ⟨c, Or.inr hc, hf⟩
      · rintro ⟨c, ⟨rfl, rfl⟩ | hc, hf⟩
        · exact Or.inl rfl
        · exact Or.inr ⟨c, hc, hf⟩

@[simp] theorem frees_nil : frees a [] = [] := rfl

theorem frees_free (h : c.free = true) : frees a (c :: cs) = a :: frees (a + c.size) cs := if_pos h

theorem frees_used (h : c.free = false) : frees a (c :: cs) = frees (a + c.size) cs := if_neg (by rw [h]; decide)

theorem frees_append : frees a (xs ++ ys) = frees a xs ++ frees (a + total xs) ys := by
  induction xs generalizing a with
  | nil => rfl
  | cons x xs ih =>
    rw [List.cons_append]
    cases hx : x.free with
    | false => rw [frees_used hx, frees_used hx, ih, total_cons, Nat.add_assoc]
    | true => rw [frees_free hx, frees_free hx, ih, total_cons, Nat.add_assoc, List.cons_append]

theorem sized_cons : Sized (c :: cs) ↔ (MIN ≤ c.size ∧ 8 ∣ c.size) ∧ Sized cs := List.forall_mem_cons

theorem sized_nil : Sized [] := fun _ h => absurd h (List.not_mem_nil)

theorem Sized.left (h : Sized (xs ++ ys)) : Sized xs := fun c hc => h c (List.mem_append_left _ hc)

theorem Sized.right (h : Sized (xs ++ ys)) : Sized ys := fun c hc => h c (List.mem_append_right _ hc)

theorem Sized.tail (h : Sized (c :: cs)) : Sized cs := fun d hd => h d (List.mem_cons_of_mem _ hd)

theorem Sized.head (h : Sized (c :: cs)) : MIN ≤ c.size ∧ 8 ∣ c.size := h c (List.mem_cons_self ..)

theorem Sized.append (h : Sized xs) (h' : Sized ys) : Sized (xs ++ ys) := fun c hc =>
  (List.mem_append.1 hc).elim (h c) (h' c)

theorem merged_singleton : Merged [c] := List.IsChain.singleton c

theorem Merged.left (h : Merged (xs ++ ys)) : Merged xs := List.IsChain.left_of_append h

theorem Merged.right (h : Merged (xs ++ ys)) : Merged ys := List.IsChain.right_of_append h

theorem merged_mid : Merged (xs ++ c :: ys) ↔ Merged (xs ++ [c]) ∧ Merged (c :: ys) := List.isChain_split

/-- an allocated cell has any neighbours -/
theorem Merged.cons_used (h : Merged ys) (hc : c.free = false) : Merged (c :: ys) :=
  h.cons fun _ _ hfree => Bool.false_ne_true (hc.symm.trans hfree.1)

theorem Merged.snoc_used (h : Merged xs) (hc : c.free = false) : Merged (xs ++ [c]) := by
  refine h.append (List.IsChain.singleton c) fun x _ y hy hfree => ?_
  obtain rfl : c = y := by simpa using hy
  exact Bool.false_ne_true (hc.symm.trans hfree.2)

/-- the flags are all that matters -/
theorem Merged.cons_congr (h : Merged (c :: ys)) (hd : d.free = c.free) : Merged (d :: ys) := by
  obtain ⟨hhead, htail⟩ := List.isChain_cons.1 h
  exact htail.cons fun y hy => by rw [hd]; exact hhead y hy

theorem Merged.snoc_congr (h : Merged (xs ++ [c])) (hd : d.free = c.free) : Merged (xs ++ [d]) := by
  obtain ⟨hinit, -, hlast⟩ := List.isChain_append.1 h
  refine hinit.append (List.IsChain.singleton d) fun x hx y hy => ?_
  obtain rfl : d = y := by simpa using hy
  rw [hd]
  exact hlast x hx c rfl

theorem Sized.dvd (h : Sized cs) : 8 ∣ total cs := by
  induction cs with
  | nil => exact Nat.dvd_zero 8
  | cons c cs ih =>
    rw [total_cons]
    exact Nat.dvd_add h.head.2 (ih h.tail)

end Cells

/-! ## Tags -/

/-- a flag is the low byte of its word -/
def flag (x : U64) : Bool := byteOf x 0 ≠ 0

/-- the four tag words of a cell at o -/
structure Tag (w : ℕ → U64) (o : ℕ) (c : Cell) : Prop where
  size : (w o).toNat = c.size
  free : flag (w (o + 8)) = c.free
  size' : (w (o + c.size - 16)).toNat = c.size
  free' : flag (w (o + c.size - 8)) = c.free

def Tagged (w : ℕ → U64) (a : ℕ) (cs : List Cell) : Prop := ∀ o c, At a cs o c → Tag w o c

/-- x is the word for the link of some cell -/
def IsLink (a : ℕ) (cs : List Cell) (x : ℕ) : Prop := ∃ o c, At a cs o c ∧ x = o + 16

section Tags

variable {w w' : ℕ → U64} {a o x : ℕ} {c : Cell} {cs pre m n post : List Cell}

/-- the words of a cell outside its tags do not matter -/
theorem Tag.congr (h : Tag w o c) (hc : MIN ≤ c.size) (hw : ∀ x, o ≤ x → x < o + c.size → x ≠ o + 16 → w' x = w x) :
    Tag w' o c := by
  unfold MIN at hc
  constructor
  · rw [hw _ (by omega) (by omega) (by omega)]
    exact h.size
  · rw [hw _ (by omega) (by omega) (by omega)]
    exact h.free
  · rw [hw _ (by omega) (by omega) (by omega)]
    exact h.size'
  · rw [hw _ (by omega) (by omega) (by omega)]
    exact h.free'

theorem tagged_cons : Tagged w a (c :: cs) ↔ Tag w a c ∧ Tagged w (a + c.size) cs := by
  constructor
  · exact fun h => ⟨h a c (Or.inl ⟨rfl, rfl⟩), fun o d hd => h o d (Or.inr hd)⟩
  · rintro ⟨hc, hcs⟩ o d (⟨rfl, rfl⟩ | hd)
    · exact hc
    · exact hcs o d hd

theorem tagged_nil : Tagged w a [] := fun _ _ h => absurd h at_nil

/-- links are no tags -/
theorem Tagged.congr (h : Tagged w a cs) (hs : Sized cs)
    (hw : ∀ x, a ≤ x → x < a + total cs → ¬ IsLink a cs x → w' x = w x) : Tagged w' a cs := by
  intro o c hc
  refine (h o c hc).congr (hs c hc.mem).1 fun x hlo hhi hne => ?_
  have hb := hc.bounds
  refine hw x (by omega) (by omega) ?_
  rintro ⟨o', c', hc', rfl⟩
  have hs' := (hs c' hc'.mem).1
  unfold MIN at hs'
  rcases hc.apart hc' with ⟨rfl, -⟩ | hlt | hlt
  · exact hne rfl
  · omega
  · omega

/-- **A change in the middle.** Cells that fill the same room take the place of others; elsewhere only links change. -/
theorem Tagged.splice (h : Tagged w a (pre ++ (m ++ post))) (hs : Sized (pre ++ (m ++ post)))
    (hw : ∀ x, a ≤ x → x < a + total (pre ++ (m ++ post)) →
      (x < a + total pre ∨ a + total pre + total m ≤ x) → ¬ IsLink a (pre ++ (m ++ post)) x → w' x = w x)
    (hn : Tagged w' (a + total pre) n) (hlen : total n = total m) :
    Tagged w' a (pre ++ (n ++ post)) := by
  have hpre : Tagged w a pre := fun o c hc => h o c (at_append.2 (Or.inl hc))
  have hpost : Tagged w (a + total pre + total m) post := fun o c hc =>
    h o c (at_append.2 (Or.inr (at_append.2 (Or.inr hc))))
  simp only [total_append] at hw
  intro o c hc
  rcases at_append.1 hc with hc | hc
  · refine hpre.congr hs.left (fun x hlo hhi hx => hw x hlo (by omega) (Or.inl hhi) ?_) o c hc
    rintro ⟨o', c', hc', rfl⟩
    rcases at_append.1 hc' with hc' | hc'
    · exact hx ⟨o', c', hc', rfl⟩
    · have := hc'.bounds.1
      omega
  · rcases at_append.1 hc with hc | hc
    · exact hn o c hc
    · rw [hlen] at hc
      refine hpost.congr hs.right.right (fun x hlo hhi hx => hw x (by omega) (by omega) (Or.inr hlo) ?_) o c hc
      rintro ⟨o', c', hc', rfl⟩
      have hb := hc'.bounds
      have hsz := (hs c' hc'.mem).1
      unfold MIN at hsz
      rcases at_append.1 hc' with hl | hl
      · have := hl.bounds
        omega
      · rcases at_append.1 hl with hl | hl
        · have := hl.bounds
          omega
        · exact hx ⟨o', c', hl, rfl⟩

end Tags

/-! ## Lists in memory -/

/-- from pointer p through the cells of l to null; `ptr o` is the pointer to offset o -/
def Linked (ptr : ℕ → U64) (w : ℕ → U64) : U64 → List ℕ → Prop
  | p, [] => p = 0
  | p, o :: l => p = ptr o ∧ Linked ptr w (w (o + 16)) l

section Lists

variable {ptr : ℕ → U64} {w w' : ℕ → U64} {p : U64} {l l1 l2 : List ℕ} {x y : ℕ}

theorem Linked.congr (h : Linked ptr w p l) (hw : ∀ o ∈ l, w' (o + 16) = w (o + 16)) : Linked ptr w' p l := by
  induction l generalizing p with
  | nil => exact h
  | cons o l ih =>
    refine ⟨h.1, ?_⟩
    rw [hw o (List.mem_cons_self ..)]
    exact ih h.2 fun o' ho' => hw o' (List.mem_cons_of_mem _ ho')

/-- **One less.** The cell y before x takes over the link of x. -/
theorem Linked.remove (h : Linked ptr w p (l1 ++ y :: x :: l2)) (hy : w' (y + 16) = w (x + 16))
    (hw : ∀ o ∈ l1 ++ l2, w' (o + 16) = w (o + 16)) : Linked ptr w' p (l1 ++ y :: l2) := by
  induction l1 generalizing p with
  | nil =>
    refine ⟨h.1, ?_⟩
    rw [hy]
    exact h.2.2.congr hw
  | cons o l1 ih =>
    refine ⟨h.1, ?_⟩
    rw [hw o (List.mem_cons_self ..)]
    exact ih h.2 fun o' ho' => hw o' (List.mem_cons_of_mem _ ho')

end Lists

end Retux.Tags
