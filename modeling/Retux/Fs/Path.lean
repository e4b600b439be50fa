/-
Paths as lists of names.

`names` is what a path says: what stands between the slashes, empty pieces dropped. The code cuts a path up in two ways:
`insert_path` takes pieces of at most 99 bytes and skips any run of slashes after each (`pieces`), `lookup_path` takes
pieces of at most 255 bytes and skips one slash (`steps`).

- `pieces_eq`: the pieces are the names, if no name is longer than 99 bytes;
- `steps_eq`: so are the steps, if none of them is empty or longer than 254 bytes;
- `join_names_le`: the names take no more room than the path;
- `names_shorter`: a path cut off at its end has no longer names.
-/
import Mathlib.Tactic
import Retux.Fs.Vfs

namespace Retux.Path

open Retux.Bytes Retux.Vfs

/-- the names in a path -/
def names (path : List U8) : List (List U8) := (path.splitOn SLASH).filter (· ≠ [])

/-- the pieces `insert_path` takes from a path that does not start with a slash -/
def pieces : ℕ → List U8 → List (List U8)
  | 0, _ => []
  | n + 1, path =>
    if path = [] then []
    else (component 99 path).1 :: pieces n ((component 99 path).2.dropWhile (· = SLASH))

/-- `if (*path == '/') ++path;` -/
def skipSlash (path : List U8) : List U8 := if path.head? = some SLASH then path.tail else path

/-- the pieces `lookup_path` takes -/
def steps : ℕ → List U8 → List (List U8)
  | 0, _ => []
  | n + 1, path =>
    if path = [] then [] else (component 255 path).1 :: steps n (skipSlash (component 255 path).2)

/-- at the end of a path, or before a slash -/
def AtBreak (rest : List U8) : Prop := rest = [] ∨ rest.head? = some SLASH

section Names

variable {path c rest a b : List U8} {p : List (List U8)} {cap n : ℕ}

@[simp] theorem names_nil : names [] = [] := by
  rw [names, List.splitOn_nil]
  rfl

theorem names_append_slash : names (a ++ SLASH :: b) = names a ++ names b := by
  rw [names, List.splitOn_append_cons_self, List.filter_append]
  rfl

@[simp] theorem names_slash : names (SLASH :: b) = names b := by
  have h := names_append_slash (a := []) (b := b)
  rwa [names_nil, List.nil_append, List.nil_append] at h

theorem names_single (hc : SLASH ∉ c) (hne : c ≠ []) : names c = [c] := by
  rw [names, List.splitOn_eq_singleton hc]
  simp [hne]

@[simp] theorem names_dropWhile : names (path.dropWhile (· = SLASH)) = names path := by
  induction path with
  | nil => rfl
  | cons x path ih =>
    by_cases hx : x = SLASH
    · rw [List.dropWhile_cons_of_pos (by simpa using hx), ih, hx, names_slash]
    · rw [List.dropWhile_cons_of_neg (by simpa using hx)]

theorem names_cons (hc : SLASH ∉ c) (hne : c ≠ []) (hrest : AtBreak rest) :
    names (c ++ rest) = c :: names rest := by
  cases rest with
  | nil => rw [List.append_nil, names_single hc hne, names_nil]
  | cons x rest =>
    have hx : x = SLASH := by simpa [AtBreak] using hrest
    subst hx
    rw [names_append_slash, names_single hc hne, names_slash]
    rfl

@[simp] theorem names_skipSlash : names (skipSlash path) = names path := by
  unfold skipSlash
  split_ifs with h
  · cases path with
    | nil => rfl
    | cons x path =>
      obtain rfl : x = SLASH := by simpa using h
      rw [List.tail_cons, names_slash]
  · rfl

theorem atBreak_dropWhile : (path.dropWhile (· = SLASH)).head? ≠ some SLASH := fun h => by
  have hd := List.head?_dropWhile_not (fun x => decide (x = SLASH)) path
  rw [h] at hd
  simp at hd

/-- a path that does not start with a slash, up to its first slash -/
theorem exists_name (hne : path ≠ []) (hhead : path.head? ≠ some SLASH) :
    ∃ c rest, path = c ++ rest ∧ c ≠ [] ∧ SLASH ∉ c ∧ AtBreak rest := by
  induction path with
  | nil => exact absurd rfl hne
  | cons x path ih =>
    have hx : x ≠ SLASH := by simpa using hhead
    by_cases hb : AtBreak path
    · exact ⟨[x], path, rfl, by simp, by simpa using hx.symm, hb⟩
    · obtain ⟨c, rest, rfl, -, hc, hrest⟩ := ih (fun h => hb (Or.inl h)) fun h => hb (Or.inr h)
      exact ⟨x :: c, rest, rfl, by simp, by simp [hx.symm, hc], hrest⟩

/-- **Induction along a path**, name by name. -/
theorem path_induction {motive : List U8 → Prop} (nil : motive [])
    (slash : ∀ path, motive path → motive (SLASH :: path))
    (name : ∀ c rest, c ≠ [] → SLASH ∉ c → AtBreak rest → motive rest → motive (c ++ rest)) (path : List U8) :
    motive path := by
  induction hn : path.length using Nat.strong_induction_on generalizing path with
  | _ n ih =>
    subst hn
    by_cases hne : path = []
    · rwa [hne]
    by_cases hhead : path.head? = some SLASH
    · cases path with
      | nil => exact absurd rfl hne
      | cons x path =>
        obtain rfl : x = SLASH := by simpa using hhead
        exact slash path (ih _ (Nat.lt_succ_self _) path rfl)
    · obtain ⟨c, rest, rfl, hc, hslash, hrest⟩ := exists_name hne hhead
      have hpos : 0 < c.length := List.length_pos_iff.2 hc
      exact name c rest hc hslash hrest (ih _ (by rw [List.length_append]; omega) rest rfl)

theorem mem_names (h : c ∈ names path) : c ≠ [] ∧ SLASH ∉ c ∧ c ⊆ path := by
  induction path using path_induction with
  | nil => exact absurd h (by simp)
  | slash path ih =>
    rw [names_slash] at h
    obtain ⟨hne, hs, hsub⟩ := ih h
    exact ⟨hne, hs, List.subset_cons_of_subset _ hsub⟩
  | name c' rest hc hslash hrest ih =>
    rw [names_cons hslash hc hrest, List.mem_cons] at h
    rcases h with rfl | h
    · exact ⟨hc, hslash, List.subset_append_left _ _⟩
    · obtain ⟨hne, hs, hsub⟩ := ih h
      exact ⟨hne, hs, List.subset_append_of_subset_right _ hsub⟩

theorem names_join (hp : ∀ c ∈ p, c ≠ [] ∧ SLASH ∉ c) : names (join p) = p := by
  induction p with
  | nil => exact names_nil
  | cons c p ih =>
    have hc := hp c (List.mem_cons_self ..)
    have hcons : join (c :: p) = SLASH :: (c ++ join p) := rfl
    rw [hcons, names_slash, names_cons hc.2 hc.1 join_head, ih fun c' h' => hp c' (List.mem_cons_of_mem _ h')]

/-- the names, each with a slash before it -/
theorem join_names_le : (join (names path)).length ≤ path.length + 1 ∧
    (AtBreak path → (join (names path)).length ≤ path.length) := by
  induction path using path_induction with
  | nil => simp [join]
  | slash path ih =>
    rw [names_slash, List.length_cons]
    exact ⟨by omega, fun _ => ih.1⟩
  | name c rest hc hslash hrest ih =>
    have hlen : (join (names (c ++ rest))).length = c.length + 1 + (join (names rest)).length := by
      rw [names_cons hslash hc hrest, join, List.flatMap_cons, List.length_append, List.length_cons, join]
    have hle := ih.2 hrest
    rw [hlen, List.length_append]
    refine ⟨by omega, fun hb => ?_⟩
    obtain ⟨x, c, rfl⟩ := List.exists_cons_of_ne_nil hc
    rcases hb with hb | hb
    · exact absurd hb (by simp)
    · exact absurd (by simpa using hb) fun h : x = SLASH => hslash (h ▸ List.mem_cons_self ..)

theorem names_shorter (b : List U8) (hc : c ∈ names a) : ∃ c' ∈ names (a ++ b), c.length ≤ c'.length := by
  induction a using path_induction with
  | nil => exact absurd hc (by simp)
  | slash a ih =>
    rw [names_slash] at hc
    rw [List.cons_append, names_slash]
    exact ih hc
  | name c' rest hne hslash hrest ih =>
    rw [names_cons hslash hne hrest, List.mem_cons] at hc
    cases rest with
    | nil =>
      obtain rfl : c = c' := by simpa using hc
      rw [List.append_nil]
      by_cases hb : AtBreak b
      · exact ⟨c, by simp [names_cons hslash hne hb], le_rfl⟩
      · obtain ⟨d, rest, rfl, -, hd, hrest⟩ := exists_name (fun h => hb (Or.inl h)) fun h => hb (Or.inr h)
        refine ⟨c ++ d, ?_, by simp⟩
        rw [← List.append_assoc, names_cons (by simp [hslash, hd]) (by simp [hne]) hrest]
        exact List.mem_cons_self ..
    | cons x rest =>
      obtain rfl : x = SLASH := by simpa [AtBreak] using hrest
      rw [List.append_assoc, names_cons hslash hne (Or.inr rfl)]
      rcases hc with rfl | hc
      · exact ⟨c, List.mem_cons_self .., le_rfl⟩
      · obtain ⟨c'', hmem, hle⟩ := ih hc
        exact ⟨c'', List.mem_cons_of_mem _ hmem, hle⟩

end Names

/-! ## The two loops -/

section Loops

variable {path c rest : List U8} {cap n : ℕ}

theorem component_split (cap : ℕ) (path : List U8) : (component cap path).1 ++ (component cap path).2 = path := by
  induction path generalizing cap with
  | nil => rfl
  | cons x path ih =>
    rw [component]
    split_ifs
    · rfl
    · rw [List.cons_append, ih]

theorem component_name (cap : ℕ) (path : List U8) : SLASH ∉ (component cap path).1 ∧ (component cap path).1.length ≤ cap := by
  induction path generalizing cap with
  | nil => simp [component]
  | cons x path ih =>
    rw [component]
    split_ifs with h
    · simp
    · have hx : x ≠ SLASH ∧ cap ≠ 0 := not_or.1 h
      have hrest := @ih (cap - 1)
      refine ⟨by simp [hx.1.symm, hrest.1], ?_⟩
      rw [List.length_cons]
      omega

theorem component_ne_nil (hcap : 0 < cap) (hne : path ≠ []) (hhead : path.head? ≠ some SLASH) :
    (component cap path).1 ≠ [] := by
  cases path with
  | nil => exact absurd rfl hne
  | cons x path =>
    have hx : ¬ (x = SLASH ∨ cap = 0) := by
      rintro (rfl | h0)
      · exact hhead rfl
      · omega
    rw [component, if_neg hx]
    exact List.cons_ne_nil _ _

/-- a name that does not fit is cut to the length of the buffer -/
theorem component_long (rest : List U8) (hc : SLASH ∉ c) (hcap : cap < c.length) : (component cap (c ++ rest)).1.length = cap := by
  induction c generalizing cap with
  | nil => exact absurd hcap (by simp)
  | cons x c ih =>
    rw [List.cons_append, component]
    by_cases hx : x = SLASH ∨ cap = 0
    · rcases hx with rfl | rfl
      · exact absurd (List.mem_cons_self ..) hc
      · simp
    · rw [if_neg hx, List.length_cons, ih (fun h => hc (List.mem_cons_of_mem _ h))]
      all_goals
        rw [List.length_cons] at hcap
        omega

theorem component_lt (hcap : 0 < cap) (hne : path ≠ []) (hhead : path.head? ≠ some SLASH) :
    (component cap path).2.length < path.length := by
  have hsplit := congrArg List.length (component_split cap path)
  have hpos : 0 < (component cap path).1.length := List.length_pos_iff.2 (component_ne_nil hcap hne hhead)
  rw [List.length_append] at hsplit
  omega

theorem dropWhile_length_le (path : List U8) : (path.dropWhile (· = SLASH)).length ≤ path.length :=
  (List.dropWhile_suffix _).length_le

/-- **The loop of `insert_path`.** -/
theorem pieces_eq (hn : path.length ≤ n) (hhead : path.head? ≠ some SLASH) (hs : ∀ c ∈ names path, c.length ≤ 99) :
    pieces n path = names path := by
  induction n generalizing path with
  | zero =>
    obtain rfl : path = [] := List.eq_nil_of_length_eq_zero (Nat.le_zero.1 hn)
    exact names_nil.symm
  | succ n ih =>
    rw [pieces]
    by_cases hne : path = []
    · rw [if_pos hne, hne, names_nil]
    · have hlt := component_lt (by decide : 0 < 99) hne hhead
      have hle := dropWhile_length_le (component 99 path).2
      rw [if_neg hne, ih (by omega) atBreak_dropWhile]
      all_goals
        obtain ⟨c, rest, rfl, hc, hslash, hrest⟩ := exists_name hne hhead
        rw [names_cons hslash hc hrest] at hs
        have hcomp : component 99 (c ++ rest) = (c, rest) :=
          component_append hslash (hs c (List.mem_cons_self ..)) hrest
        rw [hcomp, names_dropWhile]
      · rw [names_cons hslash hc hrest]
      · exact fun c' h' => hs c' (List.mem_cons_of_mem _ h')

theorem pieces_eq_nil (hn : path.length ≤ n) : pieces n path = [] ↔ path = [] := by
  cases n with
  | zero => simp [pieces, List.eq_nil_of_length_eq_zero (Nat.le_zero.1 hn)]
  | succ n =>
    rw [pieces]
    split_ifs with h <;> simp [h]

theorem skipSlash_length_le (path : List U8) : (skipSlash path).length ≤ path.length := by
  unfold skipSlash
  split_ifs
  · rw [List.length_tail]
    omega
  · exact le_rfl

theorem skipSlash_subset : skipSlash path ⊆ path := by
  unfold skipSlash
  split_ifs
  · exact List.tail_subset _
  · exact List.Subset.refl _

theorem mem_steps (h : c ∈ steps n path) : c ⊆ path := by
  induction n generalizing path with
  | zero => exact absurd h (by simp [steps])
  | succ n ih =>
    rw [steps] at h
    by_cases hne : path = []
    · rw [if_pos hne] at h
      exact absurd h (by simp)
    · rw [if_neg hne, List.mem_cons] at h
      have hsplit := component_split 255 path
      rcases h with rfl | h
      · calc (component 255 path).1 ⊆ (component 255 path).1 ++ (component 255 path).2 := List.subset_append_left _ _
          _ = path := hsplit
      · calc c ⊆ skipSlash (component 255 path).2 := ih h
          _ ⊆ (component 255 path).2 := skipSlash_subset
          _ ⊆ (component 255 path).1 ++ (component 255 path).2 := List.subset_append_right _ _
          _ = path := hsplit

/-- **The loop of `lookup_path`.** -/
theorem steps_eq (hn : path.length ≤ n) (hs : ∀ c ∈ steps n path, c ≠ [] ∧ c.length ≤ 254) :
    steps n path = names path := by
  induction n generalizing path with
  | zero =>
    obtain rfl : path = [] := List.eq_nil_of_length_eq_zero (Nat.le_zero.1 hn)
    exact names_nil.symm
  | succ n ih =>
    rw [steps] at hs ⊢
    by_cases hne : path = []
    · rw [if_pos hne, hne, names_nil]
    · rw [if_neg hne] at hs ⊢
      have hfirst := hs _ (List.mem_cons_self ..)
      have hhead : path.head? ≠ some SLASH := fun h => by
        cases path with
        | nil => exact hne rfl
        | cons x path =>
          obtain rfl : x = SLASH := by simpa using h
          exact hfirst.1 (by simp [component])
      have hlt := component_lt (by decide : 0 < 255) hne hhead
      have hle := skipSlash_length_le (component 255 path).2
      rw [ih (by omega) fun c hc => hs c (List.mem_cons_of_mem _ hc), names_skipSlash]
      obtain ⟨c, rest, rfl, hc, hslash, hrest⟩ := exists_name hne hhead
      have hfit : c.length ≤ 255 := by
        by_contra hlong
        have := component_long rest hslash (Nat.lt_of_not_le hlong)
        omega
      rw [component_append hslash hfit hrest, names_cons hslash hc hrest]

theorem lookupLoop_steps {ι : Type} {sb : SuperBlock ι} {junk : ℕ → U8} {fuel : ℕ} {cur : ι} :
    lookupLoop sb junk fuel n cur path = walk sb junk fuel cur (steps n path) := by
  induction n generalizing cur path with
  | zero => rfl
  | succ n ih =>
    rw [lookupLoop, steps]
    by_cases hne : path = []
    · rw [if_pos hne, if_pos hne, walk]
    · rw [if_neg hne, if_neg hne, walk]
      cases lookupName sb junk fuel cur (component 255 path).1 with
      | none => rfl
      | some found =>
        cases found with
        | none => rfl
        | some next => exact ih

end Loops

end Retux.Path
