/-
The initial stack of a process, as the System V ABI lets the program read it. Nothing here names a particular program.

`rd` is the program's memory: the byte at an address, or a fault. From the stack pointer on it finds argc, the argument
pointers and a null, the environment pointers and a null, and the pairs of the auxiliary vector up to one of type 0; the
pointers lead to strings that end at a zero byte. `Decodes` is this reading, with the places of the parts (`Places`).

- `Decodes.unique`: memory determines what is read, and where it is;
- `Decodes.of_reads`: arrays laid end to end are read so, with strings at the pointers;
- `packed_strings`, `packed_areas`: strings laid end to end are read back, and lie apart.
-/
import Mathlib.Tactic
import Retux.Lib.Bytes

namespace Retux.SysV

open Retux.Word Retux.Bytes

/-! ## Reading -/

/-- the bytes xs from address a on -/
def Reads (rd : U64 → Option U8) (a : U64) (xs : List U8) : Prop := ∀ i (hi : i < xs.length), rd (nth a i) = some xs[i]

def WordAt (rd : U64 → Option U8) (a w : U64) : Prop := Reads rd a (le 8 w)

/-- a string, without the zero byte that ends it -/
inductive CString (rd : U64 → Option U8) : U64 → List U8 → Prop
  | stop {a} : rd a = some 0 → CString rd a []
  | char {a x xs} : rd a = some x → x ≠ 0 → CString rd (nth a 1) xs → CString rd a (x :: xs)

/-- pointers from a on, up to a null; `stop` is the address behind it -/
inductive Vector (rd : U64 → Option U8) : U64 → List U64 → U64 → Prop
  | null {a} : WordAt rd a 0 → Vector rd a [] (nth a 8)
  | next {a p ps stop} : WordAt rd a p → p ≠ 0 → Vector rd (nth a 8) ps stop → Vector rd a (p :: ps) stop

/-- pairs of type and value from a on, up to type 0 -/
inductive Auxv (rd : U64 → Option U8) : U64 → List (U64 × U64) → U64 → Prop
  | null {a v} : WordAt rd a 0 → WordAt rd (nth a 8) v → Auxv rd a [] (nth a 16)
  | next {a t v aux stop} : WordAt rd a t → WordAt rd (nth a 8) v → t ≠ 0 → Auxv rd (nth a 16) aux stop →
      Auxv rd a ((t, v) :: aux) stop

/-- what a program is started with -/
structure Start where
  argv : List (List U8)
  envp : List (List U8)
  auxv : List (U64 × U64)

/-- the pointers, and the ends of the three arrays -/
structure Places where
  args : List U64
  envs : List U64
  argvEnd : U64
  envpEnd : U64
  auxvEnd : U64

/-- **Decoding.** What a program finds that starts at stack pointer rsp. -/
structure Decodes (rd : U64 → Option U8) (rsp : U64) (s : Start) (l : Places) : Prop where
  argc : WordAt rd rsp (BitVec.ofNat 64 s.argv.length)
  argv : Vector rd (nth rsp 8) l.args l.argvEnd
  args : List.Forall₂ (CString rd) l.args s.argv
  envp : Vector rd l.argvEnd l.envs l.envpEnd
  envs : List.Forall₂ (CString rd) l.envs s.envp
  auxv : Auxv rd l.envpEnd s.auxv l.auxvEnd

/-- an address and a number of bytes -/
abbrev Area := U64 × ℕ

/-- argc and the three arrays, with what ends them; n pairs -/
def arrays (rsp : U64) (l : Places) (n : ℕ) : List Area :=
  [(rsp, 8), (nth rsp 8, 8 * (l.args.length + 1)), (l.argvEnd, 8 * (l.envs.length + 1)), (l.envpEnd, 16 * (n + 1))]

/-- the strings, each with its zero byte -/
def strings (s : Start) (l : Places) : List Area :=
  List.zip (l.args ++ l.envs) ((s.argv ++ s.envp).map fun str => str.length + 1)

/-- area x ends before y starts -/
def Before (x y : Area) : Prop := x.1.toNat + x.2 ≤ y.1.toNat

def Apart (x y : Area) : Prop := Before x y ∨ Before y x

def Within (lo hi : ℕ) (x : Area) : Prop := lo ≤ x.1.toNat ∧ x.1.toNat + x.2 ≤ hi

theorem Pairwise.before_append {xs ys : List Area} {lo mid hi : ℕ} (hx : xs.Pairwise Before) (hy : ys.Pairwise Before)
    (hxin : ∀ x ∈ xs, Within lo mid x) (hyin : ∀ y ∈ ys, Within mid hi y) (h1 : lo ≤ mid) (h2 : mid ≤ hi) :
    (xs ++ ys).Pairwise Before ∧ ∀ z ∈ xs ++ ys, Within lo hi z := by
  refine ⟨List.pairwise_append.2 ⟨hx, hy, fun x hx y hy => ?_⟩, fun z hz => ?_⟩
  · exact (hxin x hx).2.trans (hyin y hy).1
  · rcases List.mem_append.1 hz with hz | hz
    · exact ⟨(hxin z hz).1, (hxin z hz).2.trans h2⟩
    · exact ⟨h1.trans (hyin z hz).1, (hyin z hz).2⟩

/-- order does not matter for areas that lie apart -/
theorem Pairwise.apart_perm {xs ys : List Area} (h : xs.Pairwise Before) (hp : xs.Perm ys) : ys.Pairwise Apart :=
  (hp.pairwise_iff fun h => Or.symm h).1 (h.imp Or.inl)

/-! ## What is read is determined -/

section Unique

variable {rd : U64 → Option U8} {a b c w w' : U64} {xs ys : List U8} {ps qs : List U64} {aux aux' : List (U64 × U64)}

theorem Reads.left (h : Reads rd a (xs ++ ys)) : Reads rd a xs := by
  intro i hi
  rw [h i (by rw [List.length_append]; omega), List.getElem_append_left hi]

theorem Reads.right (h : Reads rd a (xs ++ ys)) : Reads rd (nth a xs.length) ys := by
  intro i hi
  rw [nth_add, h (xs.length + i) (by rw [List.length_append]; omega), List.getElem_append_right (Nat.le_add_right _ _)]
  exact congrArg some (getElem_congr_idx (Nat.add_sub_cancel_left ..))

/-- a word is its bytes -/
theorem le_inj (h : le 8 w = le 8 w') : w = w' := by
  have hnum := congrArg ofLe h
  rw [ofLe_le, ofLe_le] at hnum
  have hw := w.isLt
  have hw' := w'.isLt
  apply BitVec.eq_of_toNat_eq
  omega

theorem WordAt.unique (h : WordAt rd a w) (h' : WordAt rd a w') : w = w' := by
  apply le_inj
  apply List.ext_getElem (by rw [length_le, length_le])
  intro i hi hi'
  exact Option.some.inj ((h i hi).symm.trans (h' i hi'))

theorem CString.unique (h : CString rd a xs) (h' : CString rd a ys) : xs = ys := by
  induction h generalizing ys with
  | stop h0 =>
    cases h' with
    | stop => rfl
    | char hx hne => exact absurd (Option.some.inj (hx.symm.trans h0)) hne
  | char hx hne _ ih =>
    cases h' with
    | stop h0 => exact absurd (Option.some.inj (hx.symm.trans h0)) hne
    | char hy _ hys =>
      obtain rfl := Option.some.inj (hx.symm.trans hy)
      rw [ih hys]

theorem Vector.unique (h : Vector rd a ps b) (h' : Vector rd a qs c) : ps = qs ∧ b = c := by
  induction h generalizing qs c with
  | null h0 =>
    cases h' with
    | null => exact ⟨rfl, rfl⟩
    | next hp hne => exact absurd (hp.unique h0) hne
  | next hp hne _ ih =>
    cases h' with
    | null h0 => exact absurd (hp.unique h0) hne
    | next hq _ hqs =>
      obtain ⟨rfl, rfl⟩ := ih hqs
      exact ⟨by rw [hp.unique hq], rfl⟩

theorem Auxv.unique (h : Auxv rd a aux b) (h' : Auxv rd a aux' c) : aux = aux' ∧ b = c := by
  induction h generalizing aux' c with
  | null h0 =>
    cases h' with
    | null => exact ⟨rfl, rfl⟩
    | next ht _ hne => exact absurd (ht.unique h0) hne
  | next ht hv hne _ ih =>
    cases h' with
    | null h0 => exact absurd (ht.unique h0) hne
    | next ht' hv' _ haux =>
      obtain ⟨rfl, rfl⟩ := ih haux
      exact ⟨by rw [ht.unique ht', hv.unique hv'], rfl⟩

theorem strings_unique {as bs : List (List U8)} (h : List.Forall₂ (CString rd) ps as)
    (h' : List.Forall₂ (CString rd) ps bs) : as = bs := by
  induction h generalizing bs with
  | nil =>
    cases h'
    rfl
  | cons hx _ ih =>
    cases h' with
    | cons hy hbs => rw [hx.unique hy, ih hbs]

/-- **Memory determines what is read.** -/
theorem Decodes.unique {s s' : Start} {l l' : Places} (h : Decodes rd a s l) (h' : Decodes rd a s' l') :
    s = s' ∧ l = l' := by
  obtain ⟨argv, envp, auxv⟩ := s
  obtain ⟨argv', envp', auxv'⟩ := s'
  obtain ⟨args, envs, e1, e2, e3⟩ := l
  obtain ⟨args', envs', e1', e2', e3'⟩ := l'
  obtain ⟨rfl, rfl⟩ : args = args' ∧ e1 = e1' := h.argv.unique h'.argv
  obtain ⟨rfl, rfl⟩ : envs = envs' ∧ e2 = e2' := h.envp.unique h'.envp
  obtain ⟨rfl, rfl⟩ : auxv = auxv' ∧ e3 = e3' := h.auxv.unique h'.auxv
  obtain rfl : argv = argv' := strings_unique h.args h'.args
  obtain rfl : envp = envp' := strings_unique h.envs h'.envs
  exact ⟨rfl, rfl⟩

end Unique

/-! ## Arrays end to end -/

/-- words in memory order -/
def words (ws : List U64) : List U8 := ws.flatMap (le 8)

/-- the pairs one after the other -/
def flat (aux : List (U64 × U64)) : List U64 := aux.flatMap fun x => [x.1, x.2]

/-- the places in arrays laid end to end, for a vector of n pairs -/
def places (rsp : U64) (ps qs : List U64) (n : ℕ) : Places where
  args := ps
  envs := qs
  argvEnd := nth rsp (8 * (ps.length + 2))
  envpEnd := nth rsp (8 * (ps.length + qs.length + 3))
  auxvEnd := nth rsp (8 * (ps.length + qs.length + 2 * n + 5))

section Arrays

variable {rd : U64 → Option U8} {a rsp : U64} {xs : List U8} {ps qs ws ws' : List U64} {aux : List (U64 × U64)} {n : ℕ}

theorem words_cons (w : U64) (ws : List U64) : words (w :: ws) = le 8 w ++ words ws := List.flatMap_cons

theorem words_append : words (ws ++ ws') = words ws ++ words ws' := List.flatMap_append

@[simp] theorem words_length : (words ws).length = 8 * ws.length := by
  induction ws with
  | nil => rfl
  | cons w ws ih =>
    rw [words_cons, List.length_append, length_le, List.length_cons, ih]
    omega

@[simp] theorem flat_length : (flat aux).length = 2 * aux.length := by
  induction aux with
  | nil => rfl
  | cons x aux ih =>
    have hcons : flat (x :: aux) = [x.1, x.2] ++ flat aux := List.flatMap_cons
    rw [hcons, List.length_append, ih, List.length_cons, List.length_cons, List.length_cons, List.length_nil]
    omega

theorem Reads.word {w : U64} (h : Reads rd a (words (w :: ws))) : WordAt rd a w ∧ Reads rd (nth a 8) (words ws) := by
  rw [words_cons] at h
  have hrest := h.right
  rw [length_le] at hrest
  exact ⟨h.left, hrest⟩

theorem Reads.words (h : Reads rd a (SysV.words (ws ++ ws'))) :
    Reads rd a (SysV.words ws) ∧ Reads rd (nth a (8 * ws.length)) (SysV.words ws') := by
  rw [words_append] at h
  have hrest := h.right
  rw [words_length] at hrest
  exact ⟨h.left, hrest⟩

theorem Vector.of_reads (hz : ∀ p ∈ ps, p ≠ 0) (h : Reads rd a (SysV.words (ps ++ [0]))) :
    Vector rd a ps (nth a (8 * (ps.length + 1))) := by
  induction ps generalizing a with
  | nil => exact Vector.null h.word.1
  | cons p ps ih =>
    obtain ⟨hp, hrest⟩ := h.word
    have hvec := ih (fun q hq => hz q (by simp [hq])) hrest
    have hlen : 8 + 8 * (ps.length + 1) = 8 * ((p :: ps).length + 1) := by
      rw [List.length_cons]
      omega
    rw [nth_add, hlen] at hvec
    exact Vector.next hp (hz p (by simp)) hvec

theorem Auxv.of_reads (hz : ∀ x ∈ aux, x.1 ≠ 0) (h : Reads rd a (SysV.words (flat aux ++ [0, 0]))) :
    Auxv rd a aux (nth a (16 * (aux.length + 1))) := by
  induction aux generalizing a with
  | nil =>
    obtain ⟨ht, hrest⟩ := h.word
    exact Auxv.null ht hrest.word.1
  | cons x aux ih =>
    obtain ⟨ht, hrest⟩ := h.word
    obtain ⟨hv, hrest⟩ := hrest.word
    rw [nth_add] at hrest
    have haux := ih (fun y hy => hz y (by simp [hy])) hrest
    have hlen : 8 + 8 + 16 * (aux.length + 1) = 16 * ((x :: aux).length + 1) := by
      rw [List.length_cons]
      omega
    rw [nth_add, hlen] at haux
    exact Auxv.next ht hv (hz x (by simp)) haux

/-- **Arrays laid end to end are decoded**, with the strings the pointers lead to. -/
theorem Decodes.of_reads {s : Start} (hps : ∀ p ∈ ps, p ≠ 0) (hqs : ∀ q ∈ qs, q ≠ 0) (haux : ∀ x ∈ s.auxv, x.1 ≠ 0)
    (h : Reads rd rsp (SysV.words (BitVec.ofNat 64 s.argv.length :: ((ps ++ [0]) ++ ((qs ++ [0]) ++
      (flat s.auxv ++ [0, 0]))))))
    (hargs : List.Forall₂ (CString rd) ps s.argv) (henvs : List.Forall₂ (CString rd) qs s.envp) :
    Decodes rd rsp s (places rsp ps qs s.auxv.length) := by
  obtain ⟨hargc, h⟩ := h.word
  obtain ⟨hargv, h⟩ := h.words
  obtain ⟨henvp, hauxv⟩ := h.words
  rw [List.length_append, List.length_singleton] at henvp hauxv
  rw [List.length_append, List.length_singleton] at hauxv
  -- the start of each array from rsp on
  have e1 : 8 + 8 * (ps.length + 1) = 8 * (ps.length + 2) := by omega
  have e2 : 8 + (8 * (ps.length + 1) + 8 * (qs.length + 1)) = 8 * (ps.length + qs.length + 3) := by omega
  rw [nth_add, e1] at henvp
  rw [nth_add, nth_add, e2] at hauxv
  have h1 := Vector.of_reads hps hargv
  have h2 := Vector.of_reads hqs henvp
  have h3 := Auxv.of_reads haux hauxv
  have e3 : 8 * (ps.length + 2) + 8 * (qs.length + 1) = 8 * (ps.length + qs.length + 3) := by omega
  have e4 : 8 * (ps.length + qs.length + 3) + 16 * (s.auxv.length + 1) =
      8 * (ps.length + qs.length + 2 * s.auxv.length + 5) := by omega
  rw [nth_add, e1] at h1
  rw [nth_add, e3] at h2
  rw [nth_add, e4] at h3
  exact ⟨hargc, h1, hargs, h2, henvs, h3⟩

/-- the arrays lie apart, and within their space -/
theorem arrays_areas (hend : rsp.toNat + 8 * (ps.length + qs.length + 2 * n + 5) < 2 ^ 64) :
    (arrays rsp (places rsp ps qs n) n).Pairwise Before ∧ ∀ x ∈ arrays rsp (places rsp ps qs n) n,
      Within rsp.toNat (rsp.toNat + 8 * (ps.length + qs.length + 2 * n + 5)) x := by
  have h1 : (nth rsp 8).toNat = rsp.toNat + 8 := nth_toNat (by omega)
  have h2 : (nth rsp (8 * (ps.length + 2))).toNat = rsp.toNat + 8 * (ps.length + 2) := nth_toNat (by omega)
  have h3 : (nth rsp (8 * (ps.length + qs.length + 3))).toNat = rsp.toNat + 8 * (ps.length + qs.length + 3) :=
    nth_toNat (by omega)
  constructor
  · simp only [arrays, places, List.pairwise_cons, List.mem_cons, List.not_mem_nil, or_false, forall_eq_or_imp,
      forall_eq, Before, h1, h2, h3, List.Pairwise.nil, false_imp_iff, implies_true, and_true]
    omega
  · simp only [arrays, places, List.mem_cons, List.not_mem_nil, or_false, forall_eq_or_imp, forall_eq, Within, h1, h2,
      h3]
    omega

end Arrays

/-! ## Strings end to end -/

/-- strings one after the other, each with its zero byte -/
def packed (ss : List (List U8)) : List U8 := ss.flatMap fun s => s ++ [0]

/-- where they start, from address a on -/
def starts (a : U64) : List (List U8) → List U64
  | [] => []
  | s :: ss => a :: starts (nth a (s.length + 1)) ss

section Strings

variable {rd : U64 → Option U8} {a : U64} {xs : List U8} {s : List U8} {ss ts : List (List U8)}

theorem packed_cons : packed (s :: ss) = (s ++ [0]) ++ packed ss := List.flatMap_cons

theorem packed_append : packed (ss ++ ts) = packed ss ++ packed ts := List.flatMap_append

theorem packed_length : (packed ss).length = (ss.map fun s => s.length + 1).sum := by
  induction ss with
  | nil => rfl
  | cons s ss ih => rw [packed_cons, List.length_append, ih, List.length_append, List.map_cons, List.sum_cons,
      List.length_singleton]

@[simp] theorem starts_length : (starts a ss).length = ss.length := by
  induction ss generalizing a with
  | nil => rfl
  | cons s ss ih => rw [starts, List.length_cons, List.length_cons, ih]

theorem starts_append : starts a (ss ++ ts) = starts a ss ++ starts (nth a (packed ss).length) ts := by
  induction ss generalizing a with
  | nil => rw [packed, List.flatMap_nil, List.length_nil, nth_zero, starts, List.nil_append, List.nil_append]
  | cons s ss ih =>
    rw [List.cons_append, starts, starts, ih, nth_add, packed_cons, List.length_append, List.length_append,
      List.length_singleton, List.cons_append]

theorem starts_ge (hend : a.toNat + (packed ss).length < 2 ^ 64) : ∀ p ∈ starts a ss, a.toNat ≤ p.toNat := by
  induction ss generalizing a with
  | nil => exact fun p hp => absurd hp List.not_mem_nil
  | cons s ss ih =>
    rw [packed_cons, List.length_append, List.length_append, List.length_singleton] at hend
    have hnext : (nth a (s.length + 1)).toNat = a.toNat + (s.length + 1) := nth_toNat (by omega)
    intro p hp
    rcases List.mem_cons.1 hp with rfl | hp
    · exact le_refl _
    · have hge := ih (by omega) p hp
      omega

/-- a base added to all of them -/
theorem starts_map {base : U64} : (starts a ss).map (base + ·) = starts (base + a) ss := by
  induction ss generalizing a with
  | nil => rfl
  | cons s ss ih =>
    rw [starts, List.map_cons, ih, starts, nth, nth, BitVec.add_assoc]

theorem CString.of_reads (hz : ∀ x ∈ xs, x ≠ 0) (h : Reads rd a (xs ++ [0])) : CString rd a xs := by
  induction xs generalizing a with
  | nil =>
    apply CString.stop
    have h0 := h 0 (by simp)
    rwa [nth_zero] at h0
  | cons x xs ih =>
    have hx := h 0 (by simp)
    rw [nth_zero] at hx
    rw [List.cons_append, ← List.singleton_append] at h
    exact CString.char hx (hz x (by simp)) (ih (fun y hy => hz y (by simp [hy])) h.right)

/-- **Packed strings are read back.** -/
theorem packed_strings (hz : ∀ s ∈ ss, ∀ x ∈ s, x ≠ 0) (h : Reads rd a (packed ss)) :
    List.Forall₂ (CString rd) (starts a ss) ss := by
  induction ss generalizing a with
  | nil => exact List.Forall₂.nil
  | cons s ss ih =>
    rw [packed_cons] at h
    have hrest := h.right
    rw [List.length_append, List.length_singleton] at hrest
    exact List.Forall₂.cons (CString.of_reads (hz s (by simp)) h.left) (ih (fun t ht => hz t (by simp [ht])) hrest)

/-- **They lie apart**, and within their space. -/
theorem packed_areas (hend : a.toNat + (packed ss).length < 2 ^ 64) :
    (List.zip (starts a ss) (ss.map fun s => s.length + 1)).Pairwise Before ∧
      ∀ x ∈ List.zip (starts a ss) (ss.map fun s => s.length + 1), Within a.toNat (a.toNat + (packed ss).length) x := by
  induction ss generalizing a with
  | nil => exact ⟨List.Pairwise.nil, fun x hx => absurd hx List.not_mem_nil⟩
  | cons s ss ih =>
    rw [packed_cons, List.length_append, List.length_append, List.length_singleton] at hend ⊢
    have hnext : (nth a (s.length + 1)).toNat = a.toNat + (s.length + 1) := nth_toNat (by omega)
    obtain ⟨hpair, hin⟩ := ih (a := nth a (s.length + 1)) (by omega)
    rw [hnext] at hin
    rw [starts, List.map_cons, List.zip_cons_cons]
    refine ⟨List.pairwise_cons.2 ⟨fun x hx => (hin x hx).1, hpair⟩, fun x hx => ?_⟩
    rcases List.mem_cons.1 hx with rfl | hx
    · exact ⟨le_refl _, by simp only; omega⟩
    · obtain ⟨h1, h2⟩ := hin x hx
      exact ⟨by omega, by omega⟩

/-- **A whole block lies apart.** Arrays, one more area x, and packed strings, in this order. -/
theorem block_areas (rsp : U64) (t : Start) (n : ℕ) (x : Area) {ps qs : List U64}
    (hptrs : ps ++ qs = starts a (t.argv ++ t.envp))
    (h1 : rsp.toNat + 8 * (ps.length + qs.length + 2 * n + 5) ≤ x.1.toNat)
    (h2 : x.1.toNat + x.2 ≤ a.toNat) (hend : a.toNat + (packed (t.argv ++ t.envp)).length < 2 ^ 64) :
    (x :: (arrays rsp (places rsp ps qs n) n ++ strings t (places rsp ps qs n))).Pairwise Apart ∧
      ∀ y ∈ x :: (arrays rsp (places rsp ps qs n) n ++ strings t (places rsp ps qs n)),
        Within rsp.toNat (a.toNat + (packed (t.argv ++ t.envp)).length) y := by
  have harr : rsp.toNat + 8 * (ps.length + qs.length + 2 * n + 5) < 2 ^ 64 := by omega
  obtain ⟨p1, w1⟩ := arrays_areas harr
  obtain ⟨p2, w2⟩ := packed_areas hend
  have hx : ∀ y ∈ [x], Within (rsp.toNat + 8 * (ps.length + qs.length + 2 * n + 5)) a.toNat y := by
    intro y hy
    rw [List.mem_singleton.1 hy]
    exact ⟨h1, h2⟩
  obtain ⟨p3, w3⟩ := Pairwise.before_append (List.pairwise_singleton _ _) p2 hx w2 (by omega) (by omega)
  obtain ⟨p4, w4⟩ := Pairwise.before_append p1 p3 w1 w3 (by omega) (by omega)
  rw [← hptrs] at p4 w4
  have hperm : (arrays rsp (places rsp ps qs n) n ++ ([x] ++ strings t (places rsp ps qs n))).Perm
      (x :: (arrays rsp (places rsp ps qs n) n ++ strings t (places rsp ps qs n))) := List.perm_middle
  exact ⟨Pairwise.apart_perm p4 hperm, fun y hy => w4 y (hperm.mem_iff.2 hy)⟩

end Strings

end Retux.SysV
