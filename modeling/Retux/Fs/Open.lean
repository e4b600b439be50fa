/-
Opening a path (`vfs::open` in `fs/vfs.cpp`): the mount table, and when two spellings of one path open one file.

`resolve_mount` takes the first mounted prefix that the path goes on from with a slash, or not at all; `lookup_path`
walks the rest from the root of the volume mounted there. Volumes are numbered, and a path is a list without a NUL. The
file object that `open` allocates for the inode is left out.

- `resolveMount_eq`: the loop is a search in the table;
- `steps_slashes`: two slashes in a row cut an empty name from a path, and nothing else goes wrong;
- `walk_descend`, `opens_outcome`: in a tree every walk ends, and where;
- `agree_iff`: in every tree, two paths of the same names open the same file or none.
-/
import Mathlib.Tactic
import Retux.Fs.Path
import Retux.Fs.Drivers

namespace Retux.Open

open Retux.Word Retux.Bytes Retux.Str Retux.Paging Retux.Vfs Retux.Path Retux.Proc

/-! ## Model -/

/-- what is mounted: a driver's operations, and the root -/
structure Volume (ι : Type) where
  ops : SuperBlock ι
  root : Option ι

/-- none is a null superblock -/
structure MountEntry where
  pfx : List U8
  sb : Option ℕ
  text : 0 ∉ pfx

/-- the loop of `resolve_mount`: the superblock, and the path below it -/
def resolveMount (rootSb : Option ℕ) (path : List U8) : List MountEntry → Option ℕ × List U8
  | [] => (rootSb, path)
  | m :: mounts =>
    let char := fun i => path.getD i 0
    let plen := m.pfx.length
    if strncmp char 0 m.pfx plen = 0 ∧ (char plen = SLASH ∨ char plen = 0) then (m.sb, path.drop plen)
    else resolveMount rootSb path mounts

section Open

variable {ι : Type} (rootSb : Option ℕ) (mounts : List MountEntry) (vols : ℕ → Volume ι)

/-- `vfs::open`, up to the file object; the outer none is a walk that has not ended -/
def openPath (junk : ℕ → U8) (fuel : ℕ) (path : List U8) : Option (Option (ℕ × ι)) :=
  match resolveMount rootSb path mounts with
  | (none, _) => some none
  | (some v, rel) =>
    match (vols v).root with
    | none => some none
    | some root => (lookupPath (vols v).ops junk fuel root rel).map fun target => target.map (v, ·)

/-- the call ends, with this result -/
def Opens (path : List U8) (r : Option (ℕ × ι)) : Prop :=
  ∃ N, ∀ fuel ≥ N, ∀ junk, openPath rootSb mounts vols junk fuel path = some r

/-- both calls end, at one mount and inode or both with null -/
def Agree (p q : List U8) : Prop := ∃ r, Opens rootSb mounts vols p r ∧ Opens rootSb mounts vols q r

end Open

/-! ## What opening should mean -/

/-- every directory of a volume; a file has no entries -/
structure IsTree {ι : Type} (v : Volume ι) (entries : ι → List Dirent) : Prop where
  lists : ∀ i, Enumerates (fun offset => v.ops.readdir i offset CHUNK_SIZE) (entries i)
  named : ∀ i, ∀ e ∈ entries i, e.name ≠ []

/-- name by name -/
def descend {ι : Type} (getInode : U64 → Option ι) (entries : ι → List Dirent) : ι → List (List U8) → Option ι
  | i, [] => some i
  | i, c :: p =>
    match (entries i).find? fun e => e.name = c with
    | none => none
    | some e => (getInode e.ino).bind fun j => descend getInode entries j p

instance {rest : List U8} : Decidable (AtBreak rest) := inferInstanceAs (Decidable (_ ∨ _))

/-- the prefix, byte for byte, and there the path ends or goes on with a slash -/
def MountEntry.Covers (m : MountEntry) (path : List U8) : Prop := m.pfx <+: path ∧ AtBreak (path.drop m.pfx.length)

instance {m : MountEntry} {path : List U8} : Decidable (m.Covers path) := inferInstanceAs (Decidable (_ ∧ _))

/-- two slashes in a row, behind the first name -/
def Doubled (path : List U8) : Prop := [SLASH, SLASH] <:+: path.dropWhile (· = SLASH)

instance {path : List U8} : Decidable (Doubled path) := inferInstanceAs (Decidable (_ <:+: _))

section Route

variable (rootSb : Option ℕ) (mounts : List MountEntry) (path : List U8)

/-- the first mount that covers the path, or the root -/
def route : Option ℕ × List U8 :=
  match mounts.find? fun m => m.Covers path with
  | some m => (m.sb, path.drop m.pfx.length)
  | none => (rootSb, path)

/-- no volume there, or two slashes below it -/
def Lost : Prop := (route rootSb mounts path).1 = none ∨ Doubled (route rootSb mounts path).2

instance : Decidable (Lost rootSb mounts path) := inferInstanceAs (Decidable (_ ∨ _))

end Route

/-- one volume, and the same names below it -/
def SameRoute (rootSb : Option ℕ) (mounts : List MountEntry) (p q : List U8) : Prop :=
  (route rootSb mounts p).1 = (route rootSb mounts q).1 ∧
    names (route rootSb mounts p).2 = names (route rootSb mounts q).2

/-! ## The mount table -/

section Mounts

variable {rootSb : Option ℕ} {mounts : List MountEntry} {m : MountEntry} {path rest a l : List U8} {i : ℕ}

theorem atBreak_iff (h0 : 0 ∉ path) : AtBreak (path.drop i) ↔ path.getD i 0 = SLASH ∨ path.getD i 0 = 0 := by
  by_cases hi : i < path.length
  · have hmem : path[i] ∈ path := List.getElem_mem hi
    have hne : path[i] ≠ 0 := fun hz => h0 (hz ▸ hmem)
    rw [AtBreak, List.getD_eq_getElem _ _ hi, List.drop_eq_getElem_cons hi, List.head?_cons, Option.some.injEq]
    exact ⟨fun h => Or.inl (h.resolve_left (List.cons_ne_nil _ _)), fun h => Or.inr (h.resolve_right hne)⟩
  · have hlen : path.length ≤ i := Nat.le_of_not_lt hi
    rw [AtBreak, List.getD_eq_default _ _ hlen, List.drop_eq_nil_of_le hlen]
    simp

theorem strncmp_iff (hl : 0 ∉ l) : strncmp (fun j => path.getD j 0) i l l.length = 0 ↔ l <+: path.drop i := by
  induction l generalizing i with
  | nil => simp [strncmp]
  | cons c l ih =>
    have hc : c ≠ 0 := fun hz => hl (hz ▸ List.mem_cons_self ..)
    have hl' : 0 ∉ l := fun hz => hl (List.mem_cons_of_mem _ hz)
    rw [List.length_cons, strncmp]
    by_cases hi : i < path.length
    · rw [List.drop_eq_getElem_cons hi, List.cons_prefix_cons, ← ih hl', List.getD_eq_getElem _ _ hi]
      by_cases heq : path[i] = c
      · rw [if_pos ⟨heq ▸ hc, heq⟩]
        simp [heq]
      · have hne : (path[i].toNat : ℤ) - c.toNat ≠ 0 := fun hz =>
          heq (BitVec.eq_of_toNat_eq (Int.ofNat_inj.1 (sub_eq_zero.1 hz)))
        rw [if_neg fun hh => heq hh.2]
        exact iff_of_false hne fun hh => heq hh.1.symm
    · have hlen : path.length ≤ i := Nat.le_of_not_lt hi
      have hpos : c.toNat ≠ 0 := fun hz => hc (BitVec.eq_of_toNat_eq hz)
      rw [List.getD_eq_default _ _ hlen, List.drop_eq_nil_of_le hlen, if_neg fun hh => hh.1 rfl]
      simpa using hpos

/-- **The loop of `resolve_mount`.** -/
theorem resolveMount_eq (h0 : 0 ∉ path) : resolveMount rootSb path mounts = route rootSb mounts path := by
  induction mounts with
  | nil => rfl
  | cons m mounts ih =>
    have htest : strncmp (fun i => path.getD i 0) 0 m.pfx m.pfx.length = 0 ∧
        (path.getD m.pfx.length 0 = SLASH ∨ path.getD m.pfx.length 0 = 0) ↔ m.Covers path := by
      rw [strncmp_iff m.text, List.drop_zero, ← atBreak_iff h0, MountEntry.Covers]
    rw [resolveMount, route]
    by_cases hm : m.Covers path
    · rw [List.find?_cons_of_pos (by simpa using hm)]
      exact if_pos (htest.2 hm)
    · rw [List.find?_cons_of_neg (by simpa using hm)]
      exact (if_neg fun h => hm (htest.1 h)).trans ih

theorem names_append (h : AtBreak rest) : names (a ++ rest) = names a ++ names rest := by
  cases rest with
  | nil => rw [names_nil, List.append_nil, List.append_nil]
  | cons x rest =>
    obtain rfl : x = SLASH := by simpa [AtBreak] using h
    rw [names_append_slash, names_slash]

/-- what is left of the path, and of its names -/
theorem route_suffix (rootSb : Option ℕ) (mounts : List MountEntry) (path : List U8) :
    (route rootSb mounts path).2 <:+ path ∧ names (route rootSb mounts path).2 <:+ names path := by
  rw [route]
  cases hfind : mounts.find? fun m => decide (m.Covers path) with
  | none => exact ⟨List.suffix_rfl, List.suffix_rfl⟩
  | some m =>
    have hm : m.Covers path := by simpa using List.find?_some hfind
    obtain ⟨⟨rest, hrest⟩, hbreak⟩ := hm
    have hdrop : path.drop m.pfx.length = rest := by rw [← hrest, List.drop_left]
    rw [hdrop] at hbreak
    have hnames : names path = names m.pfx ++ names rest := by rw [← hrest, names_append hbreak]
    simp only [hdrop]
    exact ⟨hrest ▸ List.suffix_append _ _, hnames ▸ List.suffix_append _ _⟩

end Mounts

/-! ## Slashes -/

section Slashes

variable {path rest c : List U8} {n : ℕ}

theorem doubled_append (hc : SLASH ∉ c) : [SLASH, SLASH] <:+: c ++ rest ↔ [SLASH, SLASH] <:+: rest := by
  induction c with
  | nil => rfl
  | cons x c ih =>
    have hx : SLASH ≠ x := fun h => hc (h ▸ List.mem_cons_self ..)
    rw [List.cons_append, List.infix_cons_iff, ih fun h => hc (List.mem_cons_of_mem _ h), List.cons_prefix_cons]
    simp [hx]

/-- **The one skip after a name.** A second slash there is an empty name; else the pieces are the names. -/
theorem steps_slashes (path : List U8) (hn : path.length ≤ n) (hhead : path.head? ≠ some SLASH)
    (hfit : ∀ c ∈ names path, c.length ≤ 255) :
    ([SLASH, SLASH] <:+: path → [] ∈ steps n path) ∧ (¬ [SLASH, SLASH] <:+: path → steps n path = names path) := by
  induction n generalizing path with
  | zero =>
    obtain rfl : path = [] := List.eq_nil_of_length_eq_zero (Nat.le_zero.1 hn)
    exact ⟨fun h => absurd h (by decide), fun _ => names_nil.symm⟩
  | succ n ih =>
    by_cases hne : path = []
    · subst hne
      exact ⟨fun h => absurd h (by decide), fun _ => names_nil.symm⟩
    obtain ⟨c, rest, rfl, hc, hslash, hrest⟩ := exists_name hne hhead
    have hpos : 0 < c.length := List.length_pos_iff.2 hc
    rw [List.length_append] at hn
    rw [names_cons hslash hc hrest] at hfit ⊢
    rw [steps, if_neg hne, component_append hslash (hfit c (List.mem_cons_self ..)) hrest, doubled_append hslash]
    cases rest with
    | nil =>
      have hnil : steps n (skipSlash []) = [] := by cases n <;> rfl
      rw [hnil, names_nil]
      exact ⟨fun h => absurd h (by decide), fun _ => rfl⟩
    | cons x rest =>
      obtain rfl : x = SLASH := by simpa [AtBreak] using hrest
      have hskip : skipSlash (SLASH :: rest) = rest := rfl
      rw [hskip, names_slash] at *
      rw [List.length_cons] at hn
      by_cases htwice : rest.head? = some SLASH
      · obtain ⟨y, rest, rfl⟩ := List.exists_cons_of_ne_nil fun h : rest = [] => by simp [h] at htwice
        obtain rfl : y = SLASH := by simpa using htwice
        obtain ⟨n, rfl⟩ : ∃ k, n = k + 1 := ⟨n - 1, by rw [List.length_cons] at hn; omega⟩
        have hempty : [] ∈ steps (n + 1) (SLASH :: rest) := by
          rw [steps, if_neg (List.cons_ne_nil _ _), component]
          simp
        have htwo : [SLASH, SLASH] <:+: SLASH :: SLASH :: rest := List.infix_append' [] _ rest
        exact ⟨fun _ => List.mem_cons_of_mem _ hempty, fun h => absurd htwo h⟩
      · obtain ⟨hmem, heq⟩ := ih rest (by omega) htwice fun d hd => hfit d (List.mem_cons_of_mem _ hd)
        have hiff : [SLASH, SLASH] <:+: SLASH :: rest ↔ [SLASH, SLASH] <:+: rest := by
          rw [List.infix_cons_iff, List.cons_prefix_cons]
          have hno : ¬ [SLASH] <+: rest := by
            rintro ⟨t, ht⟩
            exact htwice (by simp [← ht])
          simp [hno]
        rw [hiff]
        exact ⟨fun h => List.mem_cons_of_mem _ (hmem h), fun h => by rw [heq h]⟩

end Slashes

/-! ## Walking a tree -/

/-- an inode that refuses to be read as a directory -/
theorem enumerates_refused {readdir : ℕ → Option (List U8)} (h : ∀ offset, readdir offset = none) :
    Enumerates readdir [] where
  lists fuel junk hf := by
    obtain ⟨fuel, rfl⟩ := Nat.exists_eq_succ_of_ne_zero (Nat.ne_zero_of_lt hf)
    rw [listDir, h]
  finds fuel junk comp hf _ := by
    obtain ⟨fuel, rfl⟩ := Nat.exists_eq_succ_of_ne_zero (Nat.ne_zero_of_lt hf)
    rw [findName, h]
    rfl

/-- **Drivers.** A volume is a tree if every inode is a directory of one of them, or refuses. -/
theorem isTree_of_drivers {ι : Type} {v : Volume ι} {entries : ι → List Dirent}
    (h : ∀ i, Directory (v.ops.readdir i) (entries i) ∨
      (∀ offset count, v.ops.readdir i offset count = none) ∧ entries i = [])
    (hv : ∀ i, ∀ e ∈ entries i, e.Valid ∧ e.name ≠ []) : IsTree v entries where
  lists i := by
    rcases h i with hdir | ⟨hnone, hnil⟩
    · exact readdir_enumerates hdir fun e he => (hv i e he).1
    · rw [hnil]
      exact enumerates_refused fun offset => hnone offset CHUNK_SIZE
  named i e he := (hv i e he).2

section Walk

variable {ι : Type} {v : Volume ι} {entries : ι → List Dirent} {i : ι} {p : List (List U8)}

/-- **A walk in a tree.** Given enough rounds it ends, whatever the buffer holds. -/
theorem walk_descend (h : IsTree v entries) (hp : ∀ c ∈ p, 0 ∉ c) : ∃ N, ∀ fuel ≥ N, ∀ junk,
    walk v.ops junk fuel i p = some (descend v.ops.getInode entries i p) := by
  induction p generalizing i with
  | nil => exact ⟨0, fun _ _ _ => rfl⟩
  | cons c p ih =>
    have hc : 0 ∉ c := hp c (List.mem_cons_self ..)
    have hname {fuel : ℕ} {junk : ℕ → U8} (hf : (entries i).length < fuel) : lookupName v.ops junk fuel i c =
        some ((((entries i).find? fun e => e.name = c).map Dirent.ino).bind v.ops.getInode) := by
      rw [lookupName, (h.lists i).finds fuel junk c hf hc]
      rfl
    cases hfind : (entries i).find? fun e => decide (e.name = c) with
    | none =>
      refine ⟨(entries i).length + 1, fun fuel hf junk => ?_⟩
      rw [walk, hname (by omega), descend, hfind]
      rfl
    | some e =>
      cases hget : v.ops.getInode e.ino with
      | none =>
        refine ⟨(entries i).length + 1, fun fuel hf junk => ?_⟩
        rw [walk, hname (by omega), descend, hfind]
        simp [hget]
      | some j =>
        obtain ⟨N, hN⟩ := ih (i := j) fun d hd => hp d (List.mem_cons_of_mem _ hd)
        refine ⟨max N ((entries i).length + 1), fun fuel hf junk => ?_⟩
        rw [walk, hname (by omega), descend, hfind]
        simp only [Option.map_some, Option.bind_some, hget]
        exact hN fuel (by omega) junk

/-- no entry has the empty name -/
theorem descend_empty (h : IsTree v entries) (hp : [] ∈ p) : descend v.ops.getInode entries i p = none := by
  induction p generalizing i with
  | nil => exact absurd hp (List.not_mem_nil)
  | cons c p ih =>
    rw [descend]
    cases hfind : (entries i).find? fun e => decide (e.name = c) with
    | none => rfl
    | some e =>
      have hname : e.name = c := by simpa using List.find?_some hfind
      have hmem : [] ∈ p := by
        rcases List.mem_cons.1 hp with rfl | hmem
        · exact absurd hname (h.named i e (List.mem_of_find?_eq_some hfind))
        · exact hmem
      cases hget : v.ops.getInode e.ino with
      | none => simp [hget]
      | some j => simp [hget, ih hmem]

/-- **The walk of `lookup_path`.** -/
theorem lookupPath_descend {rel : List U8} (h : IsTree v entries) (h0 : 0 ∉ rel)
    (hfit : ∀ c ∈ names rel, c.length ≤ 255) :
    ∃ N, ∀ fuel ≥ N, ∀ junk, lookupPath v.ops junk fuel i rel =
      some (if Doubled rel then none else descend v.ops.getInode entries i (names rel)) := by
  obtain ⟨hempty, hplain⟩ := steps_slashes (rel.dropWhile (· = SLASH)) le_rfl atBreak_dropWhile
    (by rwa [names_dropWhile])
  have htext : ∀ c ∈ steps (rel.dropWhile (· = SLASH)).length (rel.dropWhile (· = SLASH)), 0 ∉ c := fun c hc h =>
    h0 ((List.dropWhile_suffix _).subset (mem_steps hc h))
  obtain ⟨N, hN⟩ := walk_descend h (i := i) htext
  refine ⟨N, fun fuel hf junk => ?_⟩
  rw [lookupPath, lookupLoop_steps, hN fuel hf junk]
  by_cases hdouble : Doubled rel
  · rw [if_pos hdouble, descend_empty h (hempty hdouble)]
  · rw [if_neg hdouble, hplain hdouble, names_dropWhile]

end Walk

section Outcome

variable {ι : Type} {rootSb : Option ℕ} {mounts : List MountEntry} {vols : ℕ → Volume ι}
  {entries : ℕ → ι → List Dirent} {path p q : List U8} {r r' : Option (ℕ × ι)}

/-- where a path leads -/
def outcome (rootSb : Option ℕ) (mounts : List MountEntry) (vols : ℕ → Volume ι) (entries : ℕ → ι → List Dirent)
    (path : List U8) : Option (ℕ × ι) :=
  if Lost rootSb mounts path then none
  else (route rootSb mounts path).1.bind fun v => (vols v).root.bind fun root =>
    (descend (vols v).ops.getInode (entries v) root (names (route rootSb mounts path).2)).map (v, ·)

theorem Opens.unique (h : Opens rootSb mounts vols path r) (h' : Opens rootSb mounts vols path r') : r = r' := by
  obtain ⟨N, hN⟩ := h
  obtain ⟨N', hN'⟩ := h'
  have h1 := hN (max N N') (le_max_left ..) fun _ => 0
  have h2 := hN' (max N N') (le_max_right ..) fun _ => 0
  exact Option.some.inj (h1.symm.trans h2)

/-- **What `open` gives** in a tree. -/
theorem opens_outcome (h : ∀ v, IsTree (vols v) (entries v)) (h0 : 0 ∉ path) (hfit : ∀ c ∈ names path, c.length ≤ 255) :
    Opens rootSb mounts vols path (outcome rootSb mounts vols entries path) := by
  obtain ⟨hsuf, hnames⟩ := route_suffix rootSb mounts path
  rw [outcome, Opens]
  simp only [openPath, resolveMount_eq h0]
  cases hsb : (route rootSb mounts path).1 with
  | none =>
    have hroute : route rootSb mounts path = (none, (route rootSb mounts path).2) := Prod.ext hsb rfl
    have hlost : Lost rootSb mounts path := Or.inl hsb
    rw [if_pos hlost, hroute]
    exact ⟨0, fun _ _ _ => rfl⟩
  | some v =>
    have hroute : route rootSb mounts path = (some v, (route rootSb mounts path).2) := Prod.ext hsb rfl
    have hlost : Lost rootSb mounts path ↔ Doubled (route rootSb mounts path).2 := by
      rw [Lost, hsb]
      simp
    simp only [hlost]
    rw [hroute]
    simp only [Option.bind_some]
    cases (vols v).root with
    | none =>
      refine ⟨0, fun _ _ _ => ?_⟩
      split_ifs <;> rfl
    | some root =>
      obtain ⟨N, hN⟩ := lookupPath_descend (h v) (i := root) (fun hz => h0 (hsuf.subset hz)) fun c hc =>
        hfit c (hnames.subset hc)
      refine ⟨N, fun fuel hf junk => ?_⟩
      simp only [hN fuel hf junk]
      split_ifs <;> rfl

theorem agree_outcome (h : ∀ v, IsTree (vols v) (entries v)) (hp : 0 ∉ p) (hq : 0 ∉ q)
    (hpfit : ∀ c ∈ names p, c.length ≤ 255) (hqfit : ∀ c ∈ names q, c.length ≤ 255) :
    Agree rootSb mounts vols p q ↔ outcome rootSb mounts vols entries p = outcome rootSb mounts vols entries q := by
  constructor
  · intro ⟨r, hr, hr'⟩
    calc outcome rootSb mounts vols entries p = r := (opens_outcome h hp hpfit).unique hr
      _ = outcome rootSb mounts vols entries q := hr'.unique (opens_outcome h hq hqfit)
  · intro heq
    exact ⟨_, opens_outcome h hp hpfit, heq ▸ opens_outcome h hq hqfit⟩

end Outcome

/-! ## A tree that tells paths apart -/

/-- directory i has one entry, for directory i + 1 -/
def chainEntries (p : List (List U8)) (i : ℕ) : List Dirent := (p[i]?.map fun c => ⟨BitVec.ofNat 64 (i + 1), c⟩).toList

def chain (p : List (List U8)) : Volume ℕ where
  ops := ⟨fun ino => some ino.toNat, fun i offset count => some (fill Dirent.enc offset count 0 [] (chainEntries p i))⟩
  root := some 0

section Chain

variable {p q : List (List U8)} {e : Dirent} {i j : ℕ}

theorem mem_chain (h : e ∈ chainEntries p i) : i < p.length ∧ e.ino = BitVec.ofNat 64 (i + 1) ∧ e.name ∈ p := by
  by_cases hi : i < p.length
  · have he : e = ⟨BitVec.ofNat 64 (i + 1), p[i]⟩ := by simpa [chainEntries, hi] using h
    rw [he]
    exact ⟨hi, rfl, List.getElem_mem hi⟩
  · simp [chainEntries, Nat.le_of_not_lt hi] at h

theorem chain_isTree (hp : ∀ c ∈ p, c ≠ [] ∧ 0 ∉ c ∧ c.length ≤ 255) : IsTree (chain p) (chainEntries p) where
  lists _ := enumerates_of_fill (fun _ he => (hp _ (mem_chain he).2.2).2) fun _ => rfl
  named _ _ he := (hp _ (mem_chain he).2.2).1

/-- the whole path leads to its end -/
theorem chain_reaches (hlen : p.length < 2 ^ 64) (hq : q <:+ p) :
    descend (chain p).ops.getInode (chainEntries p) (p.length - q.length) q = some p.length := by
  induction q with
  | nil => rfl
  | cons c q ih =>
    obtain ⟨a, rfl⟩ := hq
    have hidx : (a ++ c :: q).length - (c :: q).length = a.length := by simp
    have hnext : (a ++ c :: q).length - q.length = a.length + 1 := by simp; omega
    have hentries : chainEntries (a ++ c :: q) a.length = [⟨BitVec.ofNat 64 (a.length + 1), c⟩] := by
      simp [chainEntries]
    have hino : (BitVec.ofNat 64 (a.length + 1)).toNat = a.length + 1 := by
      rw [List.length_append, List.length_cons] at hlen
      rw [BitVec.toNat_ofNat, Nat.mod_eq_of_lt (by omega)]
    have hrest := ih ⟨a ++ [c], by simp⟩
    rw [hnext] at hrest
    rw [hidx, descend, hentries, List.find?_cons_of_pos (by simp)]
    simp only [chain, Option.bind_some, hino]
    exact hrest

/-- one step for each name -/
theorem chain_steps (hlen : p.length < 2 ^ 64) (h : descend (chain p).ops.getInode (chainEntries p) i q = some j) :
    j = i + q.length := by
  induction q generalizing i with
  | nil => exact (Option.some.inj h).symm
  | cons c q ih =>
    rw [descend] at h
    cases hfind : (chainEntries p i).find? fun e => decide (e.name = c) with
    | none =>
      rw [hfind] at h
      cases h
    | some e =>
      obtain ⟨hi, hino, -⟩ := mem_chain (List.mem_of_find?_eq_some hfind)
      have hnat : e.ino.toNat = i + 1 := by rw [hino, BitVec.toNat_ofNat, Nat.mod_eq_of_lt (by omega)]
      rw [hfind] at h
      simp only [chain, Option.bind_some, hnat] at h
      have hj := ih h
      rw [List.length_cons]
      omega

end Chain

/-! ## Two spellings -/

section Spellings

variable {rootSb : Option ℕ} {mounts : List MountEntry} {p q : List U8}

/-- in the chain of its own names a path opens the last directory -/
theorem outcome_chain {v : ℕ} {rel : List U8} (hlost : ¬ Lost rootSb mounts p)
    (hroute : route rootSb mounts p = (some v, rel)) (hlen : (names rel).length < 2 ^ 64) :
    outcome rootSb mounts (fun _ => chain (names rel)) (fun _ => chainEntries (names rel)) p =
      some (v, (names rel).length) := by
  have hreach := chain_reaches hlen (List.suffix_refl (names rel))
  rw [Nat.sub_self] at hreach
  have hroot : (chain (names rel)).root = some 0 := rfl
  rw [outcome, if_neg hlost, hroute]
  simp only [Option.bind_some, hroot, hreach, Option.map_some]

theorem names_length_le (path : List U8) : (names path).length ≤ path.length := by
  induction path using path_induction with
  | nil => simp
  | slash path ih =>
    rw [names_slash, List.length_cons]
    omega
  | name c rest hc hslash hrest ih =>
    have hpos : 0 < c.length := List.length_pos_iff.2 hc
    rw [names_cons hslash hc hrest, List.length_cons, List.length_append]
    omega

/-- a tree in which a path that is not lost and one with another fate part -/
theorem parts (hp : 0 ∉ p) (hq : 0 ∉ q) (hlen : p.length < 2 ^ 64) (hnames : names p = names q)
    (hfit : ∀ c ∈ names p, c.length ≤ 255) (hlost : ¬ Lost rootSb mounts p)
    (hagree : ∀ (ι : Type) (vols : ℕ → Volume ι) (entries : ℕ → ι → List Dirent), (∀ v, IsTree (vols v) (entries v)) →
      Agree rootSb mounts vols p q) : ¬ Lost rootSb mounts q ∧ SameRoute rootSb mounts p q := by
  obtain ⟨hsuf, hpnames⟩ := route_suffix rootSb mounts p
  obtain ⟨-, hqnames⟩ := route_suffix rootSb mounts q
  obtain ⟨v, hv⟩ := Option.ne_none_iff_exists'.1 fun h => hlost (Or.inl h)
  have hroute : route rootSb mounts p = (some v, (route rootSb mounts p).2) := Prod.ext hv rfl
  have hshort : (names (route rootSb mounts p).2).length < 2 ^ 64 := by
    have h1 := hpnames.length_le
    have h2 := names_length_le p
    omega
  have htree : IsTree (chain (names (route rootSb mounts p).2)) (chainEntries (names (route rootSb mounts p).2)) :=
    chain_isTree fun c hc => by
      have hmem := mem_names hc
      exact ⟨hmem.1, fun h => hp (hsuf.subset (hmem.2.2 h)), hfit c (hpnames.subset hc)⟩
  have heq := (agree_outcome (fun _ => htree) hp hq hfit (hnames ▸ hfit)).1 (hagree ℕ _ _ fun _ => htree)
  rw [outcome_chain hlost hroute hshort, outcome] at heq
  by_cases hql : Lost rootSb mounts q
  · rw [if_pos hql] at heq
    cases heq
  · rw [if_neg hql] at heq
    refine ⟨hql, ?_⟩
    obtain ⟨w, hw⟩ := Option.ne_none_iff_exists'.1 fun h => hql (Or.inl h)
    have hroot : (chain (names (route rootSb mounts p).2)).root = some 0 := rfl
    rw [hw] at heq
    simp only [Option.bind_some, hroot] at heq
    obtain ⟨j, hj, hpair⟩ := Option.map_eq_some_iff.1 heq.symm
    obtain ⟨hvw, hlast⟩ := Prod.mk.inj hpair
    have hsteps := chain_steps hshort hj
    refine ⟨by rw [hv, hw, hvw], ?_⟩
    -- two ends of one list of names, of one length
    apply List.IsSuffix.eq_of_length
    · exact List.suffix_of_suffix_length_le hpnames (hnames ▸ hqnames) (by omega)
    · omega

/-- **Two spellings of a path.** -/
theorem agree_iff (rootSb : Option ℕ) (mounts : List MountEntry) (p q : List U8) (hp : 0 ∉ p) (hq : 0 ∉ q)
    (hplen : p.length < 2 ^ 64) (hqlen : q.length < 2 ^ 64) (hnames : names p = names q)
    (hfit : ∀ c ∈ names p, c.length ≤ 255) :
    (∀ (ι : Type) (vols : ℕ → Volume ι) (entries : ℕ → ι → List Dirent), (∀ v, IsTree (vols v) (entries v)) →
      Agree rootSb mounts vols p q) ↔
    Lost rootSb mounts p ∧ Lost rootSb mounts q ∨
      ¬ Lost rootSb mounts p ∧ ¬ Lost rootSb mounts q ∧ SameRoute rootSb mounts p q := by
  constructor
  · intro hagree
    by_cases hpl : Lost rootSb mounts p
    · refine Or.inl ⟨hpl, ?_⟩
      by_contra hql
      have hback := parts hq hp hqlen hnames.symm (hnames ▸ hfit) hql fun ι vols entries htree => by
        obtain ⟨r, hr, hr'⟩ := hagree ι vols entries htree
        exact ⟨r, hr', hr⟩
      exact hback.1 hpl
    · exact Or.inr ⟨hpl, parts hp hq hplen hnames hfit hpl hagree⟩
  · intro hcond ι vols entries htree
    rw [agree_outcome htree hp hq hfit (hnames ▸ hfit), outcome, outcome]
    rcases hcond with ⟨hpl, hql⟩ | ⟨hpl, hql, hsb, hrel⟩
    · rw [if_pos hpl, if_pos hql]
    · rw [if_neg hpl, if_neg hql, hsb, hrel]

end Spellings

/-- /proc is volume 1 -/
def procMount : MountEntry := ⟨chars "/proc", some 1, by decide⟩

/-- slashes before the first name below the mount, and one behind the last -/
theorem agree_sample : Agree (some 0) [procMount] (fun _ => chain [chars "uptime"]) (chars "/proc/uptime")
    (chars "/proc//uptime/") :=
  (agree_iff (some 0) [procMount] (chars "/proc/uptime") (chars "/proc//uptime/") (by decide) (by decide) (by decide)
    (by decide) (by decide) (by decide)).2 (Or.inr (by unfold SameRoute; decide)) ℕ _ _ fun _ => chain_isTree (by decide)

/-- two slashes between two names, or before a mounted prefix -/
theorem slashes_matter :
    (∀ v, IsTree ((fun _ : ℕ => chain [chars "a", chars "b"]) v) (chainEntries [chars "a", chars "b"])) ∧
    (names (chars "/a/b") = names (chars "/a//b") ∧
      ¬ Agree (some 0) [procMount] (fun _ => chain [chars "a", chars "b"]) (chars "/a/b") (chars "/a//b")) ∧
    (names (chars "/proc/a") = names (chars "//proc/a") ∧
      ¬ Agree (some 0) [procMount] (fun _ => chain [chars "a", chars "b"]) (chars "/proc/a") (chars "//proc/a")) := by
  have htree : IsTree (chain [chars "a", chars "b"]) (chainEntries [chars "a", chars "b"]) := chain_isTree (by decide)
  refine ⟨fun _ => htree, ⟨by decide, fun h => ?_⟩, by decide, fun h => ?_⟩
  · -- inode 2, and null
    have heq := (agree_outcome (fun _ => htree) (by decide) (by decide) (by decide) (by decide)).1 h
    revert heq
    decide
  · -- inode 1 of /proc, and null
    have heq := (agree_outcome (fun _ => htree) (by decide) (by decide) (by decide) (by decide)).1 h
    revert heq
    decide

end Retux.Open
