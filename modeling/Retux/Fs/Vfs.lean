/-
The virtual file system (`fs/vfs.cpp`): directories as drivers hand them out, and the walk down a path.

A driver's `readdir(offset, buf, count)` fills buf with records [u64 inode][name, NUL] from a stream offset on; here it
gives the bytes it wrote, `none` for -1. `lookup_path` reads them in chunks of 512 bytes and compares names in place. It
runs on fuel, since a driver might never come to an end; `none` is a walk that has not ended.

- `parse_eq`, `scan_eq`: reading a chunk of whole records;
- `Enumerates`: every entry once and in order, and a lookup finds the first of its name;
- `enumerates_of_fill`: so it is for a driver that walks its entries as `fill` does;
- `lookupPath_join`: `lookup_path` of /a/b/c is three lookups.
-/
import Mathlib.Tactic
import Mathlib.Data.List.GetD
import Retux.Lib.Paging
import Retux.Str.Compare

namespace Retux.Vfs

open Retux.Word Retux.Bytes Retux.Str Retux.Paging

/-! ## Model -/

def SLASH : U8 := 0x2F
def CHUNK_SIZE : ℕ := 512

structure Dirent where
  ino : U64
  name : List U8
deriving DecidableEq

/-- the dirent format every driver writes -/
def Dirent.enc (e : Dirent) : List U8 := le 8 e.ino ++ e.name ++ [0]

/-- `if (offset + count > size) count = size - offset;`, as every driver's `read` has it -/
def clamp (offset count size : U64) : U64 := if offset + count > size then size - offset else count

/-- a driver's operations, over its inodes -/
structure SuperBlock (ι : Type) where
  getInode : U64 → Option ι
  readdir : ι → ℕ → ℕ → Option (List U8)

/-- `*(u64*)p` -/
def word (buf : ℕ → U8) (p : ℕ) : U64 := BitVec.ofNat 64 (field buf p 8)

/-- the buffer after a call that wrote `page` to it -/
def place (page : List U8) (buf : ℕ → U8) (i : ℕ) : U8 := page.getD i (buf i)

/-- the loop over one chunk: the inode number of the first record with that name -/
def scan (buf : ℕ → U8) (bytes : ℕ) (component : List U8) : ℕ → ℕ → Option U64
  | 0, _ => none
  | fuel + 1, p =>
    if p < bytes then
      let ino := word buf p
      let nameLen := strnlen buf (p + 8) (CHUNK_SIZE - (p + 8))
      if strcmp buf (p + 8) component = 0 then some ino else scan buf bytes component fuel (p + 8 + nameLen + 1)
    else none

/-- the chunk loop: found_ino, if found -/
def findName (readdir : ℕ → Option (List U8)) (component : List U8) : ℕ → ℕ → (ℕ → U8) → Option (Option U64)
  | 0, _, _ => none
  | fuel + 1, offset, buf =>
    match readdir offset with
    | none => some none
    | some page =>
      if page = [] then some none
      else
        match scan (place page buf) page.length component page.length 0 with
        | some ino => some (some ino)
        | none => findName readdir component fuel (offset + page.length) (place page buf)

/-- `while (*path && *path != '/' && i < cap) component[i++] = *path++;` and what is left of path -/
def component : ℕ → List U8 → List U8 × List U8
  | _, [] => ([], [])
  | cap, c :: path =>
    if c = SLASH ∨ cap = 0 then ([], c :: path) else (c :: (component (cap - 1) path).1, (component (cap - 1) path).2)

section Lookup

variable {ι : Type} (sb : SuperBlock ι) (junk : ℕ → U8) (fuel : ℕ)

/-- one component: find the name, get the inode -/
def lookupName (cur : ι) (comp : List U8) : Option (Option ι) :=
  (findName (fun offset => sb.readdir cur offset CHUNK_SIZE) comp fuel 0 junk).map fun found => found.bind sb.getInode

/-- the loop of `lookup_path`; a round takes at least one byte of the path -/
def lookupLoop : ℕ → ι → List U8 → Option (Option ι)
  | 0, cur, _ => some (some cur)
  | n + 1, cur, path =>
    if path = [] then some (some cur)
    else
      let rest := (component 255 path).2
      let rest := if rest.head? = some SLASH then rest.tail else rest
      match lookupName sb junk fuel cur (component 255 path).1 with
      | none => none
      | some none => some none
      | some (some next) => lookupLoop n next rest

def lookupPath (root : ι) (path : List U8) : Option (Option ι) :=
  let path := path.dropWhile (· = SLASH)
  lookupLoop sb junk fuel path.length root path

end Lookup

/-- a count that does not wrap -/
theorem clamp_exact {offset len size : U64} (ho : offset.toNat < size.toNat) (hw : offset.toNat + len.toNat < 2 ^ 64) :
    (clamp offset len size).toNat = min len.toNat (size.toNat - offset.toNat) := by
  have hsum : (offset + len).toNat = offset.toNat + len.toNat := by
    rw [BitVec.toNat_add, Nat.mod_eq_of_lt hw]
  unfold clamp
  split_ifs with h
  · rw [gt_iff_lt, BitVec.lt_def, hsum] at h
    rw [BitVec.toNat_sub_of_le (by rw [BitVec.le_def]; omega)]
    omega
  · rw [gt_iff_lt, BitVec.lt_def, hsum] at h
    omega

/-! ## What paging should give -/

def Dirent.Valid (e : Dirent) : Prop := 0 ∉ e.name ∧ e.name.length ≤ 255

/-- all records of one chunk, read as `scan` reads them -/
def parse (buf : ℕ → U8) (bytes : ℕ) : ℕ → ℕ → List Dirent
  | 0, _ => []
  | fuel + 1, p =>
    if p < bytes then
      let nameLen := strnlen buf (p + 8) (CHUNK_SIZE - (p + 8))
      ⟨word buf p, (List.range nameLen).map fun k => buf (p + 8 + k)⟩ ::
        parse buf bytes fuel (p + 8 + nameLen + 1)
    else []

/-- all records of all chunks -/
def listDir (readdir : ℕ → Option (List U8)) : ℕ → ℕ → (ℕ → U8) → Option (List Dirent)
  | 0, _, _ => none
  | fuel + 1, offset, buf =>
    match readdir offset with
    | none => some []
    | some page =>
      if page = [] then some []
      else (listDir readdir fuel (offset + page.length) (place page buf)).map fun es =>
        parse (place page buf) page.length page.length 0 ++ es

/-- the directory es, read in chunks -/
structure Enumerates (readdir : ℕ → Option (List U8)) (es : List Dirent) : Prop where
  lists : ∀ fuel junk, es.length < fuel → listDir readdir fuel 0 junk = some es
  finds : ∀ fuel junk component, es.length < fuel → 0 ∉ component →
    findName readdir component fuel 0 junk = some ((es.find? fun e => e.name = component).map Dirent.ino)

/-! ## Chunks -/

section Chunks

variable {buf : ℕ → U8} {p fuel offset bytes : ℕ} {xs ys : List U8} {e : Dirent} {g es : List Dirent}

theorem holds_place : Holds (place xs buf) 0 xs := fun i hi => by
  rw [Nat.zero_add, place, List.getD_eq_getElem _ _ hi]

theorem enc_length : e.enc.length = e.name.length + 9 := by
  rw [Dirent.enc, List.length_append, List.length_append, length_le, List.length_singleton]
  omega

theorem enc_ne_nil : e.enc ≠ [] := fun h => by
  have := congrArg List.length h
  rw [enc_length] at this
  exact absurd this (by simp)

theorem word_eq {w : U64} (h : Holds buf p (le 8 w)) : word buf p = w := by
  apply BitVec.eq_of_toNat_eq
  rw [word, h.field, BitVec.toNat_ofNat, show (256 : ℕ) ^ 8 = 2 ^ 64 by norm_num, Nat.mod_mod, Nat.mod_eq_of_lt w.isLt]

/-- a record in memory -/
theorem record_eq (h : Holds buf p e.enc) (hv : 0 ∉ e.name) : word buf p = e.ino ∧ IsStr buf (p + 8) e.name := by
  rw [Dirent.enc, List.append_assoc] at h
  have hname := h.right
  rw [length_le] at hname
  exact ⟨word_eq h.left, Holds.isStr hname hv⟩

theorem parse_eq (hg : ∀ e ∈ g, e.Valid) (h : Holds buf p (g.flatMap Dirent.enc))
    (hb : p + (g.flatMap Dirent.enc).length = bytes) (hc : bytes ≤ CHUNK_SIZE) (hf : g.length ≤ fuel) :
    parse buf bytes fuel p = g := by
  induction g generalizing p fuel with
  | nil =>
    cases fuel with
    | zero => rfl
    | succ fuel => rw [parse, if_neg (by simp at hb; omega)]
  | cons e g ih =>
    cases fuel with
    | zero => exact absurd hf (by simp)
    | succ fuel =>
      rw [List.flatMap_cons] at h hb
      rw [List.length_append, enc_length] at hb
      obtain ⟨hino, hstr⟩ := record_eq h.left (hg e (List.mem_cons_self ..)).1
      have hlen : strnlen buf (p + 8) (CHUNK_SIZE - (p + 8)) = e.name.length := strnlen_eq hstr (by omega)
      have hrest := h.right
      rw [enc_length] at hrest
      rw [parse, if_pos (by omega)]
      simp only [hlen, hino, hstr.bytes]
      rw [show p + 8 + e.name.length + 1 = p + (e.name.length + 9) by omega,
        ih (fun e' he' => hg e' (List.mem_cons_of_mem _ he')) hrest (by omega) (Nat.le_of_succ_le_succ hf)]

theorem scan_eq {comp : List U8} (hcomp : 0 ∉ comp) (hg : ∀ e ∈ g, e.Valid) (h : Holds buf p (g.flatMap Dirent.enc))
    (hb : p + (g.flatMap Dirent.enc).length = bytes) (hc : bytes ≤ CHUNK_SIZE) (hf : g.length ≤ fuel) :
    scan buf bytes comp fuel p = (g.find? fun e => e.name = comp).map Dirent.ino := by
  induction g generalizing p fuel with
  | nil =>
    cases fuel with
    | zero => rfl
    | succ fuel =>
      rw [scan, if_neg (by simp at hb; omega)]
      rfl
  | cons e g ih =>
    cases fuel with
    | zero => exact absurd hf (by simp)
    | succ fuel =>
      rw [List.flatMap_cons] at h hb
      rw [List.length_append, enc_length] at hb
      obtain ⟨hino, hstr⟩ := record_eq h.left (hg e (List.mem_cons_self ..)).1
      have hlen : strnlen buf (p + 8) (CHUNK_SIZE - (p + 8)) = e.name.length := strnlen_eq hstr (by omega)
      have hrest := h.right
      rw [enc_length] at hrest
      rw [scan, if_pos (by omega)]
      simp only [hlen, hino]
      by_cases heq : e.name = comp
      · rw [if_pos ((strcmp_iff hstr hcomp).2 heq), List.find?_cons_of_pos (by simpa using heq)]
        rfl
      · rw [if_neg fun h0 => heq ((strcmp_iff hstr hcomp).1 h0), List.find?_cons_of_neg (by simpa using heq),
          show p + 8 + e.name.length + 1 = p + (e.name.length + 9) by omega,
          ih (fun e' he' => hg e' (List.mem_cons_of_mem _ he')) hrest (by omega) (Nat.le_of_succ_le_succ hf)]

theorem length_le_flatMap : g.length ≤ (g.flatMap Dirent.enc).length := by
  induction g with
  | nil => exact Nat.le_refl 0
  | cons e g ih =>
    rw [List.flatMap_cons, List.length_append, List.length_cons, enc_length]
    omega

end Chunks

/-! ## Whole directories -/

section Directory

variable {readdir : ℕ → Option (List U8)} {read : ℕ → List U8} {offset fuel : ℕ} {gs : List (List Dirent)}
  {es : List Dirent} {junk : ℕ → U8}

theorem listDir_eq (h : Paged Dirent.enc read offset gs) (hr : ∀ o, readdir o = some (read o))
    (hc : ∀ o, (read o).length ≤ CHUNK_SIZE) (hv : ∀ e ∈ gs.flatten, e.Valid) (hf : gs.length < fuel) :
    listDir readdir fuel offset junk = some gs.flatten := by
  induction h generalizing fuel junk with
  | @done offset hnil =>
    obtain ⟨fuel, rfl⟩ := Nat.exists_eq_succ_of_ne_zero (Nat.ne_zero_of_lt hf)
    simp [listDir, hr, hnil]
  | @page offset g gs hne hread _ ih =>
    obtain ⟨fuel, rfl⟩ := Nat.exists_eq_succ_of_ne_zero (Nat.ne_zero_of_lt hf)
    rw [List.length_cons] at hf
    rw [List.flatten_cons] at hv
    have hcap := hc offset
    rw [hread] at hcap
    have hparse : parse (place (g.flatMap Dirent.enc) junk) (g.flatMap Dirent.enc).length
        (g.flatMap Dirent.enc).length 0 = g :=
      parse_eq (fun e he => hv e (List.mem_append_left _ he)) holds_place (Nat.zero_add _) hcap length_le_flatMap
    simp only [listDir, hr, hread, if_neg hne, hparse]
    rw [ih (fun e he => hv e (List.mem_append_right _ he)) (by omega)]
    rfl

theorem findName_eq {comp : List U8} (hcomp : 0 ∉ comp) (h : Paged Dirent.enc read offset gs)
    (hr : ∀ o, readdir o = some (read o)) (hc : ∀ o, (read o).length ≤ CHUNK_SIZE) (hv : ∀ e ∈ gs.flatten, e.Valid)
    (hf : gs.length < fuel) :
    findName readdir comp fuel offset junk = some ((gs.flatten.find? fun e => e.name = comp).map Dirent.ino) := by
  induction h generalizing fuel junk with
  | @done offset hnil =>
    obtain ⟨fuel, rfl⟩ := Nat.exists_eq_succ_of_ne_zero (Nat.ne_zero_of_lt hf)
    simp [findName, hr, hnil]
  | @page offset g gs hne hread _ ih =>
    obtain ⟨fuel, rfl⟩ := Nat.exists_eq_succ_of_ne_zero (Nat.ne_zero_of_lt hf)
    rw [List.length_cons] at hf
    rw [List.flatten_cons] at hv
    have hcap := hc offset
    rw [hread] at hcap
    have hscan : scan (place (g.flatMap Dirent.enc) junk) (g.flatMap Dirent.enc).length comp
        (g.flatMap Dirent.enc).length 0 = (g.find? fun e => e.name = comp).map Dirent.ino :=
      scan_eq hcomp (fun e he => hv e (List.mem_append_left _ he)) holds_place (Nat.zero_add _) hcap length_le_flatMap
    simp only [findName, hr, hread, if_neg hne, hscan, List.flatten_cons, List.find?_append]
    cases hfound : g.find? fun e => decide (e.name = comp) with
    | some e => rfl
    | none => exact ih (fun e he => hv e (List.mem_append_right _ he)) (by omega)

/-- **Drivers.** One that walks its entries as `fill` does loses and repeats nothing. -/
theorem enumerates_of_fill (hv : ∀ e ∈ es, e.Valid)
    (hr : ∀ offset, readdir offset = some (fill Dirent.enc offset CHUNK_SIZE 0 [] es)) : Enumerates readdir es := by
  have hcap : ∀ e ∈ es, e.enc.length ≤ CHUNK_SIZE := fun e he => by
    have := (hv e he).2
    rw [enc_length]
    exact le_trans (Nat.add_le_add_right this 9) (by decide)
  obtain ⟨gs, rfl, hp⟩ := paged_fill (fun e _ => enc_ne_nil) hcap
  have hlen : gs.length ≤ gs.flatten.length := by
    have hgs := hp.length_le
    exact hgs
  exact ⟨fun fuel junk hf => listDir_eq hp hr (fun _ => fill_length (Nat.zero_le _)) hv (by omega),
    fun fuel junk comp hf hcomp => findName_eq hcomp hp hr (fun _ => fill_length (Nat.zero_le _)) hv (by omega)⟩

end Directory

/-! ## Paths -/

/-- /a/b/c -/
def join (comps : List (List U8)) : List U8 := comps.flatMap (SLASH :: ·)

/-- a name that fits in the component buffer -/
def IsComp (c : List U8) : Prop := c ≠ [] ∧ SLASH ∉ c ∧ c.length ≤ 255

section Paths

variable {ι : Type} {sb : SuperBlock ι} {junk : ℕ → U8} {fuel cap : ℕ} {c rest : List U8} {comps : List (List U8)}

/-- one lookup after the other -/
def walk (sb : SuperBlock ι) (junk : ℕ → U8) (fuel : ℕ) : ι → List (List U8) → Option (Option ι)
  | cur, [] => some (some cur)
  | cur, c :: comps =>
    match lookupName sb junk fuel cur c with
    | none => none
    | some none => some none
    | some (some next) => walk sb junk fuel next comps

theorem component_append (hc : SLASH ∉ c) (hcap : c.length ≤ cap) (hrest : rest = [] ∨ rest.head? = some SLASH) :
    component cap (c ++ rest) = (c, rest) := by
  induction c generalizing cap with
  | nil =>
    cases rest with
    | nil => rfl
    | cons x rest =>
      have hx : x = SLASH := by simpa using hrest
      rw [List.nil_append, component, if_pos (Or.inl hx)]
  | cons x c ih =>
    rw [List.length_cons] at hcap
    have hx : ¬ (x = SLASH ∨ cap = 0) := by
      rintro (rfl | rfl)
      · exact hc (List.mem_cons_self ..)
      · exact absurd hcap (by omega)
    rw [List.cons_append, component, if_neg hx,
      ih (fun h => hc (List.mem_cons_of_mem _ h)) (by omega)]

theorem join_head : join comps = [] ∨ (join comps).head? = some SLASH := by
  cases comps with
  | nil => exact Or.inl rfl
  | cons c comps => exact Or.inr rfl

theorem lookupLoop_join {n : ℕ} {cur : ι} (hc : IsComp c) (hcs : ∀ c ∈ comps, IsComp c)
    (hn : (c ++ join comps).length ≤ n) :
    lookupLoop sb junk fuel n cur (c ++ join comps) = walk sb junk fuel cur (c :: comps) := by
  induction comps generalizing n cur c with
  | nil =>
    have hpos : 0 < c.length := List.length_pos_iff.2 hc.1
    obtain ⟨n, rfl⟩ := Nat.exists_eq_succ_of_ne_zero (n := n) (by rw [List.length_append] at hn; omega)
    rw [lookupLoop, if_neg (by simp [hc.1]), walk, component_append hc.2.1 hc.2.2 join_head]
    dsimp only
    cases lookupName sb junk fuel cur c with
    | none => rfl
    | some found =>
      cases found with
      | none => rfl
      | some next =>
        cases n with
        | zero => rfl
        | succ n => rfl
  | cons c' comps ih =>
    have hpos : 0 < c.length := List.length_pos_iff.2 hc.1
    have hlen : (c' ++ join comps).length + 2 ≤ n := by
      simp only [join, List.flatMap_cons, List.length_append, List.length_cons] at hn ⊢
      omega
    obtain ⟨n, rfl⟩ := Nat.exists_eq_succ_of_ne_zero (n := n) (by omega)
    rw [lookupLoop, if_neg (by simp [hc.1]), walk, component_append hc.2.1 hc.2.2 join_head]
    have hslash : (join (c' :: comps)).head? = some SLASH := rfl
    have htail : (join (c' :: comps)).tail = c' ++ join comps := rfl
    simp only [hslash, if_true, htail]
    cases lookupName sb junk fuel cur c with
    | none => rfl
    | some found =>
      cases found with
      | none => rfl
      | some next =>
        exact ih (hcs c' (List.mem_cons_self ..)) (fun x hx => hcs x (List.mem_cons_of_mem _ hx)) (by omega)

/-- **Walking a path.** -/
theorem lookupPath_join {root : ι} (hcs : ∀ c ∈ comps, IsComp c) :
    lookupPath sb junk fuel root (join comps) = walk sb junk fuel root comps := by
  cases comps with
  | nil => rfl
  | cons c comps =>
    have hc := hcs c (List.mem_cons_self ..)
    have hdrop : (join (c :: comps)).dropWhile (· = SLASH) = c ++ join comps := by
      obtain ⟨x, c, rfl⟩ := List.exists_cons_of_ne_nil hc.1
      have hx : x ≠ SLASH := fun h => hc.2.1 (h ▸ List.mem_cons_self ..)
      simp [join, hx]
    rw [lookupPath, hdrop]
    exact lookupLoop_join hc (fun x hx => hcs x (List.mem_cons_of_mem _ hx)) le_rfl

end Paths

end Retux.Vfs
