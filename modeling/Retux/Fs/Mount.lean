/-
Mounting a USTAR archive (`tarfs::mount`), and what a lookup finds afterwards.

The archive is a buffer of bytes; `Archive` says which list of entries it holds, in the terms of the format: a header
of 512 bytes with its text fields and its octal size, then the data in blocks of 512. Offsets are numbers: a size field
of 12 digits is below 2^36, and mount copies the archive into a heap of 4 GiB, so that nothing wraps. The heap's own
failures are left out; `full` in the table is a node that could not be had.

- `mount_tree`: the table is the tree of the entries' paths, as `build_full_path` and `insert_path` cut them;
- `mount_lookup`: lookups find every entry, and nothing else, exactly when no path is cut: names of at most 99 bytes,
  and 255 bytes in all.
-/
import Mathlib.Tactic
import Retux.Fs.Tree

namespace Retux.Tar

open Retux.Word Retux.Bytes Retux.Str Retux.Vfs Retux.Path

/-! ## Model -/

/-- `parse_octal`, from byte i on -/
def parseOctal (field : ℕ → U8) : ℕ → ℕ → ℕ → ℕ
  | 0, _, value => value
  | len + 1, i, value =>
    let c := field i
    if c < 0x30 ∨ c > 0x37 then value else parseOctal field len (i + 1) (value <<< 3 ||| (c - 0x30).toNat)

def NAME : ℕ := 0
def SIZE : ℕ := 124
def TYPEFLAG : ℕ := 156
def MAGIC : ℕ := 257
def PREFIX : ℕ := 345

def USTAR : List U8 := [0x75, 0x73, 0x74, 0x61, 0x72]

/-- n bytes from a on -/
def copy (buf : ℕ → U8) (a n : ℕ) : List U8 := (List.range n).map fun k => buf (a + k)

def buildFullPath (hdr : ℕ → U8) (outSize : ℕ) : List U8 :=
  let prefixLen := strnlen hdr PREFIX 155
  let nameLen := strnlen hdr NAME 100
  let out :=
    if prefixLen > 0 then
      let n := if prefixLen < outSize - 1 then prefixLen else outSize - 1
      let out := copy hdr PREFIX n
      if out.length < outSize - 1 then out ++ [SLASH] else out
    else []
  let n := if nameLen < outSize - 1 - out.length then nameLen else outSize - 1 - out.length
  out ++ copy hdr NAME n

def nextOffset (offset entrySize : ℕ) : ℕ := offset + (512 + (entrySize + 511) / 512 * 512)

section Mount

variable (base : ℕ → U8) (size : ℕ)

def header (offset i : ℕ) : U8 := base (offset + i)

def countEntries : ℕ → ℕ → ℕ
  | 0, _ => 0
  | n + 1, offset =>
    if offset + 512 ≤ size then
      if header base offset NAME = 0 then 0
      else countEntries n (nextOffset offset (parseOctal (header base offset) 12 SIZE 0)) + 1
    else 0

def mountLoop : ℕ → ℕ → TarState → TarState
  | 0, _, st => st
  | n + 1, offset, st =>
    if offset + 512 ≤ size then
      let hdr := header base offset
      if hdr NAME = 0 then st
      else
        let entrySize := parseOctal hdr 12 SIZE 0
        let dataOffset := offset + 512
        let isDir := hdr TYPEFLAG = 0x35
        let st := insertPath st (buildFullPath hdr 256) isDir
          (if isDir then 0 else BitVec.ofNat 32 dataOffset) (if isDir then 0 else BitVec.ofNat 32 entrySize)
        mountLoop n (nextOffset offset entrySize) st
    else st

/-- heap and nodes are what kmalloc hands out -/
def mount (heap : ℕ → U8) (nodes : ℕ → TarNode) : Option TarState :=
  if size < 512 then none
  else if copy base MAGIC 5 ≠ USTAR then none
  else
    let capacity := countEntries base size size 0 * 8 + 16
    let st : TarState := ⟨fun i => if i < size then base i else heap i, nodes, 0, capacity, false⟩
    (allocNode st).map fun (root, st) =>
      let n := { st.nodes root with name := [], isDir := true }
      mountLoop base size size 0 { st with nodes := Function.update st.nodes root n }

end Mount

/-! ## Archives -/

structure Entry where
  pfx : List U8
  name : List U8
  isDir : Bool
  data : List U8

def Entry.path (e : Entry) : List U8 := if e.pfx = [] then e.name else e.pfx ++ SLASH :: e.name

/-- a directory has no bytes of its own -/
def Entry.bytes (e : Entry) : List U8 := if e.isDir then [] else e.data

/-- the number n in octal digits, with a NUL or a space after them unless they fill the field -/
def Octal (hdr : ℕ → U8) (p w n : ℕ) : Prop :=
  ∃ ds : List ℕ, (∀ d ∈ ds, d < 8) ∧ ds.length ≤ w ∧ Holds hdr p (ds.map fun d => BitVec.ofNat 8 (0x30 + d)) ∧
    n = ds.foldl (fun v d => 8 * v + d) 0 ∧ (ds.length < w → hdr (p + ds.length) = 0 ∨ hdr (p + ds.length) = 0x20)

structure IsHeader (hdr : ℕ → U8) (e : Entry) : Prop where
  name : IsField hdr NAME 100 e.name
  pfx : IsField hdr PREFIX 155 e.pfx
  size : Octal hdr SIZE 12 e.data.length
  typeflag : if e.isDir then hdr TYPEFLAG = 0x35 else hdr TYPEFLAG = 0x30 ∨ hdr TYPEFLAG = 0
  magic : Holds hdr MAGIC USTAR
  named : e.name ≠ []

/-- the entries from an offset on -/
inductive Archive (base : ℕ → U8) (size : ℕ) : ℕ → List Entry → Prop
  | stop {offset : ℕ} : size < offset + 512 ∨ header base offset NAME = 0 → Archive base size offset []
  | entry {offset : ℕ} {e : Entry} {es : List Entry} : IsHeader (header base offset) e →
      offset + 512 + e.data.length ≤ size → Holds base (offset + 512) e.data →
      Archive base size (nextOffset offset e.data.length) es → Archive base size offset (e :: es)

/-- no "." or "..", and nothing below a file -/
structure WellFormed (es : List Entry) : Prop where
  dots : ∀ e ∈ es, ∀ c ∈ names e.path, c ≠ [DOT] ∧ c ≠ [DOT, DOT]
  named : ∀ e ∈ es, e.isDir = false → names e.path ≠ []
  parents : ∀ e ∈ es, ∀ e' ∈ es, e.isDir = false → names e.path <+: names e'.path → names e.path = names e'.path

/-- the last entry with a path -/
def IsLast (es : List Entry) (p : List (List U8)) (e : Entry) : Prop :=
  ∃ pre post, es = pre ++ e :: post ∧ names e.path = p ∧ ∀ e' ∈ post, names e'.path ≠ p

/-- kind, size and bytes -/
structure Shows (st : TarState) (i : ℕ) (e : Entry) : Prop where
  kind : (st.nodes i).isDir = e.isDir
  size : (st.nodes i).size.toNat = e.bytes.length
  bytes : Holds st.base (st.nodes i).dataOffset.toNat e.bytes

/-- what a mounted archive should give -/
structure Faithful (st : TarState) (es : List Entry) : Prop where
  finds : ∀ p e, IsLast es p e → ∃ i, Shows st i e ∧
    ∀ junk fuel, st.numNodes < fuel → lookupPath (superBlock st) junk fuel 0 (join p) = some (some i)
  onlyThese : ∀ path, 0 ∉ path → names path ≠ [] → (∀ e ∈ es, ¬ names path <+: names e.path) →
    ∀ junk fuel, st.numNodes < fuel → lookupPath (superBlock st) junk fuel 0 path = some none

/-- no buffer cuts the path -/
structure Entry.Fits (e : Entry) : Prop where
  names : ∀ c ∈ names e.path, c.length ≤ 99
  path : e.path.length ≤ 255 ∨ e.path.getLast? = some SLASH

/-- written with single slashes -/
def Plain (path : List U8) : Prop :=
  join (names path) = SLASH :: path ∨ join (names path) ++ [SLASH] = SLASH :: path

/-! ## Headers -/

section Headers

variable {hdr : ℕ → U8} {e : Entry} {p w n v : ℕ} {l : List U8}

theorem digit_eq (d : Fin 8) : ¬ (BitVec.ofNat 8 (0x30 + d.val) < 0x30 ∨ BitVec.ofNat 8 (0x30 + d.val) > 0x37) ∧
    (BitVec.ofNat 8 (0x30 + d.val) - 0x30).toNat = d.val := by
  revert d
  decide

theorem parseOctal_digits {ds : List ℕ} (hd : ∀ d ∈ ds, d < 8) (hw : ds.length ≤ w)
    (hds : Holds hdr p (ds.map fun d => BitVec.ofNat 8 (0x30 + d)))
    (hstop : ds.length < w → hdr (p + ds.length) = 0 ∨ hdr (p + ds.length) = 0x20) :
    parseOctal hdr w p v = ds.foldl (fun v d => 8 * v + d) v := by
  induction ds generalizing w p v with
  | nil =>
    cases w with
    | zero => rfl
    | succ w =>
      have hc := hstop (Nat.succ_pos w)
      rw [List.length_nil, Nat.add_zero] at hc
      have hlow : hdr p < 0x30 ∨ hdr p > 0x37 := by
        rcases hc with h | h <;> rw [h] <;> decide
      rw [parseOctal, if_pos hlow]
      rfl
  | cons d ds ih =>
    rw [List.length_cons] at hw
    obtain ⟨w, rfl⟩ : ∃ u, w = u + 1 := ⟨w - 1, by omega⟩
    have hlt : d < 8 := hd d (List.mem_cons_self ..)
    have hc : hdr p = BitVec.ofNat 8 (0x30 + d) := hds 0 (by simp)
    have hdigit : ¬ (BitVec.ofNat 8 (0x30 + d) < 0x30 ∨ BitVec.ofNat 8 (0x30 + d) > 0x37) ∧
      (BitVec.ofNat 8 (0x30 + d) - 0x30).toNat = d := digit_eq ⟨d, hlt⟩
    have hval : v <<< 3 ||| d = 8 * v + d := by
      rw [← Nat.shiftLeft_add_eq_or_of_lt hlt, Nat.shiftLeft_eq]
      omega
    have hrest : Holds hdr (p + 1) (ds.map fun d => BitVec.ofNat 8 (0x30 + d)) := by
      have hright := hds
      rw [List.map_cons, ← List.singleton_append] at hright
      exact hright.right
    rw [parseOctal, hc, if_neg hdigit.1, hdigit.2, hval, List.foldl_cons]
    refine ih (fun d' h' => hd d' (List.mem_cons_of_mem _ h')) (by omega) hrest fun hlt' => ?_
    have := hstop (by rw [List.length_cons]; omega)
    rwa [List.length_cons, show p + (ds.length + 1) = p + 1 + ds.length by omega] at this

theorem Octal.parse (h : Octal hdr p w n) : parseOctal hdr w p 0 = n := by
  obtain ⟨ds, hd, hw, hds, rfl, hstop⟩ := h
  exact parseOctal_digits hd hw hds hstop

theorem copy_eq (h : Holds hdr p l) (hn : n ≤ l.length) : copy hdr p n = l.take n := by
  refine List.ext_getElem (by simp [copy, hn]) fun i hi hi' => ?_
  have hlt : i < n := by simpa [copy] using hi
  simp only [copy, List.getElem_map, List.getElem_range, List.getElem_take]
  exact h i (by omega)

theorem IsHeader.path_length (h : IsHeader hdr e) : e.path.length ≤ 256 := by
  have hname := h.name.fits
  have hpfx := h.pfx.fits
  unfold Entry.path
  split_ifs
  · omega
  · rw [List.length_append, List.length_cons]
    omega

theorem IsHeader.path_text (h : IsHeader hdr e) : 0 ∉ e.path := by
  unfold Entry.path
  split_ifs
  · exact h.name.text
  · have hslash : (0 : U8) ≠ SLASH := by decide
    rw [List.mem_append, List.mem_cons]
    exact not_or.2 ⟨h.pfx.text, not_or.2 ⟨hslash, h.name.text⟩⟩

/-- the path buffer holds 255 bytes -/
theorem IsHeader.buildFullPath (h : IsHeader hdr e) : buildFullPath hdr 256 = e.path.take 255 := by
  have hname := h.name.fits
  have hpfx := h.pfx.fits
  unfold Tar.buildFullPath
  rw [strnlen_field h.name, strnlen_field h.pfx]
  have hcopy : copy hdr PREFIX e.pfx.length = e.pfx := by rw [copy_eq h.pfx.bytes le_rfl, List.take_length]
  by_cases hnil : e.pfx = []
  · simp only [hnil, List.length_nil, gt_iff_lt, Nat.lt_irrefl, if_false, List.nil_append, Entry.path, if_true]
    rw [if_pos (by omega), copy_eq h.name.bytes le_rfl, List.take_length, List.take_of_length_le (by omega)]
  · have hpos : 0 < e.pfx.length := List.length_pos_iff.2 hnil
    have hlt : e.pfx.length < 256 - 1 := by omega
    have hcut : (if e.name.length < 256 - 1 - (e.pfx.length + 1) then e.name.length else 256 - 1 - (e.pfx.length + 1))
        = min e.name.length (254 - e.pfx.length) := by
      split_ifs <;> omega
    simp only [gt_iff_lt, if_pos hpos, if_pos hlt, hcopy, List.length_append, List.length_singleton, Entry.path,
      if_neg hnil, hcut]
    have htake : e.name.take (min e.name.length (254 - e.pfx.length)) = e.name.take (254 - e.pfx.length) := by
      rw [Nat.min_comm, List.take_eq_take_iff]
      omega
    rw [copy_eq h.name.bytes (Nat.min_le_left _ _), htake, List.append_assoc, List.singleton_append, List.take_append,
      List.take_of_length_le (by omega : e.pfx.length ≤ 255), show 255 - e.pfx.length = (254 - e.pfx.length) + 1 by omega,
      List.take_succ_cons]

end Headers

/-! ## The mounted tree -/

/-- the path as the two buffers cut it -/
def Entry.pieces (e : Entry) : List (List U8) :=
  let path := skipHead (e.path.take 255)
  Path.pieces path.length path

def Entry.stamp (e : Entry) (dataOffset : ℕ) : Stamp where
  isDir := e.isDir
  dataOffset := if e.isDir then 0 else BitVec.ofNat 32 dataOffset
  size := if e.isDir then 0 else BitVec.ofNat 32 e.data.length

/-- the entries in turn -/
def fileTree : ℕ → List Entry → Files → Files
  | _, [], F => F
  | offset, e :: es, F =>
    fileTree (nextOffset offset e.data.length) es (F.grow [] e.pieces (e.stamp (offset + 512)))

section MountTree

variable {base heap : ℕ → U8} {size offset n : ℕ} {nodes : ℕ → TarNode} {st st' : TarState} {es pre post : List Entry}
  {e : Entry} {kids : ℕ → List ℕ} {label : ℕ → List (List U8)} {F : Files} {p r : List (List U8)}

/-- what no insertion changes -/
structure Keeps (st st' : TarState) : Prop where
  base : st'.base = st.base
  capNodes : st'.capNodes = st.capNodes
  full : st.full = true → st'.full = true

theorem Keeps.refl : Keeps st st := ⟨rfl, rfl, id⟩

theorem Keeps.trans {st'' : TarState} (h : Keeps st st') (h' : Keeps st' st'') : Keeps st st'' :=
  ⟨h'.base.trans h.base, h'.capNodes.trans h.capNodes, fun hf => h'.full (h.full hf)⟩

theorem getOrCreateChild_same {i j : ℕ} {c : List U8} (h : getOrCreateChild st i c = some (j, st')) :
    st'.base = st.base ∧ st'.capNodes = st.capNodes ∧ st'.full = st.full := by
  unfold getOrCreateChild allocNode at h
  cases hfound : findChild st i c with
  | some existing =>
    rw [hfound] at h
    obtain ⟨-, rfl⟩ : existing = j ∧ st = st' := by simpa using h
    exact ⟨rfl, rfl, rfl⟩
  | none =>
    rw [hfound] at h
    by_cases hroom : st.numNodes ≥ st.capNodes
    · simp [if_pos hroom] at h
    · simp only [if_neg hroom, Option.map_some, Option.some.injEq, Prod.mk.injEq] at h
      rw [← h.2]
      exact ⟨rfl, rfl, rfl⟩

theorem insertLoop_keeps {isDir : Bool} {dataOffset sz : U32} {cur : ℕ} {path : List U8} :
    Keeps st (insertLoop isDir dataOffset sz n cur path st) := by
  induction n generalizing cur path st with
  | zero => exact Keeps.refl
  | succ n ih =>
    rw [insertLoop]
    split_ifs
    · exact Keeps.refl
    · cases hget : getOrCreateChild st cur (component 99 path).1 with
      | none => exact ⟨rfl, rfl, fun _ => rfl⟩
      | some found =>
        have hchild : Keeps st found.2 := by
          obtain ⟨hbase, hcap, hfull⟩ := getOrCreateChild_same hget
          exact ⟨hbase, hcap, hfull.trans⟩
        dsimp only
        split_ifs
        · refine hchild.trans (Keeps.trans ?_ ih)
          exact ⟨rfl, rfl, id⟩
        · exact hchild.trans ih

theorem mountLoop_keeps : Keeps st (mountLoop base size n offset st) := by
  induction n generalizing offset st with
  | zero => exact Keeps.refl
  | succ n ih =>
    rw [mountLoop]
    by_cases hroom : offset + 512 ≤ size
    · by_cases hstop : header base offset NAME = 0
      · simp only [if_pos hroom, if_pos hstop]
        exact Keeps.refl
      · simp only [if_pos hroom, if_neg hstop]
        exact Keeps.trans insertLoop_keeps ih
    · rw [if_neg hroom]
      exact Keeps.refl

theorem IsHeader.isDir_eq {hdr : ℕ → U8} (h : IsHeader hdr e) : decide (hdr TYPEFLAG = 0x35) = e.isDir := by
  have ht := h.typeflag
  cases hd : e.isDir with
  | true =>
    rw [hd, if_pos rfl] at ht
    simp [ht]
  | false =>
    rw [hd, if_neg (by simp)] at ht
    rcases ht with ht | ht <;> simp [ht]

theorem IsHeader.name_ne {hdr : ℕ → U8} (h : IsHeader hdr e) : hdr NAME ≠ 0 := fun h0 => by
  obtain ⟨c, name, hcons⟩ := List.exists_cons_of_ne_nil h.named
  have hname := h.name
  rw [hcons] at hname
  have hc : hdr NAME = c := hname.bytes 0 (Nat.succ_pos _)
  exact hname.text (by rw [← h0, hc]; exact List.mem_cons_self ..)

/-- one entry of the archive -/
theorem mountLoop_entry (hhdr : IsHeader (header base offset) e) (hroom : offset + 512 ≤ size) :
    mountLoop base size (n + 1) offset st = mountLoop base size n (nextOffset offset e.data.length)
      (insertPath st (e.path.take 255) (e.stamp (offset + 512)).isDir (e.stamp (offset + 512)).dataOffset
        (e.stamp (offset + 512)).size) := by
  rw [mountLoop, if_pos hroom]
  simp only [if_neg hhdr.name_ne, hhdr.size.parse, hhdr.buildFullPath, Entry.stamp, ← hhdr.isDir_eq,
    decide_eq_true_eq]

theorem mountLoop_tree (ha : Archive base size offset es) (h : Tree st kids label F) (hn : size ≤ offset + n)
    (hfull : (mountLoop base size n offset st).full = false) :
    ∃ kids' label', Tree (mountLoop base size n offset st) kids' label' (fileTree offset es F) := by
  induction ha generalizing n st kids label F with
  | @stop offset hstop =>
    cases n with
    | zero => exact ⟨kids, label, h⟩
    | succ n =>
      rw [mountLoop]
      by_cases hroom : offset + 512 ≤ size
      · have hzero : header base offset NAME = 0 := hstop.resolve_left (by omega)
        simp only [if_pos hroom, if_pos hzero]
        exact ⟨kids, label, h⟩
      · rw [if_neg hroom]
        exact ⟨kids, label, h⟩
  | @entry offset e es hhdr hdata hbytes _ ih =>
    obtain ⟨n, rfl⟩ : ∃ k, n = k + 1 := ⟨n - 1, by omega⟩
    rw [mountLoop_entry hhdr (by omega)] at hfull ⊢
    have hpath : 0 ∉ e.path.take 255 := fun h0 => hhdr.path_text (List.mem_of_mem_take h0)
    obtain ⟨kids', label', h'⟩ := h.insertPath hpath (by
      by_contra hc
      exact absurd (mountLoop_keeps.full (by simpa using hc)) (by rw [hfull]; simp))
    exact ih h' (by unfold nextOffset; omega) hfull

theorem countEntries_le : countEntries base size n offset * 512 ≤ size - offset := by
  induction n generalizing offset with
  | zero => simp [countEntries]
  | succ n ih =>
    rw [countEntries]
    split_ifs with hroom
    · omega
    · obtain ⟨next, hnext⟩ : ∃ o, nextOffset offset (parseOctal (header base offset) 12 SIZE 0) = o := ⟨_, rfl⟩
      have hle : offset + 512 ≤ next := by
        rw [← hnext]
        unfold nextOffset
        omega
      have hrest := @ih next
      rw [hnext]
      calc (countEntries base size n next + 1) * 512 = countEntries base size n next * 512 + 512 := Nat.succ_mul _ _
        _ ≤ size - next + 512 := Nat.add_le_add_right hrest _
        _ ≤ size - offset := by
          clear hrest hnext
          omega
    · omega

/-- a table with nothing but its root -/
theorem Tree.root (hnum : st.numNodes = 1) (hnode : st.nodes 0 = ⟨[], true, 0, 0, none, none⟩) (hcap : 1 ≤ st.capNodes) :
    Tree st (fun _ => []) (fun _ => []) Files.root := by
  have hone {i : ℕ} (hi : i < st.numNodes) : i = 0 := by omega
  refine ⟨⟨by omega, rfl, by simp, fun i hi j hj _ => (hone hi).trans (hone hj).symm, by simp⟩, fun i hi => ?_,
    fun p => ?_, fun p hp c hc => ?_, fun i hi => ?_, fun _ _ => rfl, by omega⟩
  · rw [hone hi, hnode]
    exact Chain.nil
  · constructor
    · rintro rfl
      exact ⟨0, by omega, rfl⟩
    · rintro ⟨i, -, rfl⟩
      rfl
  · obtain rfl : p = [] := hp
    exact absurd hc (by simp)
  · rw [hone hi, hnode]
    rfl

/-- **The table after mount.** -/
theorem mount_tree (ha : Archive base size 0 es) (hsize : size < 2 ^ 32) (hm : mount base size heap nodes = some st)
    (hfull : st.full = false) :
    (∃ kids label, Tree st kids label (fileTree 0 es Files.root)) ∧ st.numNodes ≤ 2 ^ 31 ∧
      st.base = fun i => if i < size then base i else heap i := by
  unfold mount at hm
  have hcount := @countEntries_le base size 0 size
  split_ifs at hm
  simp only [allocNode, ge_iff_le, if_neg (by omega : ¬ countEntries base size size 0 * 8 + 16 ≤ 0), Option.map_some,
    Option.some.injEq] at hm
  subst hm
  have hkeeps := @mountLoop_keeps base size 0 size
  obtain ⟨kids, label, h⟩ := mountLoop_tree ha (Tree.root rfl (by simp) (by simp)) (Nat.le_of_eq (Nat.zero_add _).symm) hfull
  refine ⟨⟨kids, label, h⟩, ?_, hkeeps.base⟩
  have hroom := h.room
  rw [hkeeps.capNodes] at hroom
  dsimp only at hroom
  omega

end MountTree

/-! ## What the tree says of the archive -/

section FileTree

variable {base : ℕ → U8} {size offset : ℕ} {es pre post : List Entry} {e : Entry} {F : Files} {p r : List (List U8)}

theorem mem_fileTree : r ∈ (fileTree offset es F).paths ↔
    r ∈ F.paths ∨ ∃ e ∈ es, r ≠ [] ∧ r <+: e.pieces := by
  induction es generalizing offset F with
  | nil => simp [fileTree]
  | cons e es ih =>
    rw [fileTree, ih, Files.mem_grow]
    simp only [List.nil_append, List.mem_cons, exists_eq_or_imp, or_assoc]
    constructor
    · rintro (h | ⟨t, hne, ht, rfl⟩ | h)
      · exact Or.inl h
      · exact Or.inr (Or.inl ⟨hne, ht⟩)
      · exact Or.inr (Or.inr h)
    · rintro (h | ⟨hne, ht⟩ | h)
      · exact Or.inl h
      · exact Or.inr (Or.inl ⟨r, hne, ht, rfl⟩)
      · exact Or.inr (Or.inr h)

theorem grow_stamp_other {q : List (List U8)} {s : Stamp} (h : p = [] ∨ q ≠ p) :
    (F.grow [] q s).stamp p = F.stamp p := by
  by_cases hq : q = []
  · rw [hq, Files.grow]
  · have hpq : p ≠ q := fun heq => (h.elim (fun hp => hq (heq ▸ hp)) fun hne => hne heq.symm)
    rw [Files.stamp_grow hq, List.nil_append, Function.update_of_ne hpq]

theorem fileTree_stamp_other (h : p = [] ∨ ∀ e ∈ es, e.pieces ≠ p) :
    (fileTree offset es F).stamp p = F.stamp p := by
  induction es generalizing offset F with
  | nil => rfl
  | cons e es ih =>
    rw [fileTree, ih (h.imp_right fun h e' h' => h e' (List.mem_cons_of_mem _ h')),
      grow_stamp_other (h.imp_right fun h => h e (List.mem_cons_self ..))]

/-- the last entry with a path is what the tree has there -/
theorem fileTree_stamp_last (ha : Archive base size offset es) (hes : es = pre ++ e :: post) (hp : e.pieces = p)
    (hne : p ≠ []) (hpost : ∀ e' ∈ post, e'.pieces ≠ p) :
    ∃ o, (fileTree offset es F).stamp p = e.stamp o ∧ o + e.data.length ≤ size ∧ Holds base o e.data := by
  induction ha generalizing pre F with
  | stop => exact absurd hes (by simp)
  | @entry offset x es _ hdata hbytes _ ih =>
    cases pre with
    | nil =>
      obtain ⟨rfl, rfl⟩ : x = e ∧ es = post := by simpa using hes
      refine ⟨offset + 512, ?_, hdata, hbytes⟩
      rw [fileTree, fileTree_stamp_other (Or.inr hpost), hp, Files.stamp_grow hne, List.nil_append, Function.update_self]
    | cons y pre =>
      obtain ⟨-, hes⟩ : x = y ∧ es = pre ++ e :: post := by simpa using hes
      exact ih hes

theorem exists_isLast (h : ∃ e ∈ es, names e.path = p) : ∃ e, IsLast es p e := by
  induction es with
  | nil => exact absurd h (by simp)
  | cons x es ih =>
    by_cases hlater : ∃ e ∈ es, names e.path = p
    · obtain ⟨e, pre, post, rfl, hrest⟩ := ih hlater
      exact ⟨e, x :: pre, post, rfl, hrest⟩
    · obtain ⟨e, he, hep⟩ := h
      have hx : e = x := (List.mem_cons.1 he).resolve_right fun hin => hlater ⟨e, hin, hep⟩
      exact ⟨x, [], es, rfl, hx ▸ hep, fun e' h' hp => hlater ⟨e', h', hp⟩⟩

end FileTree

/-! ## Where paths are cut -/

section Cut

variable {es : List Entry} {e : Entry} {path : List U8}

/-- without a "." there is no "./" to skip -/
theorem no_dot_head (hdot : ∀ c ∈ names path, c ≠ [DOT]) : path.take 2 ≠ [DOT, SLASH] := fun h => by
  have hpath : path = [DOT] ++ SLASH :: path.drop 2 := by
    conv_lhs => rw [← List.take_append_drop 2 path, h]
    rfl
  have hmem : [DOT] ∈ names path := by
    rw [hpath, names_append_slash, names_single (by decide) (by simp)]
    simp
  exact hdot _ hmem rfl

theorem pieces_eq_names (hdot : ∀ c ∈ names e.path, c ≠ [DOT]) (hs : ∀ c ∈ names e.path, c.length ≤ 99) :
    e.pieces = names (e.path.take 255) := by
  have hhead : (e.path.take 255).take 2 ≠ [DOT, SLASH] := by
    rw [List.take_take]
    exact no_dot_head hdot
  have hskip : skipHead (e.path.take 255) = (e.path.take 255).dropWhile (· = SLASH) := by
    unfold skipHead
    rw [if_neg hhead]
  have hnames : ∀ c ∈ names ((e.path.take 255).dropWhile (· = SLASH)), c.length ≤ 99 := fun c hc => by
    rw [names_dropWhile] at hc
    obtain ⟨c', hmem, hle⟩ := names_shorter (e.path.drop 255) hc
    rw [List.take_append_drop] at hmem
    exact le_trans hle (hs c' hmem)
  unfold Entry.pieces
  dsimp only
  rw [hskip, pieces_eq le_rfl atBreak_dropWhile hnames, names_dropWhile]

theorem pieces_of_fits (h : e.Fits) (hlen : e.path.length ≤ 256) (hdot : ∀ c ∈ names e.path, c ≠ [DOT]) :
    e.pieces = names e.path := by
  rw [pieces_eq_names hdot h.names]
  rcases Nat.lt_or_ge 255 e.path.length with hlong | hshort
  · have hlast : e.path.getLast? = some SLASH := h.path.resolve_left (by omega)
    obtain ⟨init, hinit⟩ := List.getLast?_eq_some_iff.1 hlast
    have hlen' : init.length = 255 := by
      rw [hinit, List.length_append, List.length_singleton] at hlong hlen
      omega
    rw [hinit, List.take_append_of_le_length (by omega), List.take_of_length_le (by omega), names_append_slash, names_nil,
      List.append_nil]
  · rw [List.take_of_length_le hshort]

theorem pieces_le (hdot : ∀ c ∈ names e.path, c ≠ [DOT]) (hs : ∀ c ∈ names e.path, c.length ≤ 99) :
    (join e.pieces).length ≤ 256 := by
  have hle := (@join_names_le (e.path.take 255)).1
  rw [pieces_eq_names hdot hs]
  refine le_trans hle ?_
  rw [List.length_take]
  omega

/-- a path of 256 bytes that was not cut would need 257 -/
theorem Plain.join_length (h : Plain path) (hne : path ≠ []) (hlast : path.getLast? ≠ some SLASH) :
    (join (names path)).length = path.length + 1 := by
  rcases h with h | h
  · rw [h, List.length_cons]
  · obtain ⟨x, rest, rfl⟩ := List.exists_cons_of_ne_nil hne
    have hend := congrArg List.getLast? h
    rw [List.getLast?_append, List.getLast?_singleton, Option.some_or, List.getLast?_cons_cons] at hend
    exact absurd hend.symm hlast

end Cut

/-! ## Lookups in a mounted archive -/

section Faithful

variable {base heap : ℕ → U8} {size : ℕ} {nodes : ℕ → TarNode} {st : TarState} {es : List Entry} {e : Entry}
  {kids : ℕ → List ℕ} {label : ℕ → List (List U8)} {p r : List (List U8)}

theorem Archive.header {offset : ℕ} (h : Archive base size offset es) (he : e ∈ es) :
    ∃ o, IsHeader (header base o) e := by
  induction h with
  | stop => exact absurd he (by simp)
  | @entry offset x es hhdr _ _ _ ih =>
    rcases List.mem_cons.1 he with rfl | he
    · exact ⟨offset, hhdr⟩
    · exact ih he

theorem dot_free (hw : WellFormed es) (he : e ∈ es) : ∀ c ∈ names e.path, c ≠ [DOT] :=
  fun c hc => (hw.dots e he c hc).1

/-- above an entry there are only directories -/
theorem stamp_above (ha : Archive base size 0 es) (hw : WellFormed es) (hpieces : ∀ e ∈ es, e.pieces = names e.path)
    (he : e ∈ es) (hp : p <+: names e.path) (hne : p ≠ names e.path) :
    ((fileTree 0 es Files.root).stamp p).isDir = true := by
  by_cases hroot : p = []
  · rw [fileTree_stamp_other (Or.inl hroot)]
    rfl
  by_cases hown : ∃ x ∈ es, names x.path = p
  · obtain ⟨x, pre, post, hes, hxp, hpost⟩ := exists_isLast hown
    have hmem : x ∈ es := by simp [hes]
    obtain ⟨o, hstamp, -⟩ : ∃ o, (fileTree 0 es Files.root).stamp p = x.stamp o ∧ _ :=
      fileTree_stamp_last ha hes (by rw [hpieces x hmem, hxp]) hroot fun y hy => by
        rw [hpieces y (by simp [hes, hy])]
        exact hpost y hy
    rw [hstamp]
    by_contra hfile
    have hsame := hw.parents x hmem e he (by simpa [Entry.stamp] using hfile) (by rwa [hxp])
    exact hne (hxp.symm.trans hsame)
  · rw [fileTree_stamp_other (Or.inr fun x hx hxp => hown ⟨x, hx, (hpieces x hx).symm.trans hxp⟩)]
    rfl

/-- the stamp of an entry, read back -/
theorem shows_of_stamp {i o : ℕ} (hstamp : (st.nodes i).stamp = e.stamp o) (hlen : o + e.data.length ≤ size)
    (hsize : size < 2 ^ 32) (hbase : st.base = fun i => if i < size then base i else heap i)
    (hdata : Holds base o e.data) : Shows st i e := by
  have hkind : (st.nodes i).isDir = e.isDir := congrArg Stamp.isDir hstamp
  have hoff : (st.nodes i).dataOffset = (e.stamp o).dataOffset := congrArg Stamp.dataOffset hstamp
  have hsz : (st.nodes i).size = (e.stamp o).size := congrArg Stamp.size hstamp
  unfold Entry.stamp at hoff hsz
  dsimp only at hoff hsz
  cases hd : e.isDir with
  | true =>
    rw [hd, if_pos rfl] at hoff hsz
    have hbytes : e.bytes = [] := by rw [Entry.bytes, hd, if_pos rfl]
    exact ⟨hkind, by rw [hsz, hbytes]; rfl, by rw [hbytes]; exact fun i hi => absurd hi (by simp)⟩
  | false =>
    rw [hd, if_neg (by simp)] at hoff hsz
    have hbytes : e.bytes = e.data := by rw [Entry.bytes, hd, if_neg (by simp)]
    refine ⟨hkind, ?_, ?_⟩
    · rw [hsz, hbytes, BitVec.toNat_ofNat, Nat.mod_eq_of_lt (by omega)]
    · rw [hoff, hbytes, BitVec.toNat_ofNat, Nat.mod_eq_of_lt (by omega), hbase]
      intro k hk
      exact (if_pos (by omega)).trans (hdata k hk)

/-- **Nothing cut, nothing lost.** -/
theorem faithful_of_fits (ha : Archive base size 0 es) (hw : WellFormed es) (hsize : size < 2 ^ 32)
    (hm : mount base size heap nodes = some st) (hfull : st.full = false) (hfits : ∀ e ∈ es, e.Fits) :
    Faithful st es := by
  obtain ⟨⟨kids, label, h⟩, hn, hbase⟩ := mount_tree ha hsize hm hfull
  have hpieces : ∀ e ∈ es, e.pieces = names e.path := fun e he => by
    obtain ⟨o, hhdr⟩ := ha.header he
    exact pieces_of_fits (hfits e he) hhdr.path_length (dot_free hw he)
  have hpaths (r : List (List U8)) : r ∈ (fileTree 0 es Files.root).paths ↔ r = [] ∨ ∃ e ∈ es, r <+: names e.path := by
    rw [mem_fileTree]
    constructor
    · rintro (hr | ⟨e, he, -, hr⟩)
      · exact Or.inl hr
      · exact Or.inr ⟨e, he, hpieces e he ▸ hr⟩
    · intro hr
      by_cases hnil : r = []
      · exact Or.inl hnil
      · obtain ⟨e, he, hr⟩ := hr.resolve_left hnil
        exact Or.inr ⟨e, he, hnil, (hpieces e he).symm ▸ hr⟩
  constructor
  · rintro p e ⟨pre, post, hes, hp, hpost⟩
    have he : e ∈ es := by simp [hes]
    obtain ⟨i, hi, hl⟩ := (h.paths p).1 ((hpaths p).2 (Or.inr ⟨e, he, hp ▸ List.prefix_rfl⟩))
    have hstamp := h.stamps i hi
    rw [hl] at hstamp
    refine ⟨i, ?_, fun junk fuel hf => ?_⟩
    · by_cases hroot : p = []
      · have hdir : e.isDir = true := by
          by_contra hfile
          exact hw.named e he (by simpa using hfile) (hp.trans hroot)
        have hdirstamp : e.stamp 0 = Stamp.dir := by simp [Entry.stamp, Stamp.dir, hdir]
        have hbytes : e.bytes = [] := by rw [Entry.bytes, hdir, if_pos rfl]
        rw [fileTree_stamp_other (Or.inl hroot)] at hstamp
        have hsz : (st.nodes i).size = 0 := congrArg Stamp.size hstamp
        refine ⟨(congrArg Stamp.isDir hstamp).trans hdir.symm, by rw [hsz, hbytes]; rfl, ?_⟩
        rw [hbytes]
        exact fun k hk => absurd hk (by simp)
      · obtain ⟨o, hlast, hlen, hdata⟩ := fileTree_stamp_last ha hes (by rw [hpieces e he, hp]) hroot fun y hy => by
          rw [hpieces y (by simp [hes, hy])]
          exact hpost y hy
        exact shows_of_stamp (hstamp.trans hlast) hlen hsize hbase hdata
    · rw [← hl]
      refine h.lookup hn hf hi fun k hk hpre hne => ?_
      have hdir := stamp_above ha hw hpieces he (hp ▸ hl ▸ hpre) fun heq => hne (by rw [hl, heq, hp])
      rw [← h.stamps k hk] at hdir
      exact hdir
  · intro path h0 hne hnone junk fuel hf
    obtain ⟨r, hr, hsound⟩ := h.lookup_sound hn hf h0
    rw [hr]
    cases r with
    | none => rfl
    | some j =>
      obtain ⟨hj, hl⟩ := hsound j rfl
      have hmem := (h.paths _).2 ⟨j, hj, hl⟩
      obtain ⟨e, he, hpre⟩ := ((hpaths _).1 hmem).resolve_left hne
      exact absurd hpre (hnone e he)

/-- **Whatever is cut is lost.** -/
theorem fits_of_faithful (ha : Archive base size 0 es) (hw : WellFormed es) (hsize : size < 2 ^ 32)
    (hm : mount base size heap nodes = some st) (hfull : st.full = false)
    (hplain : ∀ e ∈ es, e.Fits ∨ Plain e.path) (hf : Faithful st es) : ∀ e ∈ es, e.Fits := by
  obtain ⟨⟨kids, label, h⟩, hn, -⟩ := mount_tree ha hsize hm hfull
  have hnode : ∀ e ∈ es, ∃ i < st.numNodes, label i = names e.path := fun e he => by
    obtain ⟨x, hlast⟩ := exists_isLast ⟨e, he, rfl⟩
    obtain ⟨i, -, hlook⟩ := hf.finds _ x hlast
    have htext : 0 ∉ join (names e.path) := fun hz => by
      obtain ⟨o, hhdr⟩ := ha.header he
      obtain ⟨c, hc, hzc⟩ := List.mem_flatMap.1 hz
      rcases List.mem_cons.1 hzc with hz | hz
      · exact absurd hz (by decide)
      · exact hhdr.path_text ((mem_names hc).2.2 hz)
    obtain ⟨r, hr, hsound⟩ : ∃ r, lookupPath (superBlock st) (fun _ => 0) (st.numNodes + 1) 0 (join (names e.path)) =
        some r ∧ ∀ j, r = some j → j < st.numNodes ∧ label j = names (join (names e.path)) :=
      h.lookup_sound hn (Nat.lt_succ_self _) htext
    rw [hlook _ _ (Nat.lt_succ_self _)] at hr
    obtain ⟨hi, hl⟩ := hsound i (Option.some.inj hr).symm
    exact ⟨i, hi, hl.trans (names_join fun c hc => ⟨(mem_names hc).1, (mem_names hc).2.1⟩)⟩
  have hshort : ∀ e ∈ es, ∀ c ∈ names e.path, c.length ≤ 99 := fun e he c hc => by
    obtain ⟨i, hi, hl⟩ := hnode e he
    exact (h.label_name hi (hl ▸ hc)).2.2.2
  intro e he
  rcases hplain e he with hfits | hplain
  · exact hfits
  refine ⟨hshort e he, ?_⟩
  by_contra hcut
  obtain ⟨hlong, hlast⟩ := not_or.1 hcut
  have hlen : (join (names e.path)).length = e.path.length + 1 :=
    hplain.join_length (fun hnil => hlong (by simp [hnil])) hlast
  obtain ⟨i, hi, hl⟩ := hnode e he
  rcases mem_fileTree.1 ((h.paths _).2 ⟨i, hi, hl⟩) with hroot | ⟨x, hx, -, t, ht⟩
  · have hnil : names e.path = [] := hroot
    rw [hnil] at hlen
    exact absurd hlen (by simp [join])
  · have hle := pieces_le (dot_free hw hx) (hshort x hx)
    rw [← ht, join, List.flatMap_append, List.length_append, ← join] at hle
    omega

/-- **Mount and lookup.** A lookup finds each path of the archive, with the kind, size and bytes of its last entry, and
no other path, exactly when no buffer cuts a path. (A path of 256 bytes with a superfluous slash in it may also be
saved by a later entry for it: that case is left out.) -/
theorem mount_lookup (ha : Archive base size 0 es) (hw : WellFormed es) (hsize : size < 2 ^ 32)
    (hm : mount base size heap nodes = some st) (hfull : st.full = false)
    (hplain : ∀ e ∈ es, e.Fits ∨ Plain e.path) : Faithful st es ↔ ∀ e ∈ es, e.Fits :=
  ⟨fits_of_faithful ha hw hsize hm hfull hplain, faithful_of_fits ha hw hsize hm hfull⟩

end Faithful

/-! ## Two archives -/

section Samples

variable {name : List U8}

/-- an archive of one file, with the byte "b" in it -/
def oneFile (name : List U8) (i : ℕ) : U8 :=
  if i < name.length then name.getD i 0
  else if i = SIZE then 0x31
  else if i = TYPEFLAG then 0x30
  else if MAGIC ≤ i ∧ i < MAGIC + 5 then USTAR.getD (i - MAGIC) 0
  else if i = 512 then 0x62
  else 0

def oneEntry (name : List U8) : Entry := ⟨[], name, false, [0x62]⟩

/-- memory for the nodes -/
def noNodes (_ : ℕ) : TarNode := ⟨[], false, 0, 0, none, none⟩

theorem oneFile_past {i : ℕ} (hlen : name.length ≤ 100) (hi : 100 ≤ i) : oneFile name i = oneFile [] i :=
  (if_neg (by omega)).trans (if_neg (by simp)).symm

theorem oneFile_archive (hne : name ≠ []) (h0 : 0 ∉ name) (hlen : name.length ≤ 100) :
    Archive (oneFile name) 1024 0 [oneEntry name] := by
  have hhdr : header (oneFile name) 0 = oneFile name := funext fun i => by rw [header, Nat.zero_add]
  have hpast {i : ℕ} (hi : 100 ≤ i) : oneFile name i = oneFile [] i := oneFile_past hlen hi
  have hname : IsField (oneFile name) NAME 100 name := by
    refine ⟨h0, hlen, fun i hi => ?_, fun hlt => ?_⟩
    · rw [NAME, Nat.zero_add, oneFile, if_pos hi, List.getD_eq_getElem _ _ hi]
    · rw [NAME, Nat.zero_add]
      unfold oneFile SIZE TYPEFLAG MAGIC
      simp only [Nat.lt_irrefl, if_false]
      rw [if_neg (by omega), if_neg (by omega), if_neg (by omega), if_neg (by omega)]
  have hpfx : IsField (oneFile name) PREFIX 155 [] :=
    ⟨by simp, by simp, fun i hi => absurd hi (by simp), fun _ => hpast (by decide : 100 ≤ PREFIX)⟩
  have hsize : Octal (oneFile name) SIZE 12 1 := by
    refine ⟨[1], by decide, by decide, fun i hi => ?_, rfl, fun _ => Or.inl (hpast (by decide : 100 ≤ SIZE + 1))⟩
    obtain rfl : i = 0 := by simpa using hi
    exact hpast (by decide)
  have hmagic : Holds (oneFile name) MAGIC USTAR := fun i hi => by
    rw [hpast (by unfold MAGIC; omega)]
    revert i
    decide
  have htype : oneFile name TYPEFLAG = 0x30 := hpast (by decide)
  have hdata : Holds (oneFile name) 512 [0x62] := fun i hi => by
    obtain rfl : i = 0 := by simpa using hi
    exact hpast (by decide)
  refine Archive.entry ?_ (by decide : 0 + 512 + 1 ≤ 1024) hdata (Archive.stop (Or.inl ?_))
  · rw [hhdr]
    exact ⟨hname, hpfx, hsize, Or.inl htype, hmagic, hne⟩
  · exact (by decide : 1024 < nextOffset 0 1 + 512)

theorem oneFile_names (hne : name ≠ []) (hslash : SLASH ∉ name) : names (oneEntry name).path = [name] :=
  names_single hslash hne

theorem oneFile_wellFormed (hne : name ≠ []) (hslash : SLASH ∉ name) (hdots : name ≠ [DOT] ∧ name ≠ [DOT, DOT]) :
    WellFormed [oneEntry name] := by
  have hnames := oneFile_names hne hslash
  refine ⟨fun e he c hc => ?_, fun e he _ => ?_, fun e he e' he' _ _ => ?_⟩
  · rw [List.mem_singleton.1 he, hnames, List.mem_singleton] at hc
    exact hc ▸ hdots
  · rw [List.mem_singleton.1 he, hnames]
    simp
  · rw [List.mem_singleton.1 he, List.mem_singleton.1 he']

theorem mount_lookup_sample : ∃ st, mount (oneFile [0x61]) 1024 (fun _ => 0) noNodes = some st ∧
    (Faithful st [oneEntry [0x61]] ↔ ∀ e ∈ [oneEntry [0x61]], e.Fits) := by
  have hmount : (mount (oneFile [0x61]) 1024 (fun _ => 0) noNodes).map TarState.full = some false := rfl
  obtain ⟨st, hm, hfull⟩ := Option.map_eq_some_iff.1 hmount
  have hfits : (oneEntry [0x61]).Fits := ⟨by rw [oneFile_names (by decide) (by decide)]; decide, Or.inl (by decide)⟩
  exact ⟨st, hm, mount_lookup (oneFile_archive (by decide) (by decide) (by decide))
    (oneFile_wellFormed (by decide) (by decide) (by decide)) (by decide) hm hfull
    fun e he => Or.inl (by rwa [List.mem_singleton.1 he])⟩

/-- a name of 100 bytes -/
def longName : List U8 := List.replicate 100 0x61

/-- a name of 100 bytes, as the format allows, becomes a directory of 99 and a file of one -/
theorem long_name_split : ∃ st, mount (oneFile longName) 1024 (fun _ => 0) noNodes = some st ∧ st.full = false ∧
    Archive (oneFile longName) 1024 0 [oneEntry longName] ∧ WellFormed [oneEntry longName] ∧
    ¬ Faithful st [oneEntry longName] := by
  have hmount : (mount (oneFile longName) 1024 (fun _ => 0) noNodes).map TarState.full = some false := by
    decide +kernel
  obtain ⟨st, hm, hfull⟩ := Option.map_eq_some_iff.1 hmount
  have hne : longName ≠ [] := by decide
  have hslash : SLASH ∉ longName := by decide
  have hlen : longName.length = 100 := List.length_replicate
  have ha := oneFile_archive hne (by decide) hlen.le
  have hw := oneFile_wellFormed hne hslash (by decide)
  have hnames := oneFile_names hne hslash
  have hplain : Plain (oneEntry longName).path := by
    rw [Plain, hnames]
    exact Or.inl rfl
  refine ⟨st, hm, hfull, ha, hw, fun hf => ?_⟩
  have hfits := fits_of_faithful ha hw (by decide) hm hfull
    (fun e he => Or.inr (by rwa [List.mem_singleton.1 he])) hf _ (List.mem_singleton_self _)
  have hshort : longName.length ≤ 99 := hfits.names _ (by rw [hnames]; exact List.mem_singleton_self _)
  omega

end Samples

end Retux.Tar
