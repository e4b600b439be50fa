/-
The node table of an archive as a tree of paths.

`Files` is what an archive means: a set of paths, closed under ancestors, and for each path what was last written there;
a path nobody wrote is a directory. `Tree st kids label F` says that the table st is F: every node has its path as
label, its chain of siblings is the list `kids`, and it holds what F has at its path.

- `Tree.insertPath`: `insert_path` adds a path (its `pieces`) and stamps it;
- `Tree.lookup`: a lookup of names finds the node at that path, if its ancestors are directories;
- `Tree.lookup_sound`: whatever path a lookup accepts, it ends at the node with the names in the path.
-/
import Mathlib.Tactic
import Retux.Lib.Tree
import Retux.Fs.Path
import Retux.Fs.Tar

namespace Retux.Tar

open Retux.Word Retux.Bytes Retux.Str Retux.Paging Retux.Vfs Retux.Path Retux.Tree

/-! ## Files -/

/-- what an entry writes into its node -/
structure Stamp where
  isDir : Bool
  dataOffset : U32
  size : U32

def Stamp.dir : Stamp := ⟨true, 0, 0⟩

structure Files where
  paths : Set (List (List U8))
  stamp : List (List U8) → Stamp

namespace Files

def root : Files := ⟨{[]}, fun _ => Stamp.dir⟩

def touch (F : Files) (p : List (List U8)) : Files := ⟨insert p F.paths, F.stamp⟩

def write (F : Files) (p : List (List U8)) (s : Stamp) : Files := ⟨F.paths, Function.update F.stamp p s⟩

/-- q below p, one name at a time; the last one is stamped -/
def grow (F : Files) (p : List (List U8)) : List (List U8) → Stamp → Files
  | [], _ => F
  | c :: q, s =>
    let F := F.touch (p ++ [c])
    (if q = [] then F.write (p ++ [c]) s else F).grow (p ++ [c]) q s

end Files

/-- a name in the table -/
def IsName (c : List U8) : Prop := c ≠ [] ∧ SLASH ∉ c ∧ 0 ∉ c ∧ c.length ≤ 99

theorem component_isName {path : List U8} (hne : path ≠ []) (hhead : path.head? ≠ some SLASH) (h0 : 0 ∉ path) :
    IsName (component 99 path).1 ∧ 0 ∉ (component 99 path).2.dropWhile (· = SLASH) := by
  have hsplit := component_split 99 path
  have hname := component_name 99 path
  refine ⟨⟨component_ne_nil (by decide) hne hhead, hname.1, fun hz => h0 ?_, hname.2⟩, fun hz => h0 ?_⟩
  · exact hsplit ▸ List.mem_append_left _ hz
  · exact hsplit ▸ List.mem_append_right _ ((List.dropWhile_suffix _).subset hz)

def TarNode.stamp (n : TarNode) : Stamp := ⟨n.isDir, n.dataOffset, n.size⟩

structure Tree (st : TarState) (kids : ℕ → List ℕ) (label : ℕ → List (List U8)) (F : Files) : Prop where
  labelled : Labelled st.numNodes kids (fun i => (st.nodes i).name) label
  chain : ∀ i < st.numNodes, Chain st.nodes (st.nodes i).firstChild (kids i)
  paths : ∀ p, p ∈ F.paths ↔ ∃ i < st.numNodes, label i = p
  names : ∀ p ∈ F.paths, ∀ c ∈ p, IsName c
  stamps : ∀ i < st.numNodes, (st.nodes i).stamp = F.stamp (label i)
  fresh : ∀ p, p ∉ F.paths → F.stamp p = Stamp.dir
  room : st.numNodes ≤ st.capNodes

section Files

variable {F : Files} {p q r : List (List U8)} {s : Stamp}

theorem Files.mem_grow : r ∈ (F.grow p q s).paths ↔ r ∈ F.paths ∨ ∃ t, t ≠ [] ∧ t <+: q ∧ r = p ++ t := by
  induction q generalizing F p with
  | nil =>
    constructor
    · exact Or.inl
    · rintro (h | ⟨t, hne, ht, -⟩)
      · exact h
      · exact absurd (List.prefix_nil.1 ht) hne
  | cons c q ih =>
    have hpaths : (if q = [] then (F.touch (p ++ [c])).write (p ++ [c]) s else F.touch (p ++ [c])).paths
        = insert (p ++ [c]) F.paths := by
      split_ifs <;> rfl
    rw [Files.grow, ih, hpaths, Set.mem_insert_iff]
    constructor
    · rintro ((rfl | h) | ⟨t, -, ht, rfl⟩)
      · exact Or.inr ⟨[c], by simp, by simp, rfl⟩
      · exact Or.inl h
      · exact Or.inr ⟨c :: t, by simp, by simpa using ht, by simp⟩
    · rintro (h | ⟨t, hne, ht, rfl⟩)
      · exact Or.inl (Or.inr h)
      · obtain ⟨d, t, rfl⟩ := List.exists_cons_of_ne_nil hne
        obtain ⟨rfl, ht'⟩ := List.cons_prefix_cons.1 ht
        by_cases hnil : t = []
        · exact Or.inl (Or.inl (by rw [hnil]))
        · exact Or.inr ⟨t, hnil, ht', by simp⟩

theorem Files.stamp_grow (hq : q ≠ []) : (F.grow p q s).stamp = Function.update F.stamp (p ++ q) s := by
  induction q generalizing F p with
  | nil => exact absurd rfl hq
  | cons c q ih =>
    rw [Files.grow]
    by_cases hnil : q = []
    · subst hnil
      rfl
    · rw [if_neg hnil, ih hnil, List.append_assoc]
      rfl

end Files

/-! ## Insertion -/

section Insert

variable {st st' : TarState} {kids : ℕ → List ℕ} {label : ℕ → List (List U8)} {F : Files} {i j n : ℕ} {c : List U8}
  {s : Stamp}

theorem Chain.congr {nodes nodes' : ℕ → TarNode} {cur : Option ℕ} {cs : List ℕ} (h : Chain nodes cur cs)
    (hn : ∀ c ∈ cs, (nodes' c).nextSibling = (nodes c).nextSibling) : Chain nodes' cur cs := by
  induction h with
  | nil => exact Chain.nil
  | @cons i cs _ ih =>
    have hrest : Chain nodes' (nodes i).nextSibling cs := ih fun c hc => hn c (List.mem_cons_of_mem _ hc)
    exact Chain.cons (by rwa [hn i (List.mem_cons_self ..)])

theorem Tree.kid_name (h : Tree st kids label F) (hi : i < st.numNodes) (hj : j ∈ kids i) :
    IsName (st.nodes j).name := by
  obtain ⟨hlt, hl⟩ := h.labelled.kid i hi j hj
  exact h.names _ ((h.paths _).2 ⟨j, hlt, rfl⟩) _ (by simp [hl])

/-- the search for a child is a search for its path -/
theorem Tree.findChild (h : Tree st kids label F) (hi : i < st.numNodes) (hc : IsName c) :
    findChild st i c = some j ↔ j < st.numNodes ∧ label j = label i ++ [c] := by
  have hkids : ∀ k ∈ kids i, k < st.numNodes := fun k hk => (h.labelled.kid i hi k hk).1
  rw [findChild_eq (h.chain i hi) hkids hc.2.2.1 fun k hk => (h.kid_name hi hk).2.2.1]
  exact h.labelled.find hi

/-- the table after a new node n was hung in below i -/
def hang (st : TarState) (i : ℕ) (c : List U8) : TarState :=
  let n := ⟨c, true, 0, 0, none, (st.nodes i).firstChild⟩
  let nodes := Function.update st.nodes st.numNodes n
  { st with nodes := Function.update nodes i { nodes i with firstChild := some st.numNodes }, numNodes := st.numNodes + 1 }

theorem hang_node (hi : i < st.numNodes) (hj : j < st.numNodes) :
    ((hang st i c).nodes j).name = (st.nodes j).name ∧ ((hang st i c).nodes j).stamp = (st.nodes j).stamp ∧
      ((hang st i c).nodes j).nextSibling = (st.nodes j).nextSibling := by
  have hij : Function.update st.nodes st.numNodes ⟨c, true, 0, 0, none, (st.nodes i).firstChild⟩ j = st.nodes j :=
    Function.update_of_ne (Nat.ne_of_lt hj) _ _
  unfold hang
  by_cases heq : j = i
  · subst heq
    simp only [Function.update_self, hij, true_and]
    exact ⟨rfl, trivial⟩
  · simp only [Function.update_of_ne heq, hij, and_self]

theorem hang_new (hi : i < st.numNodes) :
    (hang st i c).nodes st.numNodes = ⟨c, true, 0, 0, none, (st.nodes i).firstChild⟩ := by
  unfold hang
  simp only [Function.update_of_ne (Nat.ne_of_gt hi), Function.update_self]

theorem hang_firstChild (hj : j < st.numNodes) :
    ((hang st i c).nodes j).firstChild = if j = i then some st.numNodes else (st.nodes j).firstChild := by
  unfold hang
  by_cases heq : j = i
  · simp only [heq, Function.update_self, if_true]
  · simp only [Function.update_of_ne heq, Function.update_of_ne (Nat.ne_of_lt hj), if_neg heq]

theorem Tree.hang (h : Tree st kids label F) (hi : i < st.numNodes) (hc : IsName c)
    (hnew : ∀ j < st.numNodes, label j ≠ label i ++ [c]) (hroom : st.numNodes < st.capNodes) :
    Tree (hang st i c) (Function.update (Function.update kids st.numNodes []) i (st.numNodes :: kids i))
      (Function.update label st.numNodes (label i ++ [c])) (F.touch (label i ++ [c])) := by
  have hcount : (Tar.hang st i c).numNodes = st.numNodes + 1 := rfl
  have hold {j : ℕ} (hj : j < st.numNodes) : Function.update label st.numNodes (label i ++ [c]) j = label j :=
    Function.update_of_ne (Nat.ne_of_lt hj) _ _
  have hsib {j : ℕ} (hj : j < st.numNodes) : ∀ k ∈ kids j,
      ((Tar.hang st i c).nodes k).nextSibling = (st.nodes k).nextSibling :=
    fun k hk => (hang_node hi (h.labelled.kid j hj k hk).1).2.2
  have hmem : ∀ p, p ∈ (F.touch (label i ++ [c])).paths ↔ p = label i ++ [c] ∨ p ∈ F.paths :=
    fun p => Set.mem_insert_iff
  refine ⟨?_, fun j hj => ?_, fun p => ?_, fun p hp d hd => ?_, fun j hj => ?_, fun p hp => ?_, hroom⟩
  · have hlab := h.labelled.add hi hnew
    refine ⟨hlab.pos, hlab.root, fun k hk d hd => ?_, hlab.inj, hlab.parent⟩
    obtain ⟨hlt, hl⟩ := hlab.kid k hk d hd
    refine ⟨hlt, hl.trans ?_⟩
    rcases Nat.lt_succ_iff_lt_or_eq.1 hlt with hd | rfl
    · rw [Function.update_of_ne (Nat.ne_of_lt hd), (hang_node hi hd).1]
    · rw [Function.update_self, hang_new hi]
  · rcases Nat.lt_succ_iff_lt_or_eq.1 hj with hj | rfl
    · rw [hang_firstChild hj]
      by_cases hji : j = i
      · subst hji
        rw [if_pos rfl, Function.update_self]
        refine Chain.cons ?_
        rw [hang_new hi]
        exact (h.chain j hi).congr (hsib hi)
      · rw [if_neg hji, Function.update_of_ne hji, Function.update_of_ne (Nat.ne_of_lt hj)]
        exact (h.chain j hj).congr (hsib hj)
    · rw [hang_new hi, Function.update_of_ne (Nat.ne_of_gt hi), Function.update_self]
      exact Chain.nil
  · rw [hmem, h.paths]
    constructor
    · rintro (rfl | ⟨j, hj, rfl⟩)
      · exact ⟨st.numNodes, Nat.lt_succ_self _, Function.update_self ..⟩
      · exact ⟨j, Nat.lt_succ_of_lt hj, hold hj⟩
    · rintro ⟨j, hj, rfl⟩
      rcases Nat.lt_succ_iff_lt_or_eq.1 hj with hj | rfl
      · exact Or.inr ⟨j, hj, (hold hj).symm⟩
      · exact Or.inl (Function.update_self ..)
  · rcases (hmem p).1 hp with rfl | hp
    · rcases List.mem_append.1 hd with hd | hd
      · exact h.names _ ((h.paths _).2 ⟨i, hi, rfl⟩) d hd
      · rwa [List.mem_singleton.1 hd]
    · exact h.names p hp d hd
  · rcases Nat.lt_succ_iff_lt_or_eq.1 hj with hj | rfl
    · rw [hold hj, (hang_node hi hj).2.1]
      exact h.stamps j hj
    · have hfresh : label i ++ [c] ∉ F.paths := fun hp => by
        obtain ⟨j, hj, hl⟩ := (h.paths _).1 hp
        exact hnew j hj hl
      rw [Function.update_self, hang_new hi]
      exact (h.fresh _ hfresh).symm
  · exact h.fresh p fun h' => hp ((hmem p).2 (Or.inr h'))

/-- **A child**, found or made. -/
theorem Tree.child (h : Tree st kids label F) (hi : i < st.numNodes) (hc : IsName c)
    (hget : getOrCreateChild st i c = some (j, st')) :
    ∃ kids' label', Tree st' kids' label' (F.touch (label i ++ [c])) ∧ j < st'.numNodes ∧
      label' j = label i ++ [c] := by
  unfold getOrCreateChild at hget
  cases hfound : Tar.findChild st i c with
  | some existing =>
    rw [hfound] at hget
    obtain ⟨rfl, rfl⟩ : existing = j ∧ st = st' := by simpa using hget
    obtain ⟨hj, hl⟩ := (h.findChild hi hc).1 hfound
    have hsame : F.touch (label i ++ [c]) = F := by
      have hmem : label i ++ [c] ∈ F.paths := (h.paths _).2 ⟨existing, hj, hl⟩
      rw [Files.touch, Set.insert_eq_of_mem hmem]
    exact ⟨kids, label, by rwa [hsame], hj, hl⟩
  | none =>
    have hnew : ∀ j < st.numNodes, label j ≠ label i ++ [c] := fun j hj hl => by
      have hsome := (h.findChild hi hc).2 ⟨hj, hl⟩
      rw [hfound] at hsome
      exact absurd hsome (by simp)
    rw [hfound] at hget
    by_cases hroom : st.numNodes < st.capNodes
    · have htake : c.take 99 = c := List.take_of_length_le hc.2.2.2
      have hhang : (st.numNodes, Tar.hang st i c) = (j, st') := by
        simp only [allocNode, ge_iff_le, if_neg (Nat.not_le.2 hroom), Option.map_some, Function.update_self, htake,
          Function.update_of_ne (Nat.ne_of_lt hi), Function.update_idem] at hget
        rw [← Option.some.inj hget]
        simp only [Tar.hang, Function.update_of_ne (Nat.ne_of_lt hi)]
      obtain ⟨rfl, rfl⟩ := Prod.mk.inj hhang
      exact ⟨_, _, h.hang hi hc hnew hroom, Nat.lt_succ_self _, Function.update_self ..⟩
    · simp only [allocNode, ge_iff_le, if_pos (Nat.not_lt.1 hroom)] at hget
      exact absurd hget (by simp)

/-- an entry's data in its node -/
def setStamp (st : TarState) (i : ℕ) (s : Stamp) : TarState :=
  let n := { st.nodes i with isDir := s.isDir, dataOffset := s.dataOffset, size := s.size }
  { st with nodes := Function.update st.nodes i n }

theorem Tree.write (h : Tree st kids label F) (hi : i < st.numNodes) :
    Tree (setStamp st i s) kids label (F.write (label i) s) := by
  have hnode (j : ℕ) : ((setStamp st i s).nodes j).name = (st.nodes j).name ∧
      ((setStamp st i s).nodes j).firstChild = (st.nodes j).firstChild ∧
      ((setStamp st i s).nodes j).nextSibling = (st.nodes j).nextSibling := by
    unfold setStamp
    by_cases hj : j = i
    · simp only [hj, Function.update_self, and_self]
    · simp only [Function.update_of_ne hj, and_self]
  refine ⟨?_, fun j hj => ?_, h.paths, h.names, fun j hj => ?_, fun p hp => ?_, h.room⟩
  · simp only [hnode]
    exact h.labelled
  · rw [(hnode j).2.1]
    exact (h.chain j hj).congr fun k _ => (hnode k).2.2
  · by_cases hji : j = i
    · subst hji
      simp only [setStamp, Files.write, Function.update_self]
      rfl
    · have hl : label j ≠ label i := fun heq => hji (h.labelled.inj j hj i hi heq)
      simp only [setStamp, Files.write, Function.update_of_ne hji, Function.update_of_ne hl]
      exact h.stamps j hj
  · have hl : p ≠ label i := fun heq => hp ((h.paths p).2 ⟨i, hi, heq.symm⟩)
    exact (Function.update_of_ne hl _ _).trans (h.fresh p hp)

theorem Tree.insertLoop {path : List U8} {isDir : Bool} {dataOffset size : U32} (h : Tree st kids label F)
    (hi : i < st.numNodes) (hhead : path.head? ≠ some SLASH) (h0 : 0 ∉ path) (hn : path.length ≤ n)
    (hfull : (insertLoop isDir dataOffset size n i path st).full = false) :
    ∃ kids' label', Tree (insertLoop isDir dataOffset size n i path st) kids' label'
      (F.grow (label i) (pieces n path) ⟨isDir, dataOffset, size⟩) := by
  induction n generalizing i path st kids label F with
  | zero => exact ⟨kids, label, h⟩
  | succ n ih =>
    rw [Tar.insertLoop] at hfull ⊢
    rw [pieces]
    by_cases hne : path = []
    · rw [if_pos hne, if_pos hne]
      exact ⟨kids, label, h⟩
    rw [if_neg hne] at hfull ⊢
    rw [if_neg hne]
    obtain ⟨c, rest, hcomp⟩ : ∃ c rest, component 99 path = (c, rest) := ⟨_, _, rfl⟩
    obtain ⟨hc, hrest⟩ := component_isName hne hhead h0
    have hlt := component_lt (by decide : 0 < 99) hne hhead
    rw [hcomp] at hc hrest hlt hfull ⊢
    dsimp only at hc hrest hlt hfull ⊢
    have hle := dropWhile_length_le rest
    cases hget : getOrCreateChild st i c with
    | none =>
      rw [hget] at hfull
      exact absurd hfull (by simp)
    | some found =>
      obtain ⟨child, st'⟩ := found
      rw [hget] at hfull
      obtain ⟨kids', label', h', hj, hl⟩ := h.child hi hc hget
      dsimp only at hfull ⊢
      rw [Files.grow]
      by_cases hlast : rest.dropWhile (· = SLASH) = []
      · rw [if_pos hlast] at hfull ⊢
        rw [if_pos ((pieces_eq_nil (by omega)).2 hlast), ← hl]
        have hw : Tree (setStamp st' child ⟨isDir, dataOffset, size⟩) kids' label' _ := h'.write hj
        rw [← hl] at hw
        exact ih hw hj atBreak_dropWhile hrest (by omega) hfull
      · rw [if_neg hlast] at hfull ⊢
        rw [if_neg fun hnil => hlast ((pieces_eq_nil (by omega)).1 hnil), ← hl]
        rw [← hl] at h'
        exact ih h' hj atBreak_dropWhile hrest (by omega) hfull

theorem skipHead_text {path : List U8} (h0 : 0 ∉ path) : 0 ∉ skipHead path := fun hz => by
  have hmem := (List.dropWhile_suffix _).subset hz
  split_ifs at hmem
  · exact h0 ((List.drop_suffix _ _).subset hmem)
  · exact h0 hmem

/-- **Insertion.** -/
theorem Tree.insertPath {path : List U8} (h : Tree st kids label F) (h0 : 0 ∉ path)
    (hfull : (insertPath st path s.isDir s.dataOffset s.size).full = false) :
    ∃ kids' label', Tree (insertPath st path s.isDir s.dataOffset s.size) kids' label'
      (F.grow [] (pieces (skipHead path).length (skipHead path)) s) := by
  have hhead : (skipHead path).head? ≠ some SLASH := atBreak_dropWhile
  have hroot := h.labelled.root
  obtain ⟨kids', label', h'⟩ := h.insertLoop h.labelled.pos hhead (skipHead_text h0) le_rfl hfull
  rw [hroot] at h'
  exact ⟨kids', label', h'⟩

end Insert

/-! ## Lookup -/

section Lookup

variable {st : TarState} {kids : ℕ → List ℕ} {label : ℕ → List (List U8)} {F : Files} {i j fuel : ℕ} {c : List U8}
  {comps : List (List U8)} {junk : ℕ → U8}

theorem tarGetInode_eq (hj : j < st.numNodes) (hn : st.numNodes ≤ 2 ^ 31) :
    tarGetInode st (BitVec.ofNat 64 j) = some j := by
  have hnat : ((BitVec.ofNat 64 j).setWidth 32).toNat = j := by
    rw [BitVec.toNat_setWidth, BitVec.toNat_ofNat]
    omega
  have hint : ((BitVec.ofNat 64 j).setWidth 32).toInt = j := by
    rw [BitVec.toInt_eq_toNat_of_lt (by omega), hnat]
  rw [tarGetInode, hint, hnat, if_neg (by omega), makeVfsInode, if_pos hj]

/-- one name: what a lookup accepts is the child of that name -/
theorem Tree.lookupName (junk : ℕ → U8) (h : Tree st kids label F) (hn : st.numNodes ≤ 2 ^ 31) (hi : i < st.numNodes) (hc : 0 ∉ c)
    (hf : st.numNodes < fuel) :
    ∃ r, lookupName (superBlock st) junk fuel i c = some r ∧
      ∀ j, r = some j ↔ (st.nodes i).isDir = true ∧ j < st.numNodes ∧ label j = label i ++ [c] := by
  obtain ⟨fuel, rfl⟩ := Nat.exists_eq_succ_of_ne_zero (Nat.ne_zero_of_lt hf)
  unfold Vfs.lookupName
  cases hdir : (st.nodes i).isDir with
  | false =>
    have hread : ∀ o, (superBlock st).readdir i o CHUNK_SIZE = none := fun o => by
      simp only [superBlock, tarReaddir, hdir, if_true]
    refine ⟨none, ?_, by simp⟩
    simp only [findName, hread, Option.map_some, Option.bind_none]
  | true =>
    have hkids : ∀ k ∈ kids i, k < st.numNodes := fun k hk => (h.labelled.kid i hi k hk).1
    have hvalid : ∀ e ∈ (kids i).map (dirent st.nodes), e.Valid := fun e he => by
      obtain ⟨k, hk, rfl⟩ := List.mem_map.1 he
      have hname := h.kid_name hi hk
      exact ⟨hname.2.2.1, le_trans hname.2.2.2 (by decide)⟩
    have henum : Enumerates (fun o => tarReaddir st i o CHUNK_SIZE) ((kids i).map (dirent st.nodes)) :=
      enumerates_of_fill hvalid fun o => tarReaddir_fill hdir (h.chain i hi) hkids
    have hshort := (h.chain i hi).short hkids
    have hfinds := henum.finds (fuel + 1) junk c (by rw [List.length_map]; omega) hc
    refine ⟨_, by rw [show (superBlock st).readdir i = tarReaddir st i from rfl, hfinds]; rfl, fun j => ?_⟩
    rw [List.find?_map, ← h.labelled.find hi]
    have hcomp : (fun e : Dirent => decide (e.name = c)) ∘ dirent st.nodes = fun k => decide ((st.nodes k).name = c) :=
      rfl
    rw [hcomp]
    cases hfound : (kids i).find? fun k => decide ((st.nodes k).name = c) with
    | none => simp
    | some k =>
      have hk : k < st.numNodes := hkids k (List.mem_of_find?_eq_some hfound)
      have hget : tarGetInode st (dirent st.nodes k).ino = some k := tarGetInode_eq hk hn
      simp only [Option.map_some, Option.bind_some, superBlock, hget, true_and]

theorem Tree.walk_total (junk : ℕ → U8) (h : Tree st kids label F) (hn : st.numNodes ≤ 2 ^ 31) (hi : i < st.numNodes)
    (hc : ∀ c ∈ comps, 0 ∉ c) (hf : st.numNodes < fuel) :
    ∃ r, walk (superBlock st) junk fuel i comps = some r ∧
      ∀ j, r = some j → j < st.numNodes ∧ label j = label i ++ comps := by
  induction comps generalizing i with
  | nil => exact ⟨some i, rfl, fun j hj => ⟨Option.some.inj hj ▸ hi, by rw [← Option.some.inj hj, List.append_nil]⟩⟩
  | cons c comps ih =>
    obtain ⟨r, hr, hiff⟩ := h.lookupName junk hn hi (hc c (List.mem_cons_self ..)) hf
    rw [walk, hr]
    cases r with
    | none => exact ⟨none, rfl, by simp⟩
    | some next =>
      obtain ⟨-, hlt, hl⟩ := (hiff next).1 rfl
      obtain ⟨r, hr, hsound⟩ := ih hlt fun c' h' => hc c' (List.mem_cons_of_mem _ h')
      refine ⟨r, hr, fun j hj => ?_⟩
      obtain ⟨hjlt, hjl⟩ := hsound j hj
      exact ⟨hjlt, by rw [hjl, hl, List.append_assoc, List.singleton_append]⟩

theorem Tree.walk_node (h : Tree st kids label F) (hn : st.numNodes ≤ 2 ^ 31) (hi : i < st.numNodes)
    (hc : ∀ c ∈ comps, 0 ∉ c) (hf : st.numNodes < fuel) (hj : j < st.numNodes) (hl : label j = label i ++ comps)
    (hdirs : ∀ k < st.numNodes, label k <+: label j → label k ≠ label j → (st.nodes k).isDir = true) :
    walk (superBlock st) junk fuel i comps = some (some j) := by
  induction comps generalizing i with
  | nil =>
    rw [List.append_nil] at hl
    rw [walk, h.labelled.inj i hi j hj hl.symm]
  | cons c comps ih =>
    have hsplit : label j = (label i ++ [c]) ++ comps := by rw [hl, List.append_assoc, List.singleton_append]
    obtain ⟨next, hlt, hnext⟩ := h.labelled.node_above hj hsplit
    have hdir : (st.nodes i).isDir = true := by
      refine hdirs i hi ⟨c :: comps, hl.symm⟩ fun heq => ?_
      rw [← heq] at hl
      exact absurd hl (by simp)
    obtain ⟨r, hr, hiff⟩ := h.lookupName junk hn hi (hc c (List.mem_cons_self ..)) hf
    rw [walk, hr, (hiff next).2 ⟨hdir, hlt, hnext⟩]
    exact ih hlt (fun c' h' => hc c' (List.mem_cons_of_mem _ h')) (by rw [hnext]; exact hsplit)

theorem Tree.label_name (h : Tree st kids label F) (hj : j < st.numNodes) (hc : c ∈ label j) : IsName c :=
  h.names _ ((h.paths _).2 ⟨j, hj, rfl⟩) c hc

/-- **Finding a node.** -/
theorem Tree.lookup (h : Tree st kids label F) (hn : st.numNodes ≤ 2 ^ 31) (hf : st.numNodes < fuel)
    (hj : j < st.numNodes)
    (hdirs : ∀ k < st.numNodes, label k <+: label j → label k ≠ label j → (st.nodes k).isDir = true) :
    lookupPath (superBlock st) junk fuel 0 (join (label j)) = some (some j) := by
  have hcomp : ∀ c ∈ label j, IsComp c := fun c hc => by
    have hname := h.label_name hj hc
    exact ⟨hname.1, hname.2.1, le_trans hname.2.2.2 (by decide)⟩
  rw [lookupPath_join hcomp]
  exact h.walk_node hn h.labelled.pos (fun c hc => (h.label_name hj hc).2.2.1) hf hj
    (by rw [h.labelled.root, List.nil_append]) hdirs

/-- **What a lookup accepts.** -/
theorem Tree.lookup_sound (h : Tree st kids label F) (hn : st.numNodes ≤ 2 ^ 31) (hf : st.numNodes < fuel)
    {path : List U8} (h0 : 0 ∉ path) :
    ∃ r, lookupPath (superBlock st) junk fuel 0 path = some r ∧
      ∀ j, r = some j → j < st.numNodes ∧ label j = Path.names path := by
  unfold lookupPath
  dsimp only
  rw [lookupLoop_steps]
  have hsub : path.dropWhile (· = SLASH) ⊆ path := (List.dropWhile_suffix _).subset
  obtain ⟨r, hr, hsound⟩ := h.walk_total junk hn h.labelled.pos
    (fun c hc hz => h0 (hsub (mem_steps hc hz))) hf
  refine ⟨r, hr, fun j hj => ?_⟩
  obtain ⟨hlt, hl⟩ := hsound j hj
  rw [h.labelled.root, List.nil_append] at hl
  refine ⟨hlt, ?_⟩
  rw [hl, steps_eq le_rfl, names_dropWhile]
  intro c hc
  rw [← hl] at hc
  have hname := h.label_name hlt hc
  exact ⟨hname.1, le_trans hname.2.2.2 (by decide)⟩

end Lookup

end Retux.Tar
