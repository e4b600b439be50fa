/-
The node table of a mounted archive (`fs/tarfs.cpp`).

Every file and directory is a node; the children of a node hang on a chain of siblings, newest first. Loops along a
chain run on the number of nodes as fuel: `Chain` says which list of nodes a chain is, and `Chain.short` that the fuel
is enough. `strncpy` into a node's name is a bounded copy here. `full` is a ghost: an allocation has failed.

- `tarReaddir_fill`: `tar_readdir` walks the children as `fill` does;
- `findChild_eq`: `find_child` is a search in the same list.
-/
import Mathlib.Tactic
import Retux.Fs.Vfs
import Retux.Str.Strncpy

namespace Retux.Tar

open Retux.Word Retux.Bytes Retux.Str Retux.Paging Retux.Vfs

/-! ## Model -/

structure TarNode where
  name : List U8
  isDir : Bool
  dataOffset : U32
  size : U32
  firstChild : Option ℕ
  nextSibling : Option ℕ

structure TarState where
  base : ℕ → U8
  nodes : ℕ → TarNode
  numNodes : ℕ
  capNodes : ℕ
  full : Bool

def allocNode (st : TarState) : Option (ℕ × TarState) :=
  if st.numNodes ≥ st.capNodes then none
  else some (st.numNodes,
    { st with nodes := Function.update st.nodes st.numNodes ⟨[], false, 0, 0, none, none⟩, numNodes := st.numNodes + 1 })

/-- the loop of `find_child`; -1 is none -/
def findFrom (nodes : ℕ → TarNode) (name : List U8) : ℕ → Option ℕ → Option ℕ
  | 0, _ => none
  | _ + 1, none => none
  | n + 1, some cur =>
    if strcmp (fun i => (nodes cur).name.getD i 0) 0 name = 0 then some cur
    else findFrom nodes name n (nodes cur).nextSibling

def findChild (st : TarState) (parent : ℕ) (name : List U8) : Option ℕ :=
  findFrom st.nodes name st.numNodes (st.nodes parent).firstChild

def getOrCreateChild (st : TarState) (parent : ℕ) (name : List U8) : Option (ℕ × TarState) :=
  match findChild st parent name with
  | some existing => some (existing, st)
  | none => (allocNode st).map fun (idx, st) =>
    let n := { st.nodes idx with
      name := name.take 99
      isDir := true
      nextSibling := (st.nodes parent).firstChild }
    let nodes := Function.update st.nodes idx n
    (idx, { st with nodes := Function.update nodes parent { nodes parent with firstChild := some idx } })

/-- the loop of `insert_path`; a round takes at least one byte of the path -/
def insertLoop (isDir : Bool) (dataOffset size : U32) : ℕ → ℕ → List U8 → TarState → TarState
  | 0, _, _, st => st
  | n + 1, cur, path, st =>
    if path = [] then st
    else
      let rest := (component 99 path).2.dropWhile (· = SLASH)
      match getOrCreateChild st cur (component 99 path).1 with
      | none => { st with full := true }
      | some (child, st) =>
        let st := if rest = [] then
            { st with nodes := Function.update st.nodes child { st.nodes child with isDir, dataOffset, size } }
          else st
        insertLoop isDir dataOffset size n child rest st

def DOT : U8 := 0x2E

/-- "./" and the slashes at the head of a path -/
def skipHead (path : List U8) : List U8 :=
  let path := if path.take 2 = [DOT, SLASH] then path.drop 2 else path
  path.dropWhile (· = SLASH)

def insertPath (st : TarState) (path : List U8) (isDir : Bool) (dataOffset size : U32) : TarState :=
  let path := skipHead path
  insertLoop isDir dataOffset size path.length 0 path st

/-- an inode is the index of its node -/
def makeVfsInode (st : TarState) (nodeIdx : ℕ) : Option ℕ := if nodeIdx < st.numNodes then some nodeIdx else none

def tarRead (st : TarState) (nodeIdx : ℕ) (offset buf count : U64) (m : Mem) : U64 × Mem :=
  let node := st.nodes nodeIdx
  let size := node.size.setWidth 64
  if node.isDir then (-1, m)
  else if offset ≥ size then (0, m)
  else
    let count := clamp offset count size
    (count, memcpy m buf (fun i => st.base (node.dataOffset.toNat + offset.toNat + i)) count.toNat)

/-- the loop of `tar_readdir` -/
def readdirLoop (nodes : ℕ → TarNode) (offset count : ℕ) : ℕ → Option ℕ → List U8 → ℕ → List U8
  | 0, _, out, _ => out
  | _ + 1, none, out, _ => out
  | n + 1, some child, out, streamPos =>
    let c := nodes child
    let needed := 8 + c.name.length + 1
    if streamPos ≥ offset then
      if out.length + needed > count then out
      else readdirLoop nodes offset count n c.nextSibling (out ++ (le 8 (BitVec.ofNat 64 child) ++ c.name ++ [0]))
        (streamPos + needed)
    else readdirLoop nodes offset count n c.nextSibling out (streamPos + needed)

def tarReaddir (st : TarState) (nodeIdx offset count : ℕ) : Option (List U8) :=
  let node := st.nodes nodeIdx
  if node.isDir = false then none
  else some (readdirLoop st.nodes offset count st.numNodes node.firstChild [] 0)

/-- `tar_get_inode` takes the number as an int -/
def tarGetInode (st : TarState) (ino : U64) : Option ℕ :=
  if (ino.setWidth 32).toInt < 0 then none else makeVfsInode st (ino.setWidth 32).toNat

def superBlock (st : TarState) : SuperBlock ℕ := ⟨tarGetInode st, tarReaddir st⟩

/-! ## Chains -/

/-- the nodes of the chain from `cur` on -/
inductive Chain (nodes : ℕ → TarNode) : Option ℕ → List ℕ → Prop
  | nil : Chain nodes none []
  | cons {i : ℕ} {cs : List ℕ} : Chain nodes (nodes i).nextSibling cs → Chain nodes (some i) (i :: cs)

/-- a node as its parent's entry -/
def dirent (nodes : ℕ → TarNode) (i : ℕ) : Dirent := ⟨BitVec.ofNat 64 i, (nodes i).name⟩

section Chains

variable {st : TarState} {nodes : ℕ → TarNode} {cur : Option ℕ} {cs cs' : List ℕ} {n dir offset count pos : ℕ}
  {out name : List U8}

theorem Chain.unique (h : Chain nodes cur cs) (h' : Chain nodes cur cs') : cs = cs' := by
  induction h generalizing cs' with
  | nil =>
    cases h'
    rfl
  | cons _ ih =>
    cases h' with
    | cons h' => rw [ih h']

theorem Chain.suffix {pre : List ℕ} {i : ℕ} (h : Chain nodes cur (pre ++ i :: cs)) : Chain nodes (some i) (i :: cs) := by
  induction pre generalizing cur with
  | nil => cases h with | cons h => exact Chain.cons h
  | cons x pre ih => cases h with | cons h => exact ih h

/-- a chain that ends does not come back -/
theorem Chain.nodup (h : Chain nodes cur cs) : cs.Nodup := by
  induction h with
  | nil => exact List.nodup_nil
  | @cons i cs h ih =>
    refine List.nodup_cons.2 ⟨fun hmem => ?_, ih⟩
    obtain ⟨pre, post, rfl⟩ := List.append_of_mem hmem
    have heq := h.suffix.unique (Chain.cons h)
    have hlen := congrArg List.length heq
    rw [List.length_cons, List.length_cons, List.length_append, List.length_cons] at hlen
    omega

/-- the nodes of a table are enough fuel -/
theorem Chain.short (h : Chain nodes cur cs) (hn : ∀ c ∈ cs, c < n) : cs.length ≤ n := by
  have hsub : cs.toFinset ⊆ Finset.range n := fun c hc => Finset.mem_range.2 (hn c (List.mem_toFinset.1 hc))
  calc cs.length = cs.toFinset.card := (List.toFinset_card_of_nodup h.nodup).symm
    _ ≤ (Finset.range n).card := Finset.card_le_card hsub
    _ = n := Finset.card_range n

theorem readdirLoop_eq (h : Chain nodes cur cs) (hn : cs.length ≤ n) :
    readdirLoop nodes offset count n cur out pos = fill Dirent.enc offset count pos out (cs.map (dirent nodes)) := by
  induction h generalizing n out pos with
  | nil => cases n <;> rfl
  | @cons i cs _ ih =>
    cases n with
    | zero => exact absurd hn (by simp)
    | succ n =>
      have hcs : cs.length ≤ n := Nat.le_of_succ_le_succ hn
      have hlen : (dirent nodes i).enc.length = 8 + (nodes i).name.length + 1 := by
        have hname : (dirent nodes i).name = (nodes i).name := rfl
        rw [enc_length, hname]
        omega
      rw [readdirLoop, List.map_cons, fill, hlen]
      simp only [ge_iff_le, gt_iff_lt]
      split_ifs
      · rfl
      · exact ih hcs
      · exact ih hcs

/-- **Paging through a directory of an archive.** -/
theorem tarReaddir_fill (hdir : (st.nodes dir).isDir = true) (h : Chain st.nodes (st.nodes dir).firstChild cs)
    (hn : ∀ c ∈ cs, c < st.numNodes) :
    tarReaddir st dir offset count = some (fill Dirent.enc offset count 0 [] (cs.map (dirent st.nodes))) := by
  simp only [tarReaddir, hdir, Bool.true_eq_false, if_false]
  rw [readdirLoop_eq h (h.short hn)]

theorem findFrom_eq (h : Chain nodes cur cs) (hn : cs.length ≤ n) (hname : 0 ∉ name)
    (hnames : ∀ c ∈ cs, 0 ∉ (nodes c).name) : findFrom nodes name n cur = cs.find? fun c => (nodes c).name = name := by
  induction h generalizing n with
  | nil => cases n <;> rfl
  | @cons i cs _ ih =>
    cases n with
    | zero => exact absurd hn (by simp)
    | succ n =>
      have hcmp := strcmp_iff (isStr_getD (hnames i (List.mem_cons_self ..))) hname
      rw [findFrom]
      by_cases heq : (nodes i).name = name
      · rw [if_pos (hcmp.2 heq), List.find?_cons_of_pos (by simpa using heq)]
      · rw [if_neg fun h0 => heq (hcmp.1 h0), List.find?_cons_of_neg (by simpa using heq)]
        exact ih (Nat.le_of_succ_le_succ hn) fun c hc => hnames c (List.mem_cons_of_mem _ hc)

theorem findChild_eq (h : Chain st.nodes (st.nodes dir).firstChild cs) (hn : ∀ c ∈ cs, c < st.numNodes)
    (hname : 0 ∉ name) (hnames : ∀ c ∈ cs, 0 ∉ (st.nodes c).name) :
    findChild st dir name = cs.find? fun c => (st.nodes c).name = name :=
  findFrom_eq h (h.short hn) hname hnames

end Chains

end Retux.Tar
