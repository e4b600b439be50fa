/-
The indices in the node table of a mounted archive (`fs/tarfs.cpp`): `first_child` and `next_sibling`.

Whatever buffer mount accepts, full table or not, the indices make a tree. `Place` is a field that holds an index;
`findRun` and `readdirRun` are the loops along a chain with `none` for a run that has not ended.

- `Tree.isTree`: the tree of paths as a tree of indices;
- `mount_is_tree`: so it is after every mount, and the loops end.
-/
import Mathlib.Tactic
import Retux.Fs.Extent

namespace Retux.Tar

open Retux.Word Retux.Bytes Retux.Str Retux.Vfs Retux.Path Retux.Tree

/-! ## Indices -/

inductive Place where
  | firstChild (i : ℕ)
  | nextSibling (i : ℕ)

/-- the node that the field is in -/
def Place.node : Place → ℕ
  | .firstChild i => i
  | .nextSibling i => i

def Place.index (st : TarState) : Place → Option ℕ
  | .firstChild i => (st.nodes i).firstChild
  | .nextSibling i => (st.nodes i).nextSibling

/-- a field of the table that holds j -/
def Holder (st : TarState) (j : ℕ) (x : Place) : Prop := x.node < st.numNodes ∧ x.index st = some j

/-- one index further -/
def Links (st : TarState) (i j : ℕ) : Prop := ∃ x, Holder st j x ∧ x.node = i

structure IsTree (st : TarState) : Prop where
  valid : ∀ x j, Holder st j x → j < st.numNodes
  once : ∀ j < st.numNodes, j ≠ 0 → ∃! x, Holder st j x
  root : ∀ x, ¬ Holder st 0 x
  reached : ∀ j < st.numNodes, Relation.ReflTransGen (Links st) 0 j
  acyclic : ∀ i, ¬ Relation.TransGen (Links st) i i
  siblings : ∀ i < st.numNodes, ∃ cs, Chain st.nodes (st.nodes i).firstChild cs ∧
    (cs.map fun c => (st.nodes c).name).Nodup ∧ ∀ c ∈ cs, (st.nodes c).name ≠ []

/-! ## Loops -/

/-- `find_child` -/
def findRun (nodes : ℕ → TarNode) (name : List U8) : ℕ → Option ℕ → Option (Option ℕ)
  | 0, _ => none
  | _ + 1, none => some none
  | n + 1, some cur =>
    if strcmp (fun i => (nodes cur).name.getD i 0) 0 name = 0 then some (some cur)
    else findRun nodes name n (nodes cur).nextSibling

/-- `tar_readdir` -/
def readdirRun (nodes : ℕ → TarNode) (offset count : ℕ) : ℕ → Option ℕ → List U8 → ℕ → Option (List U8)
  | 0, _, _, _ => none
  | _ + 1, none, out, _ => some out
  | n + 1, some child, out, streamPos =>
    let c := nodes child
    let needed := 8 + c.name.length + 1
    if streamPos ≥ offset then
      if out.length + needed > count then some out
      else readdirRun nodes offset count n c.nextSibling (out ++ (le 8 (BitVec.ofNat 64 child) ++ c.name ++ [0]))
        (streamPos + needed)
    else readdirRun nodes offset count n c.nextSibling out (streamPos + needed)

/-- the loops end, on every node -/
structure Ends (st : TarState) : Prop where
  find : ∀ i < st.numNodes, ∀ name,
    findRun st.nodes name (st.numNodes + 1) (st.nodes i).firstChild = some (findChild st i name)
  readdir : ∀ i < st.numNodes, (st.nodes i).isDir = true → ∀ offset count,
    readdirRun st.nodes offset count (st.numNodes + 1) (st.nodes i).firstChild [] 0 = tarReaddir st i offset count

section Loops

variable {nodes : ℕ → TarNode} {cur : Option ℕ} {cs : List ℕ} {n offset count pos : ℕ} {out name : List U8}

theorem findRun_eq (h : Chain nodes cur cs) (hn : cs.length ≤ n) :
    findRun nodes name (n + 1) cur = some (findFrom nodes name n cur) := by
  induction h generalizing n with
  | nil => cases n <;> rfl
  | @cons i cs _ ih =>
    obtain ⟨n, rfl⟩ : ∃ k, n = k + 1 := ⟨n - 1, by simp at hn; omega⟩
    rw [findRun, findFrom]
    split_ifs
    · rfl
    · exact ih (Nat.le_of_succ_le_succ hn)

theorem readdirRun_eq (h : Chain nodes cur cs) (hn : cs.length ≤ n) :
    readdirRun nodes offset count (n + 1) cur out pos = some (readdirLoop nodes offset count n cur out pos) := by
  induction h generalizing n out pos with
  | nil => cases n <;> rfl
  | @cons i cs _ ih =>
    obtain ⟨n, rfl⟩ : ∃ k, n = k + 1 := ⟨n - 1, by simp at hn; omega⟩
    rw [readdirRun, readdirLoop]
    have hcs : cs.length ≤ n := Nat.le_of_succ_le_succ hn
    split_ifs
    · rfl
    · exact ih hcs
    · exact ih hcs

end Loops

/-! ## The tree of indices -/

section Tree

variable {st : TarState} {kids : ℕ → List ℕ} {label : ℕ → List (List U8)} {F : Files} {i j k : ℕ} {x : Place}

theorem Chain.head {nodes : ℕ → TarNode} {cur : Option ℕ} {cs : List ℕ} (h : Chain nodes cur (i :: cs)) :
    cur = some i := by
  cases h
  rfl

/-- neighbours on a chain -/
theorem Chain.next {nodes : ℕ → TarNode} {cur : Option ℕ} {pre post : List ℕ}
    (h : Chain nodes cur (pre ++ i :: j :: post)) : (nodes i).nextSibling = some j := by
  cases h.suffix with
  | cons h => exact h.head

theorem Tree.kids_nodup (h : Tree st kids label F) (hi : i < st.numNodes) : (kids i).Nodup := (h.chain i hi).nodup

/-- nobody is a child of two nodes -/
theorem Tree.parent_unique (h : Tree st kids label F) (hi : i < st.numNodes) (hk : k < st.numNodes) (hj : j ∈ kids i)
    (hj' : j ∈ kids k) : i = k := by
  have hl := (h.labelled.kid i hi j hj).2
  have hl' := (h.labelled.kid k hk j hj').2
  exact h.labelled.inj i hi k hk (List.append_inj' (hl.symm.trans hl') rfl).1

theorem Tree.parent (h : Tree st kids label F) (hj : j < st.numNodes) (h0 : j ≠ 0) : ∃ i < st.numNodes, j ∈ kids i :=
  h.labelled.parent j hj fun hnil => h0 (h.labelled.eq_root hj hnil)

theorem Tree.not_root (h : Tree st kids label F) (hi : i < st.numNodes) : 0 ∉ kids i := by
  intro hmem
  have hl := (h.labelled.kid i hi 0 hmem).2
  rw [h.labelled.root] at hl
  exact absurd hl (by simp)

/-- the field before the rest of the children of i -/
def holderOf (i : ℕ) (pre : List ℕ) : Place := pre.getLast?.elim (.firstChild i) .nextSibling

theorem holderOf_concat {pre : List ℕ} : holderOf i (pre ++ [k]) = .nextSibling k := by simp [holderOf]

/-- a field holds j exactly if j is a child right behind it -/
theorem Tree.holder (h : Tree st kids label F) (hroot : (st.nodes 0).nextSibling = none) :
    Holder st j x ↔ ∃ i < st.numNodes, ∃ pre post, kids i = pre ++ j :: post ∧ x = holderOf i pre := by
  constructor
  · rintro ⟨hlt, hidx⟩
    cases x with
    | firstChild i =>
      have hchain := h.chain i hlt
      rw [show (st.nodes i).firstChild = some j from hidx] at hchain
      generalize hcs : kids i = cs at hchain
      cases hchain with
      | @cons _ cs _ => exact ⟨i, hlt, [], cs, hcs, rfl⟩
    | nextSibling k =>
      have hk0 : k ≠ 0 := by
        rintro rfl
        exact absurd (hroot.symm.trans hidx) (by simp)
      have hkn : (st.nodes k).nextSibling = some j := hidx
      obtain ⟨i, hi, hmem⟩ := h.parent (j := k) hlt hk0
      obtain ⟨pre, post, hkids⟩ := List.append_of_mem hmem
      have hchain := h.chain i hi
      rw [hkids] at hchain
      cases hchain.suffix with
      | cons hrest =>
        rw [hkn] at hrest
        cases hrest with
        | @cons _ cs _ => exact ⟨i, hi, pre ++ [k], cs, by rw [hkids, List.append_assoc]; rfl, holderOf_concat.symm⟩
  · rintro ⟨i, hi, pre, post, hkids, rfl⟩
    have hchain := h.chain i hi
    rw [hkids] at hchain
    rcases List.eq_nil_or_concat' pre with rfl | ⟨pre, k, rfl⟩
    · exact ⟨hi, hchain.head⟩
    · rw [List.append_assoc, List.singleton_append] at hchain
      rw [holderOf_concat]
      exact ⟨(h.labelled.kid i hi k (by rw [hkids]; simp)).1, hchain.next⟩

/-- where an element of a list without repeats stands -/
theorem split_unique {pre pre' post post' : List ℕ} (hnd : (pre ++ j :: post).Nodup)
    (heq : pre ++ j :: post = pre' ++ j :: post') : pre = pre' := by
  have hnot : ∀ {l r : List ℕ}, (l ++ j :: r).Nodup → j ∉ l := fun hn hm =>
    (List.nodup_append.1 hn).2.2 j hm j (List.mem_cons_self ..) rfl
  have hidx := congrArg (List.idxOf j) heq
  rw [List.idxOf_append_of_notMem (hnot hnd), List.idxOf_append_of_notMem (hnot (heq ▸ hnd)), List.idxOf_cons_self,
    List.idxOf_cons_self] at hidx
  exact (List.append_inj heq (Nat.add_right_cancel hidx)).1

theorem Tree.once (h : Tree st kids label F) (hroot : (st.nodes 0).nextSibling = none) (hj : j < st.numNodes)
    (h0 : j ≠ 0) : ∃! x, Holder st j x := by
  obtain ⟨i, hi, hmem⟩ := h.parent hj h0
  obtain ⟨pre, post, hkids⟩ := List.append_of_mem hmem
  refine ⟨holderOf i pre, (h.holder hroot).2 ⟨i, hi, pre, post, hkids, rfl⟩, fun y hy => ?_⟩
  obtain ⟨i', hi', pre', post', hkids', rfl⟩ := (h.holder hroot).1 hy
  obtain rfl : i' = i := h.parent_unique hi' hi (by rw [hkids']; simp) hmem
  have hnd := h.kids_nodup hi
  rw [hkids] at hkids' hnd
  rw [split_unique hnd hkids']

/-- one link: down to the first child, or on to the next -/
theorem Tree.link (h : Tree st kids label F) (hroot : (st.nodes 0).nextSibling = none) (hl : Links st i j) :
    (i < st.numNodes ∧ j ∈ kids i) ∨ ∃ p < st.numNodes, ∃ pre post, kids p = pre ++ i :: j :: post := by
  obtain ⟨x, hx, rfl⟩ := hl
  obtain ⟨p, hp, pre, post, hkids, rfl⟩ := (h.holder hroot).1 hx
  rcases List.eq_nil_or_concat' pre with rfl | ⟨pre, k, rfl⟩
  · exact Or.inl ⟨hp, by rw [show (holderOf p []).node = p from rfl, hkids]; simp⟩
  · rw [holderOf_concat]
    exact Or.inr ⟨p, hp, pre, post, by rw [hkids, List.append_assoc]; rfl⟩

theorem Tree.depth_kid (h : Tree st kids label F) (hi : i < st.numNodes) (hj : j ∈ kids i) :
    (label j).length = (label i).length + 1 := by
  rw [(h.labelled.kid i hi j hj).2, List.length_append, List.length_singleton]

/-- **Links go down, or on** among the children of one node. -/
theorem Tree.links (h : Tree st kids label F) (hroot : (st.nodes 0).nextSibling = none)
    (hl : Relation.TransGen (Links st) i j) : (label i).length < (label j).length ∨
      ∃ p < st.numNodes, ∃ pre mid post, kids p = (pre ++ i :: mid) ++ j :: post := by
  induction hl with
  | single hl =>
    rcases h.link hroot hl with ⟨hi, hmem⟩ | ⟨p, hp, pre, post, hkids⟩
    · exact Or.inl (by rw [h.depth_kid hi hmem]; exact Nat.lt_succ_self _)
    · exact Or.inr ⟨p, hp, pre, [], post, by rw [hkids, List.append_assoc]; rfl⟩
  | @tail b c _ hl ih =>
    rcases h.link hroot hl with ⟨hb, hmem⟩ | ⟨p, hp, pre, post, hkids⟩
    · left
      rw [h.depth_kid hb hmem]
      rcases ih with hlt | ⟨p, hp, pre, mid, post, hkids⟩
      · omega
      · have hi : i ∈ kids p := by rw [hkids]; simp
        have hb' : b ∈ kids p := by rw [hkids]; simp
        rw [h.depth_kid hp hi, ← h.depth_kid hp hb']
        exact Nat.lt_succ_self _
    · have hb : b ∈ kids p := by rw [hkids]; simp
      rcases ih with hlt | ⟨q, hq, pre', mid, post', hkids'⟩
      · left
        rwa [h.depth_kid (i := p) (j := c) hp (by rw [hkids]; simp), ← h.depth_kid hp hb]
      · right
        obtain rfl : q = p := h.parent_unique hq hp (by rw [hkids']; simp) hb
        have hnd := h.kids_nodup hp
        rw [hkids'] at hnd hkids
        have hpre := split_unique hnd hkids
        rw [hpre] at hkids hkids'
        refine ⟨q, hp, pre', mid ++ [b], post, ?_⟩
        rw [hkids', List.append_cancel_left hkids, ← hpre]
        simp

theorem Tree.acyclic (h : Tree st kids label F) (hroot : (st.nodes 0).nextSibling = none) :
    ¬ Relation.TransGen (Links st) i i := by
  intro hl
  rcases h.links hroot hl with hlt | ⟨p, hp, pre, mid, post, hkids⟩
  · exact Nat.lt_irrefl _ hlt
  · have hnd := h.kids_nodup hp
    rw [hkids] at hnd
    exact (List.nodup_append.1 hnd).2.2 i (by simp) i (List.mem_cons_self ..) rfl

/-- every child is reached from its parent -/
theorem Tree.reach_kid (h : Tree st kids label F) (hroot : (st.nodes 0).nextSibling = none) (hi : i < st.numNodes)
    (hj : j ∈ kids i) : Relation.ReflTransGen (Links st) i j := by
  obtain ⟨pre, post, hkids⟩ := List.append_of_mem hj
  induction pre using List.reverseRecOn generalizing j post with
  | nil => exact Relation.ReflTransGen.single ⟨_, (h.holder hroot).2 ⟨i, hi, [], post, hkids, rfl⟩, rfl⟩
  | append_singleton pre k ih =>
    have hk : kids i = pre ++ k :: (j :: post) := by rw [hkids, List.append_assoc]; rfl
    have hlink : Links st k j :=
      ⟨_, (h.holder hroot).2 ⟨i, hi, pre ++ [k], post, hkids, rfl⟩, by rw [holderOf_concat]; rfl⟩
    exact (ih (by rw [hk]; simp) _ hk).tail hlink

theorem Tree.reached (h : Tree st kids label F) (hroot : (st.nodes 0).nextSibling = none) (hj : j < st.numNodes) :
    Relation.ReflTransGen (Links st) 0 j := by
  induction hn : (label j).length generalizing j with
  | zero => rw [h.labelled.eq_root hj (List.length_eq_zero_iff.1 hn)]
  | succ n ih =>
    obtain ⟨i, hi, hmem⟩ := h.labelled.parent j hj (by intro hnil; simp [hnil] at hn)
    obtain ⟨-, hlab⟩ := h.labelled.kid i hi j hmem
    rw [hlab, List.length_append, List.length_singleton] at hn
    exact (ih hi (by omega)).trans (h.reach_kid hroot hi hmem)

/-- **A tree of paths is a tree of indices.** -/
theorem Tree.isTree (h : Tree st kids label F) (hroot : (st.nodes 0).nextSibling = none) : IsTree st where
  valid x j hx := by
    obtain ⟨i, hi, pre, post, hkids, -⟩ := (h.holder hroot).1 hx
    exact (h.labelled.kid i hi j (by rw [hkids]; simp)).1
  once j hj h0 := h.once hroot hj h0
  root x hx := by
    obtain ⟨i, hi, pre, post, hkids, -⟩ := (h.holder hroot).1 hx
    exact h.not_root hi (by rw [hkids]; simp)
  reached j hj := h.reached hroot hj
  acyclic i := h.acyclic hroot
  siblings i hi := by
    refine ⟨kids i, h.chain i hi, ?_, fun c hc => (h.kid_name hi hc).1⟩
    refine (List.nodup_map_iff_inj_on (h.kids_nodup hi)).2 fun c hc d hd heq => ?_
    obtain ⟨hlt, hl⟩ := h.labelled.kid i hi c hc
    obtain ⟨hlt', hl'⟩ := h.labelled.kid i hi d hd
    exact h.labelled.inj c hlt d hlt' (by rw [hl, hl', heq])

theorem Tree.ends (h : Tree st kids label F) : Ends st := by
  have hshort : ∀ i < st.numNodes, (kids i).length ≤ st.numNodes := fun i hi =>
    (h.chain i hi).short fun c hc => (h.labelled.kid i hi c hc).1
  refine ⟨fun i hi name => findRun_eq (h.chain i hi) (hshort i hi), fun i hi hdir offset count => ?_⟩
  rw [readdirRun_eq (h.chain i hi) (hshort i hi), tarReaddir, hdir]
  rfl

end Tree

/-! ## Mount -/

section Mount

variable {st st' : TarState} {i j k n : ℕ} {c : List U8}

/-- a new node takes nobody's place -/
theorem getOrCreateChild_sibling (h : getOrCreateChild st i c = some (j, st')) (hk : k < st.numNodes) :
    (st'.nodes k).nextSibling = (st.nodes k).nextSibling ∧ k < st'.numNodes := by
  unfold getOrCreateChild allocNode at h
  cases hfound : findChild st i c with
  | some existing =>
    rw [hfound] at h
    obtain ⟨-, rfl⟩ : existing = j ∧ st = st' := by simpa using h
    exact ⟨rfl, hk⟩
  | none =>
    rw [hfound] at h
    by_cases hroom : st.numNodes ≥ st.capNodes
    · simp [if_pos hroom] at h
    · simp only [if_neg hroom, Option.map_some, Option.some.injEq, Prod.mk.injEq] at h
      obtain ⟨-, rfl⟩ := h
      refine ⟨?_, Nat.lt_succ_of_lt hk⟩
      by_cases hki : k = i
      · subst hki
        simp only [Function.update_self, Function.update_of_ne (Nat.ne_of_lt hk)]
      · simp only [Function.update_of_ne hki, Function.update_of_ne (Nat.ne_of_lt hk)]

theorem insertLoop_sibling {isDir : Bool} {dataOffset size : U32} {path : List U8} (hk : k < st.numNodes) :
    ((insertLoop isDir dataOffset size n i path st).nodes k).nextSibling = (st.nodes k).nextSibling ∧
      k < (insertLoop isDir dataOffset size n i path st).numNodes := by
  induction n generalizing i path st with
  | zero => exact ⟨rfl, hk⟩
  | succ n ih =>
    rw [insertLoop]
    split_ifs
    · exact ⟨rfl, hk⟩
    · cases hget : getOrCreateChild st i (component 99 path).1 with
      | none => exact ⟨rfl, hk⟩
      | some found =>
        obtain ⟨child, st'⟩ := found
        obtain ⟨hsib, hlt⟩ := getOrCreateChild_sibling hget hk
        dsimp only
        split_ifs
        · obtain ⟨hsib', hlt'⟩ := @ih (setStamp st' child ⟨isDir, dataOffset, size⟩) child
            ((component 99 path).2.dropWhile (· = SLASH)) hlt
          refine ⟨hsib'.trans (Eq.trans ?_ hsib), hlt'⟩
          unfold setStamp
          by_cases hkc : k = child
          · subst hkc
            simp only [Function.update_self]
          · simp only [Function.update_of_ne hkc]
        · obtain ⟨hsib', hlt'⟩ := @ih st' child ((component 99 path).2.dropWhile (· = SLASH)) hlt
          exact ⟨hsib'.trans hsib, hlt'⟩

theorem fold_sibling {hs : List Header} (hk : k < st.numNodes) :
    ((hs.foldl Header.insert st).nodes k).nextSibling = (st.nodes k).nextSibling := by
  induction hs generalizing st with
  | nil => rfl
  | cons x hs ih =>
    obtain ⟨hsib, hlt⟩ : ((x.insert st).nodes k).nextSibling = (st.nodes k).nextSibling ∧ k < (x.insert st).numNodes :=
      insertLoop_sibling hk
    exact (ih hlt).trans hsib

/-- **The table is a tree**, whatever buffer mount accepts, and the loops along its chains end. -/
theorem mount_is_tree {base heap : ℕ → U8} {size : ℕ} {nodes : ℕ → TarNode}
    (hm : mount base size heap nodes = some st) : IsTree st ∧ Ends st := by
  obtain ⟨paths, ⟨⟨kids, label, F, h, -⟩, -⟩, -⟩ := mount_table hm
  obtain ⟨st₀, hnum, hnode, -, -, hst⟩ := mount_fold hm
  have hroot : (st.nodes 0).nextSibling = none := by
    rw [hst, fold_sibling (by omega), hnode]
  exact ⟨h.isTree hroot, h.ends⟩

theorem mount_is_tree_sample :
    ∃ st, mount (oneFile [0x61]) 1024 (fun _ => 0) noNodes = some st ∧ IsTree st ∧ Ends st := by
  have hmount : (mount (oneFile [0x61]) 1024 (fun _ => 0) noNodes).map TarState.numNodes = some 2 := rfl
  obtain ⟨st, hm, -⟩ := Option.map_eq_some_iff.1 hmount
  exact ⟨st, hm, mount_is_tree hm⟩

end Mount

end Retux.Tar
