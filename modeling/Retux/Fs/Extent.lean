/-
Where file data lies in a mounted archive (`tarfs::mount`, `tar_read` in `fs/tarfs.cpp`).

A header is believed: its size is not held against what is left of the archive, and offset and size are cut to 32 bits
when they are put into a node. Here the archive is any buffer, with any headers. `headers` is the scan of `mount`, and
`admitted` says which headers get a node: the table has 8 n + 16 of them for n headers, one for each path and each of
its ancestors, and an insertion that finds it full is dropped. Of several headers with one path the last one counts.

- `Tree.insertLoop_reach`: an insertion into a table that may fill up on the way;
- `mount_table`: the table after mount, for any archive;
- `files_inside_iff`: file data lies in the archive, and reads stay there, exactly if it does by the headers that count.
-/
import Mathlib.Tactic
import Retux.Fs.Mount

namespace Retux.Tar

open Retux.Word Retux.Bytes Retux.Str Retux.Vfs Retux.Path

/-! ## Headers -/

/-- what mount takes from one header -/
structure Header where
  path : List U8
  isDir : Bool
  dataOffset : ℕ
  size : ℕ

def Header.read (hdr : ℕ → U8) (offset : ℕ) : Header :=
  ⟨buildFullPath hdr 256, hdr TYPEFLAG = 0x35, offset + 512, parseOctal hdr 12 SIZE 0⟩

/-- the pieces of its path -/
def Header.pieces (h : Header) : List (List U8) := Path.pieces (skipHead h.path).length (skipHead h.path)

def Header.stamp (h : Header) : Stamp where
  isDir := h.isDir
  dataOffset := if h.isDir then 0 else BitVec.ofNat 32 h.dataOffset
  size := if h.isDir then 0 else BitVec.ofNat 32 h.size

/-- its data lies in the archive, at an offset and of a size that 32 bits hold -/
def Header.Fits (size : ℕ) (h : Header) : Prop :=
  h.dataOffset + h.size ≤ size ∧ h.dataOffset < 2 ^ 32 ∧ h.size < 2 ^ 32

def Header.insert (st : TarState) (h : Header) : TarState :=
  insertPath st h.path h.stamp.isDir h.stamp.dataOffset h.stamp.size

/-- the headers from an offset on -/
def headers (base : ℕ → U8) (size : ℕ) : ℕ → ℕ → List Header
  | 0, _ => []
  | n + 1, offset =>
    if offset + 512 ≤ size then
      if header base offset NAME = 0 then []
      else Header.read (header base offset) offset ::
        headers base size n (nextOffset offset (parseOctal (header base offset) 12 SIZE 0))
    else []

/-! ## Nodes -/

/-- the paths in a table of cap nodes when the names q have been made below p, and whether there was room for all -/
def reach (cap : ℕ) : List (List (List U8)) → List (List U8) → List (List U8) → List (List (List U8)) × Bool
  | paths, _, [] => (paths, true)
  | paths, p, c :: q =>
    if p ++ [c] ∈ paths then reach cap paths (p ++ [c]) q
    else if paths.length < cap then reach cap ((p ++ [c]) :: paths) (p ++ [c]) q
    else (paths, false)

/-- the headers that get a node -/
def admitted (cap : ℕ) : List (List (List U8)) → List Header → List Header
  | _, [] => []
  | paths, h :: hs =>
    let r := reach cap paths [] h.pieces
    if r.2 then h :: admitted cap r.1 hs else admitted cap r.1 hs

def kept (base : ℕ → U8) (size : ℕ) : List Header :=
  let hs := headers base size size 0
  admitted (hs.length * 8 + 16) [[]] hs

/-- the last header with path p -/
def Owns (hs : List Header) (p : List (List U8)) (h : Header) : Prop :=
  ∃ pre post, hs = pre ++ h :: post ∧ h.pieces = p ∧ ∀ h' ∈ post, h'.pieces ≠ p

/-- node i stands at path p -/
inductive At (st : TarState) : ℕ → List (List U8) → Prop
  | root : At st 0 []
  | child {i j : ℕ} {p : List (List U8)} {cs : List ℕ} : At st i p → Chain st.nodes (st.nodes i).firstChild cs →
      j ∈ cs → At st j (p ++ [(st.nodes j).name])

/-- every file node has the offset and the size of its header, and the data lies in the archive -/
def FilesInside (base : ℕ → U8) (size : ℕ) (st : TarState) : Prop :=
  ∀ i p, At st i p → (st.nodes i).isDir = false → ∃ h, Owns (kept base size) p h ∧
    (st.nodes i).dataOffset.toNat = h.dataOffset ∧ (st.nodes i).size.toNat = h.size ∧ h.dataOffset + h.size ≤ size

/-- the bytes of the archive's copy that `tar_read` takes: the first, and how many -/
def readSpan (st : TarState) (nodeIdx : ℕ) (offset count : U64) : ℕ × ℕ :=
  let node := st.nodes nodeIdx
  let size := node.size.setWidth 64
  if node.isDir ∨ offset ≥ size then (0, 0)
  else (node.dataOffset.toNat + offset.toNat, (clamp offset count size).toNat)

def ReadsInside (size : ℕ) (st : TarState) : Prop :=
  ∀ i p, At st i p → ∀ offset count : U64, offset.toNat + count.toNat < 2 ^ 64 →
    (readSpan st i offset count).1 + (readSpan st i offset count).2 ≤ size

section Scan

variable {base heap : ℕ → U8} {size offset n a p : ℕ} {hdr s : ℕ → U8} {st : TarState}

theorem tarRead_span {nodeIdx : ℕ} {buf count : U64} {off : U64} {m : Mem} :
    (tarRead st nodeIdx off buf count m).2 = memcpy m buf (fun i => st.base ((readSpan st nodeIdx off count).1 + i))
      (readSpan st nodeIdx off count).2 := by
  unfold tarRead readSpan
  dsimp only
  by_cases hd : (st.nodes nodeIdx).isDir = true
  · rw [if_pos hd, if_pos (Or.inl hd)]
    rfl
  · rw [if_neg hd]
    by_cases ho : off ≥ (st.nodes nodeIdx).size.setWidth 64
    · rw [if_pos ho, if_pos (Or.inr ho)]
      rfl
    · rw [if_neg ho, if_neg (not_or.2 ⟨hd, ho⟩)]

theorem mountLoop_eq : mountLoop base size n offset st = (headers base size n offset).foldl Header.insert st := by
  induction n generalizing offset st with
  | zero => rfl
  | succ n ih =>
    rw [mountLoop, headers]
    by_cases hroom : offset + 512 ≤ size
    · by_cases hstop : header base offset NAME = 0
      · simp only [if_pos hroom, if_pos hstop]
        rfl
      · simp only [if_pos hroom, if_neg hstop, List.foldl_cons, ih, Header.insert, Header.stamp, Header.read,
          decide_eq_true_eq]
    · rw [if_neg hroom, if_neg hroom]
      rfl

theorem countEntries_eq : countEntries base size n offset = (headers base size n offset).length := by
  induction n generalizing offset with
  | zero => rfl
  | succ n ih =>
    rw [countEntries, headers]
    split_ifs
    · rfl
    · rw [List.length_cons, ih]
    · rfl

theorem strnlen_text {w i : ℕ} (hi : i < strnlen s a w) : s (a + i) ≠ 0 := by
  induction w generalizing a i with
  | zero => exact absurd hi (Nat.not_lt_zero i)
  | succ w ih =>
    rw [strnlen] at hi
    split_ifs at hi with h0
    · exact absurd hi (Nat.not_lt_zero i)
    · cases i with
      | zero => exact h0
      | succ i =>
        rw [Nat.add_comm i, ← Nat.add_assoc]
        exact ih (Nat.lt_of_succ_lt_succ hi)

theorem copy_text (hn : n ≤ strnlen hdr p a) : 0 ∉ copy hdr p n := by
  intro h0
  obtain ⟨k, hk, hz⟩ := List.mem_map.1 h0
  exact strnlen_text (lt_of_lt_of_le (List.mem_range.1 hk) hn) hz

/-- a path holds no NUL, whatever is in the header -/
theorem buildFullPath_text : 0 ∉ buildFullPath hdr 256 := by
  have hslash : (0 : U8) ∉ [SLASH] := by decide
  unfold buildFullPath
  dsimp only
  refine fun h0 => (List.mem_append.1 h0).elim (fun h0 => ?_) fun h0 => ?_
  · split_ifs at h0
    · exact (List.mem_append.1 h0).elim (copy_text le_rfl) hslash
    · exact copy_text le_rfl h0
    · exact (List.mem_append.1 h0).elim (copy_text (a := 155) (by omega)) hslash
    · exact copy_text (a := 155) (by omega) h0
    · exact absurd h0 List.not_mem_nil
  · refine copy_text (a := 100) ?_ h0
    split_ifs <;> omega

theorem headers_text {h : Header} (hh : h ∈ headers base size n offset) : 0 ∉ h.path := by
  induction n generalizing offset with
  | zero => exact absurd hh List.not_mem_nil
  | succ n ih =>
    rw [headers] at hh
    split_ifs at hh
    · exact absurd hh List.not_mem_nil
    · rcases List.mem_cons.1 hh with rfl | hh
      · exact buildFullPath_text
      · exact ih hh
    · exact absurd hh List.not_mem_nil

end Scan

/-! ## A table that may fill up -/

section Table

variable {st st' : TarState} {kids : ℕ → List ℕ} {label : ℕ → List (List U8)} {F : Files} {i j n cap : ℕ} {c : List U8}
  {p q : List (List U8)} {paths : List (List (List U8))} {h : Header} {hs : List Header}

theorem reach_mono (hp : p ∈ paths) {r : List (List U8)} : p ∈ (reach cap paths r q).1 := by
  induction q generalizing paths r with
  | nil => exact hp
  | cons c q ih =>
    rw [reach]
    split_ifs
    · exact ih hp
    · exact ih (List.mem_cons_of_mem _ hp)
    · exact hp

theorem reach_mem (hq : q ≠ []) (hr : (reach cap paths p q).2 = true) : p ++ q ∈ (reach cap paths p q).1 := by
  induction q generalizing paths p with
  | nil => exact absurd rfl hq
  | cons c q ih =>
    have hsplit : p ++ c :: q = (p ++ [c]) ++ q := by rw [List.append_assoc, List.singleton_append]
    rw [reach] at hr ⊢
    rw [hsplit]
    by_cases hnil : q = []
    · subst hnil
      rw [List.append_nil]
      split_ifs at hr ⊢ with hmem hroom
      · exact hmem
      · exact List.mem_cons_self ..
    · split_ifs at hr ⊢ with hmem hroom
      · exact ih hnil hr
      · exact ih hnil hr

/-- a node for each path -/
theorem Tree.length_paths (h : Tree st kids label F) (hnd : paths.Nodup) (hp : ∀ p, p ∈ paths ↔ p ∈ F.paths) :
    paths.length = st.numNodes := by
  have hset : paths.toFinset = (Finset.range st.numNodes).image label := by
    ext p
    rw [List.mem_toFinset, hp, h.paths, Finset.mem_image]
    simp only [Finset.mem_range]
  have hinj : Set.InjOn label (Finset.range st.numNodes) := fun i hi j hj heq =>
    h.labelled.inj i (Finset.mem_range.1 hi) j (Finset.mem_range.1 hj) heq
  calc paths.length = paths.toFinset.card := (List.toFinset_card_of_nodup hnd).symm
    _ = ((Finset.range st.numNodes).image label).card := by rw [hset]
    _ = (Finset.range st.numNodes).card := Finset.card_image_of_injOn hinj
    _ = st.numNodes := Finset.card_range _

/-- there is no node for the child, and no room to make one -/
theorem Tree.child_none (h : Tree st kids label F) (hi : i < st.numNodes) (hc : IsName c) :
    getOrCreateChild st i c = none ↔ label i ++ [c] ∉ F.paths ∧ st.capNodes ≤ st.numNodes := by
  unfold getOrCreateChild allocNode
  cases hfound : Tar.findChild st i c with
  | some existing =>
    have hmem : label i ++ [c] ∈ F.paths := (h.paths _).2 ⟨existing, (h.findChild hi hc).1 hfound⟩
    simp [hmem]
  | none =>
    have hnew : label i ++ [c] ∉ F.paths := fun hmem => by
      have hsome := (h.findChild hi hc).2 ((h.paths _).1 hmem).choose_spec
      rw [hfound] at hsome
      cases hsome
    by_cases hroom : st.numNodes ≥ st.capNodes
    · simp [hnew, hroom]
    · simp [hnew, hroom]

/-- **One insertion**, as far as there is room. -/
theorem Tree.insertLoop_reach {path : List U8} (isDir : Bool) (dataOffset size : U32) (h : Tree st kids label F)
    (hp : ∀ p, p ∈ paths ↔ p ∈ F.paths) (hnd : paths.Nodup) (hi : i < st.numNodes) (hhead : path.head? ≠ some SLASH)
    (h0 : 0 ∉ path) (hn : path.length ≤ n) :
    ∃ kids' label' F', Tree (Tar.insertLoop isDir dataOffset size n i path st) kids' label' F' ∧
      (∀ p, p ∈ (reach st.capNodes paths (label i) (pieces n path)).1 ↔ p ∈ F'.paths) ∧
      (reach st.capNodes paths (label i) (pieces n path)).1.Nodup ∧
      (F'.stamp = if (reach st.capNodes paths (label i) (pieces n path)).2 = true ∧ pieces n path ≠ [] then
        Function.update F.stamp (label i ++ pieces n path) ⟨isDir, dataOffset, size⟩ else F.stamp) ∧
      (Tar.insertLoop isDir dataOffset size n i path st).full =
        (st.full || !(reach st.capNodes paths (label i) (pieces n path)).2) := by
  have hsame : ∀ b : Bool, b = (b || !true) := by decide
  induction n generalizing i path st kids label F paths with
  | zero =>
    refine ⟨kids, label, F, h, hp, hnd, ?_, hsame _⟩
    rw [if_neg fun hc => hc.2 rfl]
  | succ n ih =>
    rw [Tar.insertLoop, pieces]
    by_cases hne : path = []
    · rw [if_pos hne, if_pos hne]
      refine ⟨kids, label, F, h, hp, hnd, ?_, hsame _⟩
      rw [if_neg fun hc => hc.2 rfl]
    rw [if_neg hne, if_neg hne]
    obtain ⟨c, rest, hcomp⟩ : ∃ c rest, component 99 path = (c, rest) := ⟨_, _, rfl⟩
    obtain ⟨hc, hrest⟩ := component_isName hne hhead h0
    have hlt := component_lt (by decide : 0 < 99) hne hhead
    rw [hcomp] at hc hrest hlt ⊢
    dsimp only at hc hrest hlt ⊢
    have hle := dropWhile_length_le rest
    have hlen := h.length_paths hnd hp
    have hmem : label i ++ [c] ∈ paths ↔ label i ++ [c] ∈ F.paths := hp _
    rw [reach]
    cases hget : getOrCreateChild st i c with
    | none =>
      obtain ⟨hno, hroom⟩ := (h.child_none hi hc).1 hget
      rw [if_neg fun hin => hno (hmem.1 hin), if_neg (by omega)]
      refine ⟨kids, label, F, ⟨h.labelled, h.chain, h.paths, h.names, h.stamps, h.fresh, h.room⟩, hp, hnd, ?_, ?_⟩
      · rw [if_neg fun hok => Bool.false_ne_true hok.1]
      · exact (Bool.or_true _).symm
    | some found =>
      obtain ⟨child, st'⟩ := found
      obtain ⟨kids', label', h', hj, hl⟩ := h.child hi hc hget
      obtain ⟨-, hcap, hsfull⟩ := getOrCreateChild_same hget
      -- the list of paths after the child
      obtain ⟨paths', hreach, hp', hnd'⟩ : ∃ paths', (∀ q, (if label i ++ [c] ∈ paths then
          reach st.capNodes paths (label i ++ [c]) q
          else if paths.length < st.capNodes then reach st.capNodes ((label i ++ [c]) :: paths) (label i ++ [c]) q
          else (paths, false)) = reach st.capNodes paths' (label i ++ [c]) q) ∧
          (∀ p, p ∈ paths' ↔ p ∈ (F.touch (label i ++ [c])).paths) ∧ paths'.Nodup := by
        by_cases hin : label i ++ [c] ∈ paths
        · refine ⟨paths, fun q => if_pos hin, fun p => ?_, hnd⟩
          rw [Files.touch, Set.insert_eq_of_mem (hmem.1 hin)]
          exact hp p
        · have hroom : paths.length < st.capNodes := by
            by_contra hfull
            have hnone := (h.child_none hi hc).2 ⟨fun hF => hin (hmem.2 hF), by omega⟩
            rw [hget] at hnone
            cases hnone
          refine ⟨(label i ++ [c]) :: paths, fun q => by rw [if_neg hin, if_pos hroom], fun p => ?_,
            List.nodup_cons.2 ⟨hin, hnd⟩⟩
          rw [List.mem_cons, hp]
          exact Set.mem_insert_iff.symm
      dsimp only
      rw [hreach, ← hl, ← hcap]
      have hcons : ∀ q, label i ++ c :: q = label' child ++ q := fun q => by
        rw [hl, List.append_assoc, List.singleton_append]
      by_cases hlast : rest.dropWhile (· = SLASH) = []
      · rw [if_pos hlast]
        have hw : Tree (setStamp st' child ⟨isDir, dataOffset, size⟩) kids' label' _ := h'.write hj
        obtain ⟨kids'', label'', F'', h'', hp'', hnd'', hS, hF⟩ := ih hw hp' hnd' hj atBreak_dropWhile hrest (by omega)
        refine ⟨kids'', label'', F'', h'', hp'', hnd'', ?_, hsfull ▸ hF⟩
        have hnil : pieces n (rest.dropWhile (· = SLASH)) = [] := (pieces_eq_nil (by omega)).2 hlast
        rw [hS, hnil, if_neg fun hc => hc.2 rfl, if_pos ⟨rfl, List.cons_ne_nil _ _⟩, hcons [], List.append_nil]
        rfl
      · rw [if_neg hlast]
        obtain ⟨kids'', label'', F'', h'', hp'', hnd'', hS, hF⟩ := ih h' hp' hnd' hj atBreak_dropWhile hrest (by omega)
        refine ⟨kids'', label'', F'', h'', hp'', hnd'', ?_, hsfull ▸ hF⟩
        have hnil : pieces n (rest.dropWhile (· = SLASH)) ≠ [] := fun hnil => hlast ((pieces_eq_nil (by omega)).1 hnil)
        rw [hS, hcons (pieces n (rest.dropWhile (· = SLASH)))]
        refine if_congr (and_congr_right fun _ => ?_) rfl rfl
        exact ⟨fun _ => List.cons_ne_nil _ _, fun _ => hnil⟩

/-- what the headers leave at each path -/
def stamps (S : List (List U8) → Stamp) : List Header → List (List U8) → Stamp
  | [] => S
  | h :: hs => stamps (if h.pieces = [] then S else Function.update S h.pieces h.stamp) hs

/-- a table with these paths and stamps -/
structure Table (st : TarState) (paths : List (List (List U8))) (S : List (List U8) → Stamp) : Prop where
  tree : ∃ kids label F, Tree st kids label F ∧ (∀ p, p ∈ paths ↔ p ∈ F.paths) ∧ F.stamp = S
  nodup : paths.Nodup

variable {S : List (List U8) → Stamp}

/-- the root alone -/
theorem Table.root (h1 : st.numNodes = 1) (h0 : st.nodes 0 = ⟨[], true, 0, 0, none, none⟩)
    (hcap : 1 ≤ st.capNodes) : Table st [[]] fun _ => Stamp.dir :=
  ⟨⟨_, _, _, Tree.root h1 h0 hcap, fun _ => List.mem_singleton, rfl⟩, List.nodup_singleton []⟩

theorem Table.insert (h0 : 0 ∉ h.path) (ht : Table st paths S) :
    Table (h.insert st) (reach st.capNodes paths [] h.pieces).1
      (if (reach st.capNodes paths [] h.pieces).2 = true ∧ h.pieces ≠ [] then Function.update S h.pieces h.stamp
        else S) := by
  obtain ⟨⟨kids, label, F, h', hp, rfl⟩, hnd⟩ := ht
  have hhead : (skipHead h.path).head? ≠ some SLASH := atBreak_dropWhile
  obtain ⟨kids', label', F', hT, hp', hnd', hS, -⟩ :=
    h'.insertLoop_reach h.stamp.isDir h.stamp.dataOffset h.stamp.size hp hnd h'.labelled.pos hhead (skipHead_text h0) le_rfl
  rw [h'.labelled.root] at hp' hnd' hS
  exact ⟨⟨kids', label', F', hT, hp', hS⟩, hnd'⟩

theorem insert_cap : (h.insert st).capNodes = st.capNodes := insertLoop_keeps.capNodes

/-- **Headers in turn.** -/
theorem Table.fold (h0 : ∀ h ∈ hs, 0 ∉ h.path) (ht : Table st paths S) (hcap : st.capNodes = cap) :
    ∃ paths', Table (hs.foldl Header.insert st) paths' (stamps S (admitted cap paths hs)) ∧ paths ⊆ paths' ∧
      ∀ h ∈ admitted cap paths hs, h.pieces ≠ [] → h.pieces ∈ paths' := by
  induction hs generalizing st paths S with
  | nil => exact ⟨paths, ht, fun _ => id, fun h hh => absurd hh List.not_mem_nil⟩
  | cons h hs ih =>
    have h1 := ht.insert (h0 h (List.mem_cons_self ..))
    rw [hcap] at h1
    obtain ⟨paths', h2, hsub, hmem⟩ := ih (fun x hx => h0 x (List.mem_cons_of_mem _ hx)) h1 (insert_cap.trans hcap)
    have hmono : paths ⊆ paths' := fun p hp => hsub (reach_mono hp)
    rw [List.foldl_cons, admitted]
    by_cases hok : (reach cap paths [] h.pieces).2 = true
    · refine ⟨paths', ?_, hmono, fun x hx hne => ?_⟩
      · rw [if_pos hok, stamps]
        convert h2 using 2
        by_cases hnil : h.pieces = [] <;> simp [hok, hnil]
      · rw [if_pos hok] at hx
        rcases List.mem_cons.1 hx with rfl | hx
        · exact hsub (reach_mem hne hok)
        · exact hmem x hx hne
    · refine ⟨paths', ?_, hmono, fun x hx hne => ?_⟩
      · rw [if_neg hok]
        rwa [if_neg fun hc => hok hc.1] at h2
      · rw [if_neg hok] at hx
        exact hmem x hx hne

/-! ## What is left at a path -/

theorem stamps_other (hno : p = [] ∨ ∀ h ∈ hs, h.pieces ≠ p) : stamps S hs p = S p := by
  induction hs generalizing S with
  | nil => rfl
  | cons h hs ih =>
    rw [stamps, ih (hno.imp_right fun hno x hx => hno x (List.mem_cons_of_mem _ hx))]
    by_cases hnil : h.pieces = []
    · rw [if_pos hnil]
    · have hne : p ≠ h.pieces := by
        rcases hno with rfl | hno
        · exact fun heq => hnil heq.symm
        · exact fun heq => hno h (List.mem_cons_self ..) heq.symm
      rw [if_neg hnil, Function.update_of_ne hne]

theorem stamps_owns (ho : Owns hs p h) (hne : p ≠ []) : stamps S hs p = h.stamp := by
  obtain ⟨pre, post, rfl, hp, hpost⟩ := ho
  induction pre generalizing S with
  | nil =>
    have hnil : h.pieces ≠ [] := fun hnil => hne (hp.symm.trans hnil)
    rw [List.nil_append, stamps, stamps_other (Or.inr hpost), if_neg hnil, hp, Function.update_self]
  | cons x pre ih => exact ih

theorem exists_owns (hex : ∃ h ∈ hs, h.pieces = p) : ∃ h, Owns hs p h := by
  induction hs with
  | nil => exact absurd hex (by simp)
  | cons x hs ih =>
    by_cases hlater : ∃ h ∈ hs, h.pieces = p
    · obtain ⟨h, pre, post, rfl, hrest⟩ := ih hlater
      exact ⟨h, x :: pre, post, rfl, hrest⟩
    · obtain ⟨h, hh, hp⟩ := hex
      have hx : h = x := (List.mem_cons.1 hh).resolve_right fun hin => hlater ⟨h, hin, hp⟩
      exact ⟨x, [], hs, rfl, hx ▸ hp, fun h' h1 h2 => hlater ⟨h', h1, h2⟩⟩

theorem Owns.mem (ho : Owns hs p h) : h ∈ hs := by
  obtain ⟨pre, post, rfl, -⟩ := ho
  simp

theorem Owns.unique {h' : Header} (ho : Owns hs p h) (ho' : Owns hs p h') : h = h' := by
  obtain ⟨pre, post, rfl, hp, hpost⟩ := ho
  obtain ⟨pre', post', heq, hp', hpost'⟩ := ho'
  rcases List.append_eq_append_iff.1 heq with ⟨l, rfl, hl⟩ | ⟨l, rfl, hl⟩
  · cases l with
    | nil => exact (List.cons.inj hl).1
    | cons x l =>
      obtain ⟨-, rfl⟩ := List.cons.inj hl
      exact absurd hp' (hpost h' (by simp))
  · cases l with
    | nil => exact (List.cons.inj hl).1.symm
    | cons x l =>
      obtain ⟨-, rfl⟩ := List.cons.inj hl
      exact absurd hp (hpost' h (by simp))

/-- paths and labels -/
theorem Tree.at_iff (h : Tree st kids label F) : At st i p ↔ i < st.numNodes ∧ label i = p := by
  constructor
  · intro ha
    induction ha with
    | root => exact ⟨h.labelled.pos, h.labelled.root⟩
    | child _ hchain hmem ih =>
      obtain ⟨hi, rfl⟩ := ih
      rw [hchain.unique (h.chain _ hi)] at hmem
      exact h.labelled.kid _ hi _ hmem
  · rintro ⟨hi, rfl⟩
    induction hl : (label i).length generalizing i with
    | zero =>
      have hnil := List.length_eq_zero_iff.1 hl
      have h0 := h.labelled.eq_root hi hnil
      subst h0
      rw [hnil]
      exact At.root
    | succ n ih =>
      obtain ⟨k, hk, hmem⟩ := h.labelled.parent i hi (by intro hnil; simp [hnil] at hl)
      obtain ⟨-, hlab⟩ := h.labelled.kid k hk i hmem
      rw [hlab, List.length_append, List.length_singleton] at hl
      rw [hlab]
      exact At.child (ih hk (by omega)) (h.chain k hk) hmem

end Table

/-! ## The mounted archive -/

section Mounted

variable {base heap : ℕ → U8} {size : ℕ} {nodes : ℕ → TarNode} {st : TarState}

/-- mount makes the root and goes through the headers -/
theorem mount_fold (hm : mount base size heap nodes = some st) : ∃ st₀ : TarState, st₀.numNodes = 1 ∧
    st₀.nodes 0 = ⟨[], true, 0, 0, none, none⟩ ∧ st₀.capNodes = (headers base size size 0).length * 8 + 16 ∧
    st₀.full = false ∧ st = (headers base size size 0).foldl Header.insert st₀ := by
  unfold mount at hm
  split_ifs at hm
  simp only [allocNode, ge_iff_le, if_neg (by omega : ¬ countEntries base size size 0 * 8 + 16 ≤ 0), Option.map_some,
    Option.some.injEq] at hm
  rw [mountLoop_eq, countEntries_eq] at hm
  exact ⟨_, rfl, by simp, rfl, rfl, hm.symm⟩

/-- **The table after mount**, for any archive. -/
theorem mount_table (hm : mount base size heap nodes = some st) :
    ∃ paths, Table st paths (stamps (fun _ => Stamp.dir) (kept base size)) ∧
      ∀ h ∈ kept base size, h.pieces ≠ [] → h.pieces ∈ paths := by
  obtain ⟨st₀, hnum, hroot, hcap, -, rfl⟩ := mount_fold hm
  obtain ⟨paths, ht, -, hmem⟩ :=
    Table.fold (fun h hh => headers_text hh) (Table.root hnum hroot (by omega)) hcap
  exact ⟨paths, ht, hmem⟩

theorem readsInside_of_files (h : FilesInside base size st) : ReadsInside size st := by
  intro i p hi offset count hw
  unfold readSpan
  dsimp only
  split_ifs with hout
  · exact Nat.zero_le _
  · rw [not_or, Bool.not_eq_true, ge_iff_le, BitVec.le_def, Nat.not_le] at hout
    obtain ⟨hfile, hlt⟩ := hout
    obtain ⟨x, -, hoff, hsz, hle⟩ := h i p hi hfile
    have hwide : ((st.nodes i).size.setWidth 64).toNat = (st.nodes i).size.toNat := by
      have := (st.nodes i).size.isLt
      rw [BitVec.toNat_setWidth]
      omega
    have hclamp := clamp_exact hlt hw
    rw [hwide] at hlt hclamp
    dsimp only
    omega

/-- **File data in the archive, exactly when.** For any buffer that mount accepts: every file node has its header's
offset and size and the data lies in the archive, and no read leaves it, if and only if the last header kept for each
path, where it is a file, says so. -/
theorem files_inside_iff (hm : mount base size heap nodes = some st) :
    (FilesInside base size st ∧ ReadsInside size st) ↔
      ∀ p h, p ≠ [] → Owns (kept base size) p h → h.isDir = false → h.Fits size := by
  obtain ⟨paths, ⟨⟨kids, label, F, h, hp, hS⟩, -⟩, hmem⟩ := mount_table hm
  have hnode : ∀ i < st.numNodes, (st.nodes i).stamp = stamps (fun _ => Stamp.dir) (kept base size) (label i) :=
    fun i hi => (h.stamps i hi).trans (congrFun hS _)
  constructor
  · rintro ⟨hfiles, -⟩ p x hne ho hfile
    obtain ⟨-, -, -, rfl, -⟩ := id ho
    obtain ⟨i, hi, hl⟩ := (h.paths _).1 ((hp _).1 (hmem x ho.mem hne))
    have hstamp := hnode i hi
    rw [hl, stamps_owns ho hne] at hstamp
    have hdir : (st.nodes i).isDir = x.isDir := congrArg Stamp.isDir hstamp
    obtain ⟨y, hy, hoff, hsz, hle⟩ := hfiles i _ (h.at_iff.2 ⟨hi, hl⟩) (hdir.trans hfile)
    rw [hy.unique ho] at hoff hsz hle
    exact ⟨hle, hoff ▸ (st.nodes i).dataOffset.isLt, hsz ▸ (st.nodes i).size.isLt⟩
  · intro hfit
    have hfiles : FilesInside base size st := by
      intro i p hi hfile
      obtain ⟨hlt, rfl⟩ := h.at_iff.1 hi
      have hstamp := hnode i hlt
      have hdir : (st.nodes i).isDir = (stamps (fun _ => Stamp.dir) (kept base size) (label i)).isDir :=
        congrArg Stamp.isDir hstamp
      -- a path nobody wrote is a directory
      have hex : label i ≠ [] ∧ ∃ x ∈ kept base size, x.pieces = label i := by
        by_contra hno
        rw [not_and_or, not_not] at hno
        rw [stamps_other (hno.imp_right fun hno x hx heq => hno ⟨x, hx, heq⟩), hfile] at hdir
        cases hdir
      obtain ⟨x, ho⟩ := exists_owns hex.2
      rw [stamps_owns ho hex.1] at hstamp
      have hxfile : x.isDir = false := (congrArg Stamp.isDir hstamp).symm.trans hfile
      have hoff : (st.nodes i).dataOffset = x.stamp.dataOffset := congrArg Stamp.dataOffset hstamp
      have hsz : (st.nodes i).size = x.stamp.size := congrArg Stamp.size hstamp
      obtain ⟨hle, h1, h2⟩ := hfit _ x hex.1 ho hxfile
      refine ⟨x, ho, ?_, ?_, hle⟩
      · rw [hoff, Header.stamp, hxfile]
        exact Nat.mod_eq_of_lt h1
      · rw [hsz, Header.stamp, hxfile]
        exact Nat.mod_eq_of_lt h2
    exact ⟨hfiles, readsInside_of_files hfiles⟩

end Mounted

/-- a file of one byte in two blocks: the one header is for it, and it fits -/
theorem files_inside_sample : ∃ st, mount (oneFile [0x61]) 1024 (fun _ => 0) noNodes = some st ∧
    ((FilesInside (oneFile [0x61]) 1024 st ∧ ReadsInside 1024 st) ↔
      ∀ p h, p ≠ [] → Owns (kept (oneFile [0x61]) 1024) p h → h.isDir = false → h.Fits 1024) := by
  have hmount : (mount (oneFile [0x61]) 1024 (fun _ => 0) noNodes).map TarState.full = some false := rfl
  obtain ⟨st, hm, -⟩ := Option.map_eq_some_iff.1 hmount
  exact ⟨st, hm, files_inside_iff hm⟩

/-- the same header with no block after it: mount takes it, and a read of the file is past the archive -/
theorem files_outside : ∃ st, mount (oneFile [0x61]) 512 (fun _ => 0) noNodes = some st ∧
    ¬ FilesInside (oneFile [0x61]) 512 st ∧ ¬ ReadsInside 512 st := by
  have hmount : (mount (oneFile [0x61]) 512 (fun _ => 0) noNodes).map (fun st => ((st.nodes 0).firstChild,
      (st.nodes 1).nextSibling, readSpan st 1 0 1)) = some (some 1, none, 512, 1) := rfl
  obtain ⟨st, hm, hnodes⟩ := Option.map_eq_some_iff.1 hmount
  rw [Prod.mk.injEq, Prod.mk.injEq] at hnodes
  obtain ⟨hfirst, hnext, hspan⟩ := hnodes
  have hchain : Chain st.nodes (st.nodes 0).firstChild [1] := by
    rw [hfirst]
    exact Chain.cons (hnext ▸ Chain.nil)
  have hreads : ¬ ReadsInside 512 st := fun h => by
    have hin := h 1 _ (At.child At.root hchain (List.mem_singleton_self 1)) 0 1 (by decide)
    rw [hspan] at hin
    exact absurd hin (by decide)
  exact ⟨st, hm, fun h => hreads (readsInside_of_files h), hreads⟩

end Retux.Tar
