/-
Walking through a file (`lookup_path` in `fs/vfs.cpp`, over the three drivers).

`lookup_path` does not look at `is_dir`: it asks the inode for its directory entries. `tar_readdir` and `proc_readdir`
refuse an inode that is not a directory. `ext2_readdir` does not ask, and reads the blocks of a regular file as entries.

A volume is one of the three, mounted; its inodes are the driver's. Runs are on fuel, as in `Fs/Ext2End`: a result with
some fuel is the result with more.

- `quiet_iff`: a file has no entries exactly if the scan meets no live one in its blocks, and comes to an end;
- `readdir_mono`, `walkRun_mono`: more fuel changes no result;
- `only_directories_iff`: so only directories can be traversed, on a volume whose files have no entries.
-/
import Mathlib.Tactic
import Retux.Fs.Ext2End
import Retux.Fs.Ext2Mount
import Retux.Fs.Mount
import Retux.Fs.Open

namespace Retux.Ext2

open Retux.Word Retux.Bytes Retux.Trace Retux.Trace.Traced Retux.Vfs

/-! ## Files read as directories -/

/-- the bytes at pos are a live entry -/
def Live (blk : ℕ → U8) (pos : ℕ) : Prop := field blk (pos + 4) 2 ≠ 0 ∧ field blk pos 4 ≠ 0 ∧ field blk (pos + 6) 1 > 0

/-- the scan of the blocks comes to no live entry, and to an end -/
structure Barren (st : Ext2State) (di : Ext2Inode) : Prop where
  ends : ¬ Endless st di
  dead : ∀ n blk, Comes st di n → scanBlock st di (start st n) = some blk →
    ∀ pos, Entry blk (blockLen st di (start st n)) pos → pos < blockLen st di (start st n) → ¬ Live blk pos

/-- `ext2_readdir` returns, with -1 or no bytes -/
def Quiet (st : Ext2State) (di : Ext2Inode) : Prop :=
  ∀ offset count, ∃ fuel ret, readdirRun st fuel di offset count = some ret ∧ ret.getD [] = []

section Content

variable {st : Ext2State} {di : Ext2Inode} {blk : ℕ → U8} {k len offset count fuel fuel' n pos streamPos : ℕ}
  {out r : List U8} {blkStart : U32}

theorem blockLoop_grows : out <+: (blockLoop blk len offset count fuel pos out streamPos).1 := by
  induction fuel generalizing pos out streamPos with
  | zero => exact List.prefix_rfl
  | succ fuel ih =>
    rw [blockLoop]
    simp only
    split_ifs
    · exact List.prefix_rfl
    · exact List.prefix_rfl
    · exact (List.prefix_append _ _).trans ih
    · exact ih
    · exact ih
    · exact List.prefix_rfl

theorem blockLoop_ne_nil (h : out ≠ []) : (blockLoop blk len offset count fuel pos out streamPos).1 ≠ [] := by
  intro hnil
  have hgrow : out <+: (blockLoop blk len offset count fuel pos out streamPos).1 := blockLoop_grows
  rw [hnil] at hgrow
  exact h (List.prefix_nil.1 hgrow)

theorem dirRun_grows (h : dirRun st di offset count fuel blkStart out streamPos = some r) : out <+: r := by
  induction fuel generalizing blkStart out streamPos with
  | zero => cases h
  | succ fuel ih =>
    rw [dirRun] at h
    split_ifs at h
    · cases hblk : scanBlock st di blkStart with
      | none =>
        rw [hblk] at h
        exact Option.some.inj h ▸ List.prefix_rfl
      | some blk =>
        rw [hblk] at h
        simp only at h
        split_ifs at h
        · exact Option.some.inj h ▸ blockLoop_grows
        · exact blockLoop_grows.trans (ih h)
    · exact Option.some.inj h ▸ List.prefix_rfl

/-- no live entry from pos on -/
theorem blockLoop_quiet (hdead : ∀ pos, Entry blk len pos → pos < len → ¬ Live blk pos) (hpos : Entry blk len pos) :
    blockLoop blk len offset count fuel pos out streamPos = (out, streamPos, false) := by
  induction fuel generalizing pos with
  | zero => rfl
  | succ fuel ih =>
    rw [blockLoop]
    simp only
    split_ifs with hlt hrec hlive
    · rfl
    · exact absurd ⟨hrec, hlive⟩ (hdead pos hpos hlt)
    · exact absurd ⟨hrec, hlive⟩ (hdead pos hpos hlt)
    · exact absurd ⟨hrec, hlive⟩ (hdead pos hpos hlt)
    · exact ih (hpos.next hlt hrec)
    · rfl

/-- in an empty buffer the first live entry is written -/
theorem blockLoop_live (hlt : pos < len) (hlive : Live blk pos) :
    (blockLoop blk len 0 CHUNK_SIZE (fuel + 1) pos [] streamPos).1 ≠ [] := by
  have hbyte : field blk (pos + 6) 1 < 256 := field_lt
  have hroom : ¬ ([] : List U8).length + (8 + field blk (pos + 6) 1 + 1) > CHUNK_SIZE := by
    rw [List.length_nil, CHUNK_SIZE]
    omega
  rw [blockLoop, if_pos hlt]
  simp only [if_neg hlive.1, if_pos hlive.2, ge_iff_le, Nat.zero_le, if_true, if_neg hroom]
  exact blockLoop_ne_nil (by simp)

/-- a block that gives no entry has no live one -/
theorem blockLoop_dead (hnil : (blockLoop blk len 0 CHUNK_SIZE len 0 [] streamPos).1 = []) (hpos : Entry blk len pos)
    (hlt : pos < len) : ¬ Live blk pos := by
  -- the loop comes to the entry with an empty buffer
  have hcome : ∃ f, len ≤ pos + f ∧ (blockLoop blk len 0 CHUNK_SIZE f pos [] streamPos).1 = [] := by
    clear hlt
    induction hpos with
    | first => exact ⟨len, by omega, hnil⟩
    | @next pos _ hlt hrec ih =>
      obtain ⟨f, hf, hloop⟩ := ih
      obtain ⟨f, rfl⟩ : ∃ g, f = g + 1 := ⟨f - 1, by omega⟩
      by_cases hlive : field blk pos 4 ≠ 0 ∧ field blk (pos + 6) 1 > 0
      · exact absurd hloop (blockLoop_live hlt ⟨hrec, hlive⟩)
      · rw [blockLoop, if_pos hlt] at hloop
        simp only [if_neg hrec, if_neg hlive] at hloop
        exact ⟨f, by omega, hloop⟩
  obtain ⟨f, hf, hloop⟩ := hcome
  obtain ⟨f, rfl⟩ : ∃ g, f = g + 1 := ⟨f - 1, by omega⟩
  exact fun hlive => blockLoop_live hlt hlive hloop

theorem dirRun_quiet (h : Sized st k) (hb : Barren st di) (hn : n * st.blockSize.toNat < 2 ^ 32)
    (hprev : ∀ m < n, (scanBlock st di (start st m)).isSome)
    (hr : dirRun st di offset count fuel (start st n) out streamPos = some r) : r = out := by
  induction fuel generalizing n with
  | zero => cases hr
  | succ fuel ih =>
    rw [dirRun] at hr
    split_ifs at hr with hlt
    · cases hblk : scanBlock st di (start st n) with
      | none =>
        rw [hblk] at hr
        exact (Option.some.inj hr).symm
      | some blk =>
        have hdead := hb.dead n blk ⟨(start_lt hn).1 hlt, hprev⟩ hblk
        rw [hblk] at hr
        simp only [blockLoop_quiet hdead Entry.first, Bool.false_eq_true, if_false, start_succ] at hr
        rcases start_next h hn with hlt' | hwrap
        · refine ih hlt' (fun m hm => ?_) hr
          rcases Nat.lt_succ_iff_lt_or_eq.1 hm with hm | rfl
          · exact hprev m hm
          · rw [hblk]
            rfl
        · rw [hwrap] at hr
          exact ih (by omega) (fun m hm => absurd hm (Nat.not_lt_zero m)) hr
    · exact (Option.some.inj hr).symm

/-- a scan that gives no entry comes to each block with none -/
theorem dirRun_comes (hr : dirRun st di 0 CHUNK_SIZE fuel (start st 0) [] 0 = some []) (hn : Comes st di n) :
    ∃ f s, dirRun st di 0 CHUNK_SIZE f (start st n) [] s = some [] := by
  induction n with
  | zero => exact ⟨fuel, 0, hr⟩
  | succ n ih =>
    have hmul : (n + 1) * st.blockSize.toNat = n * st.blockSize.toNat + st.blockSize.toNat := Nat.succ_mul _ _
    have hsize := di.size.isLt
    have hnext := hn.1
    obtain ⟨f, s, hf⟩ := ih ⟨by omega, fun m hm => hn.2 m (Nat.lt_succ_of_lt hm)⟩
    obtain ⟨blk, hblk⟩ := Option.isSome_iff_exists.1 (hn.2 n (Nat.lt_succ_self n))
    have hlt : start st n < di.size := (start_lt (by omega)).2 (by omega)
    cases f with
    | zero => cases hf
    | succ f =>
      rw [dirRun, if_pos hlt, hblk] at hf
      simp only [start_succ] at hf
      split_ifs at hf with hfull
      · exact absurd (Option.some.inj hf) (blockLoop_full hfull)
      · have hout := List.prefix_nil.1 (dirRun_grows hf)
        rw [hout] at hf
        exact ⟨f, _, hf⟩

theorem dirRun_dead (hr : dirRun st di 0 CHUNK_SIZE fuel (start st 0) [] 0 = some []) (hn : Comes st di n)
    (hblk : scanBlock st di (start st n) = some blk) (hpos : Entry blk (blockLen st di (start st n)) pos)
    (hlt : pos < blockLen st di (start st n)) : ¬ Live blk pos := by
  have hsize := di.size.isLt
  have hbefore := hn.1
  have hstart : start st n < di.size := (start_lt (by omega)).2 hbefore
  obtain ⟨f, s, hf⟩ := dirRun_comes hr hn
  cases f with
  | zero => cases hf
  | succ f =>
    rw [dirRun, if_pos hstart, hblk] at hf
    simp only at hf
    have hnil : (blockLoop blk (blockLen st di (start st n)) 0 CHUNK_SIZE (blockLen st di (start st n)) 0 [] s).1 =
        [] := by
      split_ifs at hf
      · exact Option.some.inj hf
      · exact List.prefix_nil.1 (dirRun_grows hf)
    exact blockLoop_dead hnil hpos hlt

/-- **A file read as a directory.** -/
theorem quiet_iff (h : Sized st k) (hheap : st.heap = true) : Quiet st di ↔ Barren st di := by
  have hrun {fuel offset count : ℕ} : readdirRun st fuel di offset count =
      (dirRun st di offset count fuel (start st 0) [] 0).map some := by
    unfold readdirRun
    rw [hheap, if_neg (by decide), start_zero]
  constructor
  · intro hquiet
    obtain ⟨fuel, ret, hret, hnil⟩ := hquiet 0 CHUNK_SIZE
    rw [hrun] at hret
    obtain ⟨out, hout, rfl⟩ := Option.map_eq_some_iff.1 hret
    obtain rfl : out = [] := hnil
    refine ⟨fun hend => ?_, fun n blk hn hblk pos => dirRun_dead hout hn hblk⟩
    obtain ⟨cs, hlen, hbytes, hno⟩ := exists_noName h di
    have h0 : 0 ∉ cs := fun hz => (hbytes 0 hz).elim (by decide) (by decide)
    have hclear : Clear cs [] := Clear.nil (List.length_pos_iff.1 (by omega)) h0
    exact (dirRun_endless h hend h0 (by omega) hno (by omega) hclear hout).1 rfl
  · intro hb offset count
    have hends : (readdirRun st ROUNDS di offset count).isSome := readdirRun_ends h hb.ends
    obtain ⟨ret, hret⟩ := Option.isSome_iff_exists.1 hends
    refine ⟨ROUNDS, ret, hret, ?_⟩
    rw [hrun] at hret
    obtain ⟨out, hout, rfl⟩ := Option.map_eq_some_iff.1 hret
    exact dirRun_quiet h hb (by omega) (fun m hm => absurd hm (Nat.not_lt_zero m)) hout

theorem dirRun_mono (hle : fuel ≤ fuel') (h : dirRun st di offset count fuel blkStart out streamPos = some r) :
    dirRun st di offset count fuel' blkStart out streamPos = some r := by
  induction fuel generalizing fuel' blkStart out streamPos with
  | zero => cases h
  | succ fuel ih =>
    obtain ⟨fuel', rfl⟩ : ∃ g, fuel' = g + 1 := ⟨fuel' - 1, by omega⟩
    rw [dirRun] at h ⊢
    split_ifs at h ⊢
    · cases hblk : scanBlock st di blkStart with
      | none =>
        rw [hblk] at h
        exact h
      | some blk =>
        rw [hblk] at h
        simp only at h ⊢
        split_ifs at h ⊢
        · exact h
        · exact ih (Nat.le_of_succ_le_succ hle) h
    · exact h

theorem readdirRun_mono {ret : Option (List U8)} (hle : fuel ≤ fuel')
    (h : readdirRun st fuel di offset count = some ret) : readdirRun st fuel' di offset count = some ret := by
  unfold readdirRun at h ⊢
  split_ifs at h ⊢
  · exact h
  · obtain ⟨out, hout, rfl⟩ := Option.map_eq_some_iff.1 h
    rw [dirRun_mono hle hout]
    rfl

end Content

section Volume

variable {st : Mounted} {read : U64 → U32 → Option (ℕ → U8)} {room : Alloc → Bool} {ino : U32} {i : VfsInode}

theorem mount_mounted (hm : (mountT read room).val = some (.ok st)) :
    ∃ sb bgdt, Ext2Superblock.mounted sb read room bgdt = st := by
  cases hbuf : read 2 2 with
  | none =>
    rw [mountT, hbuf] at hm
    simp at hm
  | some buf =>
    by_cases hmagic : (Ext2Superblock.read buf).magic = EXT2_MAGIC
    · by_cases hgroups : (Ext2Superblock.read buf).blocksPerGroup = 0
      · rw [mountT, hbuf] at hm
        simp [hmagic, hgroups, div] at hm
      · obtain ⟨-, -, -, -, bgdt, -, hst⟩ := (mountT_val hbuf hmagic hgroups).1 hm
        exact ⟨_, bgdt, hst⟩
    · rw [mountT, hbuf] at hm
      simp [hmagic] at hm

/-- an inode was read into a block: blocks have a size, and there was memory for one -/
theorem fetchInode_block {disk : ℕ → U8} (h : (fetchInodeT st ino).val = some (some disk)) :
    st.blockSize ≠ 0 ∧ st.room .block = true := by
  have hdiv {a d : U32} (hd : d = 0) : (div a d).val = none := by
    rw [div, hd]
    rfl
  by_cases hino : ino = 0
  · rw [fetchInodeT, if_pos hino] at h
    cases h
  rw [fetchInodeT, if_neg hino, val_bind] at h
  by_cases hipg : st.inodesPerGroup = 0
  · rw [hdiv hipg] at h
    cases h
  rw [div_val hipg, Option.bind_some, val_bind, rem_val hipg, Option.bind_some, val_ite] at h
  by_cases hgroup : (ino - 1) / st.inodesPerGroup ≥ st.numGroups
  · rw [if_pos hgroup] at h
    cases h
  rw [if_neg hgroup] at h
  simp only [val_bind] at h
  by_cases hsize : st.blockSize = 0
  · rw [hdiv hsize] at h
    cases h
  rw [div_val hsize, Option.bind_some, rem_val hsize, Option.bind_some, val_ite] at h
  by_cases hroom : st.room .block = false
  · rw [if_pos hroom] at h
    cases h
  · exact ⟨hsize, by simpa using hroom⟩

theorem makeVfsInode_block (h : (makeVfsInodeT st ino).val = some (some i)) :
    st.blockSize ≠ 0 ∧ st.room .block = true := by
  rw [makeVfsInodeT, val_ite] at h
  by_cases href : st.room .ref = false
  · rw [if_pos href] at h
    cases h
  rw [if_neg href, val_bind] at h
  obtain ⟨disk, hdisk, h⟩ := Option.bind_eq_some_iff.1 h
  cases disk with
  | none => cases h
  | some disk => exact fetchInode_block hdisk

/-- **What a mounted volume hands out** has blocks of a size the format knows, and there is memory for one. -/
theorem inode_sized (hm : (mountT read room).val = some (.ok st)) (hi : (makeVfsInodeT st ino).val = some (some i)) :
    (∃ k, Sized st.toExt2State k) ∧ st.heap = true := by
  obtain ⟨hsize, hroom⟩ := makeVfsInode_block hi
  obtain ⟨sb, bgdt, rfl⟩ := mount_mounted hm
  have hall : ∀ l : Fin 32, 1024#32 <<< l.val ≠ 0 → l.val ≤ 21 := by decide
  have hlt : sb.logBlockSize.toNat % 32 < 32 := Nat.mod_lt _ (by decide)
  exact ⟨⟨_, hall ⟨_, hlt⟩ hsize, rfl, rfl⟩, hroom⟩

end Volume

end Retux.Ext2

namespace Retux.Proc

open Retux.Word

/-- an inode is its number -/
def procGetInode (ino : U64) : Option U64 := if ino > INO_CPUINFO then none else some ino

def isDir (ino : U64) : Bool := ino = INO_ROOT

theorem procReaddir_file {ino : U64} {offset count : ℕ} (h : isDir ino = false) : procReaddir ino offset count = none :=
  if_pos (of_decide_eq_false h)

end Retux.Proc

namespace Retux.Vfs

open Retux.Word Retux.Bytes Retux.Trace Retux.Tar Retux.Proc Retux.Ext2 Retux.Open Retux.Path

/-! ## Volumes -/

/-- a mounted volume of one of the drivers -/
inductive FileSystem
  | tarfs (st : TarState) (mounted : ∃ base size heap nodes, Tar.mount base size heap nodes = some st)
  | ext2 (st : Mounted) (mounted : ∃ read room, (mountT read room).val = some (.ok st))
  | procfs

namespace FileSystem

def Inode : FileSystem → Type
  | tarfs .. => ℕ
  | ext2 .. => VfsInode
  | procfs => U64

/-- `root_inode`; where fetching an inode halts, there is none -/
def rootInode : (fs : FileSystem) → Option fs.Inode
  | tarfs st _ => Tar.makeVfsInode st 0
  | ext2 st _ => (rootInodeT st).val.join
  | procfs => some INO_ROOT

def getInode : (fs : FileSystem) → U64 → Option fs.Inode
  | tarfs st _, ino => tarGetInode st ino
  | ext2 st _, ino => (getInodeT st ino).val.join
  | procfs, ino => procGetInode ino

def isDir : (fs : FileSystem) → fs.Inode → Bool
  | tarfs st _, nodeIdx => (st.nodes nodeIdx).isDir
  | ext2 .., inode => inode.isDir
  | procfs, ino => Proc.isDir ino

/-- `readdir`, on fuel; the inner none is -1 -/
def readdir (fuel : ℕ) : (fs : FileSystem) → fs.Inode → ℕ → ℕ → Option (Option (List U8))
  | tarfs st _, nodeIdx, offset, count => some (tarReaddir st nodeIdx offset count)
  | ext2 st _, inode, offset, count => readdirRun st.toExt2State fuel inode.disk offset count
  | procfs, ino, offset, count => some (procReaddir ino offset count)

end FileSystem

section Open

variable (rootSb : Option ℕ) (mounts : List MountEntry) (vols : ℕ → FileSystem)

/-- `vfs::open`, up to the file object: the inode and its volume -/
def openRun (junk : ℕ → U8) (fuel : ℕ) (path : List U8) : Option (Option (Σ v, (vols v).Inode)) :=
  match resolveMount rootSb path mounts with
  | (none, _) => some none
  | (some v, rel) =>
    match (vols v).rootInode with
    | none => some none
    | some root =>
      (lookupPathRun (vols v).getInode ((vols v).readdir fuel) junk fuel root rel).map fun target => target.map (⟨v, ·⟩)

end Open

/-- one lookup after the other -/
def walkRun {ι : Type} (getInode : U64 → Option ι) (readdir : ι → ℕ → ℕ → Option (Option (List U8))) (junk : ℕ → U8)
    (fuel : ℕ) : ι → List (List U8) → Option (Option ι)
  | cur, [] => some (some cur)
  | cur, c :: comps =>
    match lookupNameRun getInode readdir junk fuel cur c with
    | none => none
    | some none => some none
    | some (some next) => walkRun getInode readdir junk fuel next comps

/-- the components that `lookup_path` takes from a path -/
def components (rel : List U8) : List (List U8) := steps (rel.dropWhile (· = SLASH)).length (rel.dropWhile (· = SLASH))

/-- the components lead to the inode -/
def Resolves (fs : FileSystem) (junk : ℕ → U8) (comps : List (List U8)) (i : fs.Inode) : Prop :=
  ∃ root fuel, fs.rootInode = some root ∧ walkRun fs.getInode (fs.readdir fuel) junk fuel root comps = some (some i)

/-- only directories have entries, and only they can be traversed -/
structure OnlyDirectories (fs : FileSystem) : Prop where
  refuses : ∀ ino i, fs.getInode ino = some i → fs.isDir i = false →
    ∀ offset count, ∃ fuel ret, fs.readdir fuel i offset count = some ret ∧ ret.getD [] = []
  null : ∀ rootSb mounts vols v path rel junk comps rest,
    resolveMount rootSb path mounts = (some v, rel) → vols v = fs →
    components rel = comps ++ rest → comps ≠ [] → rest ≠ [] →
    ∀ i, Resolves (vols v) junk comps i → (vols v).isDir i = false →
      ∃ fuel, openRun rootSb mounts vols junk fuel path = some none

/-- no file that the volume hands out has a live entry in its blocks -/
def FileSystem.NoStrayEntries : FileSystem → Prop
  | tarfs .. => True
  | ext2 st _ => ∀ ino i, (getInodeT st ino).val = some (some i) → i.isDir = false → Barren st.toExt2State i.disk
  | procfs => True

/-! ## More fuel -/

section Fuel

variable {fs : FileSystem} {ι : Type} {getInode : U64 → Option ι} {fuel fuel' n m : ℕ} {junk buf : ℕ → U8}

theorem FileSystem.readdir_mono {i : fs.Inode} {offset count : ℕ} {r : Option (List U8)} (hle : fuel ≤ fuel')
    (h : fs.readdir fuel i offset count = some r) : fs.readdir fuel' i offset count = some r := by
  cases fs with
  | tarfs st _ => exact h
  | procfs => exact h
  | ext2 st _ => exact readdirRun_mono hle h

theorem findNameRun_mono {rd rd' : ℕ → Option (Option (List U8))} {comp : List U8} {offset : ℕ} {r : Option U64}
    (hrd : ∀ o ret, rd o = some ret → rd' o = some ret) (hle : n ≤ m)
    (h : findNameRun rd comp n offset buf = some r) : findNameRun rd' comp m offset buf = some r := by
  induction n generalizing m offset buf with
  | zero => cases h
  | succ n ih =>
    obtain ⟨m, rfl⟩ : ∃ g, m = g + 1 := ⟨m - 1, by omega⟩
    rw [findNameRun] at h ⊢
    cases hret : rd offset with
    | none =>
      rw [hret] at h
      cases h
    | some ret =>
      rw [hret] at h
      rw [hrd offset ret hret]
      cases ret with
      | none => exact h
      | some page =>
        simp only at h ⊢
        split_ifs at h ⊢
        · exact h
        · cases hscan : scan (place page buf) page.length comp page.length 0 with
          | some ino =>
            rw [hscan] at h
            exact h
          | none =>
            rw [hscan] at h
            exact ih (Nat.le_of_succ_le_succ hle) h

theorem lookupNameRun_mono {i : fs.Inode} {comp : List U8} {r : Option fs.Inode} (hle : fuel ≤ fuel')
    (h : lookupNameRun fs.getInode (fs.readdir fuel) junk fuel i comp = some r) :
    lookupNameRun fs.getInode (fs.readdir fuel') junk fuel' i comp = some r := by
  obtain ⟨found, hfound, rfl⟩ := Option.map_eq_some_iff.1 h
  have hmono := findNameRun_mono (fun _ _ hret => FileSystem.readdir_mono hle hret) hle hfound
  rw [lookupNameRun, hmono]
  rfl

theorem walkRun_mono {i : fs.Inode} {comps : List (List U8)} {r : Option fs.Inode} (hle : fuel ≤ fuel')
    (h : walkRun fs.getInode (fs.readdir fuel) junk fuel i comps = some r) :
    walkRun fs.getInode (fs.readdir fuel') junk fuel' i comps = some r := by
  induction comps generalizing i with
  | nil => exact h
  | cons c comps ih =>
    rw [walkRun] at h ⊢
    cases hname : lookupNameRun fs.getInode (fs.readdir fuel) junk fuel i c with
    | none =>
      rw [hname] at h
      cases h
    | some found =>
      rw [hname] at h
      rw [lookupNameRun_mono hle hname]
      cases found with
      | none => exact h
      | some next => exact ih h

end Fuel

/-! ## Walks -/

section Walks

variable {ι : Type} {getInode : U64 → Option ι} {rd : ι → ℕ → ℕ → Option (Option (List U8))} {junk : ℕ → U8}
  {fuel n : ℕ} {cur i : ι} {path : List U8} {p q : List (List U8)} {fs : FileSystem}

theorem lookupLoopRun_steps : lookupLoopRun getInode rd junk fuel n cur path =
    walkRun getInode rd junk fuel cur (steps n path) := by
  induction n generalizing cur path with
  | zero => rfl
  | succ n ih =>
    rw [lookupLoopRun, steps]
    by_cases hne : path = []
    · rw [if_pos hne, if_pos hne, walkRun]
    · rw [if_neg hne, if_neg hne, walkRun]
      cases lookupNameRun getInode rd junk fuel cur (component 255 path).1 with
      | none => rfl
      | some found =>
        cases found with
        | none => rfl
        | some next => exact ih

/-- the first step of a walk that succeeds -/
theorem walkRun_cons {c : List U8} (h : walkRun getInode rd junk fuel cur (c :: p) = some (some i)) :
    ∃ next, lookupNameRun getInode rd junk fuel cur c = some (some next) ∧
      walkRun getInode rd junk fuel next p = some (some i) := by
  rw [walkRun] at h
  cases hname : lookupNameRun getInode rd junk fuel cur c with
  | none =>
    rw [hname] at h
    cases h
  | some found =>
    rw [hname] at h
    cases found with
    | none => cases h
    | some next => exact ⟨next, rfl, h⟩

theorem walkRun_append (h : walkRun getInode rd junk fuel cur p = some (some i)) :
    walkRun getInode rd junk fuel cur (p ++ q) = walkRun getInode rd junk fuel i q := by
  induction p generalizing cur with
  | nil =>
    obtain rfl : cur = i := Option.some.inj (Option.some.inj h)
    rfl
  | cons c p ih =>
    obtain ⟨next, hname, hrest⟩ := walkRun_cons h
    rw [List.cons_append, walkRun, hname]
    exact ih hrest

/-- behind the first component every inode comes from `get_inode` -/
theorem walkRun_handed (hp : p ≠ []) (h : walkRun getInode rd junk fuel cur p = some (some i)) :
    ∃ ino, getInode ino = some i := by
  induction p generalizing cur with
  | nil => exact absurd rfl hp
  | cons c p ih =>
    obtain ⟨next, hname, hrest⟩ := walkRun_cons h
    by_cases hnil : p = []
    · subst hnil
      obtain rfl : next = i := Option.some.inj (Option.some.inj hrest)
      obtain ⟨found, -, hbind⟩ := Option.map_eq_some_iff.1 hname
      obtain ⟨ino, -, hino⟩ := Option.bind_eq_some_iff.1 hbind
      exact ⟨ino, hino⟩
    · exact ih hnil hrest

/-- a walk that goes on from an inode without entries -/
theorem walkRun_refused {ret : Option (List U8)} (hp : p ≠ []) (hret : rd cur 0 CHUNK_SIZE = some ret)
    (hnil : ret.getD [] = []) : walkRun getInode rd junk (fuel + 1) cur p = some none := by
  obtain ⟨c, p, rfl⟩ := List.exists_cons_of_ne_nil hp
  have hfind : findNameRun (fun offset => rd cur offset CHUNK_SIZE) c (fuel + 1) 0 junk = some none := by
    rw [findNameRun, hret]
    cases ret with
    | none => rfl
    | some page =>
      obtain rfl : page = [] := hnil
      rfl
  rw [walkRun, lookupNameRun, hfind]
  rfl

end Walks

/-! ## Only directories -/

section OnlyDirectories

variable {fs : FileSystem}

/-- what readdir makes of the files, driver by driver -/
theorem refuses_iff : (∀ ino i, fs.getInode ino = some i → fs.isDir i = false →
    ∀ offset count, ∃ fuel ret, fs.readdir fuel i offset count = some ret ∧ ret.getD [] = []) ↔ fs.NoStrayEntries := by
  cases fs with
  | tarfs st _ =>
    refine ⟨fun _ => trivial, fun _ ino i _ hfile offset count => ⟨0, none, ?_, rfl⟩⟩
    exact congrArg some (if_pos hfile)
  | procfs =>
    refine ⟨fun _ => trivial, fun _ ino i _ hfile offset count => ⟨0, none, ?_, rfl⟩⟩
    exact congrArg some (procReaddir_file hfile)
  | ext2 st hmounted =>
    obtain ⟨read, room, hm⟩ := hmounted
    have hquiet {ino : U64} {i : VfsInode} (hi : (getInodeT st ino).val = some (some i)) :
        Quiet st.toExt2State i.disk ↔ Barren st.toExt2State i.disk := by
      obtain ⟨⟨k, hk⟩, hheap⟩ := inode_sized hm hi
      exact quiet_iff hk hheap
    have hjoin {ino : U64} {i : VfsInode} : (getInodeT st ino).val.join = some i ↔
        (getInodeT st ino).val = some (some i) := Option.join_eq_some_iff
    constructor
    · intro hrefuses ino i hi hfile
      exact (hquiet hi).1 (hrefuses ino i (hjoin.2 hi) hfile)
    · intro hnone ino i hi hfile
      exact (hquiet (hjoin.1 hi)).2 (hnone ino i (hjoin.1 hi) hfile)

theorem openRun_null {rootSb : Option ℕ} {mounts : List MountEntry} {vols : ℕ → FileSystem} {v : ℕ} {path rel : List U8}
    {junk : ℕ → U8} {comps rest : List (List U8)} {i : (vols v).Inode}
    (hres : resolveMount rootSb path mounts = (some v, rel)) (hcomps : components rel = comps ++ rest)
    (hrest : rest ≠ []) (hi : Resolves (vols v) junk comps i)
    (hrefuses : ∃ fuel ret, (vols v).readdir fuel i 0 CHUNK_SIZE = some ret ∧ ret.getD [] = []) :
    ∃ fuel, openRun rootSb mounts vols junk fuel path = some none := by
  obtain ⟨root, n, hroot, hwalk⟩ := hi
  obtain ⟨m, ret, hret, hnil⟩ := hrefuses
  have hmore := walkRun_mono (le_trans (le_max_left n m) (Nat.le_succ _)) hwalk
  have hread := FileSystem.readdir_mono (le_trans (le_max_right n m) (Nat.le_succ _)) hret
  have hlookup : lookupPathRun (vols v).getInode ((vols v).readdir (max n m + 1)) junk (max n m + 1) root rel =
      some none := by
    calc lookupPathRun (vols v).getInode ((vols v).readdir (max n m + 1)) junk (max n m + 1) root rel
        = walkRun (vols v).getInode ((vols v).readdir (max n m + 1)) junk (max n m + 1) root (comps ++ rest) := by
          rw [← hcomps]
          exact lookupLoopRun_steps
      _ = walkRun (vols v).getInode ((vols v).readdir (max n m + 1)) junk (max n m + 1) i rest := walkRun_append hmore
      _ = some none := walkRun_refused hrest hread hnil
  refine ⟨max n m + 1, ?_⟩
  simp only [openRun, hres, hroot, hlookup]
  rfl

theorem openRun_mono {rootSb : Option ℕ} {mounts : List MountEntry} {vols : ℕ → FileSystem} {path : List U8}
    {junk : ℕ → U8} {fuel fuel' : ℕ} {r : Option (Σ v, (vols v).Inode)} (hle : fuel ≤ fuel')
    (h : openRun rootSb mounts vols junk fuel path = some r) : openRun rootSb mounts vols junk fuel' path = some r := by
  unfold openRun at h ⊢
  generalize resolveMount rootSb path mounts = res at h ⊢
  obtain ⟨sb, rel⟩ := res
  cases sb with
  | none => exact h
  | some v =>
    simp only at h ⊢
    cases hroot : (vols v).rootInode with
    | none =>
      rw [hroot] at h
      exact h
    | some root =>
      rw [hroot] at h
      obtain ⟨target, htarget, rfl⟩ := Option.map_eq_some_iff.1 h
      rw [lookupPathRun, lookupLoopRun_steps] at htarget
      simp only [lookupPathRun, lookupLoopRun_steps, walkRun_mono hle htarget, Option.map_some]

/-- **Only directories can be traversed**, on a volume whose files have no entries. -/
theorem only_directories_iff (fs : FileSystem) : OnlyDirectories fs ↔ fs.NoStrayEntries := by
  constructor
  · intro h
    exact refuses_iff.1 h.refuses
  · intro h
    have hrefuses := refuses_iff.2 h
    refine ⟨hrefuses, ?_⟩
    intro rootSb mounts vols v path rel junk comps rest hres hv hcomps hne hrest i hi hfile
    subst hv
    obtain ⟨ino, hino⟩ : ∃ ino, (vols v).getInode ino = some i := by
      obtain ⟨root, fuel, -, hwalk⟩ := hi
      exact walkRun_handed hne hwalk
    exact openRun_null hres hcomps hrest hi (hrefuses ino i hino hfile 0 CHUNK_SIZE)

end OnlyDirectories

/-! ## A file that is walked through -/

/-- the bytes at some places of a disk -/
def sampleBytes : List (ℕ × U8) := [
  -- the superblock: 64 blocks of 1 KiB in one group, 16 inodes, the magic
  (1028, 64), (1044, 1), (1056, 64), (1064, 16), (1080, 0x53), (1081, 0xEF),
  -- the group: inodes from block 3 on
  (2056, 3),
  -- inode 2, a directory of 1024 bytes in block 5
  (3201, 0x40), (3205, 4), (3240, 5),
  -- inode 3, a regular file of 16 bytes in block 6
  (3329, 0x80), (3332, 16), (3368, 6),
  -- the directory: inode 3 is f
  (5120, 3), (5125, 4), (5126, 1), (5128, 0x66),
  -- the file
  (6144, 2), (6148, 16), (6150, 1), (6152, 0x78)]

def sampleRead (lba : U64) (_ : U32) : Option (ℕ → U8) :=
  some fun i => (sampleBytes.lookup (512 * lba.toNat + i)).getD 0

def sampleMounted : Mounted :=
  (Ext2Superblock.read fun i => (sampleBytes.lookup (1024 + i)).getD 0).mounted sampleRead (fun _ => true)
    fun i => (sampleBytes.lookup (2048 + i)).getD 0

def sampleVolume : FileSystem := .ext2 sampleMounted ⟨sampleRead, fun _ => true,
  (mountT_val rfl (by decide +kernel) (by decide +kernel)).2 ⟨by decide +kernel, rfl, rfl, rfl, _, rfl, rfl⟩⟩

/-- a regular file whose bytes say that inode 2 is x: /f/x is the root directory -/
theorem file_traversed : ∃ i, Resolves sampleVolume (fun _ => 0) [chars "f"] i ∧ sampleVolume.isDir i = false ∧
    ¬ ∃ fuel, openRun (some 0) [] (fun _ => sampleVolume) (fun _ => 0) fuel (chars "/f/x") = some none := by
  have hfile : (sampleVolume.rootInode.bind fun root =>
      (walkRun sampleVolume.getInode (sampleVolume.readdir 3) (fun _ => 0) 3 root [chars "f"]).map
        fun found => found.map sampleVolume.isDir) = some (some false) := by decide +kernel
  have hopen : (openRun (some 0) [] (fun _ => sampleVolume) (fun _ => 0) 3 (chars "/f/x")).map Option.isSome =
      some true := by decide +kernel
  obtain ⟨root, hroot, hwalk⟩ := Option.bind_eq_some_iff.1 hfile
  obtain ⟨found, hfound, hkind⟩ := Option.map_eq_some_iff.1 hwalk
  obtain ⟨i, rfl, hdir⟩ := Option.map_eq_some_iff.1 hkind
  refine ⟨i, ⟨root, 3, hroot, hfound⟩, hdir, ?_⟩
  intro ⟨fuel, hnull⟩
  obtain ⟨target, htarget, hsome⟩ := Option.map_eq_some_iff.1 hopen
  have h1 := openRun_mono (le_max_left fuel 3) hnull
  have h2 := openRun_mono (le_max_right fuel 3) htarget
  obtain rfl : none = target := Option.some.inj (h1.symm.trans h2)
  cases hsome

end Retux.Vfs
