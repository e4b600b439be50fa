/-
Mounting an ext2 volume and fetching its inodes (`ext2::mount`, `fetch_inode`, `make_vfs_inode` in `fs/ext2.cpp`).

Of the superblock the magic is checked, and the number of block groups. Everything else goes into shifts, divisions and
offsets as it stands. Here the code writes down the operations that can go wrong: a shift, a division, the copy of the
group table and the copy of an inode. A division by zero halts. A shift by 32 or more has no meaning in the source, and
here takes the count modulo 32, as the machine does; what is proved does not depend on it, as the event is bad already.

- `mountT_clean`, `mountT_val`: when mount's own operations are in order, and the volume it gives;
- `fetchInodeT_clean`: so for an inode;
- `mount_safe_iff`: the condition on the superblock and the inode tables under which nothing goes wrong;
- `sound_of_power`: inodes of 2^j bytes, of at most a block, never cross a block.
-/
import Mathlib.Tactic
import Retux.Fs.Ext2
import Retux.Lib.Trace

namespace Retux.Ext2

open Retux.Word Retux.Bytes Retux.Trace Retux.Trace.Traced

/-! ## Model -/

abbrev U16 := BitVec 16

def MAX_GROUPS : U32 := 128
def EXT2_MAGIC : U16 := 0xEF53

/-- sizeof(Ext2BlockGroupDesc) -/
def GROUP_DESC_SIZE : U32 := 32

/-- sizeof(Ext2Inode) -/
def INODE_SIZE : ℕ := 128

def u16 (buf : ℕ → U8) (p : ℕ) : U16 := BitVec.ofNat 16 (field buf p 2)

def u32 (buf : ℕ → U8) (p : ℕ) : U32 := BitVec.ofNat 32 (field buf p 4)

/-- the fields that mount reads -/
structure Ext2Superblock where
  blocksCount : U32
  firstDataBlock : U32
  logBlockSize : U32
  blocksPerGroup : U32
  inodesPerGroup : U32
  magic : U16
  revLevel : U32
  inodeSize : U16

def Ext2Superblock.read (buf : ℕ → U8) : Ext2Superblock where
  blocksCount := u32 buf 4
  firstDataBlock := u32 buf 20
  logBlockSize := u32 buf 24
  blocksPerGroup := u32 buf 32
  inodesPerGroup := u32 buf 40
  magic := u16 buf 56
  revLevel := u32 buf 76
  inodeSize := u16 buf 88

inductive Event
  /-- `1024u << n` -/
  | shift (n : U32)
  /-- a division by d, or a remainder -/
  | divide (d : U32)
  /-- len bytes of a buffer of size bytes, copied to `bgdt` -/
  | table (len size : U32)
  /-- an inode, copied from offset off of a buffer of size bytes -/
  | inode (off size : U32)

def Event.Ok : Event → Prop
  | shift n => n.toNat < 32
  | divide d => d ≠ 0
  | table len size => len.toNat ≤ MAX_GROUPS.toNat * GROUP_DESC_SIZE.toNat ∧ len.toNat ≤ size.toNat
  | inode off size => off.toNat + INODE_SIZE ≤ size.toNat

def div (a d : U32) : Traced Event U32 := do
  emit (.divide d)
  lift (if d = 0 then none else some (a / d))

def rem (a d : U32) : Traced Event U32 := do
  emit (.divide d)
  lift (if d = 0 then none else some (a % d))

def shl (n : U32) : Traced Event U32 := do
  emit (.shift n)
  return 1024#32 <<< (n.toNat % 32)

/-- what is asked of kmalloc -/
inductive Alloc
  | state
  | bgdt
  | superBlock
  | ref
  | block
  | inode

/-- the state of a mounted volume, and its memory -/
structure Mounted extends Ext2State where
  inodesPerGroup : U32
  inodeSize : U32
  firstDataBlock : U32
  blocksPerGroup : U32
  numGroups : U32
  bgdt : ℕ → U8
  room : Alloc → Bool

section Mount

variable (read : U64 → U32 → Option (ℕ → U8)) (room : Alloc → Bool)

/-- mount, once the block size and the number of groups are known; nullptr is an error, with what it prints -/
def loadTableT (sb : Ext2Superblock) (blockSize numGroups : U32) : Traced Event (Except String Mounted) :=
  let sectorsPerBlk := blockSize / 512
  let inodeSize := if sb.revLevel ≥ 1 ∧ sb.inodeSize ≥ 128 then sb.inodeSize.setWidth 32 else 128
  if numGroups > MAX_GROUPS then pure (.error "ext2: too many block groups (max 128)\n")
  else if room .state = false then pure (.error "")
  else
    let bgdtBlock := sb.firstDataBlock + 1
    let bgdtBytes := numGroups * GROUP_DESC_SIZE
    let bgdtSectors := (bgdtBytes + 511) / 512
    let bgdtLba := bgdtBlock.setWidth 64 * sectorsPerBlk.setWidth 64
    if room .bgdt = false then pure (.error "")
    else match read bgdtLba bgdtSectors with
      | none => pure (.error "ext2: failed to read BGDT\n")
      | some bgdt => do
        emit (.table bgdtBytes ((bgdtSectors + 1) * 512))
        if room .superBlock = false then pure (.error "")
        else pure (.ok {
          read, blockSize, sectorsPerBlock := sectorsPerBlk, heap := room .block
          inodesPerGroup := sb.inodesPerGroup, inodeSize, firstDataBlock := sb.firstDataBlock
          blocksPerGroup := sb.blocksPerGroup, numGroups, bgdt, room })

def mountT : Traced Event (Except String Mounted) :=
  match read 2 2 with
  | none => pure (.error "ext2: failed to read superblock\n")
  | some buf =>
    let sb := Ext2Superblock.read buf
    if sb.magic ≠ EXT2_MAGIC then pure (.error "ext2: bad magic, not ext2\n")
    else do
      let blockSize ← shl sb.logBlockSize
      let numGroups ← div (sb.blocksCount + sb.blocksPerGroup - 1) sb.blocksPerGroup
      loadTableT read room sb blockSize numGroups

end Mount

/-- the inode's bytes, if it can be read -/
def fetchInodeT (st : Mounted) (ino : U32) : Traced Event (Option (ℕ → U8)) :=
  if ino = 0 then pure none
  else do
    let group ← div (ino - 1) st.inodesPerGroup
    let locl ← rem (ino - 1) st.inodesPerGroup
    if group ≥ st.numGroups then pure none
    else
      let tableBlock := u32 st.bgdt (GROUP_DESC_SIZE.toNat * group.toNat + 8)
      let byteOff := locl * st.inodeSize
      let blkOff ← div byteOff st.blockSize
      let offInBlk ← rem byteOff st.blockSize
      if st.room .block = false then pure none
      else match readBlock st.toExt2State (tableBlock + blkOff) with
        | none => pure none
        | some blk => do
          emit (.inode offInBlk st.blockSize)
          pure (some fun i => blk (offInBlk.toNat + i))

structure VfsInode where
  ino : U32
  size : U64
  isDir : Bool
  disk : Ext2Inode

def makeVfsInodeT (st : Mounted) (ino : U32) : Traced Event (Option VfsInode) :=
  if st.room .ref = false then pure none
  else do
    match ← fetchInodeT st ino with
    | none => pure none
    | some disk =>
      if st.room .inode = false then pure none
      else pure (some {
        ino
        size := (u32 disk 4).setWidth 64
        isDir := u16 disk 0 &&& 0xF000 = 0x4000
        disk := ⟨u32 disk 4, fun i => u32 disk (40 + 4 * i)⟩ })

def rootInodeT (st : Mounted) : Traced Event (Option VfsInode) := makeVfsInodeT st 2

def getInodeT (st : Mounted) (ino : U64) : Traced Event (Option VfsInode) := makeVfsInodeT st (ino.setWidth 32)

/-! ## What mount gives -/

namespace Ext2Superblock

variable (sb : Ext2Superblock)

def blockSize : U32 := 1024#32 <<< (sb.logBlockSize.toNat % 32)

def slotSize : U32 := if sb.revLevel ≥ 1 ∧ sb.inodeSize ≥ 128 then sb.inodeSize.setWidth 32 else 128

def numGroups : U32 := (sb.blocksCount + sb.blocksPerGroup - 1) / sb.blocksPerGroup

def bgdtSectors : U32 := (sb.numGroups * GROUP_DESC_SIZE + 511) / 512

def bgdtLba : U64 := (sb.firstDataBlock + 1).setWidth 64 * (sb.blockSize / 512).setWidth 64

def mounted (read : U64 → U32 → Option (ℕ → U8)) (room : Alloc → Bool) (bgdt : ℕ → U8) : Mounted where
  read := read
  blockSize := sb.blockSize
  sectorsPerBlock := sb.blockSize / 512
  heap := room .block
  inodesPerGroup := sb.inodesPerGroup
  inodeSize := sb.slotSize
  firstDataBlock := sb.firstDataBlock
  blocksPerGroup := sb.blocksPerGroup
  numGroups := sb.numGroups
  bgdt := bgdt
  room := room

end Ext2Superblock

/-- where the inode's bytes start in the group's table -/
def Mounted.byteOff (st : Mounted) (ino : U32) : U32 := (ino - 1) % st.inodesPerGroup * st.inodeSize

/-- the block they are in -/
def Mounted.slotBlock (st : Mounted) (ino : U32) : U32 :=
  u32 st.bgdt (GROUP_DESC_SIZE.toNat * ((ino - 1) / st.inodesPerGroup).toNat + 8) + st.byteOff ino / st.blockSize

/-- no inode of a group, whose block can be read, goes past the end of that block -/
def Mounted.Slots (st : Mounted) : Prop :=
  ∀ ino, ino ≠ 0 → (ino - 1) / st.inodesPerGroup < st.numGroups → (readBlock st.toExt2State (st.slotBlock ino)).isSome →
    (st.byteOff ino % st.blockSize).toNat + INODE_SIZE ≤ st.blockSize.toNat

/-- what mount does not check -/
structure Sound (read : U64 → U32 → Option (ℕ → U8)) (sb : Ext2Superblock) : Prop where
  shift : sb.logBlockSize.toNat < 32
  groups : sb.blocksPerGroup ≠ 0
  volume : ∀ bgdt, sb.numGroups ≤ MAX_GROUPS → read sb.bgdtLba sb.bgdtSectors = some bgdt →
    sb.logBlockSize.toNat ≤ 21 ∧ sb.inodesPerGroup ≠ 0 ∧ (sb.mounted read (fun _ => true) bgdt).Slots

section Mount

variable {read : U64 → U32 → Option (ℕ → U8)} {room : Alloc → Bool} {buf bgdt : ℕ → U8} {st : Mounted}
  {sb : Ext2Superblock} {ino a d n : U32}

theorem clean_div : Clean Event.Ok (div a d) ↔ d ≠ 0 := by
  unfold div
  rw [clean_bind, clean_emit]
  exact ⟨fun h => h.1, fun h => ⟨h, fun _ _ => clean_lift.2 (by rw [if_neg h]; rfl)⟩⟩

theorem clean_rem : Clean Event.Ok (rem a d) ↔ d ≠ 0 := by
  unfold rem
  rw [clean_bind, clean_emit]
  exact ⟨fun h => h.1, fun h => ⟨h, fun _ _ => clean_lift.2 (by rw [if_neg h]; rfl)⟩⟩

theorem clean_shl : Clean Event.Ok (shl n) ↔ n.toNat < 32 := by
  unfold shl
  rw [clean_bind, clean_emit]
  exact ⟨fun h => h.1, fun h => ⟨h, fun _ _ => clean_pure⟩⟩

theorem div_val (hd : d ≠ 0) : (div a d).val = some (a / d) := by
  rw [div, val_bind, val_emit, Option.bind_some, val_lift, if_neg hd]

theorem rem_val (hd : d ≠ 0) : (rem a d).val = some (a % d) := by
  rw [rem, val_bind, val_emit, Option.bind_some, val_lift, if_neg hd]

@[simp] theorem shl_val : (shl n).val = some (1024#32 <<< (n.toNat % 32)) := by simp [shl]

theorem blockSize_ge (h : sb.logBlockSize.toNat < 32) :
    1024 ≤ sb.blockSize.toNat ↔ sb.logBlockSize.toNat ≤ 21 := by
  have hall : ∀ l : Fin 32, 1024 ≤ (1024#32 <<< (l.val % 32)).toNat ↔ l.val ≤ 21 := by decide
  exact hall ⟨_, h⟩

/-- the group table fits, once the number of groups has been checked -/
theorem table_ok (h : n ≤ MAX_GROUPS) :
    (Event.table (n * GROUP_DESC_SIZE) (((n * GROUP_DESC_SIZE + 511) / 512 + 1) * 512)).Ok := by
  have hn : n.toNat ≤ 128 := BitVec.le_def.1 h
  have hdesc : GROUP_DESC_SIZE.toNat = 32 := rfl
  have hbytes : (n * GROUP_DESC_SIZE).toNat = n.toNat * 32 := by
    rw [BitVec.toNat_mul, hdesc]
    exact Nat.mod_eq_of_lt (by omega)
  have hsum : (n * GROUP_DESC_SIZE + 511).toNat = n.toNat * 32 + 511 := by
    rw [BitVec.toNat_add, hbytes]
    exact Nat.mod_eq_of_lt (by omega : n.toNat * 32 + 511 < 2 ^ 32)
  have hsize : (((n * GROUP_DESC_SIZE + 511) / 512 + 1) * 512).toNat = ((n.toNat * 32 + 511) / 512 + 1) * 512 := by
    rw [BitVec.toNat_mul, BitVec.toNat_add, BitVec.toNat_udiv, hsum]
    exact (congrArg (· * 512 % 2 ^ 32) (Nat.mod_eq_of_lt (by omega :
      (n.toNat * 32 + 511) / 512 + 1 < 2 ^ 32))).trans (Nat.mod_eq_of_lt (by omega))
  refine ⟨?_, ?_⟩
  · rw [hbytes]
    exact Nat.mul_le_mul_right 32 hn
  · rw [hbytes, hsize]
    omega

/-! ## Mount -/

theorem loadTableT_val : (loadTableT read room sb sb.blockSize sb.numGroups).val = some (.ok st) ↔
    sb.numGroups ≤ MAX_GROUPS ∧ room .state = true ∧ room .bgdt = true ∧ room .superBlock = true ∧
      ∃ bgdt, read sb.bgdtLba sb.bgdtSectors = some bgdt ∧ sb.mounted read room bgdt = st := by
  have hread : read ((sb.firstDataBlock + 1).setWidth 64 * (sb.blockSize / 512).setWidth 64)
      ((sb.numGroups * GROUP_DESC_SIZE + 511) / 512) = read sb.bgdtLba sb.bgdtSectors := rfl
  unfold loadTableT
  dsimp only
  rw [hread]
  by_cases hmax : sb.numGroups > MAX_GROUPS
  · simp [hmax, BitVec.not_le.2 hmax]
  · cases hs : room .state <;> cases hb : room .bgdt <;> cases hv : room .superBlock <;>
      cases read sb.bgdtLba sb.bgdtSectors <;> simp [hmax, BitVec.not_lt.1 hmax]
    rfl

theorem loadTableT_clean {blockSize numGroups : U32} : Clean Event.Ok (loadTableT read room sb blockSize numGroups) := by
  unfold loadTableT
  refine clean_ite.2 ⟨fun _ => clean_pure, fun hmax => clean_ite.2 ⟨fun _ => clean_pure, fun _ =>
    clean_ite.2 ⟨fun _ => clean_pure, fun _ => ?_⟩⟩⟩
  cases read ((sb.firstDataBlock + 1).setWidth 64 * (blockSize / 512).setWidth 64)
      ((numGroups * GROUP_DESC_SIZE + 511) / 512) with
  | none => exact clean_pure
  | some bgdt =>
    have htable := table_ok (BitVec.not_lt.1 hmax)
    exact clean_bind.2 ⟨clean_emit.2 htable, fun _ _ => clean_ite.2 ⟨fun _ => clean_pure, fun _ => clean_pure⟩⟩

section Disk

variable (hbuf : read 2 2 = some buf) (hmagic : (Ext2Superblock.read buf).magic = EXT2_MAGIC)

include hbuf hmagic

/-- mount's own operations -/
theorem mountT_clean : Clean Event.Ok (mountT read room) ↔
    (Ext2Superblock.read buf).logBlockSize.toNat < 32 ∧ (Ext2Superblock.read buf).blocksPerGroup ≠ 0 := by
  unfold mountT
  simp only [hbuf, hmagic, ne_eq, not_true_eq_false, if_false]
  rw [clean_bind, clean_shl]
  refine and_congr_right fun _ => ?_
  simp only [shl_val, Option.some.injEq, forall_eq']
  rw [clean_bind, clean_div]
  exact ⟨fun h => h.1, fun h => ⟨h, fun _ _ => loadTableT_clean⟩⟩

/-- the volume that mount makes, when it makes one -/
theorem mountT_val (hgroups : (Ext2Superblock.read buf).blocksPerGroup ≠ 0) : (mountT read room).val = some (.ok st) ↔
    (Ext2Superblock.read buf).numGroups ≤ MAX_GROUPS ∧ room .state = true ∧ room .bgdt = true ∧
      room .superBlock = true ∧ ∃ bgdt, read (Ext2Superblock.read buf).bgdtLba
        (Ext2Superblock.read buf).bgdtSectors = some bgdt ∧ (Ext2Superblock.read buf).mounted read room bgdt = st := by
  rw [← loadTableT_val]
  unfold mountT
  simp only [hbuf, hmagic, ne_eq, not_true_eq_false, if_false, val_bind, shl_val, Option.bind_some, div_val hgroups]
  rfl

end Disk

/-! ## Inodes -/

/-- an inode whose number is not 0 -/
theorem fetchInodeT_clean (hino : ino ≠ 0) : Clean Event.Ok (fetchInodeT st ino) ↔
    st.inodesPerGroup ≠ 0 ∧ ((ino - 1) / st.inodesPerGroup < st.numGroups → st.blockSize ≠ 0 ∧
      (st.room .block = true → (readBlock st.toExt2State (st.slotBlock ino)).isSome →
        (st.byteOff ino % st.blockSize).toNat + INODE_SIZE ≤ st.blockSize.toNat)) := by
  unfold fetchInodeT
  rw [if_neg hino, clean_bind, clean_div]
  refine and_congr_right fun hipg => ?_
  simp only [div_val hipg, Option.some.injEq, forall_eq']
  rw [clean_bind, clean_rem]
  simp only [rem_val hipg, Option.some.injEq, forall_eq', hipg, ne_eq, not_false_eq_true, true_and]
  rw [clean_ite, ge_iff_le, BitVec.not_le]
  refine (and_iff_right fun _ => clean_pure).trans (imp_congr_right fun _ => ?_)
  rw [clean_bind, clean_div]
  refine and_congr_right fun hbs => ?_
  simp only [div_val hbs, Option.some.injEq, forall_eq']
  rw [clean_bind, clean_rem]
  refine (and_iff_right hbs).trans ?_
  simp only [rem_val hbs, Option.some.injEq, forall_eq']
  rw [clean_ite]
  refine (and_iff_right fun _ => clean_pure).trans ?_
  rw [Bool.not_eq_false]
  refine imp_congr_right fun _ => ?_
  have hblock : readBlock st.toExt2State (st.slotBlock ino) = readBlock st.toExt2State
      (u32 st.bgdt (GROUP_DESC_SIZE.toNat * ((ino - 1) / st.inodesPerGroup).toNat + 8) +
        (ino - 1) % st.inodesPerGroup * st.inodeSize / st.blockSize) := rfl
  rw [hblock]
  cases readBlock st.toExt2State (u32 st.bgdt (GROUP_DESC_SIZE.toNat * ((ino - 1) / st.inodesPerGroup).toNat + 8) +
      (ino - 1) % st.inodesPerGroup * st.inodeSize / st.blockSize) with
  | none => simp
  | some blk =>
    rw [clean_bind, clean_emit]
    exact ⟨fun h _ => h.1, fun h => ⟨h rfl, fun _ _ => clean_pure⟩⟩

/-- an inode for the file system -/
theorem makeVfsInodeT_clean : Clean Event.Ok (makeVfsInodeT st ino) ↔
    (st.room .ref = true → Clean Event.Ok (fetchInodeT st ino)) := by
  unfold makeVfsInodeT
  rw [clean_ite, Bool.not_eq_false]
  refine (and_iff_right fun _ => clean_pure).trans (imp_congr_right fun _ => ?_)
  rw [clean_bind]
  refine and_iff_left fun disk _ => ?_
  cases disk with
  | none => exact clean_pure
  | some disk => exact clean_ite.2 ⟨fun _ => clean_pure, fun _ => clean_pure⟩

/-- mount succeeds with blocks of 1024 bytes or more, or gives nullptr, and so do the inodes after it; nothing goes
wrong on the way -/
def MountSafe (read : U64 → U32 → Option (ℕ → U8)) : Prop :=
  ∀ room, Clean Event.Ok (mountT read room) ∧ ∀ st, (mountT read room).val = some (.ok st) →
    1024 ≤ st.blockSize.toNat ∧ Clean Event.Ok (rootInodeT st) ∧ ∀ ino, Clean Event.Ok (getInodeT st ino)

theorem clean_inodes (hbs : st.blockSize ≠ 0) (hipg : st.inodesPerGroup ≠ 0) (hslots : st.Slots) :
    Clean Event.Ok (makeVfsInodeT st ino) := by
  refine makeVfsInodeT_clean.2 fun _ => ?_
  by_cases hino : ino = 0
  · unfold fetchInodeT
    rw [if_pos hino]
    exact clean_pure
  · exact (fetchInodeT_clean hino).2 ⟨hipg, fun hg => ⟨hbs, fun _ hread => hslots ino hino hg hread⟩⟩

/-- **A safe mount, exactly when.** On any disk with the magic: mount, and every inode after it, stays clear of bad
shifts, divisions by zero and bytes outside its buffers, whatever memory there is, if and only if the superblock and the
inode tables are sound. -/
theorem mount_safe_iff (hbuf : read 2 2 = some buf) (hmagic : (Ext2Superblock.read buf).magic = EXT2_MAGIC) :
    MountSafe read ↔ Sound read (Ext2Superblock.read buf) := by
  constructor
  · intro h
    obtain ⟨hclean, hvol⟩ := h fun _ => true
    obtain ⟨hshift, hgroups⟩ := (mountT_clean hbuf hmagic).1 hclean
    refine ⟨hshift, hgroups, fun bgdt hmax hread => ?_⟩
    obtain ⟨hge, -, hinodes⟩ :=
      hvol _ ((mountT_val hbuf hmagic hgroups).2 ⟨hmax, rfl, rfl, rfl, bgdt, hread, rfl⟩)
    have hfetch : ∀ ino : U32, ino ≠ 0 → _ := fun ino hino => (fetchInodeT_clean hino).1
      (makeVfsInodeT_clean.1 (by
        have hget := hinodes (ino.setWidth 64)
        rwa [getInodeT, BitVec.setWidth_setWidth_of_le _ (by decide), BitVec.setWidth_eq] at hget) rfl)
    exact ⟨(blockSize_ge hshift).1 hge, (hfetch 1 (by decide)).1,
      fun ino hino hg hblk => ((hfetch ino hino).2 hg).2 rfl hblk⟩
  · rintro ⟨hshift, hgroups, hvol⟩ room
    refine ⟨(mountT_clean hbuf hmagic).2 ⟨hshift, hgroups⟩, fun st hst => ?_⟩
    obtain ⟨hmax, -, -, -, bgdt, hread, rfl⟩ := (mountT_val hbuf hmagic hgroups).1 hst
    obtain ⟨hlog, hipg, hslots⟩ := hvol bgdt hmax hread
    have hge := (blockSize_ge hshift).2 hlog
    have hbs : ((Ext2Superblock.read buf).mounted read room bgdt).blockSize ≠ 0 := fun h0 => by
      have hzero : (Ext2Superblock.read buf).blockSize.toNat = 0 := congrArg BitVec.toNat h0
      omega
    exact ⟨hge, clean_inodes hbs hipg hslots, fun ino => clean_inodes hbs hipg hslots⟩

/-- a sound volume as one is usually made: inodes of 2^j bytes, of at most a block -/
theorem sound_of_power {j : ℕ} (hlog : sb.logBlockSize.toNat ≤ 21) (hgroups : sb.blocksPerGroup ≠ 0)
    (hipg : sb.inodesPerGroup ≠ 0) (hsize : sb.slotSize.toNat = 2 ^ j) (hge : INODE_SIZE ≤ 2 ^ j)
    (hle : 2 ^ j ≤ sb.blockSize.toNat) : Sound read sb := by
  refine ⟨by omega, hgroups, fun bgdt _ _ => ⟨hlog, hipg, fun ino _ _ _ => ?_⟩⟩
  have hbs : sb.blockSize.toNat = 2 ^ (10 + sb.logBlockSize.toNat) := by
    have hall : ∀ l : Fin 22, (1024#32 <<< (l.val % 32)).toNat = 2 ^ (10 + l.val) := by decide
    exact hall ⟨_, Nat.lt_succ_of_le hlog⟩
  have hj : j ≤ 10 + sb.logBlockSize.toNat := (Nat.pow_le_pow_iff_right (by decide)).1 (hbs ▸ hle)
  have hdvd : 2 ^ j ∣ sb.blockSize.toNat := hbs ▸ pow_dvd_pow 2 hj
  have hbyte : 2 ^ j ∣ (((sb.mounted read (fun _ => true) bgdt).byteOff ino)).toNat := by
    have hmul : ((sb.mounted read (fun _ => true) bgdt).byteOff ino).toNat =
        ((ino - 1) % sb.inodesPerGroup).toNat * 2 ^ j % 2 ^ 32 := by
      rw [← hsize]
      exact BitVec.toNat_mul _ _
    rw [hmul]
    exact (Nat.dvd_mod_iff (pow_dvd_pow 2 (by omega))).2 (dvd_mul_left _ _)
  have hoff : 2 ^ j ∣ ((sb.mounted read (fun _ => true) bgdt).byteOff ino % sb.blockSize).toNat := by
    rw [BitVec.toNat_umod]
    exact (Nat.dvd_mod_iff hdvd).2 hbyte
  have hlt : ((sb.mounted read (fun _ => true) bgdt).byteOff ino % sb.blockSize).toNat < sb.blockSize.toNat := by
    rw [BitVec.toNat_umod]
    exact Nat.mod_lt _ (lt_of_lt_of_le (Nat.two_pow_pos j) hle)
  have hgap := Nat.le_of_dvd (Nat.sub_pos_of_lt hlt) (Nat.dvd_sub hdvd hoff)
  have hend : ((sb.mounted read (fun _ => true) bgdt).byteOff ino % sb.blockSize).toNat + INODE_SIZE ≤
      sb.blockSize.toNat := by omega
  exact hend

end Mount

/-- a disk with one group of 64 blocks, blocks of 1024 << log bytes, bpg blocks and ipg inodes to a group -/
def sampleDisk (log bpg ipg : U8) (lba : U64) (_ : U32) : Option (ℕ → U8) := some fun i =>
  let i := 512 * lba.toNat + i
  if i = 1028 then 64
  else if i = 1044 then 1
  else if i = 1048 then log
  else if i = 1056 then bpg
  else if i = 1064 then ipg
  else if i = 1080 then 0x53
  else if i = 1081 then 0xEF
  else 0

theorem mount_safe_sample : MountSafe (sampleDisk 0 64 16) :=
  (mount_safe_iff rfl rfl).2 (sound_of_power (j := 7) (by decide) (by decide) (by decide) (by decide) (by decide)
    (by decide))

/-- no blocks to a group, no inodes to a group, and blocks of 1024 << 22 bytes -/
theorem superblock_unchecked : ¬ MountSafe (sampleDisk 0 0 16) ∧ ¬ MountSafe (sampleDisk 0 64 0) ∧
    ¬ MountSafe (sampleDisk 22 64 16) := by
  refine ⟨fun h => ?_, fun h => ?_, fun h => ?_⟩
  · exact ((mountT_clean rfl rfl).1 (h fun _ => true).1).2 rfl
  · obtain ⟨-, -, hinodes⟩ := (h fun _ => true).2 _
      ((mountT_val rfl rfl (by decide)).2 ⟨by decide, rfl, rfl, rfl, _, rfl, rfl⟩)
    exact ((fetchInodeT_clean (by decide)).1 (makeVfsInodeT_clean.1 (hinodes 2) rfl)).1 rfl
  · obtain ⟨hge, -⟩ := (h fun _ => true).2 _
      ((mountT_val rfl rfl (by decide)).2 ⟨by decide, rfl, rfl, rfl, _, rfl, rfl⟩)
    exact absurd hge (by decide)

end Retux.Ext2
