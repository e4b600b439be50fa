/-
Directories of an ext2 volume (`fs/ext2.cpp`).

A directory is a file of blocks, and each block a chain of entries, some of them deleted. The disk is a parameter: a
read gives the sectors or fails. `heap` says whether `kmalloc` has room for one block.

`WellFormed` is a directory in which every block is there and is filled by its chain. In it the two nested loops of
`ext2_readdir` walk the live entries as one list: `blockLoop_fill`, `dirLoop_eq`, `ext2Readdir_fill`.
-/
import Mathlib.Tactic
import Retux.Fs.Vfs

namespace Retux.Ext2

open Retux.Word Retux.Bytes Retux.Str Retux.Paging Retux.Vfs

/-! ## Model -/

structure Ext2State where
  read : U64 → U32 → Option (ℕ → U8)
  blockSize : U32
  sectorsPerBlock : U32
  heap : Bool

structure Ext2Inode where
  size : U32
  block : ℕ → U32

def readBlock (st : Ext2State) (blockNo : U32) : Option (ℕ → U8) :=
  st.read (blockNo.setWidth 64 * st.sectorsPerBlock.setWidth 64) st.sectorsPerBlock

/-- pointer i of the pointer block `ind`, 0 where there is none -/
def indirect (st : Ext2State) (ind i : U32) : U32 :=
  if ind = 0 then 0
  else if st.heap = false then 0
  else match readBlock st ind with
    | none => 0
    | some buf => BitVec.ofNat 32 (field buf (4 * i.toNat) 4)

def resolveBlock (st : Ext2State) (di : Ext2Inode) (logical : U32) : U32 :=
  let ptrs := st.blockSize / 4
  if logical < 12 then di.block logical.toNat else
  let logical := logical - 12
  if logical < ptrs then indirect st (di.block 12) logical else
  let logical := logical - ptrs
  if logical < ptrs * ptrs then indirect st (indirect st (di.block 13) (logical / ptrs)) (logical % ptrs) else
  let logical := logical - ptrs * ptrs
  if logical < ptrs * ptrs * ptrs then
    let dind := indirect st (di.block 14) (logical / (ptrs * ptrs))
    let logical := logical % (ptrs * ptrs)
    indirect st (indirect st dind (logical / ptrs)) (logical % ptrs)
  else 0

/-- the inner loop, over the first len bytes of a block: what was written, the stream position, and `full` -/
def blockLoop (blk : ℕ → U8) (len offset count : ℕ) : ℕ → ℕ → List U8 → ℕ → List U8 × ℕ × Bool
  | 0, _, out, streamPos => (out, streamPos, false)
  | fuel + 1, pos, out, streamPos =>
    if pos < len then
      let inode := field blk pos 4
      let recLen := field blk (pos + 4) 2
      let nameLen := field blk (pos + 6) 1
      if recLen = 0 then (out, streamPos, false)
      else if inode ≠ 0 ∧ nameLen > 0 then
        let needed := 8 + nameLen + 1
        if streamPos ≥ offset then
          if out.length + needed > count then (out, streamPos, true)
          else
            let name := (List.range nameLen).map fun k => blk (pos + 8 + k)
            blockLoop blk len offset count fuel (pos + recLen) (out ++ (le 8 (BitVec.ofNat 64 inode) ++ name ++ [0]))
              (streamPos + needed)
        else blockLoop blk len offset count fuel (pos + recLen) out (streamPos + needed)
      else blockLoop blk len offset count fuel (pos + recLen) out streamPos
    else (out, streamPos, false)

/-- the outer loop -/
def dirLoop (st : Ext2State) (di : Ext2Inode) (offset count : ℕ) : ℕ → U32 → List U8 → ℕ → List U8
  | 0, _, out, _ => out
  | fuel + 1, blkStart, out, streamPos =>
    if blkStart < di.size then
      let physBlk := resolveBlock st di (blkStart / st.blockSize)
      if physBlk = 0 then out
      else match readBlock st physBlk with
        | none => out
        | some blk =>
          let blkEnd := blkStart + st.blockSize
          let blkEnd := if blkEnd > di.size then di.size else blkEnd
          let (out, streamPos, full) :=
            blockLoop blk (blkEnd - blkStart).toNat offset count (blkEnd - blkStart).toNat 0 out streamPos
          if full then out else dirLoop st di offset count fuel (blkStart + st.blockSize) out streamPos
    else out

def ext2Readdir (st : Ext2State) (di : Ext2Inode) (offset count : ℕ) : Option (List U8) :=
  if st.heap = false then none else some (dirLoop st di offset count (di.size.toNat + 1) 0 [] 0)

/-! ## Well-formed directories -/

structure DiskEntry where
  inode : ℕ
  recLen : ℕ
  name : List U8

def DiskEntry.live (e : DiskEntry) : Bool := e.inode ≠ 0 ∧ e.name ≠ []

def DiskEntry.dirent (e : DiskEntry) : Dirent := ⟨BitVec.ofNat 64 e.inode, e.name⟩

/-- the live entries, as records -/
def live (es : List DiskEntry) : List Dirent := (es.filter DiskEntry.live).map DiskEntry.dirent

/-- the entry at index pos; its name fits in its record -/
structure DiskEntry.At (e : DiskEntry) (blk : ℕ → U8) (pos : ℕ) : Prop where
  inode : field blk pos 4 = e.inode
  recLen : field blk (pos + 4) 2 = e.recLen
  nameLen : field blk (pos + 6) 1 = e.name.length
  name : (List.range e.name.length).map (fun k => blk (pos + 8 + k)) = e.name
  fits : 8 + e.name.length ≤ e.recLen

/-- entries one after the other, up to the end of the block -/
def Laid (blk : ℕ → U8) (len : ℕ) : ℕ → List DiskEntry → Prop
  | pos, [] => pos = len
  | pos, e :: es => e.At blk pos ∧ Laid blk len (pos + e.recLen) es

/-- block k of the directory is there, and holds these entries -/
def BlockAt (st : Ext2State) (di : Ext2Inode) (k : ℕ) (es : List DiskEntry) : Prop :=
  resolveBlock st di (BitVec.ofNat 32 k) ≠ 0 ∧
    ∃ blk, readBlock st (resolveBlock st di (BitVec.ofNat 32 k)) = some blk ∧ Laid blk st.blockSize.toNat 0 es

structure WellFormed (st : Ext2State) (di : Ext2Inode) (blocks : List (List DiskEntry)) : Prop where
  pos : 0 < st.blockSize.toNat
  size : di.size.toNat = blocks.length * st.blockSize.toNat
  block : ∀ k (hk : k < blocks.length), BlockAt st di k blocks[k]

section Directory

variable {st : Ext2State} {di : Ext2Inode} {blk : ℕ → U8} {len offset count fuel pos streamPos : ℕ} {out : List U8}
  {es : List DiskEntry} {rest : List Dirent} {blocks : List (List DiskEntry)}

theorem Laid.le (h : Laid blk len pos es) : pos + 8 * es.length ≤ len := by
  induction es generalizing pos with
  | nil => exact Nat.le_of_eq h
  | cons e es ih =>
    have hrest := ih h.2
    have hfits := h.1.fits
    rw [List.length_cons]
    omega

/-- the walk behind a block: nothing more once the buffer is full -/
def resume (offset count : ℕ) (rest : List Dirent) (r : List U8 × ℕ × Bool) : List U8 :=
  if r.2.2 then r.1 else fill Dirent.enc offset count r.2.1 r.1 rest

/-- **A block.** -/
theorem blockLoop_fill (h : Laid blk len pos es) (hf : es.length < fuel) :
    fill Dirent.enc offset count streamPos out (live es ++ rest) =
      resume offset count rest (blockLoop blk len offset count fuel pos out streamPos) := by
  induction es generalizing fuel pos out streamPos with
  | nil =>
    obtain ⟨fuel, rfl⟩ := Nat.exists_eq_succ_of_ne_zero (Nat.ne_zero_of_lt hf)
    have hend : ¬ pos < len := Nat.not_lt.2 (Nat.le_of_eq h.symm)
    rw [blockLoop, if_neg hend]
    rfl
  | cons e es ih =>
    obtain ⟨fuel, rfl⟩ := Nat.exists_eq_succ_of_ne_zero (Nat.ne_zero_of_lt hf)
    obtain ⟨hat, hrest⟩ := h
    have hfits := hat.fits
    have hlt : pos < len := by
      have := hrest.le
      omega
    have hrec : e.recLen ≠ 0 := by omega
    have hfuel : es.length < fuel := Nat.lt_of_succ_lt_succ hf
    rw [blockLoop, if_pos hlt]
    simp only [hat.inode, hat.recLen, hat.nameLen, if_neg hrec, hat.name]
    by_cases hlive : e.inode ≠ 0 ∧ e.name.length > 0
    · have hl : e.live = true := by
        have hne : e.name ≠ [] := List.length_pos_iff.1 hlive.2
        simp [DiskEntry.live, hlive.1, hne]
      have hlen : e.dirent.enc.length = 8 + e.name.length + 1 := by
        have hname : e.dirent.name = e.name := rfl
        rw [enc_length, hname]
        omega
      rw [if_pos hlive, live, List.filter_cons_of_pos hl, List.map_cons, List.cons_append, fill, hlen]
      by_cases ho : offset ≤ streamPos
      · by_cases hc : count < out.length + (8 + e.name.length + 1)
        · simp only [ge_iff_le, gt_iff_lt, if_pos ho, if_pos hc]
          rfl
        · simp only [ge_iff_le, gt_iff_lt, if_pos ho, if_neg hc]
          exact ih hrest hfuel
      · simp only [ge_iff_le, if_neg ho]
        exact ih hrest hfuel
    · have hl : ¬ e.live = true := by
        intro hl
        have hh : e.inode ≠ 0 ∧ e.name ≠ [] := by simpa [DiskEntry.live] using hl
        exact hlive ⟨hh.1, List.length_pos_iff.2 hh.2⟩
      rw [if_neg hlive, live, List.filter_cons_of_neg hl]
      exact ih hrest hfuel

theorem live_append (es es' : List DiskEntry) : live (es ++ es') = live es ++ live es' := by
  rw [live, List.filter_append, List.map_append]
  rfl

/-- **The blocks from k on.** -/
theorem dirLoop_eq (h : WellFormed st di blocks) {k : ℕ} {blkStart : U32} (hk : k ≤ blocks.length)
    (hstart : blkStart.toNat = k * st.blockSize.toNat) (hf : blocks.length - k < fuel) :
    dirLoop st di offset count fuel blkStart out streamPos =
      fill Dirent.enc offset count streamPos out (live (blocks.drop k).flatten) := by
  induction fuel generalizing k blkStart out streamPos with
  | zero => exact absurd hf (Nat.not_lt_zero _)
  | succ fuel ih =>
    have hpos := h.pos
    have hsize := di.size.isLt
    have hlt_iff : blkStart < di.size ↔ k * st.blockSize.toNat < blocks.length * st.blockSize.toNat := by
      rw [BitVec.lt_def, hstart, h.size]
    rw [dirLoop]
    rcases Nat.lt_or_eq_of_le hk with hlt | rfl
    · have hnext : (k + 1) * st.blockSize.toNat ≤ blocks.length * st.blockSize.toNat := Nat.mul_le_mul_right _ hlt
      have hsplit : (k + 1) * st.blockSize.toNat = k * st.blockSize.toNat + st.blockSize.toNat := Nat.succ_mul _ _
      have hstep : (blkStart + st.blockSize).toNat = (k + 1) * st.blockSize.toNat := by
        have := h.size
        rw [BitVec.toNat_add, hstart, hsplit]
        exact Nat.mod_eq_of_lt (by omega)
      have hlogical : blkStart / st.blockSize = BitVec.ofNat 32 k := by
        apply BitVec.eq_of_toNat_eq
        rw [BitVec.toNat_udiv, hstart, Nat.mul_div_cancel _ hpos, BitVec.toNat_ofNat]
        refine (Nat.mod_eq_of_lt ?_).symm
        have := h.size
        have : k ≤ k * st.blockSize.toNat := Nat.le_mul_of_pos_right _ hpos
        omega
      have hend : ¬ blkStart + st.blockSize > di.size := by
        rw [gt_iff_lt, BitVec.lt_def, hstep, h.size]
        exact Nat.not_lt.2 hnext
      have hlen : (blkStart + st.blockSize - blkStart).toNat = st.blockSize.toNat := by
        rw [BitVec.add_comm, BitVec.add_sub_cancel]
      obtain ⟨hne, blk, hread, hlaid⟩ := h.block k hlt
      have hdrop : (blocks.drop k).flatten = blocks[k] ++ (blocks.drop (k + 1)).flatten := by
        rw [List.drop_eq_getElem_cons hlt, List.flatten_cons]
      have hfuel : blocks[k].length < st.blockSize.toNat := by
        have := hlaid.le
        omega
      rw [if_pos (hlt_iff.2 (by omega)), hlogical]
      simp only [if_neg hne, hread, if_neg hend, hlen]
      rw [hdrop, live_append, blockLoop_fill hlaid hfuel, resume]
      refine if_congr Iff.rfl rfl ?_
      exact ih hlt hstep (by omega)
    · rw [if_neg fun hlt => Nat.lt_irrefl _ (hlt_iff.1 hlt), List.drop_length]
      rfl

/-- **Paging through an ext2 directory.** -/
theorem ext2Readdir_fill (hheap : st.heap = true) (h : WellFormed st di blocks) :
    ext2Readdir st di offset count = some (fill Dirent.enc offset count 0 [] (live blocks.flatten)) := by
  have hfuel : blocks.length - 0 < di.size.toNat + 1 := by
    have hle : blocks.length ≤ blocks.length * st.blockSize.toNat := Nat.le_mul_of_pos_right _ h.pos
    have := h.size
    omega
  rw [ext2Readdir, hheap, if_neg (by decide), dirLoop_eq h (Nat.zero_le _) (by simp) hfuel, List.drop_zero]

end Directory

end Retux.Ext2
