/-
The block map of an ext2 file (`resolve_block` in `fs/ext2.cpp`).

By the format an inode has fifteen entries. The first twelve are blocks of the file, and each of the others is a tree of
pointer blocks, one, two and three levels deep. `blockOf` says so over the naturals. The code peels the four ranges off
by 32-bit subtractions, against 32-bit powers of the number of pointers in a block. From 8 KiB blocks on the third power
overflows, and from 256 KiB blocks on the second one; a file of less than 4 GiB then ends before that range begins.

- `toNat_square`, `toNat_cube`: the powers are right wherever the code compares with them;
- `resolveBlockT_val`: forgetting the accesses gives the code;
- `resolveBlock_spec`, `resolve_block_eq`: the code's block is the format's, out of the right entry, and every index is inside its block.
-/
import Mathlib.Tactic
import Retux.Fs.Ext2
import Retux.Lib.Trace

namespace Retux.Ext2

open Retux.Word Retux.Bytes Retux.Trace Retux.Trace.Traced

/-! ## The format -/

/-- a volume with blocks of 1024 << k bytes -/
structure Sized (st : Ext2State) (k : ℕ) : Prop where
  le : k ≤ 21
  blockSize : st.blockSize = 1024#32 <<< k
  sectors : st.sectorsPerBlock = st.blockSize / 512

/-- pointers in a block -/
def perBlock (st : Ext2State) : ℕ := st.blockSize.toNat / 4

/-- the bytes of a block, if they can be read; a read needs a buffer -/
def blockBytes (st : Ext2State) (no : U32) : Option (ℕ → U8) :=
  let sectors := st.blockSize.toNat / 512
  if st.heap then st.read (BitVec.ofNat 64 (no.toNat * sectors)) (BitVec.ofNat 32 sectors) else none

/-- pointer i of a block of pointers: 0 for the zero pointer, and where the block cannot be read -/
def pointer (st : Ext2State) (no : U32) (i : ℕ) : U32 :=
  if no = 0 then 0
  else match blockBytes st no with
    | none => 0
    | some buf => BitVec.ofNat 32 (field buf (4 * i) 4)

/-- leaf n of a tree of pointer blocks -/
def leaf (st : Ext2State) : ℕ → U32 → ℕ → U32
  | 0, no, _ => no
  | level + 1, no, n => leaf st level (pointer st no (n / perBlock st ^ level)) (n % perBlock st ^ level)

/-- the entry of the inode, the levels below it, and the number of the leaf there -/
def route (st : Ext2State) (n : ℕ) : Option (ℕ × ℕ × ℕ) :=
  let ptrs := perBlock st
  if n < 12 then some (n, 0, 0)
  else if n < 12 + ptrs then some (12, 1, n - 12)
  else if n < 12 + ptrs + ptrs ^ 2 then some (13, 2, n - (12 + ptrs))
  else if n < 12 + ptrs + ptrs ^ 2 + ptrs ^ 3 then some (14, 3, n - (12 + ptrs + ptrs ^ 2))
  else none

/-- block n of a file -/
def blockOf (st : Ext2State) (di : Ext2Inode) (n : ℕ) : U32 :=
  match route st n with
  | none => 0
  | some (entry, level, i) => leaf st level (di.block entry) i

/-! ## The code, with its accesses -/

inductive Access
  /-- an entry of i_block -/
  | entry (i : ℕ)
  /-- a pointer of the block in the buffer -/
  | pointer (i : ℕ)
deriving DecidableEq

def Access.Inside (st : Ext2State) : Access → Prop
  | entry i => i < 15
  | pointer i => 4 * i + 4 ≤ st.blockSize.toNat

def entryT (di : Ext2Inode) (i : ℕ) : Traced Access U32 := do
  emit (.entry i)
  return di.block i

def indirectT (st : Ext2State) (ind i : U32) : Traced Access U32 :=
  if ind = 0 then pure 0
  else if st.heap = false then pure 0
  else match readBlock st ind with
    | none => pure 0
    | some buf => do
      emit (.pointer i.toNat)
      return BitVec.ofNat 32 (field buf (4 * i.toNat) 4)

def resolveBlockT (st : Ext2State) (di : Ext2Inode) (logical : U32) : Traced Access U32 :=
  let ptrs := st.blockSize / 4
  if logical < 12 then entryT di logical.toNat else
  let logical := logical - 12
  if logical < ptrs then do
    let ind ← entryT di 12
    indirectT st ind logical
  else
  let logical := logical - ptrs
  if logical < ptrs * ptrs then do
    let dind ← entryT di 13
    let ind ← indirectT st dind (logical / ptrs)
    indirectT st ind (logical % ptrs)
  else
  let logical := logical - ptrs * ptrs
  if logical < ptrs * ptrs * ptrs then do
    let tind ← entryT di 14
    let dind ← indirectT st tind (logical / (ptrs * ptrs))
    let logical := logical % (ptrs * ptrs)
    let ind ← indirectT st dind (logical / ptrs)
    indirectT st ind (logical % ptrs)
  else pure 0

section BlockMap

variable {st : Ext2State} {di : Ext2Inode} {k level n : ℕ} {logical no i : U32}

@[simp] theorem entryT_val {j : ℕ} : (entryT di j).val = some (di.block j) := rfl

@[simp] theorem indirectT_val : (indirectT st no i).val = some (indirect st no i) := by
  unfold indirectT indirect
  split_ifs
  · rfl
  · rfl
  · cases readBlock st no <;> rfl

theorem resolveBlockT_val : (resolveBlockT st di logical).val = some (resolveBlock st di logical) := by
  unfold resolveBlockT resolveBlock
  dsimp only
  split_ifs <;> simp

/-! ## Numbers -/

theorem toNat_ptrs : (st.blockSize / 4).toNat = perBlock st := BitVec.toNat_udiv

theorem perBlock_mul_le : 4 * perBlock st ≤ st.blockSize.toNat := Nat.mul_div_le _ 4

theorem Sized.ge (h : Sized st k) : 1024 ≤ st.blockSize.toNat := by
  have hk : 2 ^ k ≤ 2 ^ 21 := Nat.pow_le_pow_right (by decide) h.le
  have hpos : 1 ≤ 2 ^ k := Nat.one_le_two_pow
  rw [h.blockSize, BitVec.toNat_shiftLeft, Nat.shiftLeft_eq, BitVec.toNat_ofNat, Nat.mod_eq_of_lt (by omega)]
  omega

theorem Sized.perBlock_ge (h : Sized st k) : 256 ≤ perBlock st := by
  have := h.ge
  unfold perBlock
  omega

/-- where the second power is compared with, it has not overflowed -/
theorem toNat_square (hn : n * st.blockSize.toNat < 2 ^ 32) (hle : perBlock st ≤ n) :
    (st.blockSize / 4 * (st.blockSize / 4)).toNat = perBlock st ^ 2 := by
  have hsq : perBlock st * (4 * perBlock st) ≤ n * st.blockSize.toNat := Nat.mul_le_mul hle perBlock_mul_le
  rw [BitVec.toNat_mul, toNat_ptrs, sq]
  exact Nat.mod_eq_of_lt (by nlinarith)

/-- nor has the third -/
theorem toNat_cube (hn : n * st.blockSize.toNat < 2 ^ 32) (hle : perBlock st ≤ n) (hle2 : perBlock st ^ 2 ≤ n) :
    (st.blockSize / 4 * (st.blockSize / 4) * (st.blockSize / 4)).toNat = perBlock st ^ 3 := by
  have hcu : perBlock st ^ 2 * (4 * perBlock st) ≤ n * st.blockSize.toNat := Nat.mul_le_mul hle2 perBlock_mul_le
  have hpow : perBlock st ^ 3 = perBlock st ^ 2 * perBlock st := pow_succ _ 2
  rw [BitVec.toNat_mul, toNat_square hn hle, toNat_ptrs, ← hpow]
  exact Nat.mod_eq_of_lt (by nlinarith)

/-- a file of less than 4 GiB ends in the third tree, at the latest -/
theorem Sized.in_range (h : Sized st k) (hn : n * st.blockSize.toNat < 2 ^ 32) : n < perBlock st ^ 3 := by
  by_contra hge
  have hpow : 256 ^ 3 ≤ perBlock st ^ 3 := Nat.pow_le_pow_left h.perBlock_ge 3
  have hmul : 256 ^ 3 * 1024 ≤ n * st.blockSize.toNat := Nat.mul_le_mul (by omega) h.ge
  exact absurd (lt_of_le_of_lt hmul hn) (by decide)

/-! ## Blocks of pointers -/

theorem readBlock_eq (h : Sized st k) (hheap : st.heap = true) : readBlock st no = blockBytes st no := by
  have hsec : st.sectorsPerBlock.toNat = st.blockSize.toNat / 512 := by
    rw [h.sectors]
    exact BitVec.toNat_udiv
  have hwide {x : U32} : (x.setWidth 64).toNat = x.toNat := by
    rw [BitVec.toNat_setWidth]
    exact Nat.mod_eq_of_lt (lt_trans x.isLt (by decide))
  have hlba : no.setWidth 64 * st.sectorsPerBlock.setWidth 64 =
      BitVec.ofNat 64 (no.toNat * (st.blockSize.toNat / 512)) := by
    apply BitVec.eq_of_toNat_eq
    rw [BitVec.toNat_mul, hwide, hwide, BitVec.toNat_ofNat, hsec]
  have hcount : st.sectorsPerBlock = BitVec.ofNat 32 (st.blockSize.toNat / 512) := by
    rw [← hsec, BitVec.ofNat_toNat, BitVec.setWidth_eq]
  rw [readBlock, blockBytes, hlba, hcount]
  exact (if_pos hheap).symm

theorem indirect_eq (h : Sized st k) : indirect st no i = pointer st no i.toNat := by
  unfold indirect pointer
  by_cases hno : no = 0
  · rw [if_pos hno, if_pos hno]
  · rw [if_neg hno, if_neg hno]
    cases hheap : st.heap with
    | false => simp [blockBytes, hheap]
    | true =>
      have hread : readBlock st no = blockBytes st no := readBlock_eq h hheap
      cases hb : blockBytes st no with
      | none => simp [hread, hb]
      | some buf => simp [hread, hb]

theorem indirectT_safe (hi : i.toNat < perBlock st) : Safe (Access.Inside st) (indirectT st no i) := by
  have hle : 4 * perBlock st ≤ st.blockSize.toNat := perBlock_mul_le
  unfold indirectT
  refine Safe.ite (fun _ => safe_pure) fun _ => Safe.ite (fun _ => safe_pure) fun _ => ?_
  cases readBlock st no with
  | none => exact safe_pure
  | some buf =>
    have hin : (Access.pointer i.toNat).Inside st := by
      unfold Access.Inside
      omega
    exact Safe.bind (safe_emit.2 hin) fun _ _ => safe_pure

theorem entryT_safe {j : ℕ} (hj : j < 15) : Safe (Access.Inside st) (entryT di j) :=
  Safe.bind (safe_emit.2 hj) fun _ _ => safe_pure

theorem head_entryT {j : ℕ} {f : U32 → Traced Access U32} : (entryT di j >>= f).log.head? = some (.entry j) := rfl

/-! ## Trees -/

theorem leaf_one (h : Sized st k) : indirect st no i = leaf st 1 no i.toNat := by
  rw [indirect_eq h, leaf, leaf, pow_zero, Nat.div_one]

theorem leaf_two (h : Sized st k) :
    indirect st (indirect st no (i / (st.blockSize / 4))) (i % (st.blockSize / 4)) = leaf st 2 no i.toNat := by
  rw [leaf_one h, indirect_eq h, BitVec.toNat_udiv, BitVec.toNat_umod, toNat_ptrs, leaf.eq_def st 2]
  simp only [pow_one]

theorem leaf_three (h : Sized st k) {sq : U32} (hsq : sq.toNat = perBlock st ^ 2) :
    indirect st (indirect st (indirect st no (i / sq)) (i % sq / (st.blockSize / 4))) (i % sq % (st.blockSize / 4)) =
      leaf st 3 no i.toNat := by
  rw [leaf_two h, indirect_eq h, BitVec.toNat_udiv, BitVec.toNat_umod, hsq]
  rfl

theorem two_safe (h : Sized st k) (hi : i.toNat < perBlock st ^ 2) : Safe (Access.Inside st)
    (indirectT st no (i / (st.blockSize / 4)) >>= fun ind => indirectT st ind (i % (st.blockSize / 4))) := by
  have hP := h.perBlock_ge
  refine Safe.bind (indirectT_safe ?_) fun ind _ => indirectT_safe ?_
  · rw [BitVec.toNat_udiv, toNat_ptrs]
    apply Nat.div_lt_of_lt_mul
    rwa [← pow_two]
  · rw [BitVec.toNat_umod, toNat_ptrs]
    exact Nat.mod_lt _ (by omega)

theorem three_safe (h : Sized st k) {sq : U32} (hsq : sq.toNat = perBlock st ^ 2) (hi : i.toNat < perBlock st ^ 3) :
    Safe (Access.Inside st) (indirectT st no (i / sq) >>= fun dind =>
      indirectT st dind (i % sq / (st.blockSize / 4)) >>= fun ind =>
        indirectT st ind (i % sq % (st.blockSize / 4))) := by
  have hpos : 0 < perBlock st := lt_of_lt_of_le (by decide) h.perBlock_ge
  refine Safe.bind (indirectT_safe ?_) fun dind _ => two_safe h ?_
  · rw [BitVec.toNat_udiv, hsq]
    apply Nat.div_lt_of_lt_mul
    rwa [← pow_succ]
  · rw [BitVec.toNat_umod, hsq]
    exact Nat.mod_lt _ (pow_pos hpos 2)

/-! ## The map -/

/-- the code's remainder, past ranges that end at a -/
theorem toNat_peel {a : U32} (hle : a.toNat ≤ logical.toNat) : (logical - a).toNat = logical.toNat - a.toNat :=
  BitVec.toNat_sub_of_le (BitVec.le_def.2 hle)

/-- an index below 4 GiB -/
theorem resolveBlock_spec (h : Sized st k) (hn : logical.toNat * st.blockSize.toNat < 2 ^ 32) :
    resolveBlock st di logical = blockOf st di logical.toNat ∧
    (∃ entry level i, route st logical.toNat = some (entry, level, i) ∧
      (resolveBlockT st di logical).log.head? = some (.entry entry)) ∧
    Safe (Access.Inside st) (resolveBlockT st di logical) := by
  have hP := h.perBlock_ge
  have hrange := h.in_range hn
  have hptrs : (st.blockSize / 4).toNat = perBlock st := toNat_ptrs
  have h12 : (12 : U32).toNat = 12 := rfl
  unfold resolveBlock resolveBlockT blockOf route
  dsimp only
  -- direct
  by_cases h1 : logical.toNat < 12
  · have hlt : logical < 12 := BitVec.lt_def.2 h1
    simp only [if_pos h1, if_pos hlt]
    exact ⟨rfl, ⟨_, _, _, rfl, rfl⟩, entryT_safe (by omega)⟩
  have hlt1 : ¬ logical < 12 := fun hlt => h1 (BitVec.lt_def.1 hlt)
  have hsub1 : (logical - 12).toNat = logical.toNat - 12 := toNat_peel (by omega)
  simp only [if_neg h1, if_neg hlt1]
  -- one level
  by_cases h2 : logical.toNat < 12 + perBlock st
  · have hlt : logical - 12 < st.blockSize / 4 := by
      rw [BitVec.lt_def, hsub1, hptrs]
      omega
    simp only [if_pos h2, if_pos hlt]
    refine ⟨?_, ⟨_, _, _, rfl, head_entryT⟩, Safe.bind (entryT_safe (by omega)) fun ind _ => indirectT_safe ?_⟩
    · rw [leaf_one h, hsub1]
    · rw [hsub1]
      omega
  have hlt2 : ¬ logical - 12 < st.blockSize / 4 := by
    rw [BitVec.lt_def, hsub1, hptrs]
    omega
  have hsub2 : (logical - 12 - st.blockSize / 4).toNat = logical.toNat - (12 + perBlock st) := by
    rw [toNat_peel (by omega), hsub1, hptrs]
    omega
  have hsq := toNat_square hn (by omega)
  simp only [if_neg h2, if_neg hlt2]
  -- two
  by_cases h3 : logical.toNat < 12 + perBlock st + perBlock st ^ 2
  · have hlt : logical - 12 - st.blockSize / 4 < st.blockSize / 4 * (st.blockSize / 4) := by
      rw [BitVec.lt_def, hsub2, hsq]
      omega
    simp only [if_pos h3, if_pos hlt]
    refine ⟨?_, ⟨_, _, _, rfl, head_entryT⟩, Safe.bind (entryT_safe (by omega)) fun dind _ => two_safe h ?_⟩
    · rw [leaf_two h, hsub2]
    · rw [hsub2]
      omega
  have hlt3 : ¬ logical - 12 - st.blockSize / 4 < st.blockSize / 4 * (st.blockSize / 4) := by
    rw [BitVec.lt_def, hsub2, hsq]
    omega
  have hsub3 : (logical - 12 - st.blockSize / 4 - st.blockSize / 4 * (st.blockSize / 4)).toNat =
      logical.toNat - (12 + perBlock st + perBlock st ^ 2) := by
    rw [toNat_peel (by omega), hsub2, hsq]
    omega
  have hcu := toNat_cube hn (by omega) (by omega)
  -- three
  have h4 : logical.toNat < 12 + perBlock st + perBlock st ^ 2 + perBlock st ^ 3 := by omega
  have hlt : logical - 12 - st.blockSize / 4 - st.blockSize / 4 * (st.blockSize / 4) <
      st.blockSize / 4 * (st.blockSize / 4) * (st.blockSize / 4) := by
    rw [BitVec.lt_def, hsub3, hcu]
    omega
  simp only [if_neg h3, if_neg hlt3, if_pos h4, if_pos hlt]
  refine ⟨?_, ⟨_, _, _, rfl, head_entryT⟩, Safe.bind (entryT_safe (by omega)) fun tind _ => three_safe h hsq ?_⟩
  · rw [leaf_three h hsq, hsub3]
  · rw [hsub3]
    omega

/-- **The block map.** For every index in a file of less than 4 GiB the code goes into the entry that the format names,
its result is the format's, and it stays inside each block it reads. -/
theorem resolve_block_eq (h : Sized st k) (size : U32) (hn : logical.toNat * st.blockSize.toNat < size.toNat) :
    resolveBlock st di logical = blockOf st di logical.toNat ∧
    (∃ entry level i, route st logical.toNat = some (entry, level, i) ∧
      (resolveBlockT st di logical).log.head? = some (.entry entry)) ∧
    Safe (Access.Inside st) (resolveBlockT st di logical) :=
  resolveBlock_spec h (lt_trans hn size.isLt)

end BlockMap

/-- a volume of these bytes -/
def volume (byte : ℕ → U8) (k : ℕ) : Ext2State where
  read lba _ := some fun i => byte (512 * lba.toNat + i)
  blockSize := 1024#32 <<< k
  sectorsPerBlock := 1024#32 <<< k / 512
  heap := true

theorem volume_sized {byte : ℕ → U8} {k : ℕ} (hk : k ≤ 21) : Sized (volume byte k) k := ⟨hk, rfl, rfl⟩

/-- a block two levels down, where every pointer is the same -/
theorem resolve_block_sample :
    resolveBlock (volume (fun _ => 1) 0) ⟨0xFFFFFFFF, fun _ => 5⟩ 1000 =
      blockOf (volume (fun _ => 1) 0) ⟨0xFFFFFFFF, fun _ => 5⟩ 1000 ∧
    (∃ entry level i, route (volume (fun _ => 1) 0) 1000 = some (entry, level, i) ∧
      (resolveBlockT (volume (fun _ => 1) 0) ⟨0xFFFFFFFF, fun _ => 5⟩ 1000).log.head? = some (.entry entry)) ∧
    Safe (Access.Inside (volume (fun _ => 1) 0))
      (resolveBlockT (volume (fun _ => 1) 0) ⟨0xFFFFFFFF, fun _ => 5⟩ 1000) :=
  resolve_block_eq (volume_sized (by decide)) 0xFFFFFFFF (by decide)

end Retux.Ext2
