/-
Reading an ext2 file (`ext2_read` in `fs/ext2.cpp`, `read_whole_file` in `fs/vfs.cpp`).

By the format a zero pointer, at any level, stands for a block of zeros. The code takes it for the end of what can be
read: the loop stops there, the call comes back short, and `read_whole_file` gives up at the next one.

Loops run on fuel, and `none` is a run that has not ended. `content` is the file by the format, and `Reads` says that
the reads on the way to a block succeed.

- `readLoop_step`: one round, from position t on;
- `readLoop_full`, `readLoop_some`: a run with no hole before it, and what any run that ends has copied;
- `read_contents_iff`: the code returns the file's bytes exactly if there is no hole among them.
-/
import Mathlib.Tactic
import Retux.Fs.BlockMap

namespace Retux.Ext2

open Retux.Word Retux.Bytes Retux.Vfs

/-! ## Model -/

section Read

variable (st : Ext2State) (di : Ext2Inode)

/-- the loop, from what has been copied -/
def readLoop (offset count : U64) : ℕ → List U8 → Option (List U8)
  | 0, _ => none
  | fuel + 1, out =>
    let total := BitVec.ofNat 64 out.length
    if total < count then
      let fileOff := offset + total
      let logical := (fileOff / st.blockSize.setWidth 64).setWidth 32
      let offInBlk := (fileOff % st.blockSize.setWidth 64).setWidth 32
      let avail := st.blockSize - offInBlk
      let toCopy := (count - total).setWidth 32
      let toCopy := if toCopy > avail then avail else toCopy
      let physBlk := resolveBlock st di logical
      if physBlk = 0 then some out
      else match readBlock st physBlk with
        | none => some out
        | some blk =>
          readLoop offset count fuel (out ++ (List.range toCopy.toNat).map fun i => blk (offInBlk.toNat + i))
    else some out

/-- the bytes that were copied; the inner none is -1 -/
def ext2Read (fuel : ℕ) (offset count : U64) : Option (Option (List U8)) :=
  let fileSize := di.size.setWidth 64
  if offset ≥ fileSize then some (some [])
  else
    let count := clamp offset count fileSize
    if st.heap = false then some none else (readLoop st di offset count fuel []).map some

end Read

/-- a file, with its inode's size and driver -/
structure File where
  size : U64
  read : U64 → U64 → Option (Option (List U8))
  offset : U64

/-- `default_ops.read` -/
def File.readOp (f : File) (count : U64) : Option (Option (List U8) × File) :=
  (f.read f.offset count).map fun ret => match ret with
    | none => (none, f)
    | some out => (some out, { f with offset := f.offset + BitVec.ofNat 64 out.length })

/-- the loop of `read_whole_file`; the inner none is nullptr -/
def wholeLoop : ℕ → File → List U8 → Option (Option (List U8))
  | 0, _, _ => none
  | fuel + 1, f, buf =>
    let total := BitVec.ofNat 64 buf.length
    if total < f.size then
      match f.readOp (f.size - total) with
      | none => none
      | some (none, _) => some none
      | some (some out, f) => if out = [] then some none else wholeLoop fuel f (buf ++ out)
    else some (some buf)

/-- the buffer and `*out_size`; room says whether kmalloc has size + 1 bytes -/
def readWholeFile (room : Bool) (fuel : ℕ) (f : File) : Option (Option (List U8 × U64)) :=
  if room = false then some none
  else (wholeLoop fuel f []).map fun buf => buf.map fun buf => (buf ++ [0], f.size)

/-- a file that was just opened -/
def opened (st : Ext2State) (di : Ext2Inode) (fuel : ℕ) : File := ⟨di.size.setWidth 64, ext2Read st di fuel, 0⟩

/-! ## The file by the format -/

/-- byte i -/
def content (st : Ext2State) (di : Ext2Inode) (i : ℕ) : U8 :=
  let no := blockOf st di (i / st.blockSize.toNat)
  if no = 0 then 0
  else match blockBytes st no with
    | none => 0
    | some blk => blk (i % st.blockSize.toNat)

/-- n bytes from a on -/
def slice (st : Ext2State) (di : Ext2Inode) (a n : ℕ) : List U8 := (List.range n).map fun i => content st di (a + i)

/-- the reads on the way to leaf n of a tree, and of its block -/
def TreeReads (st : Ext2State) : ℕ → U32 → ℕ → Prop
  | 0, no, _ => no ≠ 0 → (blockBytes st no).isSome
  | level + 1, no, n => no ≠ 0 → (blockBytes st no).isSome ∧
      TreeReads st level (pointer st no (n / perBlock st ^ level)) (n % perBlock st ^ level)

/-- block n of the file can be read -/
def Reads (st : Ext2State) (di : Ext2Inode) (n : ℕ) : Prop :=
  ∀ entry level i, route st n = some (entry, level, i) → TreeReads st level (di.block entry) i

/-- no hole among the n bytes from a on -/
def Dense (st : Ext2State) (di : Ext2Inode) (a n : ℕ) : Prop :=
  ∀ i, a ≤ i → i < a + n → blockOf st di (i / st.blockSize.toNat) ≠ 0

/-- the call returns, with the file's bytes -/
def ReadsBack (st : Ext2State) (di : Ext2Inode) (offset count : U64) : Prop :=
  ∃ fuel, ext2Read st di fuel offset count =
    some (some (slice st di offset.toNat (min count.toNat (di.size.toNat - offset.toNat))))

/-- `read_whole_file` returns, with the file's bytes and a NUL -/
def ReadsWhole (st : Ext2State) (di : Ext2Inode) (room : Bool) : Prop :=
  ∃ fuel, readWholeFile room fuel (opened st di fuel) =
    some (some (slice st di 0 di.size.toNat ++ [0], di.size.setWidth 64))

section Contents

variable {st : Ext2State} {di : Ext2Inode} {k level a b i m n p t fuel : ℕ} {no : U32} {offset count : U64}
  {out : List U8}

theorem leaf_zero : leaf st level 0 n = 0 := by
  induction level generalizing n with
  | zero => rfl
  | succ level ih => exact ih

theorem TreeReads.leaf (h : TreeReads st level no n) (hne : leaf st level no n ≠ 0) :
    (blockBytes st (leaf st level no n)).isSome := by
  induction level generalizing no n with
  | zero => exact h hne
  | succ level ih =>
    have hno : no ≠ 0 := by
      rintro rfl
      exact hne leaf_zero
    exact ih (h hno).2 hne

theorem Reads.block (h : Reads st di n) (hne : blockOf st di n ≠ 0) : (blockBytes st (blockOf st di n)).isSome := by
  unfold blockOf at hne ⊢
  cases hp : route st n with
  | none => simp [hp] at hne
  | some x =>
    obtain ⟨entry, level, i⟩ := x
    rw [hp] at hne
    exact (h entry level i hp).leaf hne

@[simp] theorem length_slice : (slice st di a n).length = n := by rw [slice, List.length_map, List.length_range]

theorem slice_append : slice st di a m ++ slice st di (a + m) n = slice st di a (m + n) := by
  rw [slice, slice, slice, List.range_add, List.map_append, List.map_map]
  congr 1
  exact List.map_congr_left fun i _ => by rw [Function.comp_apply, Nat.add_assoc]

theorem in_block (h : p % b + i < b) : (p + i) / b = p / b ∧ (p + i) % b = p % b + i := by
  have hsplit : p + i = b * (p / b) + (p % b + i) := by
    rw [← Nat.add_assoc, Nat.div_add_mod]
  rw [hsplit, Nat.mul_add_div (by omega), Nat.mul_add_mod, Nat.div_eq_of_lt h, Nat.mod_eq_of_lt h]
  exact ⟨rfl, rfl⟩

/-- the rest of a block -/
theorem slice_block {blk : ℕ → U8} (hne : blockOf st di (p / st.blockSize.toNat) ≠ 0)
    (hblk : blockBytes st (blockOf st di (p / st.blockSize.toNat)) = some blk)
    (hn : p % st.blockSize.toNat + n ≤ st.blockSize.toNat) :
    (List.range n).map (fun i => blk (p % st.blockSize.toNat + i)) = slice st di p n := by
  refine List.map_congr_left fun i hi => ?_
  have hlt := List.mem_range.1 hi
  obtain ⟨hdiv, hmod⟩ := in_block (p := p) (i := i) (b := st.blockSize.toNat) (by omega)
  unfold content
  simp only [hdiv, hmod, if_neg hne, hblk]

/-! ## One round -/

/-- the numbers of a round, at position p of the file and with c bytes to go -/
theorem round_numbers {fileOff c : U64} (hoff : fileOff.toNat = p) (hp : p < 2 ^ 32) (hc : c.toNat < 2 ^ 32)
    (hb : st.blockSize.toNat = b) (hpos : 0 < b) :
    ((fileOff / st.blockSize.setWidth 64).setWidth 32).toNat = p / b ∧
    ((fileOff % st.blockSize.setWidth 64).setWidth 32).toNat = p % b ∧
    (if c.setWidth 32 > st.blockSize - (fileOff % st.blockSize.setWidth 64).setWidth 32
      then st.blockSize - (fileOff % st.blockSize.setWidth 64).setWidth 32 else c.setWidth 32).toNat =
        min c.toNat (b - p % b) := by
  have hmod : p % b < b := Nat.mod_lt _ hpos
  have hb32 : b < 2 ^ 32 := hb ▸ st.blockSize.isLt
  have hdivle : p / b ≤ p := Nat.div_le_self _ _
  have hbs : (st.blockSize.setWidth 64).toNat = b := by
    rw [BitVec.toNat_setWidth, hb]
    exact Nat.mod_eq_of_lt (by omega)
  have hdiv : ((fileOff / st.blockSize.setWidth 64).setWidth 32).toNat = p / b := by
    rw [BitVec.toNat_setWidth, BitVec.toNat_udiv, hoff, hbs]
    exact Nat.mod_eq_of_lt (by omega)
  have hrem : ((fileOff % st.blockSize.setWidth 64).setWidth 32).toNat = p % b := by
    rw [BitVec.toNat_setWidth, BitVec.toNat_umod, hoff, hbs]
    exact Nat.mod_eq_of_lt (by omega)
  have havail : (st.blockSize - (fileOff % st.blockSize.setWidth 64).setWidth 32).toNat = b - p % b := by
    rw [BitVec.toNat_sub_of_le (BitVec.le_def.2 (by omega)), hrem, hb]
  have hcopy : (c.setWidth 32).toNat = c.toNat := by
    rw [BitVec.toNat_setWidth]
    exact Nat.mod_eq_of_lt hc
  refine ⟨hdiv, hrem, ?_⟩
  split_ifs with hlt
  · rw [gt_iff_lt, BitVec.lt_def, havail, hcopy] at hlt
    rw [havail]
    omega
  · rw [gt_iff_lt, BitVec.lt_def, havail, hcopy] at hlt
    rw [hcopy]
    omega

/-- **One round.** -/
theorem readLoop_step (h : Sized st k) (hheap : st.heap = true) (ht : t < count.toNat)
    (hend : offset.toNat + count.toNat ≤ di.size.toNat)
    (hreads : Reads st di ((offset.toNat + t) / st.blockSize.toNat)) :
    readLoop st di offset count (fuel + 1) (slice st di offset.toNat t) =
      if blockOf st di ((offset.toNat + t) / st.blockSize.toNat) = 0 then some (slice st di offset.toNat t)
      else readLoop st di offset count fuel (slice st di offset.toNat (t +
        min (count.toNat - t) (st.blockSize.toNat - (offset.toNat + t) % st.blockSize.toNat))) := by
  have hsize := di.size.isLt
  have hge := h.ge
  have htotal : (BitVec.ofNat 64 t).toNat = t := by
    rw [BitVec.toNat_ofNat]
    exact Nat.mod_eq_of_lt (by omega)
  have hoff : (offset + BitVec.ofNat 64 t).toNat = offset.toNat + t := by
    rw [BitVec.toNat_add, htotal]
    exact Nat.mod_eq_of_lt (by omega)
  have hleft : (count - BitVec.ofNat 64 t).toNat = count.toNat - t := by
    rw [BitVec.toNat_sub_of_le (BitVec.le_def.2 (by omega)), htotal]
  obtain ⟨hlogical, hrem, hcopy⟩ := round_numbers hoff (by omega)
    (by omega : (count - BitVec.ofNat 64 t).toNat < 2 ^ 32) (rfl : st.blockSize.toNat = _) (by omega)
  have hin : (offset.toNat + t) / st.blockSize.toNat * st.blockSize.toNat < 2 ^ 32 :=
    lt_of_le_of_lt (Nat.div_mul_le_self _ _) (by omega)
  rw [← hlogical] at hin
  have hblock : resolveBlock st di _ = blockOf st di _ := (resolveBlock_spec h hin).1
  rw [hlogical] at hblock
  have hlt : BitVec.ofNat 64 t < count := by rwa [BitVec.lt_def, htotal]
  have hmod : (offset.toNat + t) % st.blockSize.toNat < st.blockSize.toNat := Nat.mod_lt _ (by omega)
  rw [readLoop, length_slice, if_pos hlt]
  simp only [hblock, hrem, hcopy, hleft]
  by_cases hhole : blockOf st di ((offset.toNat + t) / st.blockSize.toNat) = 0
  · rw [if_pos hhole, if_pos hhole]
  · obtain ⟨blk, hblk⟩ := Option.isSome_iff_exists.1 (hreads.block hhole)
    rw [if_neg hhole, if_neg hhole, readBlock_eq h hheap, hblk]
    simp only
    rw [slice_block hhole hblk (by omega), slice_append]

/-! ## Runs -/

/-- a run that meets no hole -/
theorem readLoop_full (h : Sized st k) (hheap : st.heap = true) (ht : t ≤ count.toNat)
    (hend : offset.toNat + count.toNat ≤ di.size.toNat)
    (hreads : ∀ i < di.size.toNat, Reads st di (i / st.blockSize.toNat))
    (hdense : Dense st di (offset.toNat + t) (count.toNat - t)) (hf : count.toNat - t < fuel) :
    readLoop st di offset count fuel (slice st di offset.toNat t) = some (slice st di offset.toNat count.toNat) := by
  have hge := h.ge
  induction fuel generalizing t with
  | zero => exact absurd hf (Nat.not_lt_zero _)
  | succ fuel ih =>
    rcases Nat.lt_or_eq_of_le ht with hlt | rfl
    · have hmod : (offset.toNat + t) % st.blockSize.toNat < st.blockSize.toNat := Nat.mod_lt _ (by omega)
      rw [readLoop_step h hheap hlt hend (hreads _ (by omega)), if_neg (hdense _ le_rfl (by omega))]
      exact ih (by omega) (fun i hi hi' => hdense i (by omega) (by omega)) (by omega)
    · rw [readLoop, length_slice, BitVec.ofNat_toNat, BitVec.setWidth_eq]
      exact if_neg (BitVec.lt_irrefl _)

/-- what a run has copied when it ends: the bytes before the first hole -/
theorem readLoop_some (h : Sized st k) (hheap : st.heap = true) (ht : t ≤ count.toNat)
    (hend : offset.toNat + count.toNat ≤ di.size.toNat)
    (hreads : ∀ i < di.size.toNat, Reads st di (i / st.blockSize.toNat))
    (hr : readLoop st di offset count fuel (slice st di offset.toNat t) = some out) :
    ∃ n, t ≤ n ∧ n ≤ count.toNat ∧ out = slice st di offset.toNat n ∧ Dense st di (offset.toNat + t) (n - t) := by
  have hge := h.ge
  induction fuel generalizing t with
  | zero => cases hr
  | succ fuel ih =>
    rcases Nat.lt_or_eq_of_le ht with hlt | rfl
    · have hmod : (offset.toNat + t) % st.blockSize.toNat < st.blockSize.toNat := Nat.mod_lt _ (by omega)
      rw [readLoop_step h hheap hlt hend (hreads _ (by omega))] at hr
      by_cases hhole : blockOf st di ((offset.toNat + t) / st.blockSize.toNat) = 0
      · rw [if_pos hhole, Option.some.injEq] at hr
        exact ⟨t, le_rfl, ht, hr.symm, fun i hi hi' => absurd hi' (by omega)⟩
      · rw [if_neg hhole] at hr
        obtain ⟨n, hle, hn, hout, hdense⟩ := ih (by omega) hr
        refine ⟨n, by omega, hn, hout, fun i hi hi' => ?_⟩
        -- the rest of this block, or a later one
        by_cases hin : i < offset.toNat + t + (st.blockSize.toNat - (offset.toNat + t) % st.blockSize.toNat)
        · obtain ⟨d, rfl⟩ := Nat.exists_eq_add_of_le hi
          rwa [(in_block (by omega)).1]
        · exact hdense i (by omega) (by omega)
    · rw [readLoop, length_slice, BitVec.ofNat_toNat, BitVec.setWidth_eq, if_neg (BitVec.lt_irrefl _),
        Option.some.injEq] at hr
      exact ⟨_, le_rfl, le_rfl, hr.symm, fun i hi hi' => absurd hi' (by omega)⟩

/-! ## One call -/

theorem toNat_size : (di.size.setWidth 64).toNat = di.size.toNat := by
  have hlt := di.size.isLt
  rw [BitVec.toNat_setWidth]
  exact Nat.mod_eq_of_lt (by omega)

/-- a call inside the file -/
theorem ext2Read_eq (hheap : st.heap = true) (ho : offset.toNat < di.size.toNat) : ext2Read st di fuel offset count =
    (readLoop st di offset (clamp offset count (di.size.setWidth 64)) fuel []).map some := by
  have hin : ¬ offset ≥ di.size.setWidth 64 := by
    rw [ge_iff_le, BitVec.le_def, toNat_size]
    omega
  unfold ext2Read
  dsimp only
  rw [if_neg hin, hheap, if_neg (by decide)]

theorem ext2Read_noMem (hheap : st.heap = false) (ho : offset.toNat < di.size.toNat) :
    ext2Read st di fuel offset count = some none := by
  have hin : ¬ offset ≥ di.size.setWidth 64 := by
    rw [ge_iff_le, BitVec.le_def, toNat_size]
    omega
  unfold ext2Read
  dsimp only
  rw [if_neg hin, if_pos hheap]

/-- **One call.** -/
theorem readsBack_iff (h : Sized st k) (hreads : ∀ i < di.size.toNat, Reads st di (i / st.blockSize.toNat))
    (ho : offset.toNat < di.size.toNat) (hw : offset.toNat + count.toNat < 2 ^ 64) :
    ReadsBack st di offset count ↔
      st.heap = true ∧ Dense st di offset.toNat (min count.toNat (di.size.toNat - offset.toNat)) := by
  have hclamp : (clamp offset count (di.size.setWidth 64)).toNat = _ := clamp_exact (by rwa [toNat_size]) hw
  rw [toNat_size] at hclamp
  have hend : offset.toNat + (clamp offset count (di.size.setWidth 64)).toNat ≤ di.size.toNat := by omega
  unfold ReadsBack
  rw [← hclamp]
  constructor
  · rintro ⟨fuel, hr⟩
    cases hheap : st.heap with
    | false =>
      rw [ext2Read_noMem hheap ho] at hr
      cases hr
    | true =>
      rw [ext2Read_eq hheap ho] at hr
      obtain ⟨out, hout, hslice⟩ := Option.map_eq_some_iff.1 hr
      obtain ⟨n, -, -, rfl, hdense⟩ := readLoop_some (t := 0) h hheap (Nat.zero_le _) hend hreads hout
      have hn := congrArg List.length (Option.some.inj hslice)
      rw [length_slice, length_slice] at hn
      exact ⟨rfl, hn ▸ hdense⟩
  · rintro ⟨hheap, hdense⟩
    refine ⟨(clamp offset count (di.size.setWidth 64)).toNat + 1, ?_⟩
    rw [ext2Read_eq hheap ho]
    exact congrArg _ (readLoop_full (t := 0) h hheap (Nat.zero_le _) hend hreads hdense (by omega))

/-! ## The whole file -/

/-- a file as `read_whole_file` has moved it -/
def moved (st : Ext2State) (di : Ext2Inode) (m t : ℕ) : File :=
  ⟨di.size.setWidth 64, ext2Read st di m, BitVec.ofNat 64 t⟩

theorem toNat_rest (ht : t ≤ di.size.toNat) : (BitVec.ofNat 64 t).toNat = t ∧
    (di.size.setWidth 64 - BitVec.ofNat 64 t).toNat = di.size.toNat - t := by
  have hlt := di.size.isLt
  have htotal : (BitVec.ofNat 64 t).toNat = t := by
    rw [BitVec.toNat_ofNat]
    exact Nat.mod_eq_of_lt (by omega)
  refine ⟨htotal, ?_⟩
  rw [BitVec.toNat_sub_of_le (by rwa [BitVec.le_def, toNat_size, htotal]), toNat_size, htotal]

/-- one read of all that is left -/
theorem wholeLoop_step (hheap : st.heap = true) (ht : t < di.size.toNat) :
    wholeLoop (fuel + 1) (moved st di m t) (slice st di 0 t) =
      match readLoop st di (BitVec.ofNat 64 t) (di.size.setWidth 64 - BitVec.ofNat 64 t) m [] with
      | none => none
      | some out => if out = [] then some none
        else wholeLoop fuel (moved st di m (t + out.length)) (slice st di 0 t ++ out) := by
  obtain ⟨htotal, hrest⟩ := toNat_rest ht.le
  have hlt : BitVec.ofNat 64 t < di.size.setWidth 64 := by rwa [BitVec.lt_def, htotal, toNat_size]
  have hread : ext2Read st di m (BitVec.ofNat 64 t) (di.size.setWidth 64 - BitVec.ofNat 64 t) =
      (readLoop st di (BitVec.ofNat 64 t) (di.size.setWidth 64 - BitVec.ofNat 64 t) m []).map some := by
    rw [ext2Read_eq hheap (by rwa [htotal]), clamp, ite_self]
  rw [wholeLoop, length_slice]
  simp only [moved, File.readOp, if_pos hlt, hread]
  cases readLoop st di (BitVec.ofNat 64 t) (di.size.setWidth 64 - BitVec.ofNat 64 t) m [] with
  | none => rfl
  | some out => simp only [Option.map_some, BitVec.ofNat_add]

theorem wholeLoop_end (ht : t = di.size.toNat) :
    wholeLoop (fuel + 1) (moved st di m t) (slice st di 0 t) = some (some (slice st di 0 t)) := by
  have hlt : ¬ BitVec.ofNat 64 t < di.size.setWidth 64 := by
    rw [BitVec.lt_def, (toNat_rest ht.le).1, toNat_size]
    omega
  rw [wholeLoop, length_slice]
  exact if_neg hlt

theorem wholeLoop_noMem (hheap : st.heap = false) (hpos : 0 < di.size.toNat) :
    wholeLoop (fuel + 1) (moved st di m 0) [] = some none := by
  have hlt : BitVec.ofNat 64 0 < di.size.setWidth 64 := by rwa [BitVec.lt_def, toNat_size]
  have hread : ext2Read st di m (BitVec.ofNat 64 0) (di.size.setWidth 64 - BitVec.ofNat 64 0) = some none :=
    ext2Read_noMem hheap hpos
  rw [wholeLoop, List.length_nil]
  simp only [moved, File.readOp, if_pos hlt, hread]
  rfl

/-- a run that ends well has met no hole -/
theorem wholeLoop_some (h : Sized st k) (hreads : ∀ i < di.size.toNat, Reads st di (i / st.blockSize.toNat))
    (hheap : st.heap = true) (ht : t ≤ di.size.toNat)
    (hr : wholeLoop fuel (moved st di m t) (slice st di 0 t) = some (some out)) :
    Dense st di t (di.size.toNat - t) := by
  induction fuel generalizing t with
  | zero => cases hr
  | succ fuel ih =>
    rcases Nat.lt_or_eq_of_le ht with hlt | rfl
    · obtain ⟨htotal, hrest⟩ := toNat_rest ht
      rw [wholeLoop_step hheap hlt] at hr
      cases hloop : readLoop st di (BitVec.ofNat 64 t) (di.size.setWidth 64 - BitVec.ofNat 64 t) m [] with
      | none => simp [hloop] at hr
      | some part =>
        obtain ⟨n, -, hn, rfl, hdense⟩ := readLoop_some (t := 0) h hheap (Nat.zero_le _) (by omega) hreads hloop
        rw [htotal, Nat.add_zero, Nat.sub_zero] at hdense
        simp only [hloop, htotal, length_slice] at hr
        rw [if_neg fun hnil => (by simp [hnil] at hr)] at hr
        have hcat : slice st di 0 t ++ slice st di (0 + t) n = slice st di 0 (t + n) := slice_append
        rw [Nat.zero_add] at hcat
        rw [hcat] at hr
        have hlater := ih (by omega) hr
        intro i hi hi'
        by_cases hin : i < t + n
        · exact hdense i hi hin
        · exact hlater i (by omega) (by omega)
    · exact fun i hi hi' => absurd hi' (by omega)

/-- a file with no hole is there after one read -/
theorem wholeLoop_full (h : Sized st k) (hreads : ∀ i < di.size.toNat, Reads st di (i / st.blockSize.toNat))
    (hheap : 0 < di.size.toNat → st.heap = true) (hdense : Dense st di 0 di.size.toNat) :
    wholeLoop (di.size.toNat + 2) (opened st di (di.size.toNat + 2)) [] =
      some (some (slice st di 0 di.size.toNat)) := by
  have hend {n t : ℕ} (ht : t = di.size.toNat) :
      wholeLoop (n + 1) (moved st di (di.size.toNat + 2) t) (slice st di 0 t) =
      some (some (slice st di 0 t)) := wholeLoop_end ht
  rcases Nat.eq_zero_or_pos di.size.toNat with hzero | hlt
  · refine Eq.trans (hend hzero.symm) ?_
    rw [hzero]
  · obtain ⟨hzero, hrest⟩ : (BitVec.ofNat 64 0).toNat = 0 ∧
      (di.size.setWidth 64 - BitVec.ofNat 64 0).toNat = di.size.toNat - 0 := toNat_rest (Nat.zero_le _)
    have hfull : readLoop st di (BitVec.ofNat 64 0) (di.size.setWidth 64 - BitVec.ofNat 64 0) (di.size.toNat + 2)
        (slice st di (BitVec.ofNat 64 0).toNat 0) = _ :=
      readLoop_full h (hheap hlt) (Nat.zero_le _) (by omega) hreads (by rwa [hzero, hrest]) (by omega)
    rw [hrest, hzero] at hfull
    have hstep : wholeLoop (di.size.toNat + 1 + 1) (moved st di (di.size.toNat + 2) 0) (slice st di 0 0) = _ :=
      wholeLoop_step (hheap hlt) hlt
    have hne : slice st di 0 di.size.toNat ≠ [] := fun hnil => by
      have hlen := congrArg List.length hnil
      rw [length_slice, List.length_nil] at hlen
      omega
    simp only [show slice st di 0 0 = [] from rfl] at hfull hstep
    simp only [hfull, Nat.sub_zero, if_neg hne, length_slice, Nat.zero_add] at hstep
    exact hstep.trans (hend rfl)

/-- **The whole file.** -/
theorem readsWhole_iff (h : Sized st k) (hreads : ∀ i < di.size.toNat, Reads st di (i / st.blockSize.toNat))
    {room : Bool} : ReadsWhole st di room ↔
      room = true ∧ (di.size = 0 ∨ st.heap = true) ∧ Dense st di 0 di.size.toNat := by
  have hpos : 0 < di.size.toNat ↔ di.size ≠ 0 :=
    ⟨fun hlt h0 => (by simp [h0] at hlt), fun hne => Nat.pos_of_ne_zero fun h0 => hne (BitVec.eq_of_toNat_eq h0)⟩
  unfold ReadsWhole readWholeFile
  cases room with
  | false => simp
  | true =>
    simp only [Bool.true_eq_false, if_false, true_and]
    constructor
    · rintro ⟨fuel, hr⟩
      obtain ⟨r, hloop, hbuf⟩ := Option.map_eq_some_iff.1 hr
      obtain ⟨out, rfl, -⟩ := Option.map_eq_some_iff.1 hbuf
      cases hheap : st.heap with
      | true => exact ⟨Or.inr rfl, wholeLoop_some (t := 0) h hreads hheap (Nat.zero_le _) hloop⟩
      | false =>
        have hzero : di.size = 0 := by
          by_contra hne
          cases fuel with
          | zero => cases hloop
          | succ fuel =>
            have hnone : wholeLoop (fuel + 1) (moved st di (fuel + 1) 0) [] = some none :=
              wholeLoop_noMem hheap (hpos.2 hne)
            exact absurd (hloop.symm.trans hnone) (by simp)
        exact ⟨Or.inl hzero, fun i hi hi' => absurd hi' (by simp [hzero])⟩
    · rintro ⟨hmem, hdense⟩
      exact ⟨di.size.toNat + 2, congrArg _ (wholeLoop_full h hreads (fun hlt => hmem.resolve_left (hpos.1 hlt)) hdense)⟩

/-- **The file's bytes, exactly when.** For every inode, on a volume where the reads for its blocks succeed: a call
inside the file returns all it was asked for if and only if memory can be had and none of these bytes is in a hole, and
`read_whole_file` returns the file if and only if none at all is. -/
theorem read_contents_iff (h : Sized st k) (hreads : ∀ i < di.size.toNat, Reads st di (i / st.blockSize.toNat)) :
    (∀ offset count : U64, offset.toNat < di.size.toNat → offset.toNat + count.toNat < 2 ^ 64 →
      (ReadsBack st di offset count ↔
        st.heap = true ∧ Dense st di offset.toNat (min count.toNat (di.size.toNat - offset.toNat)))) ∧
    ∀ room, ReadsWhole st di room ↔
      room = true ∧ (di.size = 0 ∨ st.heap = true) ∧ Dense st di 0 di.size.toNat :=
  ⟨fun _ _ => readsBack_iff h hreads, fun _ => readsWhole_iff h hreads⟩

end Contents

theorem volume_treeReads {byte : ℕ → U8} {k level n : ℕ} {no : U32} : TreeReads (volume byte k) level no n := by
  induction level generalizing no n with
  | zero => exact fun _ => rfl
  | succ level ih => exact fun _ => ⟨rfl, ih⟩

theorem volume_reads {byte : ℕ → U8} {k n : ℕ} {di : Ext2Inode} : Reads (volume byte k) di n :=
  fun _ _ _ _ => volume_treeReads

/-- three blocks, the middle one a hole -/
def sparse : Ext2Inode := ⟨3072, fun i => if i = 1 then 0 else 5⟩

theorem read_contents_sample :
    (∀ offset count : U64, offset.toNat < sparse.size.toNat → offset.toNat + count.toNat < 2 ^ 64 →
      (ReadsBack (volume (fun _ => 7) 0) sparse offset count ↔ (volume (fun _ => 7) 0).heap = true ∧
        Dense (volume (fun _ => 7) 0) sparse offset.toNat (min count.toNat (sparse.size.toNat - offset.toNat)))) ∧
    ∀ room, ReadsWhole (volume (fun _ => 7) 0) sparse room ↔
      room = true ∧ (sparse.size = 0 ∨ (volume (fun _ => 7) 0).heap = true) ∧
        Dense (volume (fun _ => 7) 0) sparse 0 sparse.size.toNat :=
  read_contents_iff (volume_sized (Nat.zero_le _)) fun _ _ => volume_reads

/-- every read of the disk succeeds, and neither a read across the hole nor `read_whole_file` gives the file -/
theorem hole_short : Sized (volume (fun _ => 7) 0) 0 ∧ (∀ n, Reads (volume (fun _ => 7) 0) sparse n) ∧
    ¬ ReadsBack (volume (fun _ => 7) 0) sparse 0 3072 ∧ ¬ ReadsWhole (volume (fun _ => 7) 0) sparse true := by
  have hsized : Sized (volume (fun _ => 7) 0) 0 := volume_sized (by decide)
  have hhole : ¬ Dense (volume (fun _ => 7) 0) sparse 0 3072 := fun h => h 1024 (by decide) (by decide) rfl
  refine ⟨hsized, fun _ => volume_reads, fun hback => ?_, fun hwhole => ?_⟩
  · exact hhole ((readsBack_iff hsized (fun _ _ => volume_reads) (by decide) (by decide)).1 hback).2
  · exact hhole ((readsWhole_iff hsized fun _ _ => volume_reads).1 hwhole).2.2

end Retux.Ext2
