/-
Where the scan of an ext2 directory reads and writes (`ext2_readdir` in `fs/ext2.cpp`).

The cursor moves by `rec_len`, and a name is as long as `name_len` says. Neither is held against the end of the block,
so a header that begins less than eight bytes before it, or a name in the last record, is read past the buffer.

The scan again, with its accesses, on fuel: `none` is a run that has not ended. `Entry` are the places in a block at
which the cursor comes to stand, and `EntriesInside` says that headers and names there lie in the block.

- `dirRunT_val`, `dirRun_dirLoop`: forgetting the accesses, and a run that ends;
- `dirRunT_safe`: what holds of the entries holds of every run;
- `blockLoopT_reaches`, `dirRunT_reaches`: each entry is visited, by a run that has skipped all before it;
- `scan_inside_iff`: the scan stays inside the blocks and the buffer exactly if the entries do.
-/
import Mathlib.Tactic
import Retux.Fs.BlockMap

namespace Retux.Ext2

open Retux.Word Retux.Bytes Retux.Trace Retux.Trace.Traced

/-! ## The scan, with its accesses -/

inductive DirAccess
  /-- an entry's header, at index pos of the block -/
  | header (pos : ℕ)
  /-- an entry's name -/
  | name (pos len : ℕ)
  /-- a record in the caller's buffer, up to index stop -/
  | record (stop : ℕ)
deriving DecidableEq

def DirAccess.Inside (st : Ext2State) (count : ℕ) : DirAccess → Prop
  | header pos => pos + 8 ≤ st.blockSize.toNat
  | name pos len => pos + len ≤ st.blockSize.toNat
  | record stop => stop ≤ count

/-- the inner loop -/
def blockLoopT (blk : ℕ → U8) (len offset count : ℕ) :
    ℕ → ℕ → List U8 → ℕ → Traced DirAccess (List U8 × ℕ × Bool)
  | 0, _, out, streamPos => pure (out, streamPos, false)
  | fuel + 1, pos, out, streamPos =>
    if pos < len then do
      emit (.header pos)
      let inode := field blk pos 4
      let recLen := field blk (pos + 4) 2
      let nameLen := field blk (pos + 6) 1
      if recLen = 0 then pure (out, streamPos, false)
      else if inode ≠ 0 ∧ nameLen > 0 then
        let needed := 8 + nameLen + 1
        if streamPos ≥ offset then
          if out.length + needed > count then pure (out, streamPos, true)
          else do
            emit (.name (pos + 8) nameLen)
            emit (.record (out.length + needed))
            let name := (List.range nameLen).map fun k => blk (pos + 8 + k)
            blockLoopT blk len offset count fuel (pos + recLen) (out ++ (le 8 (BitVec.ofNat 64 inode) ++ name ++ [0]))
              (streamPos + needed)
        else blockLoopT blk len offset count fuel (pos + recLen) out (streamPos + needed)
      else blockLoopT blk len offset count fuel (pos + recLen) out streamPos
    else pure (out, streamPos, false)

section Scan

variable (st : Ext2State) (di : Ext2Inode) (offset count : ℕ)

/-- the bytes of a block that belong to the directory -/
def blockLen (blkStart : U32) : ℕ :=
  let blkEnd := blkStart + st.blockSize
  let blkEnd := if blkEnd > di.size then di.size else blkEnd
  (blkEnd - blkStart).toNat

/-- the block that is scanned from blkStart on, if it is there -/
def scanBlock (blkStart : U32) : Option (ℕ → U8) :=
  let physBlk := resolveBlock st di (blkStart / st.blockSize)
  if physBlk = 0 then none else readBlock st physBlk

/-- the outer loop -/
def dirRunT : ℕ → U32 → List U8 → ℕ → Traced DirAccess (List U8)
  | 0, _, _, _ => lift none
  | fuel + 1, blkStart, out, streamPos =>
    if blkStart < di.size then
      match scanBlock st di blkStart with
      | none => pure out
      | some blk => do
        let len := blockLen st di blkStart
        let (out, streamPos, full) ← blockLoopT blk len offset count len 0 out streamPos
        if full then pure out else dirRunT fuel (blkStart + st.blockSize) out streamPos
    else pure out

/-- the outer loop, without them -/
def dirRun : ℕ → U32 → List U8 → ℕ → Option (List U8)
  | 0, _, _, _ => none
  | fuel + 1, blkStart, out, streamPos =>
    if blkStart < di.size then
      match scanBlock st di blkStart with
      | none => some out
      | some blk =>
        let len := blockLen st di blkStart
        let (out, streamPos, full) := blockLoop blk len offset count len 0 out streamPos
        if full then some out else dirRun fuel (blkStart + st.blockSize) out streamPos
    else some out

/-- `ext2_readdir`; the inner none is -1 -/
def readdirT (fuel : ℕ) : Traced DirAccess (Option (List U8)) :=
  if st.heap = false then pure none
  else do
    let out ← dirRunT st di offset count fuel 0 [] 0
    return some out

end Scan

section Forget

variable {st : Ext2State} {di : Ext2Inode} {blk : ℕ → U8} {len offset count fuel pos streamPos : ℕ} {out r : List U8}
  {blkStart : U32}

theorem blockLoopT_val : (blockLoopT blk len offset count fuel pos out streamPos).val =
    some (blockLoop blk len offset count fuel pos out streamPos) := by
  induction fuel generalizing pos out streamPos with
  | zero => rfl
  | succ fuel ih =>
    rw [blockLoopT, blockLoop]
    simp only [val_ite, val_bind, val_emit, val_pure, Option.bind_some, ih]
    split_ifs <;> rfl

theorem dirRunT_val : (dirRunT st di offset count fuel blkStart out streamPos).val =
    dirRun st di offset count fuel blkStart out streamPos := by
  induction fuel generalizing blkStart out streamPos with
  | zero => rfl
  | succ fuel ih =>
    rw [dirRunT, dirRun, val_ite]
    refine if_congr Iff.rfl ?_ rfl
    cases scanBlock st di blkStart with
    | none => rfl
    | some blk =>
      simp only [val_bind, blockLoopT_val, Option.bind_some, val_ite, val_pure, ih]

/-- a run that ends is the scan -/
theorem dirRun_dirLoop (h : dirRun st di offset count fuel blkStart out streamPos = some r) :
    dirLoop st di offset count fuel blkStart out streamPos = r := by
  induction fuel generalizing blkStart out streamPos with
  | zero => cases h
  | succ fuel ih =>
    rw [dirRun] at h
    rw [dirLoop]
    by_cases hlt : blkStart < di.size
    · rw [if_pos hlt] at h ⊢
      unfold scanBlock at h
      by_cases hphys : resolveBlock st di (blkStart / st.blockSize) = 0
      · simp only [if_pos hphys, Option.some.injEq] at h ⊢
        exact h
      · simp only [if_neg hphys] at h ⊢
        cases hread : readBlock st (resolveBlock st di (blkStart / st.blockSize)) with
        | none =>
          rw [hread] at h
          exact Option.some.inj h
        | some blk =>
          rw [hread] at h
          simp only at h ⊢
          unfold blockLen at h
          simp only at h
          split_ifs at h ⊢ <;> first | exact Option.some.inj h | exact ih h
    · rw [if_neg hlt] at h ⊢
      exact Option.some.inj h

end Forget

/-! ## Entries -/

/-- where the cursor comes to stand in a block -/
inductive Entry (blk : ℕ → U8) (len : ℕ) : ℕ → Prop
  | first : Entry blk len 0
  | next {pos : ℕ} : Entry blk len pos → pos < len → field blk (pos + 4) 2 ≠ 0 →
      Entry blk len (pos + field blk (pos + 4) 2)

/-- header and name lie in the block -/
structure EntryInside (st : Ext2State) (blk : ℕ → U8) (pos : ℕ) : Prop where
  header : pos + 8 ≤ st.blockSize.toNat
  name : field blk (pos + 4) 2 ≠ 0 → field blk pos 4 ≠ 0 ∧ field blk (pos + 6) 1 > 0 →
    pos + 8 + field blk (pos + 6) 1 ≤ st.blockSize.toNat

/-- where block n of the directory starts -/
def start (st : Ext2State) (n : ℕ) : U32 := BitVec.ofNat 32 (n * st.blockSize.toNat)

/-- the scan comes to block n: all before it are there -/
def Comes (st : Ext2State) (di : Ext2Inode) (n : ℕ) : Prop :=
  n * st.blockSize.toNat < di.size.toNat ∧ ∀ m < n, (scanBlock st di (start st m)).isSome

def EntriesInside (st : Ext2State) (di : Ext2Inode) : Prop :=
  ∀ n blk, Comes st di n → scanBlock st di (start st n) = some blk →
    ∀ pos, Entry blk (blockLen st di (start st n)) pos → pos < blockLen st di (start st n) → EntryInside st blk pos

/-- every read lies in the block and every write in the buffer, as far as the run has come -/
def ScanInside (st : Ext2State) (di : Ext2Inode) : Prop :=
  ∀ offset count fuel, offset < 2 ^ 64 → count < 2 ^ 64 →
    Safe (DirAccess.Inside st count) (readdirT st di offset count fuel) ∧
      ∀ out, (readdirT st di offset count fuel).val = some (some out) → out.length ≤ count

section Inside

variable {st : Ext2State} {di : Ext2Inode} {blk : ℕ → U8} {k len offset count fuel m n pos streamPos : ℕ}
  {out r : List U8} {blkStart : U32}

theorem Sized.dvd (h : Sized st k) : st.blockSize.toNat ∣ 2 ^ 32 := by
  have hall : ∀ l : Fin 22, (1024#32 <<< l.val).toNat ∣ 2 ^ 32 := by decide
  rw [h.blockSize]
  exact hall ⟨k, Nat.lt_succ_of_le h.le⟩

theorem start_toNat (hn : n * st.blockSize.toNat < 2 ^ 32) : (start st n).toNat = n * st.blockSize.toNat := by
  rw [start, BitVec.toNat_ofNat]
  exact Nat.mod_eq_of_lt hn

theorem start_succ : start st n + st.blockSize = start st (n + 1) := by
  rw [start, start, Nat.succ_mul, BitVec.ofNat_add, BitVec.ofNat_toNat, BitVec.setWidth_eq]

theorem start_lt (hn : n * st.blockSize.toNat < 2 ^ 32) : start st n < di.size ↔ n * st.blockSize.toNat < di.size.toNat := by
  rw [BitVec.lt_def, start_toNat hn]

theorem Sized.next_le (h : Sized st k) (hn : n * st.blockSize.toNat < 2 ^ 32) :
    n * st.blockSize.toNat + st.blockSize.toNat ≤ 2 ^ 32 := by
  obtain ⟨q, hq⟩ := h.dvd
  rw [hq, Nat.mul_comm st.blockSize.toNat] at hn ⊢
  rw [← Nat.succ_mul]
  exact Nat.mul_le_mul_right _ (Nat.lt_of_mul_lt_mul_right hn)

/-- the block after the last one of 4 GiB is the first -/
theorem start_next (h : Sized st k) (hn : n * st.blockSize.toNat < 2 ^ 32) :
    (n + 1) * st.blockSize.toNat < 2 ^ 32 ∨ start st (n + 1) = start st 0 := by
  have hle := h.next_le hn
  rw [← Nat.succ_mul] at hle
  rcases Nat.lt_or_eq_of_le hle with hlt | heq
  · exact Or.inl hlt
  · refine Or.inr ?_
    rw [start, start, heq, Nat.zero_mul]
    rfl

/-! ## Every run -/

theorem blockLoopT_safe
    (hin : ∀ pos, Entry blk len pos → pos < len → EntryInside st blk pos) (hpos : Entry blk len pos) :
    Safe (DirAccess.Inside st count) (blockLoopT blk len offset count fuel pos out streamPos) := by
  induction fuel generalizing pos out streamPos with
  | zero => exact safe_pure
  | succ fuel ih =>
    rw [blockLoopT]
    refine Safe.ite (fun hlt => ?_) fun _ => safe_pure
    obtain ⟨hheader, hname⟩ := hin pos hpos hlt
    refine Safe.bind (safe_emit.2 hheader) fun _ _ => Safe.ite (fun _ => safe_pure) fun hrec => ?_
    have hnext := hpos.next hlt hrec
    refine Safe.ite (fun hlive => ?_) fun _ => ih hnext
    refine Safe.ite (fun _ => Safe.ite (fun _ => safe_pure) fun hroom => ?_) fun _ => ih hnext
    refine Safe.bind (safe_emit.2 (hname hrec hlive)) fun _ _ => ?_
    exact Safe.bind (safe_emit.2 (Nat.le_of_not_lt hroom)) fun _ _ => ih hnext

theorem dirRunT_safe (h : Sized st k) (hin : EntriesInside st di) (hn : n * st.blockSize.toNat < 2 ^ 32)
    (hprev : ∀ m < n, (scanBlock st di (start st m)).isSome) :
    Safe (DirAccess.Inside st count) (dirRunT st di offset count fuel (start st n) out streamPos) := by
  induction fuel generalizing n out streamPos with
  | zero => exact safe_lift
  | succ fuel ih =>
    rw [dirRunT]
    refine Safe.ite (fun hlt => ?_) fun _ => safe_pure
    cases hblk : scanBlock st di (start st n) with
    | none => exact safe_pure
    | some blk =>
      have hentries := hin n blk ⟨(start_lt hn).1 hlt, hprev⟩ hblk
      refine Safe.bind (blockLoopT_safe hentries Entry.first) fun res _ => Safe.ite (fun _ => safe_pure) fun _ => ?_
      rw [start_succ]
      rcases start_next h hn with hlt' | hwrap
      · refine ih hlt' fun m hm => ?_
        rcases Nat.lt_succ_iff_lt_or_eq.1 hm with hm | rfl
        · exact hprev m hm
        · rw [hblk]
          rfl
      · rw [hwrap]
        exact ih (by omega) fun m hm => absurd hm (Nat.not_lt_zero m)

/-- a record fits in what is left of the buffer -/
theorem blockLoop_length (hout : out.length ≤ count) :
    (blockLoop blk len offset count fuel pos out streamPos).1.length ≤ count := by
  induction fuel generalizing pos out streamPos with
  | zero => exact hout
  | succ fuel ih =>
    rw [blockLoop]
    simp only
    split_ifs with _ _ _ _ hroom
    · exact hout
    · exact hout
    · apply ih
      rw [List.length_append, List.length_append, List.length_append, length_le, List.length_map, List.length_range,
        List.length_singleton]
      omega
    · exact ih hout
    · exact ih hout
    · exact hout

theorem dirRun_length (hout : out.length ≤ count)
    (hr : dirRun st di offset count fuel blkStart out streamPos = some r) : r.length ≤ count := by
  induction fuel generalizing blkStart out streamPos with
  | zero => cases hr
  | succ fuel ih =>
    rw [dirRun] at hr
    split_ifs at hr
    · cases hblk : scanBlock st di blkStart with
      | none =>
        rw [hblk] at hr
        exact Option.some.inj hr ▸ hout
      | some blk =>
        rw [hblk] at hr
        simp only at hr
        split_ifs at hr
        · exact Option.some.inj hr ▸ blockLoop_length hout
        · exact ih (blockLoop_length hout) hr
    · exact Option.some.inj hr ▸ hout

/-! ## Every entry -/

/-- what an entry takes of the stream -/
def entrySize (blk : ℕ → U8) (pos : ℕ) : ℕ :=
  if field blk pos 4 ≠ 0 ∧ field blk (pos + 6) 1 > 0 then 8 + field blk (pos + 6) 1 + 1 else 0

theorem entrySize_le : entrySize blk pos ≤ 264 := by
  have hlt : field blk (pos + 6) 1 < 256 := field_lt
  unfold entrySize
  split_ifs <;> omega

/-- an entry before the offset -/
theorem blockLoopT_skip (hlt : pos < len) (hrec : field blk (pos + 4) 2 ≠ 0)
    (hoff : streamPos + entrySize blk pos ≤ offset) :
    blockLoopT blk len offset count (fuel + 1) pos out streamPos = (emit (.header pos) >>= fun _ =>
      blockLoopT blk len offset count fuel (pos + field blk (pos + 4) 2) out (streamPos + entrySize blk pos)) := by
  unfold entrySize at hoff ⊢
  rw [blockLoopT, if_pos hlt]
  simp only [if_neg hrec]
  split_ifs at hoff ⊢
  · omega
  · omega
  · rfl
  · rfl

/-- all of a block before the offset -/
theorem blockLoop_skip : ∃ t ≤ 264 * fuel, ∀ offset count, streamPos + t ≤ offset →
    blockLoop blk len offset count fuel pos out streamPos = (out, streamPos + t, false) := by
  have hval {a b : List U8 × ℕ × Bool} (h : some a = some b) : a = b := Option.some.inj h
  induction fuel generalizing pos streamPos with
  | zero => exact ⟨0, le_rfl, fun _ _ _ => rfl⟩
  | succ fuel ih =>
    by_cases hlt : pos < len
    · by_cases hrec : field blk (pos + 4) 2 = 0
      · refine ⟨0, Nat.zero_le _, fun offset count _ => ?_⟩
        rw [blockLoop, if_pos hlt]
        simp only [if_pos hrec]
        rfl
      · obtain ⟨t, ht, hrest⟩ := @ih (pos + field blk (pos + 4) 2) (streamPos + entrySize blk pos)
        have hsize : entrySize blk pos ≤ 264 := entrySize_le
        refine ⟨entrySize blk pos + t, by omega, fun offset count hoff => hval ?_⟩
        rw [← blockLoopT_val, blockLoopT_skip hlt hrec (by omega), val_bind, val_emit, Option.bind_some, blockLoopT_val,
          hrest offset count (by omega), Nat.add_assoc]
    · refine ⟨0, Nat.zero_le _, fun offset count _ => ?_⟩
      rw [blockLoop, if_neg hlt]
      rfl

/-- the cursor comes to each entry of a block, with nothing copied if the offset is behind all before it -/
theorem blockLoopT_reaches (h : Entry blk len pos) : ∃ t fuel, t ≤ 264 * pos ∧ len ≤ fuel + pos ∧
    ∀ offset count, streamPos + t ≤ offset → ∀ e ∈ (blockLoopT blk len offset count fuel pos [] (streamPos + t)).log,
      e ∈ (blockLoopT blk len offset count len 0 [] streamPos).log := by
  induction h with
  | first => exact ⟨0, len, Nat.zero_le _, Nat.le_refl _, fun _ _ _ _ => id⟩
  | @next pos _ hlt hrec ih =>
    obtain ⟨t, fuel, ht, hfuel, hlog⟩ := ih
    obtain ⟨fuel, rfl⟩ := Nat.exists_eq_succ_of_ne_zero (by omega : fuel ≠ 0)
    have hsize : entrySize blk pos ≤ 264 := entrySize_le
    refine ⟨t + entrySize blk pos, fuel, by omega, by omega, fun offset count hoff e he => ?_⟩
    refine hlog offset count (by omega) e ?_
    rw [blockLoopT_skip hlt hrec (by omega), log_bind val_emit, Nat.add_assoc]
    exact List.mem_append_right _ he

theorem blockLen_le (hlt : blkStart < di.size) : blockLen st di blkStart ≤ st.blockSize.toNat := by
  have hs := di.size.isLt
  have hb := st.blockSize.isLt
  have hend := BitVec.toNat_add blkStart st.blockSize
  rw [BitVec.lt_def] at hlt
  unfold blockLen
  dsimp only
  rw [BitVec.toNat_sub]
  split_ifs with hgt
  · rw [gt_iff_lt, BitVec.lt_def] at hgt
    omega
  · omega

/-- the scan comes to each block, likewise -/
theorem dirRunT_reaches (hn : n * st.blockSize.toNat < di.size.toNat)
    (hprev : ∀ m < n, (scanBlock st di (start st m)).isSome) : ∃ t ≤ 264 * (n * st.blockSize.toNat),
      ∀ offset count fuel, t ≤ offset → ∀ e ∈ (dirRunT st di offset count fuel (start st n) [] t).log,
        e ∈ (dirRunT st di offset count (n + fuel) 0 [] 0).log := by
  have hs := di.size.isLt
  induction n with
  | zero =>
    have h0 : start st 0 = 0 := by
      rw [start, Nat.zero_mul]
      rfl
    refine ⟨0, Nat.zero_le _, fun offset count fuel _ e he => ?_⟩
    rwa [h0, ← Nat.zero_add fuel] at he
  | succ n ih =>
    have hmul : (n + 1) * st.blockSize.toNat = n * st.blockSize.toNat + st.blockSize.toNat := Nat.succ_mul _ _
    obtain ⟨t, ht, hlog⟩ := ih (by omega) fun m hm => hprev m (Nat.lt_succ_of_lt hm)
    obtain ⟨blk, hblk⟩ := Option.isSome_iff_exists.1 (hprev n (Nat.lt_succ_self n))
    have hlt : start st n < di.size := (start_lt (by omega)).2 (by omega)
    have hlen : blockLen st di (start st n) ≤ st.blockSize.toNat := blockLen_le hlt
    obtain ⟨u, hu, hskip⟩ : ∃ u ≤ 264 * blockLen st di (start st n), ∀ offset count, t + u ≤ offset →
        blockLoop blk (blockLen st di (start st n)) offset count (blockLen st di (start st n)) 0 [] t =
          ([], t + u, false) := blockLoop_skip
    refine ⟨t + u, by omega, fun offset count fuel hoff e he => ?_⟩
    have hbefore := hlog offset count (fuel + 1) (by omega) e
    rw [dirRunT, if_pos hlt, hblk] at hbefore
    simp only at hbefore
    rw [log_bind (blockLoopT_val.trans (congrArg some (hskip offset count hoff)))] at hbefore
    rw [Nat.add_right_comm]
    refine hbefore (List.mem_append_right _ ?_)
    rwa [if_neg Bool.false_ne_true, start_succ]

theorem readdirT_safe {P : DirAccess → Prop} (hheap : st.heap = true) :
    Safe P (readdirT st di offset count fuel) ↔ Safe P (dirRunT st di offset count fuel 0 [] 0) := by
  unfold readdirT
  rw [hheap, if_neg (by decide), safe_bind]
  exact and_iff_left fun _ _ => safe_pure

theorem readdirT_val (hheap : st.heap = true) :
    (readdirT st di offset count fuel).val = (dirRun st di offset count fuel 0 [] 0).map some := by
  unfold readdirT
  rw [hheap, if_neg (by decide), val_bind, dirRunT_val]
  cases dirRun st di offset count fuel 0 [] 0 <;> rfl

/-- **The scan stays inside, exactly when.** On a volume of any block size, whatever is in the blocks of a directory:
all headers and names that are read lie in the block, and all that is written in the caller's buffer, for every offset
and count, if and only if the header and the name of every entry lie in the block. -/
theorem scan_inside_iff (h : Sized st k) : ScanInside st di ↔ (st.heap = true → EntriesInside st di) := by
  have hs := di.size.isLt
  cases hheap : st.heap with
  | false =>
    refine ⟨fun _ hh => (by cases hh), fun _ offset count fuel _ _ => ?_⟩
    unfold readdirT
    rw [if_pos hheap]
    exact ⟨safe_pure, fun out hout => (by cases hout)⟩
  | true =>
    have hbs := h.ge
    constructor
    · intro hall _ n blk hcomes hblk pos hentry hlt
      obtain ⟨hn, hprev⟩ := hcomes
      have hstart : start st n < di.size := (start_lt (by omega)).2 hn
      have hlen : blockLen st di (start st n) ≤ st.blockSize.toNat := blockLen_le hstart
      obtain ⟨t, ht, hblocks⟩ := dirRunT_reaches hn hprev
      obtain ⟨u, fuel, hu, hfuel, hentries⟩ := @blockLoopT_reaches blk _ pos t hentry
      obtain ⟨fuel, rfl⟩ := Nat.exists_eq_succ_of_ne_zero (by omega : fuel ≠ 0)
      -- the run with the offset at this entry, and room for any one record
      have hsafe := (hall (t + u) 264 (n + 1) (by omega) (by decide)).1
      rw [readdirT_safe hheap] at hsafe
      have hevents : ∀ e ∈ (blockLoopT blk (blockLen st di (start st n)) (t + u) 264 (fuel + 1) pos [] (t + u)).log,
          DirAccess.Inside st 264 e := by
        intro e he
        refine hsafe e (hblocks (t + u) 264 1 (Nat.le_add_right _ _) e ?_)
        rw [dirRunT, if_pos hstart, hblk]
        simp only
        rw [log_bind blockLoopT_val]
        exact List.mem_append_left _ (hentries (t + u) 264 le_rfl e he)
      rw [blockLoopT, if_pos hlt, log_bind val_emit] at hevents
      refine ⟨hevents (.header pos) (List.mem_append_left _ (List.mem_singleton_self _)), fun hrec hlive => ?_⟩
      have hname : field blk (pos + 6) 1 < 256 := field_lt
      refine hevents (.name (pos + 8) (field blk (pos + 6) 1)) (List.mem_append_right _ ?_)
      have hroom : ¬ ([] : List U8).length + (8 + field blk (pos + 6) 1 + 1) > 264 := by
        rw [List.length_nil]
        omega
      simp only [if_neg hrec, if_pos hlive, ge_iff_le, le_refl, if_true, if_neg hroom]
      rw [log_bind val_emit]
      exact List.mem_append_left _ (List.mem_singleton_self _)
    · intro hin offset count fuel _ _
      have h0 : start st 0 = 0 := by
        rw [start, Nat.zero_mul]
        rfl
      refine ⟨(readdirT_safe hheap).2 ?_, fun out hout => ?_⟩
      · rw [← h0]
        exact dirRunT_safe h (hin rfl) (by omega) fun m hm => absurd hm (Nat.not_lt_zero m)
      · rw [readdirT_val hheap] at hout
        obtain ⟨r, hr, hsome⟩ := Option.map_eq_some_iff.1 hout
        exact Option.some.inj hsome ▸ dirRun_length (Nat.zero_le _) hr

end Inside

theorem scan_inside_sample : ScanInside (volume (fun _ => 0) 0) ⟨1024, fun _ => 5⟩ ↔
    ((volume (fun _ => 0) 0).heap = true → EntriesInside (volume (fun _ => 0) 0) ⟨1024, fun _ => 5⟩) :=
  scan_inside_iff (k := 0) (volume_sized (Nat.zero_le _))

/-- block 5 begins with a record of 1020 bytes, and the rest of the disk is zero -/
def longRecord (i : ℕ) : U8 := if i = 5124 then 0xFC else if i = 5125 then 3 else 0

/-- the next header begins four bytes before the end of the block -/
theorem header_outside : Sized (volume longRecord 0) 0 ∧ ¬ ScanInside (volume longRecord 0) ⟨1024, fun _ => 5⟩ := by
  refine ⟨volume_sized (by decide), fun h => ?_⟩
  have hlog : (readdirT (volume longRecord 0) ⟨1024, fun _ => 5⟩ 0 512 1).log = [.header 0, .header 1020] := by
    decide +kernel
  have hin : 1020 + 8 ≤ 1024 := (h 0 512 1 (by decide) (by decide)).1 (.header 1020) (by rw [hlog]; simp)
  exact absurd hin (by decide)

end Retux.Ext2
