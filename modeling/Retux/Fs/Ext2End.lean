/-
Whether scans of an ext2 directory end (`ext2_readdir` in `fs/ext2.cpp`, `lookup_path` in `fs/vfs.cpp`).

The outer loop steps a 32-bit position by the block size towards a 32-bit size. If the size is above 2^32 less one block
no position is at or past it: after the last block of 4 GiB the position is 0 again. The loop then ends only at a block
that is not there, or when the caller's buffer is full, and a lookup of a name that is in no entry asks for more for
ever. `Endless` is such a directory.

All loops run on fuel, and the outer `none` is a run that has not ended; a driver's call may be such a run.

- `findNameRun_eq`, `lookupLoopRun_eq`: with a driver that answers, this is the lookup of `Fs/Vfs`;
- `dirRun_ends`, `dirRun_past`: in a directory with an end, the scan ends, and finds nothing past the end;
- `readdirRun_eq`: the scan is then the one of `Fs/Ext2`;
- `exists_absent`: some name is in no entry, whatever is in the blocks;
- `findNameRun_endless`: its lookup in an endless directory does not end;
- `scans_end_iff`: all scans and lookups of a volume end exactly if no inode of it is an endless directory.
-/
import Mathlib.Tactic
import Retux.Fs.Ext2Scan

namespace Retux.Ext2

open Retux.Word Retux.Bytes Retux.Str Retux.Vfs

/-! ## Lookups with a driver that may not answer -/

/-- the chunk loop of `lookup_path` -/
def findNameRun (readdir : ℕ → Option (Option (List U8))) (component : List U8) :
    ℕ → ℕ → (ℕ → U8) → Option (Option U64)
  | 0, _, _ => none
  | fuel + 1, offset, buf =>
    match readdir offset with
    | none => none
    | some none => some none
    | some (some page) =>
      if page = [] then some none
      else
        match scan (place page buf) page.length component page.length 0 with
        | some ino => some (some ino)
        | none => findNameRun readdir component fuel (offset + page.length) (place page buf)

section Lookup

variable {ι : Type} (getInode : U64 → Option ι) (readdir : ι → ℕ → ℕ → Option (Option (List U8))) (junk : ℕ → U8)
  (fuel : ℕ)

def lookupNameRun (cur : ι) (comp : List U8) : Option (Option ι) :=
  (findNameRun (fun offset => readdir cur offset CHUNK_SIZE) comp fuel 0 junk).map fun found => found.bind getInode

/-- the loop of `lookup_path`; a round takes at least one byte of the path -/
def lookupLoopRun : ℕ → ι → List U8 → Option (Option ι)
  | 0, cur, _ => some (some cur)
  | n + 1, cur, path =>
    if path = [] then some (some cur)
    else
      let rest := (component 255 path).2
      let rest := if rest.head? = some SLASH then rest.tail else rest
      match lookupNameRun getInode readdir junk fuel cur (component 255 path).1 with
      | none => none
      | some none => some none
      | some (some next) => lookupLoopRun n next rest

def lookupPathRun (root : ι) (path : List U8) : Option (Option ι) :=
  let path := path.dropWhile (· = SLASH)
  lookupLoopRun getInode readdir junk fuel path.length root path

end Lookup

/-- `ext2_readdir`; the inner none is -1 -/
def readdirRun (st : Ext2State) (fuel : ℕ) (di : Ext2Inode) (offset count : ℕ) : Option (Option (List U8)) :=
  if st.heap = false then some none else (dirRun st di offset count fuel 0 [] 0).map some

/-- every block that a 32-bit position can name is there, and none of them is the last -/
structure Endless (st : Ext2State) (di : Ext2Inode) : Prop where
  heap : st.heap = true
  size : 2 ^ 32 < di.size.toNat + st.blockSize.toNat
  blocks : ∀ n, n * st.blockSize.toNat < 2 ^ 32 → (scanBlock st di (start st n)).isSome

/-- every scan of a directory, and every lookup from it on, ends -/
def ScansEnd (st : Ext2State) (getInode : U64 → Option Ext2Inode) : Prop :=
  ∀ ino di, getInode ino = some di → (∀ offset count, ∃ fuel, (readdirRun st fuel di offset count).isSome) ∧
    ∀ path junk, ∃ fuel, (lookupPathRun getInode (readdirRun st fuel) junk fuel di path).isSome

section Same

variable {ι : Type} {sb : SuperBlock ι} {read : ℕ → Option (List U8)} {comp path : List U8} {buf junk : ℕ → U8}
  {fuel n offset : ℕ} {cur : ι}

theorem findNameRun_eq : findNameRun (fun o => some (read o)) comp fuel offset buf =
    findName read comp fuel offset buf := by
  induction fuel generalizing offset buf with
  | zero => rfl
  | succ fuel ih =>
    rw [findNameRun, findName]
    cases read offset with
    | none => rfl
    | some page =>
      refine if_congr Iff.rfl rfl ?_
      cases scan (place page buf) page.length comp page.length 0 with
      | none => exact ih
      | some ino => rfl

theorem lookupLoopRun_eq :
    lookupLoopRun sb.getInode (fun i offset count => some (sb.readdir i offset count)) junk fuel n cur path =
      lookupLoop sb junk fuel n cur path := by
  induction n generalizing cur path with
  | zero => rfl
  | succ n ih =>
    have hname {comp : List U8} : lookupNameRun sb.getInode (fun i offset count => some (sb.readdir i offset count)) junk
        fuel cur comp = lookupName sb junk fuel cur comp := congrArg _ findNameRun_eq
    rw [lookupLoopRun, lookupLoop, hname]
    refine if_congr Iff.rfl rfl ?_
    cases lookupName sb junk fuel cur (component 255 path).1 with
    | none => rfl
    | some found =>
      cases found with
      | none => rfl
      | some next => simp only [ih]

end Same

/-! ## Directories with an end -/

/-- block n is where the scan stops: past the end of the directory, or not there -/
structure Stop (st : Ext2State) (di : Ext2Inode) (n : ℕ) : Prop where
  lt : n * st.blockSize.toNat < 2 ^ 32
  stop : di.size.toNat ≤ n * st.blockSize.toNat ∨ scanBlock st di (start st n) = none

section Ends

variable {st : Ext2State} {di : Ext2Inode} {k m n offset count fuel streamPos : ℕ} {out r : List U8}

theorem exists_stop (h : Sized st k) (hheap : st.heap = true) (hend : ¬ Endless st di) :
    ∃ n ≤ di.size.toNat, Stop st di n := by
  have hge := h.ge
  have hsize := di.size.isLt
  obtain ⟨n, hn⟩ : ∃ n, Stop st di n := by
    by_cases hroom : 2 ^ 32 < di.size.toNat + st.blockSize.toNat
    · obtain ⟨n, hn⟩ := not_forall.1 fun hall => hend ⟨hheap, hroom, hall⟩
      rw [Classical.not_imp, Option.not_isSome_iff_eq_none] at hn
      exact ⟨n, hn.1, Or.inr hn.2⟩
    · -- the first multiple of the block size at or past the end
      have hdiv := Nat.div_add_mod (di.size.toNat + st.blockSize.toNat - 1) st.blockSize.toNat
      have hmod := Nat.mod_lt (di.size.toNat + st.blockSize.toNat - 1) (by omega : 0 < st.blockSize.toNat)
      rw [Nat.mul_comm] at hdiv
      exact ⟨(di.size.toNat + st.blockSize.toNat - 1) / st.blockSize.toNat, by omega, Or.inl (by omega)⟩
  by_cases hle : n ≤ di.size.toNat
  · exact ⟨n, hle, hn⟩
  · have hpast : di.size.toNat * 1 ≤ di.size.toNat * st.blockSize.toNat := Nat.mul_le_mul_left _ (by omega)
    have hbefore : di.size.toNat * st.blockSize.toNat ≤ n * st.blockSize.toNat :=
      Nat.mul_le_mul_right _ (Nat.le_of_not_le hle)
    exact ⟨di.size.toNat, le_rfl, lt_of_le_of_lt hbefore hn.lt, Or.inl (by omega)⟩

/-- where a block is there, the stop is a later one -/
theorem Stop.later (hs : Stop st di n) (hm : m ≤ n) (hlt : start st m < di.size) {blk : ℕ → U8}
    (hblk : scanBlock st di (start st m) = some blk) : m < n := by
  refine lt_of_le_of_ne hm ?_
  rintro rfl
  rcases hs.stop with hpast | hnone
  · exact Nat.not_lt.2 hpast ((start_lt hs.lt).1 hlt)
  · rw [hblk] at hnone
    cases hnone

/-- the scan ends -/
theorem dirRun_ends (hs : Stop st di n) (hm : m ≤ n) (hf : n - m < fuel) :
    (dirRun st di offset count fuel (start st m) out streamPos).isSome := by
  induction fuel generalizing m out streamPos with
  | zero => exact absurd hf (Nat.not_lt_zero _)
  | succ fuel ih =>
    rw [dirRun]
    split_ifs with hlt
    · cases hblk : scanBlock st di (start st m) with
      | none => rfl
      | some blk =>
        simp only
        split_ifs
        · rfl
        · have hlater := hs.later hm hlt hblk
          rw [start_succ]
          exact ih (by omega) (by omega)
    · rfl

/-- nothing past the end of the stream -/
theorem dirRun_past (hs : Stop st di n) (hm : m ≤ n) (hpos : streamPos ≤ 264 * (m * st.blockSize.toNat))
    (hoff : 264 * 2 ^ 32 ≤ offset) (hr : dirRun st di offset count fuel (start st m) [] streamPos = some r) : r = [] := by
  induction fuel generalizing m streamPos with
  | zero => cases hr
  | succ fuel ih =>
    rw [dirRun] at hr
    split_ifs at hr with hlt
    · cases hblk : scanBlock st di (start st m) with
      | none =>
        rw [hblk] at hr
        exact (Option.some.inj hr).symm
      | some blk =>
        have hlater : m < n := hs.later hm hlt hblk
        have hmul : (m + 1) * st.blockSize.toNat = m * st.blockSize.toNat + st.blockSize.toNat := Nat.succ_mul _ _
        have hle : (m + 1) * st.blockSize.toNat ≤ n * st.blockSize.toNat := Nat.mul_le_mul_right _ hlater
        have hlen : blockLen st di (start st m) ≤ st.blockSize.toNat := blockLen_le hlt
        have hbefore := hs.lt
        obtain ⟨t, ht, hskip⟩ : ∃ t ≤ 264 * blockLen st di (start st m), ∀ offset count, streamPos + t ≤ offset →
            blockLoop blk (blockLen st di (start st m)) offset count (blockLen st di (start st m)) 0 [] streamPos =
              ([], streamPos + t, false) := blockLoop_skip
        rw [hblk] at hr
        simp only [hskip offset count (by omega), Bool.false_eq_true, if_false] at hr
        rw [start_succ] at hr
        have hnext : m + 1 ≤ n := hlater
        exact ih hnext (by omega) hr
    · exact (Option.some.inj hr).symm

theorem start_zero : start st 0 = 0 := by
  rw [start, Nat.zero_mul]
  rfl

/-- with an end, the run is the scan of `Fs/Ext2` -/
theorem readdirRun_eq (h : Sized st k) (hend : ¬ Endless st di) :
    readdirRun st (di.size.toNat + 1) di offset count = some (ext2Readdir st di offset count) := by
  unfold readdirRun ext2Readdir
  cases hheap : st.heap with
  | false => rfl
  | true =>
    obtain ⟨n, hn, hs⟩ := exists_stop h hheap hend
    have hrun : (dirRun st di offset count (di.size.toNat + 1) (start st 0) [] 0).isSome :=
      dirRun_ends hs (Nat.zero_le _) (by omega)
    obtain ⟨r, hr⟩ := Option.isSome_iff_exists.1 hrun
    rw [start_zero] at hr
    rw [if_neg (by decide), if_neg (by decide), hr, dirRun_dirLoop hr]
    rfl

/-- rounds enough for any scan, and for any lookup in one directory -/
def ROUNDS : ℕ := 265 * 2 ^ 32

theorem readdirRun_ends (h : Sized st k) (hend : ¬ Endless st di) : (readdirRun st ROUNDS di offset count).isSome := by
  unfold readdirRun
  cases hheap : st.heap with
  | false => rfl
  | true =>
    obtain ⟨n, hn, hs⟩ := exists_stop h hheap hend
    have hsize := di.size.isLt
    have hrun : (dirRun st di offset count ROUNDS (start st 0) [] 0).isSome :=
      dirRun_ends hs (Nat.zero_le _) (by unfold ROUNDS; omega)
    rw [start_zero] at hrun
    rw [if_neg (by decide), Option.isSome_map]
    exact hrun

/-- a lookup takes at least a byte of the stream in each round -/
theorem findNameRun_ends (h : Sized st k) (hend : ¬ Endless st di) {comp : List U8} {buf : ℕ → U8}
    (hf : 264 * 2 ^ 32 - offset < fuel) :
    (findNameRun (fun o => readdirRun st ROUNDS di o CHUNK_SIZE) comp fuel offset buf).isSome := by
  induction fuel generalizing offset buf with
  | zero => exact absurd hf (Nat.not_lt_zero _)
  | succ fuel ih =>
    rw [findNameRun]
    have hrun : (readdirRun st ROUNDS di offset CHUNK_SIZE).isSome := readdirRun_ends h hend
    obtain ⟨ret, hret⟩ := Option.isSome_iff_exists.1 hrun
    rw [hret]
    cases ret with
    | none => rfl
    | some page =>
      simp only
      split_ifs with hpage
      · rfl
      · cases scan (Vfs.place page buf) page.length comp page.length 0 with
        | some ino => rfl
        | none =>
          have hbefore : offset < 264 * 2 ^ 32 := by
            by_contra hpast
            unfold readdirRun at hret
            cases hheap : st.heap with
            | false => simp [hheap] at hret
            | true =>
              obtain ⟨n, hn, hs⟩ := exists_stop h hheap hend
              rw [if_neg (by simp [hheap])] at hret
              obtain ⟨r, hr, hsome⟩ := Option.map_eq_some_iff.1 hret
              have h0 : start st 0 = 0 := start_zero
              rw [← h0] at hr
              have hnil := dirRun_past hs (Nat.zero_le _) (Nat.zero_le _) (Nat.le_of_not_lt hpast) hr
              exact hpage (Option.some.inj hsome ▸ hnil)
          have hlen := List.length_pos_iff.2 hpage
          exact ih (by omega)

/-- a walk down a path -/
theorem lookupLoopRun_ends (h : Sized st k) {getInode : U64 → Option Ext2Inode}
    (hend : ∀ ino di, getInode ino = some di → ¬ Endless st di) (hdi : ¬ Endless st di) {junk : ℕ → U8} {path : List U8} :
    (lookupLoopRun getInode (readdirRun st ROUNDS) junk ROUNDS n di path).isSome := by
  induction n generalizing di path with
  | zero => rfl
  | succ n ih =>
    rw [lookupLoopRun]
    split_ifs with hnil
    · rfl
    · have hrun : (findNameRun (fun o => readdirRun st ROUNDS di o CHUNK_SIZE) (component 255 path).1 ROUNDS 0
          junk).isSome := findNameRun_ends h hdi (by unfold ROUNDS; omega)
      obtain ⟨found, hfound⟩ := Option.isSome_iff_exists.1 hrun
      simp only [lookupNameRun, hfound, Option.map_some]
      cases hnext : found.bind getInode with
      | none => rfl
      | some next =>
        obtain ⟨ino, -, hino⟩ := Option.bind_eq_some_iff.1 hnext
        exact ih (hend ino next hino)

end Ends

/-! ## A name in no entry -/

/-- the bytes cs are nowhere in buf -/
def Absent (cs : List U8) (buf : ℕ → U8) : Prop := ∀ q, ¬ Holds buf q cs

/-- they are nowhere in a list, which ends in NUL if it is not empty -/
structure Clear (cs xs : List U8) : Prop where
  absent : Absent cs fun i => xs.getD i 0
  stop : ∀ i, i + 1 = xs.length → xs.getD i 0 = 0

section Absent

variable {cs xs ys name : List U8} {buf f : ℕ → U8} {p q bytes fuel : ℕ}

theorem Holds.text (h0 : 0 ∉ cs) (h : Holds f q cs) {i : ℕ} (hlo : q ≤ i) (hhi : i < q + cs.length) : f i ≠ 0 := by
  obtain ⟨d, rfl⟩ := Nat.exists_eq_add_of_le hlo
  rw [h d (by omega)]
  exact fun heq => h0 (heq ▸ List.getElem_mem _)

/-- two parts with a NUL at the end of the first -/
theorem absent_parts (len : ℕ) (h0 : 0 ∉ cs) (hleft : ∀ q, q + cs.length ≤ len → ¬ Holds f q cs) (hright : ∀ q ≥ len, ¬ Holds f q cs)
    (hstop : ∀ i, i + 1 = len → f i = 0) : Absent cs f := by
  intro q hq
  by_cases hr : q ≥ len
  · exact hright q hr hq
  · by_cases hl : q + cs.length ≤ len
    · exact hleft q hl hq
    · exact Holds.text h0 hq (by omega : q ≤ len - 1) (by omega) (hstop _ (by omega))

theorem Holds.congr {g : ℕ → U8} (h : Holds f q cs) (hfg : ∀ i < cs.length, g (p + i) = f (q + i)) : Holds g p cs :=
  fun i hi => (hfg i hi).trans (h i hi)

theorem Clear.nil (hne : cs ≠ []) (h0 : 0 ∉ cs) : Clear cs [] := by
  refine ⟨fun q hq => ?_, fun i hi => absurd hi (by simp)⟩
  exact Holds.text h0 hq le_rfl (Nat.lt_add_of_pos_right (List.length_pos_iff.2 hne)) (by simp)

theorem Clear.append (h0 : 0 ∉ cs) (hx : Clear cs xs) (hy : Clear cs ys) (hne : ys ≠ []) : Clear cs (xs ++ ys) := by
  have hl : ∀ i < xs.length, (xs ++ ys).getD i 0 = xs.getD i 0 := fun i hi => List.getD_append _ _ _ _ hi
  have hr : ∀ i, (xs ++ ys).getD (xs.length + i) 0 = ys.getD i 0 := fun i => by
    rw [List.getD_append_right _ _ _ _ (Nat.le_add_right _ _), Nat.add_sub_cancel_left]
  have hpos := List.length_pos_iff.2 hne
  refine ⟨absent_parts xs.length h0 (fun q hq hold => ?_) (fun q hq hold => ?_) fun i hi => ?_, fun i hi => ?_⟩
  · exact hx.absent q (Holds.congr hold fun i hi => (hl _ (by omega)).symm)
  · obtain ⟨d, rfl⟩ := Nat.exists_eq_add_of_le hq
    exact hy.absent d (Holds.congr hold fun i hi => by rw [Nat.add_assoc, hr])
  · rw [hl i (by omega)]
    exact hx.stop i hi
  · rw [List.length_append] at hi
    obtain ⟨d, rfl⟩ := Nat.exists_eq_add_of_le (by omega : xs.length ≤ i)
    rw [hr]
    exact hy.stop d (by omega)

/-- a record whose name does not hold them -/
theorem clear_record {inode : ℕ} (h0 : 0 ∉ cs) (hlen : 4 < cs.length) (hino : inode < 2 ^ 32)
    (hname : ∀ q, q + cs.length ≤ name.length → ¬ Holds (fun i => name.getD i 0) q cs) :
    Clear cs (le 8 (BitVec.ofNat 64 inode) ++ name ++ [0]) := by
  rw [List.append_assoc]
  obtain ⟨f, hf⟩ : ∃ f : ℕ → U8, f = fun i => (le 8 (BitVec.ofNat 64 inode) ++ (name ++ [0])).getD i 0 := ⟨_, rfl⟩
  have hhigh : ∀ i, 4 ≤ i → i < 8 → f i = 0 := fun i hlo hhi => by
    have hw : (BitVec.ofNat 64 inode).toNat < 256 ^ i := by
      have hpow : 256 ^ 4 ≤ 256 ^ i := Nat.pow_le_pow_right (by decide) hlo
      rw [BitVec.toNat_ofNat]
      exact lt_of_le_of_lt (Nat.mod_le _ _) (by omega)
    have hi : i < (le 8 (BitVec.ofNat 64 inode)).length := by rwa [length_le]
    rw [hf]
    refine (List.getD_append _ _ _ _ hi).trans ?_
    rw [List.getD_eq_getElem _ _ hi]
    simp only [le, List.getElem_map, List.getElem_range]
    apply BitVec.eq_of_toNat_eq
    rw [byteOf_toNat, Nat.div_eq_of_lt hw]
    rfl
  have hrest : ∀ j, f (8 + j) = (name ++ [0]).getD j 0 := fun j => by
    have hle : (le 8 (BitVec.ofNat 64 inode)).length ≤ 8 + j := by
      rw [length_le]
      exact Nat.le_add_right _ _
    rw [hf]
    refine (List.getD_append_right _ _ _ _ hle).trans ?_
    rw [length_le, Nat.add_sub_cancel_left]
  have hname' : ∀ j < name.length, f (8 + j) = name.getD j 0 := fun j hj =>
    (hrest j).trans (List.getD_append _ _ _ _ hj)
  have hend : ∀ j ≥ name.length, f (8 + j) = 0 := fun j hj => by
    rw [hrest, List.getD_append_right _ _ _ _ hj]
    cases j - name.length <;> rfl
  refine ⟨fun q hq => ?_, fun i hi => ?_⟩
  · rw [← hf] at hq
    have htext : ∀ i, q ≤ i → i < q + cs.length → f i ≠ 0 := fun i => Holds.text h0 hq
    rcases Nat.lt_or_ge q 8 with hlo | hhi
    · -- the upper half of the inode number is in the way
      rcases Nat.lt_or_ge q 4 with hlt | hge
      · exact htext 4 hlt.le (by omega) (hhigh 4 le_rfl (by decide))
      · exact htext q le_rfl (by omega) (hhigh q hge hlo)
    · obtain ⟨d, rfl⟩ := Nat.exists_eq_add_of_le hhi
      rcases Nat.lt_or_ge name.length (d + cs.length) with hlong | hfits
      · rcases Nat.lt_or_ge d name.length with hlt | hge
        · exact htext (8 + name.length) (by omega) (by omega) (hend _ le_rfl)
        · exact htext (8 + d) le_rfl (by omega) (hend d hge)
      · refine hname d hfits (Holds.congr hq fun i hi => ?_)
        rw [Nat.add_assoc, hname' (d + i) (by omega)]
  · rw [List.length_append, List.length_append, length_le, List.length_singleton] at hi
    obtain rfl : i = 8 + name.length := by omega
    exact (congrFun hf _).symm.trans (hend _ le_rfl)

theorem absent_place (h0 : 0 ∉ cs) (hx : Clear cs xs) (hbuf : Absent cs buf) : Absent cs (Vfs.place xs buf) := by
  have hl : ∀ i < xs.length, Vfs.place xs buf i = xs.getD i 0 := fun i hi => by
    rw [Vfs.place, List.getD_eq_getElem _ _ hi, List.getD_eq_getElem _ _ hi]
  have hr : ∀ i ≥ xs.length, Vfs.place xs buf i = buf i := fun i hi => List.getD_eq_default _ _ hi
  refine absent_parts xs.length h0 (fun q hq hold => ?_) (fun q hq hold => ?_) fun i hi => ?_
  · exact hx.absent q (Holds.congr hold fun i hi => (hl _ (by omega)).symm)
  · exact hbuf q (Holds.congr hold fun i _ => (hr _ (by omega)).symm)
  · rw [hl i (by omega)]
    exact hx.stop i hi

theorem strcmp_holds (h0 : 0 ∉ cs) (h : strcmp buf p cs = 0) : Holds buf p cs := by
  induction cs generalizing p with
  | nil => exact fun i hi => absurd hi (Nat.not_lt_zero i)
  | cons c cs ih =>
    rw [strcmp] at h
    have hc : c ≠ 0 := fun hc => h0 (hc ▸ List.mem_cons_self ..)
    split_ifs at h with heq
    · have hrest := ih (fun hz => h0 (List.mem_cons_of_mem _ hz)) h
      intro i hi
      cases i with
      | zero => exact heq.2
      | succ i =>
        rw [List.getElem_cons_succ, Nat.add_comm i, ← Nat.add_assoc]
        exact hrest i _
    · have hbyte : buf p = c := BitVec.eq_of_toNat_eq (by omega)
      exact absurd ⟨fun hz => hc (hbyte ▸ hz), hbyte⟩ heq

theorem scan_absent (h0 : 0 ∉ cs) (hbuf : Absent cs buf) : scan buf bytes cs fuel p = none := by
  induction fuel generalizing p with
  | zero => rfl
  | succ fuel ih =>
    rw [scan]
    split_ifs with _ heq
    · exact absurd (strcmp_holds h0 heq) (hbuf _)
    · exact ih
    · rfl

/-- **A name in none of 2^33 places.** There are 2^40 names of forty bytes 1 or 2. -/
theorem exists_absent (s : ℕ → ℕ → U8) : ∃ cs : List U8, cs.length = 40 ∧ (∀ c ∈ cs, c = 1 ∨ c = 2) ∧
    ∀ x < 2 ^ 33, ¬ Holds (s x) 0 cs := by
  -- the names that the places hold, as choices of 1 or 2
  let g : ℕ → Fin 40 → Bool := fun x i => decide (s x i = 2)
  obtain ⟨v, hv⟩ : ∃ v, v ∉ (Finset.range (2 ^ 33)).image g := by
    by_contra hall
    have hcard : Fintype.card (Fin 40 → Bool) ≤ 2 ^ 33 :=
      calc Fintype.card (Fin 40 → Bool) = (Finset.univ : Finset (Fin 40 → Bool)).card := rfl
        _ ≤ ((Finset.range (2 ^ 33)).image g).card :=
          Finset.card_le_card fun v _ => not_not.1 fun hv => hall ⟨v, hv⟩
        _ ≤ (Finset.range (2 ^ 33)).card := Finset.card_image_le
        _ = 2 ^ 33 := Finset.card_range _
    rw [Fintype.card_fun, Fintype.card_bool, Fintype.card_fin] at hcard
    exact absurd hcard (by norm_num)
  refine ⟨List.ofFn fun i => if v i then 2 else 1, List.length_ofFn, fun c hc => ?_, fun x hx hold => ?_⟩
  · obtain ⟨i, rfl⟩ := List.mem_ofFn.1 hc
    by_cases hvi : v i = true <;> simp [hvi]
  · refine hv (Finset.mem_image.2 ⟨x, Finset.mem_range.2 hx, funext fun i => ?_⟩)
    have hi := hold i.val (by rw [List.length_ofFn]; exact i.isLt)
    rw [Nat.zero_add, List.getElem_ofFn] at hi
    cases hvi : v i with
    | true => simpa [g, hvi] using hi
    | false =>
      have hone : s x i = 1 := by simpa [hvi] using hi
      simp [g, hone]

end Absent

/-! ## Endless directories -/

section Endless

variable {st : Ext2State} {di : Ext2Inode} {blk buf : ℕ → U8} {k len m n offset count pos fuel streamPos : ℕ}
  {cs out r : List U8}

/-- the bytes cs are in none of the names that a block can give -/
def NoName (st : Ext2State) (cs : List U8) (blk : ℕ → U8) : Prop := ∀ q < 2 * st.blockSize.toNat, ¬ Holds blk q cs

/-- whatever is in the blocks, there is a name in none of them -/
theorem exists_noName (h : Sized st k) (di : Ext2Inode) : ∃ cs : List U8, cs.length = 40 ∧ (∀ c ∈ cs, c = 1 ∨ c = 2) ∧
    ∀ n blk, n * st.blockSize.toNat < 2 ^ 32 → scanBlock st di (start st n) = some blk → NoName st cs blk := by
  have hge := h.ge
  -- place q of block n, as a number below 2^33
  obtain ⟨cs, hlen, hbytes, hcs⟩ := exists_absent fun x i =>
    ((scanBlock st di (start st (x / (2 * st.blockSize.toNat)))).getD fun _ => 0) (x % (2 * st.blockSize.toNat) + i)
  refine ⟨cs, hlen, hbytes, fun n blk hn hblk q hq hold => ?_⟩
  have hle := h.next_le hn
  have hmul : 2 * st.blockSize.toNat * n = 2 * (n * st.blockSize.toNat) := by ring
  refine hcs (2 * st.blockSize.toNat * n + q) (by omega) fun i hi => ?_
  rw [Nat.mul_add_div (by omega), Nat.mul_add_mod, Nat.div_eq_of_lt hq, Nat.mod_eq_of_lt hq, Nat.add_zero, hblk,
    Nat.zero_add]
  exact hold i hi

/-- records of a block -/
theorem blockLoop_clear (h : Sized st k) (h0 : 0 ∉ cs) (hcs : 4 < cs.length) (hblk : NoName st cs blk)
    (hlen : len ≤ st.blockSize.toNat) (hout : Clear cs out) :
    Clear cs (blockLoop blk len offset count fuel pos out streamPos).1 := by
  have hge := h.ge
  induction fuel generalizing pos out streamPos with
  | zero => exact hout
  | succ fuel ih =>
    rw [blockLoop]
    simp only
    split_ifs with hlt
    · exact hout
    · exact hout
    · refine ih (Clear.append h0 hout (clear_record h0 hcs field_lt fun q hq hold => ?_) (by simp))
      rw [List.length_map, List.length_range] at hq
      have hbyte : field blk (pos + 6) 1 < 256 := field_lt
      refine hblk (pos + 8 + q) (by omega) (Holds.congr hold fun i hi => ?_)
      rw [List.getD_eq_getElem _ _ (by rw [List.length_map, List.length_range]; omega), List.getElem_map,
        List.getElem_range, Nat.add_assoc (pos + 8)]
    · exact ih hout
    · exact ih hout
    · exact hout

/-- a buffer of a chunk is full only with a record in it -/
theorem blockLoop_full (hfull : (blockLoop blk len offset CHUNK_SIZE fuel pos out streamPos).2.2 = true) :
    (blockLoop blk len offset CHUNK_SIZE fuel pos out streamPos).1 ≠ [] := by
  induction fuel generalizing pos out streamPos with
  | zero => cases hfull
  | succ fuel ih =>
    rw [blockLoop] at hfull ⊢
    simp only at hfull ⊢
    split_ifs at hfull ⊢ with hlt hrec hlive hoff hroom
    · rintro rfl
      have hbyte : field blk (pos + 6) 1 < 256 := field_lt
      rw [List.length_nil, CHUNK_SIZE] at hroom
      omega
    · exact ih hfull
    · exact ih hfull
    · exact ih hfull

/-- a scan of an endless directory ends with a full buffer, if at all -/
theorem dirRun_endless (h : Sized st k) (hend : Endless st di) (h0 : 0 ∉ cs) (hcs : 4 < cs.length)
    (hno : ∀ n blk, n * st.blockSize.toNat < 2 ^ 32 → scanBlock st di (start st n) = some blk → NoName st cs blk)
    (hn : n * st.blockSize.toNat < 2 ^ 32) (hout : Clear cs out)
    (hr : dirRun st di offset CHUNK_SIZE fuel (start st n) out streamPos = some r) : r ≠ [] ∧ Clear cs r := by
  induction fuel generalizing n out streamPos with
  | zero => cases hr
  | succ fuel ih =>
    obtain ⟨blk, hblk⟩ := Option.isSome_iff_exists.1 (hend.blocks n hn)
    have hsize := hend.size
    have hle := h.next_le hn
    have hlt : start st n < di.size := (start_lt hn).2 (by omega)
    rw [dirRun, if_pos hlt, hblk] at hr
    simp only at hr
    have hclear : Clear cs (blockLoop blk (blockLen st di (start st n)) offset CHUNK_SIZE (blockLen st di (start st n)) 0
      out streamPos).1 := blockLoop_clear h h0 hcs (hno n blk hn hblk) (blockLen_le hlt) hout
    split_ifs at hr with hfull
    · obtain rfl := Option.some.inj hr
      exact ⟨blockLoop_full hfull, hclear⟩
    · rw [start_succ] at hr
      rcases start_next h hn with hlt' | hwrap
      · exact ih hlt' hclear hr
      · rw [hwrap] at hr
        exact ih (by omega) hclear hr

/-- **A lookup without an end.** -/
theorem findNameRun_endless (h : Sized st k) (hend : Endless st di) (h0 : 0 ∉ cs) (hcs : 4 < cs.length)
    (hno : ∀ n blk, n * st.blockSize.toNat < 2 ^ 32 → scanBlock st di (start st n) = some blk → NoName st cs blk)
    (hbuf : Absent cs buf) : findNameRun (fun o => readdirRun st m di o CHUNK_SIZE) cs fuel offset buf = none := by
  induction fuel generalizing offset buf with
  | zero => rfl
  | succ fuel ih =>
    rw [findNameRun]
    have hread : readdirRun st m di offset CHUNK_SIZE = (dirRun st di offset CHUNK_SIZE m (start st 0) [] 0).map some := by
      unfold readdirRun
      rw [hend.heap, if_neg (by decide), start_zero]
    rw [hread]
    cases hr : dirRun st di offset CHUNK_SIZE m (start st 0) [] 0 with
    | none => rfl
    | some page =>
      obtain ⟨hne, hclear⟩ := dirRun_endless h hend h0 hcs hno (by omega)
        (Clear.nil (List.length_pos_iff.1 (by omega)) h0) hr
      have hplace := absent_place h0 hclear hbuf
      simp only [Option.map_some, if_neg hne, scan_absent h0 hplace]
      exact ih hplace

theorem not_scansEnd (h : Sized st k) {getInode : U64 → Option Ext2Inode} (ino : U64) (hdi : getInode ino = some di)
    (hend : Endless st di) : ¬ ScansEnd st getInode := by
  intro hall
  obtain ⟨cs, hlen, hbytes, hno⟩ := exists_noName h di
  have hne : cs ≠ [] := List.length_pos_iff.1 (by omega)
  have h0 : 0 ∉ cs := fun hz => (hbytes 0 hz).elim (by decide) (by decide)
  have hslash : SLASH ∉ cs := fun hz => (hbytes SLASH hz).elim (by decide) (by decide)
  obtain ⟨fuel, hfuel⟩ := (hall ino di hdi).2 cs fun _ => 0
  have hpath : cs.dropWhile (· = SLASH) = cs := by
    cases cs with
    | nil => rfl
    | cons c cs =>
      have hc : c ≠ SLASH := fun hc => hslash (hc ▸ List.mem_cons_self ..)
      exact List.dropWhile_cons_of_neg (by simpa using hc)
  have hcomp : component 255 (cs ++ []) = (cs, []) := component_append hslash (by omega) (Or.inl rfl)
  rw [List.append_nil] at hcomp
  have hzero : Absent cs fun _ => 0 := fun q hold => Holds.text h0 hold le_rfl (by omega) rfl
  rw [lookupPathRun, hpath, hlen, lookupLoopRun, if_neg hne] at hfuel
  simp only [hcomp, lookupNameRun, findNameRun_endless h hend h0 (by omega) hno hzero] at hfuel
  cases hfuel

/-- **Scans end, exactly when.** On a volume of any block size, with anything on the disk: every scan of a directory, and
every lookup of a path from any inode on, ends if and only if no inode of the volume is an endless directory. -/
theorem scans_end_iff (h : Sized st k) (getInode : U64 → Option Ext2Inode) :
    ScansEnd st getInode ↔ ∀ ino di, getInode ino = some di → ¬ Endless st di :=
  ⟨fun hall ino _ hdi hend => not_scansEnd h ino hdi hend hall, fun hend ino di hdi =>
    ⟨fun _ _ => ⟨ROUNDS, readdirRun_ends h (hend ino di hdi)⟩,
      fun _ _ => ⟨ROUNDS, lookupLoopRun_ends h hend (hend ino di hdi)⟩⟩⟩

end Endless

/-- a directory of one block -/
theorem scans_end_sample : ScansEnd (volume (fun _ => 0) 0) (fun _ => some ⟨1024, fun _ => 5⟩) ↔
    ∀ ino di, (fun _ : U64 => some (⟨1024, fun _ => 5⟩ : Ext2Inode)) ino = some di →
      ¬ Endless (volume (fun _ => 0) 0) di :=
  scans_end_iff (k := 0) (volume_sized (Nat.zero_le _)) _

/-- a disk where every byte is 1 -/
def ones : Ext2State := volume (fun _ => 1) 0

/-- a directory of the largest size -/
def largest : Ext2Inode := ⟨0xFFFFFFFF, fun _ => 5⟩

theorem leaf_ones {level n : ℕ} {no : U32} (hno : no ≠ 0) : leaf ones level no n ≠ 0 := by
  induction level generalizing no n with
  | zero => exact hno
  | succ level ih =>
    have hfield : field (fun _ => 1) (4 * (n / perBlock ones ^ level)) 4 = 0x01010101 := by simp [field, ofLe]
    have hptr : pointer ones no (n / perBlock ones ^ level) = BitVec.ofNat 32 (field (fun _ => 1) _ 4) := if_neg hno
    rw [leaf, hptr, hfield]
    exact ih (by decide)

/-- every pointer is a block, so the directory has no end -/
theorem endless_directory : Sized ones 0 ∧ ¬ ScansEnd ones fun _ => some largest := by
  have hsized : Sized ones 0 := volume_sized (by decide)
  refine ⟨hsized, not_scansEnd hsized 2 rfl ⟨rfl, by decide, fun n hn => ?_⟩⟩
  have hdiv : (start ones n / 1024).toNat * 1024 < 2 ^ 32 := by
    have hlt := (start ones n).isLt
    rw [BitVec.toNat_udiv]
    exact lt_of_le_of_lt (Nat.div_mul_le_self _ _) hlt
  obtain ⟨heq, ⟨entry, level, i, hroute, -⟩, -⟩ :
      resolveBlock ones largest _ = blockOf ones largest _ ∧ _ ∧ _ := resolveBlock_spec hsized hdiv
  have hne : resolveBlock ones largest (start ones n / 1024) ≠ 0 := by
    rw [heq, blockOf, hroute]
    have hfive : (5 : U32) ≠ 0 := by decide
    exact leaf_ones hfive
  have hblk : scanBlock ones largest (start ones n) =
      readBlock ones _ := if_neg hne
  rw [hblk]
  rfl

end Retux.Ext2
