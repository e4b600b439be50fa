/-
Partition tables (`fs/partition.cpp`).

`scan` reads the MBR in sector 0 and, where that is only protective, the GUID partition table: a header in sector 1 and
an array of entries. It fetches each entry by itself, from a sector and an index in it that it computes by division.
The disk is a parameter: a read gives sectors or fails. `none` is a division by zero, and `log` keeps where each entry
was read (ghost).

- `place_eq`: where an entry is in one piece, the division finds its bytes;
- `gptLoop_spec`: what the loop has found after any number of entries;
- `scan_iff`: the scan returns the table exactly when an entry fits in a sector or there is nothing to read.
-/
import Mathlib.Tactic
import Retux.Lib.Bytes
import Retux.Str.Compare

namespace Retux.Partitions

open Retux.Word Retux.Bytes Retux.Str

/-! ## Model -/

structure Partition where
  startLba : U64
  sectorCount : U64
  type : U8
  valid : Bool
deriving DecidableEq

structure MBRPartition where
  type : U8
  lbaStart : U32
  sectorCount : U32

/-- `mbr->parts[i]` -/
def MBRPartition.read (sector : ℕ → U8) (i : ℕ) : MBRPartition where
  type := sector (446 + 16 * i + 4)
  lbaStart := BitVec.ofNat 32 (field sector (446 + 16 * i + 8) 4)
  sectorCount := BitVec.ofNat 32 (field sector (446 + 16 * i + 12) 4)

structure GPTHeader where
  partitionEntryLba : U64
  numEntries : U32
  entrySize : U32

def GPTHeader.read (sector : ℕ → U8) : GPTHeader where
  partitionEntryLba := BitVec.ofNat 64 (field sector 72 8)
  numEntries := BitVec.ofNat 32 (field sector 80 4)
  entrySize := BitVec.ofNat 32 (field sector 84 4)

structure GPTEntry where
  partitionTypeGuid : List U8
  firstLba : U64
  lastLba : U64

/-- the entry at index p -/
def GPTEntry.read (buf : ℕ → U8) (p : ℕ) : GPTEntry where
  partitionTypeGuid := (List.range 16).map fun j => buf (p + j)
  firstLba := BitVec.ofNat 64 (field buf (p + 32) 8)
  lastLba := BitVec.ofNat 64 (field buf (p + 40) 8)

/-- `!zero` -/
def GPTEntry.used (e : GPTEntry) : Bool := e.partitionTypeGuid.any (· ≠ 0)

def GPTEntry.partition (e : GPTEntry) : Partition := ⟨e.firstLba, e.lastLba - e.firstLba + 1, 0, true⟩

def MBRPartition.partition (p : MBRPartition) : Partition :=
  ⟨p.lbaStart.setWidth 64, p.sectorCount.setWidth 64, p.type, true⟩

/-- `count` is the length of out -/
structure Scan where
  out : List Partition
  log : List (U64 × ℕ)
  message : Option String

/-- "EFI PART" -/
def EFI_PART : List U8 := [0x45, 0x46, 0x49, 0x20, 0x50, 0x41, 0x52, 0x54]

/-- a disk read function: sectors from an LBA on, or a failure -/
abbrev ReadBlock := U64 → U32 → Option (ℕ → U8)

/-- the loop over the entries, from entry i on -/
def gptLoop (rawRead : ReadBlock) (gpt : GPTHeader) (entrySize : U32) (max : ℤ) : ℕ → U32 → Scan → Option Scan
  | 0, _, s => some s
  | fuel + 1, i, s =>
    if i < gpt.numEntries ∧ s.out.length < max then
      let entriesPerSector := 512 / entrySize
      if entriesPerSector = 0 then none
      else
        let sectorOffset := i / entriesPerSector
        let entryOffset := i % entriesPerSector
        let lba := gpt.partitionEntryLba + sectorOffset.setWidth 64
        match rawRead lba 1 with
        | none => some { s with message := some "partition: failed to read GPT entry sector\n" }
        | some sectorBuf =>
          let p := (entryOffset * entrySize).toNat
          let e := GPTEntry.read sectorBuf p
          let s := { s with log := s.log ++ [(lba, p)] }
          if e.used then gptLoop rawRead gpt entrySize max fuel (i + 1) { s with out := s.out ++ [e.partition] }
          else gptLoop rawRead gpt entrySize max fuel (i + 1) s
    else some s

/-- a scan that stops with a message -/
def failed (message : String) : Option Scan := some ⟨[], [], some message⟩

def scanGpt (rawRead : ReadBlock) (max : ℤ) : Option Scan :=
  match rawRead 1 1 with
  | none => failed "partition: failed to read GPT header\n"
  | some sector =>
    if strncmp sector 0 EFI_PART 8 ≠ 0 then failed "partition: invalid GPT signature\n"
    else
      let gpt := GPTHeader.read sector
      let entrySize := if gpt.entrySize < 128 then 128 else gpt.entrySize
      gptLoop rawRead gpt entrySize max gpt.numEntries.toNat 0 ⟨[], [], none⟩

/-- one round of the loop over the four MBR entries -/
def mbrEntry (sector : ℕ → U8) (max : ℤ) (out : List Partition) (i : ℕ) : List Partition :=
  let p := MBRPartition.read sector i
  if out.length < max ∧ p.type ≠ 0 then out ++ [p.partition] else out

def scan (rawRead : Option ReadBlock) (max : ℤ) : Option Scan :=
  match rawRead with
  | none => some ⟨[], [], none⟩
  | some rawRead =>
    if max ≤ 0 then some ⟨[], [], none⟩
    else match rawRead 0 1 with
      | none => failed "partition: failed to read LBA 0\n"
      | some sector =>
        if field sector 510 2 ≠ 0xAA55 then failed "partition: invalid MBR signature\n"
        else if ∃ i ∈ List.range 4, (MBRPartition.read sector i).type = 0xEE then scanGpt rawRead max
        else some ⟨(List.range 4).foldl (mbrEntry sector max) [], [], none⟩

/-! ## Disks with a GUID partition table -/

/-- the disk as one array of bytes; a sector number has 64 bits -/
def byteAt (disk : U64 → ℕ → U8) (b : ℕ) : U8 := disk (BitVec.ofNat 64 (b / 512)) (b % 512)

/-- the header of a disk -/
def header (disk : U64 → ℕ → U8) : GPTHeader := GPTHeader.read (disk 1)

/-- where entry i of the table is -/
def entryByte (gpt : GPTHeader) (i : ℕ) : ℕ := gpt.partitionEntryLba.toNat * 512 + i * gpt.entrySize.toNat

/-- the entries in order -/
def table (disk : U64 → ℕ → U8) : List GPTEntry :=
  (List.range (header disk).numEntries.toNat).map fun i => GPTEntry.read (byteAt disk) (entryByte (header disk) i)

/-- a protective MBR, a header, entries of a size the format allows; reads succeed -/
structure GptDisk (rawRead : ReadBlock) (disk : U64 → ℕ → U8) : Prop where
  reads : ∀ lba, ∃ buf, rawRead lba 1 = some buf ∧ ∀ k < 512, buf k = disk lba k
  signature : field (disk 0) 510 2 = 0xAA55
  protective : ∃ i < 4, (MBRPartition.read (disk 0) i).type = 0xEE
  magic : Holds (disk 1) 0 EFI_PART
  size : ∃ n, (header disk).entrySize.toNat = 128 * 2 ^ n

/-- s is what the table of the disk says, up to max partitions -/
structure Scanned (disk : U64 → ℕ → U8) (max : ℤ) (s : Scan) : Prop where
  out : s.out = (((table disk).filter GPTEntry.used).map GPTEntry.partition).take max.toNat
  log : s.log = (List.range s.log.length).map fun i =>
    (BitVec.ofNat 64 (entryByte (header disk) i / 512), entryByte (header disk) i % 512)
  all : s.log.length = (header disk).numEntries.toNat ∨ s.out.length = max.toNat
  message : s.message = none

/-! ## Where an entry is -/

section Place

variable {rawRead : ReadBlock} {disk : U64 → ℕ → U8} {buf buf' : ℕ → U8} {p q n : ℕ} {size i : U32} {gpt : GPTHeader}

theorem GPTEntry.read_congr (h : ∀ k < 128, buf (p + k) = buf' (q + k)) : GPTEntry.read buf p = GPTEntry.read buf' q := by
  have hfield : ∀ a, a + 8 ≤ 128 → field buf (p + a) 8 = field buf' (q + a) 8 := by
    intro a ha
    refine field_congr fun k hk => ?_
    rw [Nat.add_assoc, Nat.add_assoc]
    exact h (a + k) (by omega)
  unfold GPTEntry.read
  rw [hfield 32 (by decide), hfield 40 (by decide), List.map_congr_left fun j hj => h j (by
    have := List.mem_range.1 hj
    omega)]

/-- a size the format allows that fits in a sector divides it -/
theorem perSector (hn : size.toNat = 128 * 2 ^ n) (hs : size.toNat ≤ 512) :
    (512 / size).toNat * size.toNat = 512 ∧ 128 ≤ size.toNat := by
  have h4 : n ≤ 2 := by
    by_contra hlt
    have := Nat.pow_le_pow_right (show 0 < 2 by decide) (show 3 ≤ n by omega)
    omega
  rw [BitVec.toNat_udiv, hn]
  interval_cases n <;> decide

/-- **The division.** Sector i / per and index (i % per) * size in it are where entry i of the array is. -/
theorem place_eq (h : (512 / gpt.entrySize).toNat * gpt.entrySize.toNat = 512) :
    gpt.partitionEntryLba + (i / (512 / gpt.entrySize)).setWidth 64 =
        BitVec.ofNat 64 (entryByte gpt i.toNat / 512) ∧
      (i % (512 / gpt.entrySize) * gpt.entrySize).toNat = entryByte gpt i.toNat % 512 ∧
        entryByte gpt i.toNat % 512 + gpt.entrySize.toNat ≤ 512 := by
  have hdiv : (i / (512 / gpt.entrySize)).toNat = i.toNat / (512 / gpt.entrySize).toNat := BitVec.toNat_udiv
  have hmod : (i % (512 / gpt.entrySize)).toNat = i.toNat % (512 / gpt.entrySize).toNat := BitVec.toNat_umod
  generalize 512 / gpt.entrySize = per at h hdiv hmod
  have hpos : 0 < per.toNat := Nat.pos_of_ne_zero fun h0 => by
    rw [h0, Nat.zero_mul] at h
    exact absurd h (by decide)
  have hlast : i.toNat % per.toNat * gpt.entrySize.toNat + gpt.entrySize.toNat ≤ 512 := by
    calc i.toNat % per.toNat * gpt.entrySize.toNat + gpt.entrySize.toNat
        = (i.toNat % per.toNat + 1) * gpt.entrySize.toNat := (Nat.succ_mul _ _).symm
      _ ≤ per.toNat * gpt.entrySize.toNat := Nat.mul_le_mul_right _ (Nat.mod_lt _ hpos)
      _ = 512 := h
  have hsize : 0 < gpt.entrySize.toNat := Nat.pos_of_ne_zero fun h0 => by
    rw [h0, Nat.mul_zero] at h
    exact absurd h (by decide)
  have hbyte : entryByte gpt i.toNat = 512 * (gpt.partitionEntryLba.toNat + i.toNat / per.toNat) +
      i.toNat % per.toNat * gpt.entrySize.toNat := by
    calc entryByte gpt i.toNat
        = gpt.partitionEntryLba.toNat * 512 +
            (per.toNat * (i.toNat / per.toNat) + i.toNat % per.toNat) * gpt.entrySize.toNat := by
          rw [Nat.div_add_mod, entryByte]
      _ = gpt.partitionEntryLba.toNat * 512 + per.toNat * gpt.entrySize.toNat * (i.toNat / per.toNat) +
            i.toNat % per.toNat * gpt.entrySize.toNat := by ring
      _ = 512 * (gpt.partitionEntryLba.toNat + i.toNat / per.toNat) +
            i.toNat % per.toNat * gpt.entrySize.toNat := by rw [h]; ring
  have hlt : i.toNat % per.toNat * gpt.entrySize.toNat < 512 := by omega
  have hq : entryByte gpt i.toNat / 512 = gpt.partitionEntryLba.toNat + i.toNat / per.toNat := by
    rw [hbyte, Nat.mul_add_div (by decide), Nat.div_eq_of_lt hlt, Nat.add_zero]
  have hr : entryByte gpt i.toNat % 512 = i.toNat % per.toNat * gpt.entrySize.toNat := by
    rw [hbyte, Nat.mul_add_mod, Nat.mod_eq_of_lt hlt]
  refine ⟨?_, ?_, ?_⟩
  · rw [hq, ← hdiv, BitVec.ofNat_add, BitVec.ofNat_toNat, BitVec.setWidth_eq, BitVec.ofNat_toNat]
  · rw [hr, BitVec.toNat_mul, hmod, Nat.mod_eq_of_lt (by omega)]
  · rw [hr]
    exact hlast

end Place

/-! ## The loop -/

section Loop

variable {rawRead : ReadBlock} {disk : U64 → ℕ → U8} {max : ℤ} {n fuel : ℕ} {i : U32} {s : Scan}

/-- the first n entries looked at, and not too many found -/
structure Found (disk : U64 → ℕ → U8) (max : ℤ) (n : ℕ) (s : Scan) : Prop where
  out : s.out = (((table disk).take n).filter GPTEntry.used).map GPTEntry.partition
  few : s.out.length ≤ max.toNat
  log : s.log = (List.range n).map fun i =>
    (BitVec.ofNat 64 (entryByte (header disk) i / 512), entryByte (header disk) i % 512)
  message : s.message = none

theorem found_nil : Found disk max 0 ⟨[], [], none⟩ := ⟨rfl, Nat.zero_le _, rfl, rfl⟩

theorem length_table : (table disk).length = (header disk).numEntries.toNat := by simp [table]

/-- a list of results cut at max -/
theorem Found.scanned (h : Found disk max n s) (hn : n = (header disk).numEntries.toNat ∨ s.out.length = max.toNat) :
    Scanned disk max s := by
  have hlen : s.log.length = n := by rw [h.log, List.length_map, List.length_range]
  refine ⟨?_, by rw [hlen]; exact h.log, by rw [hlen]; exact hn, h.message⟩
  rw [← List.take_append_drop n (table disk), List.filter_append, List.map_append, ← h.out]
  rcases hn with hall | hfull
  · rw [hall, ← length_table, List.drop_length, List.filter_nil, List.map_nil, List.append_nil,
      List.take_of_length_le h.few]
  · rw [← hfull, List.take_left]

/-- one more entry -/
theorem Found.step (h : Found disk max n s) (hn : n < (header disk).numEntries.toNat) (hroom : (s.out.length : ℤ) < max)
    {e : GPTEntry} (he : e = GPTEntry.read (byteAt disk) (entryByte (header disk) n)) {out : List Partition}
    (hout : out = if e.used then s.out ++ [e.partition] else s.out) :
    Found disk max (n + 1) { s with out := out, log := s.log ++
      [(BitVec.ofNat 64 (entryByte (header disk) n / 512), entryByte (header disk) n % 512)] } := by
  have hget : (table disk)[n]? = some e := by
    rw [table, List.getElem?_map, List.getElem?_range hn, he]
    rfl
  refine ⟨?_, ?_, ?_, h.message⟩
  · show out = _
    rw [hout, h.out, List.take_add_one, hget, List.filter_append, List.map_append]
    cases hu : e.used <;> simp [hu]
  · show out.length ≤ _
    rw [hout]
    split_ifs
    · rw [List.length_append, List.length_singleton]
      omega
    · omega
  · rw [List.range_succ, List.map_append, ← h.log]
    rfl

/-- **The loop.** From any entry on, with room for what is found. -/
theorem gptLoop_spec (hd : GptDisk rawRead disk) (hs : (header disk).entrySize.toNat ≤ 512)
    (hi : i.toNat + fuel = (header disk).numEntries.toNat) (h : Found disk max i.toNat s) :
    ∃ s', gptLoop rawRead (header disk) (header disk).entrySize max fuel i s = some s' ∧ Scanned disk max s' := by
  obtain ⟨k, hk⟩ := hd.size
  obtain ⟨hper, hmin⟩ := perSector hk hs
  induction fuel generalizing i s with
  | zero => exact ⟨s, rfl, h.scanned (Or.inl hi)⟩
  | succ fuel ih =>
    have hlt : i.toNat < (header disk).numEntries.toNat := by omega
    have hnext : (i + 1).toNat = i.toNat + 1 := by bv_omega
    by_cases hgo : i < (header disk).numEntries ∧ s.out.length < max
    · have hzero : 512 / (header disk).entrySize ≠ 0 := by
        intro h0
        rw [h0] at hper
        simp at hper
      obtain ⟨hlba, hp, hfit⟩ := place_eq hper (i := i)
      obtain ⟨buf, hread, hbuf⟩ := hd.reads (BitVec.ofNat 64 (entryByte (header disk) i.toNat / 512))
      -- the bytes read are the entry's
      have hentry : GPTEntry.read buf (entryByte (header disk) i.toNat % 512) =
          GPTEntry.read (byteAt disk) (entryByte (header disk) i.toNat) := by
        refine GPTEntry.read_congr fun k hk => ?_
        rw [hbuf _ (by omega), byteAt]
        generalize entryByte (header disk) i.toNat = b at hfit
        rw [show (b + k) / 512 = b / 512 by omega, show (b + k) % 512 = b % 512 + k by omega]
      rw [gptLoop, if_pos hgo]
      simp only
      rw [if_neg hzero, hlba, hread]
      simp only
      rw [hp, hentry]
      split_ifs with hused
      · have hstep := h.step hlt hgo.2 rfl (if_pos hused).symm
        rw [← hnext] at hstep
        exact ih (by omega) hstep
      · have hstep := h.step hlt hgo.2 rfl (if_neg hused).symm
        rw [← hnext] at hstep
        exact ih (by omega) hstep
    · -- the array is full
      have hfull : s.out.length = max.toNat := by
        have := h.few
        push Not at hgo
        have := hgo hlt
        omega
      exact ⟨s, by rw [gptLoop, if_neg hgo], h.scanned (Or.inr hfull)⟩

/-- entries larger than a sector: the first one is a division by zero -/
theorem gptLoop_halts {gpt : GPTHeader} {size : U32} (hs : 512 < size.toNat) (hn : gpt.numEntries.toNat ≠ 0)
    (hm : 0 < max) : gptLoop rawRead gpt size max gpt.numEntries.toNat 0 ⟨[], [], none⟩ = none := by
  obtain ⟨fuel, hf⟩ := Nat.exists_eq_succ_of_ne_zero hn
  have hgo : (0 : U32) < gpt.numEntries ∧ (([] : List Partition).length : ℤ) < max := by
    refine ⟨?_, by simpa using hm⟩
    bv_omega
  have hzero : 512 / size = 0 := by
    apply BitVec.eq_of_toNat_eq
    rw [BitVec.toNat_udiv]
    exact Nat.div_eq_of_lt hs
  rw [hf, gptLoop, if_pos hgo]
  simp only
  rw [if_pos hzero]

end Loop

/-! ## The scan -/

section Scan

variable {rawRead : ReadBlock} {disk : U64 → ℕ → U8} {max : ℤ}

/-- on a disk with a GUID partition table the scan is its loop -/
theorem scan_gpt (hd : GptDisk rawRead disk) (hm : 0 < max) : scan (some rawRead) max =
    gptLoop rawRead (header disk) (header disk).entrySize max (header disk).numEntries.toNat 0 ⟨[], [], none⟩ := by
  obtain ⟨mbr, hmbr, hmbrBytes⟩ := hd.reads 0
  obtain ⟨sector, hsector, hbytes⟩ := hd.reads 1
  have hfield : ∀ p n, p + n ≤ 512 → field sector p n = field (disk 1) p n := fun p n hp =>
    field_congr fun k hk => hbytes _ (by omega)
  have hheader : GPTHeader.read sector = header disk := by
    unfold header GPTHeader.read
    rw [hfield 72 8 (by decide), hfield 80 4 (by decide), hfield 84 4 (by decide)]
  have hsig : field mbr 510 2 = 0xAA55 := by
    rw [← hd.signature]
    exact field_congr fun k hk => hmbrBytes _ (by omega)
  have hprot : ∃ i ∈ List.range 4, (MBRPartition.read mbr i).type = 0xEE := by
    obtain ⟨i, hi, htype⟩ := hd.protective
    refine ⟨i, List.mem_range.2 hi, ?_⟩
    rw [← htype]
    exact hmbrBytes _ (by omega)
  have hmagic : strncmp sector 0 EFI_PART 8 = 0 := by
    refine strncmp_of_holds (l := EFI_PART) (fun i hi => ?_) (by decide)
    rw [← hd.magic i hi]
    have h8 : EFI_PART.length = 8 := rfl
    exact hbytes _ (by omega)
  have hsize : ¬ (header disk).entrySize < 128 := by
    obtain ⟨n, hn⟩ := hd.size
    have := Nat.one_le_two_pow (n := n)
    rw [BitVec.lt_def]
    simp only [BitVec.reduceToNat]
    omega
  unfold scan
  simp only
  rw [if_neg (not_le.2 hm), hmbr]
  simp only
  rw [if_neg (not_not.2 hsig), if_pos hprot, scanGpt, hsector]
  simp only
  rw [if_neg (not_not.2 hmagic), hheader, if_neg hsize]

/-- where an entry fits in a sector -/
theorem scan_scanned (hd : GptDisk rawRead disk) (hs : (header disk).entrySize.toNat ≤ 512) (hm : 0 < max) :
    ∃ s, scan (some rawRead) max = some s ∧ Scanned disk max s := by
  rw [scan_gpt hd hm]
  exact gptLoop_spec hd hs (by simp) found_nil

/-- where it does not -/
theorem scan_halts (hd : GptDisk rawRead disk) (hs : 512 < (header disk).entrySize.toNat)
    (hn : (header disk).numEntries.toNat ≠ 0) (hm : 0 < max) : scan (some rawRead) max = none := by
  rw [scan_gpt hd hm]
  exact gptLoop_halts hs hn hm

end Scan

/-- **The table, exactly when.** On a disk with a GUID partition table whose entry size the format allows, the scan
returns the first max used entries of the table, each read where it is, if and only if an entry fits in one sector, or
there is no entry to read, or none wanted. Otherwise the first entry is a division by zero. -/
theorem scan_iff (rawRead : ReadBlock) (disk : U64 → ℕ → U8) (max : ℤ) (hd : GptDisk rawRead disk) :
    (∃ s, scan (some rawRead) max = some s ∧ Scanned disk max s) ↔
      (header disk).entrySize.toNat ≤ 512 ∨ (header disk).numEntries.toNat = 0 ∨ max ≤ 0 := by
  by_cases hm : 0 < max
  · constructor
    · rintro ⟨s, hs, -⟩
      by_contra hbig
      push Not at hbig
      rw [scan_halts hd hbig.1 hbig.2.1 hm] at hs
      cases hs
    · rintro (hfit | hnone | hmax)
      · exact scan_scanned hd hfit hm
      · rw [scan_gpt hd hm, hnone]
        exact ⟨_, rfl, found_nil.scanned (Or.inl hnone.symm)⟩
      · exact absurd hmax (not_le.2 hm)
  · have hmax := not_lt.1 hm
    refine iff_of_true ⟨⟨[], [], none⟩, ?_, found_nil.scanned (Or.inr ?_)⟩ (Or.inr (Or.inr hmax))
    · unfold scan
      simp only
      rw [if_pos hmax]
    · exact (Int.toNat_of_nonpos hmax).symm

/-- 128 entries of one size, none of them used -/
def emptyTable (size : U32) : U64 → ℕ → U8 := fun lba k =>
  if lba = 0 then if k = 450 then 0xEE else if k = 510 then 0x55 else if k = 511 then 0xAA else 0
  else if lba = 1 then (EFI_PART ++ List.replicate 64 0 ++ le 8 2 ++ le 4 128 ++ le 4 (size.setWidth 64)).getD k 0
  else 0

theorem scan_sample : GptDisk (fun lba _ => some (emptyTable 256 lba)) (emptyTable 256) ∧
    ((∃ s, scan (some fun lba _ => some (emptyTable 256 lba)) 16 = some s ∧ Scanned (emptyTable 256) 16 s) ↔
      (header (emptyTable 256)).entrySize.toNat ≤ 512 ∨ (header (emptyTable 256)).numEntries.toNat = 0 ∨
        (16 : ℤ) ≤ 0) := by
  have hd : GptDisk (fun lba _ => some (emptyTable 256 lba)) (emptyTable 256) :=
    ⟨fun lba => ⟨_, rfl, fun _ _ => rfl⟩, by decide, ⟨0, by decide, by decide⟩, fun i hi => by
      revert i; decide, ⟨1, by decide⟩⟩
  exact ⟨hd, scan_iff _ _ _ hd⟩

/-- **Entries of 1024 bytes.** The format allows them; the scan divides by zero. -/
theorem scan_divides_by_zero : ¬ ∀ (rawRead : ReadBlock) (disk : U64 → ℕ → U8) (max : ℤ), GptDisk rawRead disk →
    ∃ s, scan (some rawRead) max = some s ∧ Scanned disk max s := by
  intro hall
  have hd : GptDisk (fun lba _ => some (emptyTable 1024 lba)) (emptyTable 1024) :=
    ⟨fun lba => ⟨_, rfl, fun _ _ => rfl⟩, by decide, ⟨0, by decide, by decide⟩, fun i hi => by
      revert i; decide, ⟨3, by decide⟩⟩
  obtain ⟨s, hs, -⟩ := hall _ _ 16 hd
  rw [scan_halts hd (by decide) (by decide) (by decide)] at hs
  cases hs

end Retux.Partitions
