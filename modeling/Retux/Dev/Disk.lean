/-
Reading the disk (`ahci::read_sectors`) through a device that does what it is told.

The device finds its command in physical memory (`Command.read`: command header, command FIS and one PRDT entry, as
the AHCI specification lays them out) and moves sectors to the physical buffer it names (`Serves`). The driver writes
the command and fetches the data through the page tables in force, at addresses equal to the physical ones: the
command page since `init_port`, and the bounce frame, the lowest free one, taken and given back in every round.

An LBA is sent in 48 bits.

- `setup_command`: what the device reads is what the driver meant, modulo 2^48;
- `readChunk_spec`, `readLoop_spec`: the rounds of the loop, while both frames are mapped to themselves;
- `disk_reads_iff`: when a read returns the disk's sectors.
-/
import Mathlib.Tactic
import Retux.Dev.Ahci
import Retux.Mem.Low
import Retux.Mem.Remap

namespace Retux.Ahci

open Retux.Word Retux.Pmm Retux.Vmm Retux.Bytes

/-! ## The device -/

/-- a command as the device reads it -/
structure Command where
  ata : U8
  lba : ℕ
  sectors : ℕ
  buf : U64
  bytes : ℕ

/-- the command in slot 0 of the list at page: ctba and ctbau of the header, then cfis and the PRDT entry -/
def Command.read (mem : ℕ → Idx → U64) (page : U64) : Command :=
  let header := fun i => physByte mem (nth page i)
  let ctba := BitVec.ofNat 64 (field header 8 8)
  let table := fun i => physByte mem (nth ctba i)
  { ata := table 2
    lba := ofLe [table 4, table 5, table 6, table 8, table 9, table 10]
    sectors := ofLe [table 12, table 13]
    buf := BitVec.ofNat 64 (field table 128 8)
    bytes := field table 140 4 % 2 ^ 22 + 1 }

/-- what a command moves -/
def Command.length (c : Command) : ℕ := min (512 * c.sectors) c.bytes

/-- n bytes of the disk from sector lba on -/
def diskBytes (disk : ℕ → ℕ → U8) (lba n : ℕ) : List U8 := (List.range n).map fun i => disk (lba + i / 512) (i % 512)

/-- every command completes before the driver gives up, and a READ DMA EXT moves the sectors it asks for. The device
may write the command page (PRDBC, received FIS), and no memory else -/
structure Serves (disk : ℕ → ℕ → U8) (page : U64) (d : Device) : Prop where
  done : ∀ k, ∃ i, i < TIMEOUT ∧ d.ci k i &&& 1 = 0
  good : ∀ k, d.is k &&& ERROR_BIT = 0
  data : ∀ k mem i, (Command.read mem page).ata = ATA_READ_DMA_EX → i < (Command.read mem page).length →
    physByte (d.dma k mem) (nth (Command.read mem page).buf i) =
      disk ((Command.read mem page).lba + i / 512) (i % 512)
  rest : ∀ k mem f, (Command.read mem page).ata = ATA_READ_DMA_EX → f ≠ frameOf page →
    (∀ i, i < (Command.read mem page).length → frameOf (nth (Command.read mem page).buf i) ≠ f) →
    d.dma k mem f = mem f

/-- one command served -/
def serve (disk : ℕ → ℕ → U8) (page : U64) (mem : ℕ → Idx → U64) : ℕ → Idx → U64 :=
  setPhysBytes mem (Command.read mem page).buf
    (diskBytes disk (Command.read mem page).lba (Command.read mem page).length)

/-- a disk that answers at once -/
def diskDevice (disk : ℕ → ℕ → U8) (page : U64) : Device := ⟨fun _ _ => 0, fun _ => 0, fun _ => serve disk page⟩

theorem Command.length_le (mem : ℕ → Idx → U64) (page : U64) : (Command.read mem page).length ≤ 2 ^ 22 :=
  calc (Command.read mem page).length ≤ (Command.read mem page).bytes := Nat.min_le_right _ _
    _ ≤ 2 ^ 22 := Nat.mod_lt _ (by decide)

@[simp] theorem length_diskBytes {disk : ℕ → ℕ → U8} {lba n : ℕ} : (diskBytes disk lba n).length = n := by
  simp [diskBytes]

theorem diskDevice_serves (disk : ℕ → ℕ → U8) (page : U64) : Serves disk page (diskDevice disk page) := by
  refine ⟨fun _ => ⟨0, by decide, BitVec.zero_and⟩, fun _ => BitVec.zero_and, fun k mem i _ hi => ?_,
    fun k mem f _ _ hf => ?_⟩
  · have hle := Command.length_le mem page
    simp only [diskDevice, serve]
    generalize Command.read mem page = c at hi hle ⊢
    have hlen : (diskBytes disk c.lba c.length).length = c.length := length_diskBytes
    rw [physByte_setBytes [], put_byte (by rw [hlen]; omega) (by rw [hlen]; exact hi)]
    simp [diskBytes]
  · simp only [diskDevice, serve]
    refine setPhysBytes_row fun i hi => hf i ?_
    rwa [length_diskBytes] at hi

/-! ## The command -/

section Setup

variable {mem : ℕ → Idx → U64} {P f i k p : ℕ} {xs ys : List U8}

/-- byte i of a frame -/
def view (mem : ℕ → Idx → U64) (P i : ℕ) : U8 := physByte mem (nth (addrOf P) i)

theorem nth_page (hP : P < MAX_FRAMES) (hi : i < 4096) :
    (nth (addrOf P) i).toNat = P * 4096 + i ∧ frameOf (nth (addrOf P) i) = P := by
  have h : (nth (addrOf P) i).toNat = P * 4096 + i := by
    unfold MAX_FRAMES at hP
    have haddr := addrOf_toNat hP
    rw [nth_toNat (by omega), haddr]
  refine ⟨h, ?_⟩
  rw [frameOf, h, PAGE_SIZE]
  omega

/-- xs stored at byte k of frame P, and nothing else changed -/
structure Stored (m : Machine) (P k : ℕ) (xs : List U8) (m' : Machine) : Prop where
  same : m' = { m with mem := m'.mem }
  rows : ∀ g, g ≠ P → m'.mem g = m.mem g
  holds : Holds (view m'.mem P) k xs
  other : ∀ i, i < 4096 → i < k ∨ k + xs.length ≤ i → view m'.mem P i = view m.mem P i

variable {m m' : Machine} {S : Set ℕ}

theorem storeBytes_page (h : StaysSelf m S P) (hS : P ∈ S) (hP : P < MAX_FRAMES) (k : ℕ) (xs : List U8)
    (hk : k + xs.length ≤ 4096) :
    ∃ m', storeBytes m (nth (addrOf P) k) xs = some m' ∧ Stored m P k xs m' ∧ StaysSelf m' S P := by
  have hframe : ∀ i, i < xs.length → frameOf (nth (nth (addrOf P) k) i) = P := fun i hi => by
    rw [nth_add]
    exact (nth_page hP (by omega)).2
  have hrows : ∀ g, g ≠ P → setPhysBytes m.mem (nth (addrOf P) k) xs g = m.mem g := fun g hg =>
    setPhysBytes_row fun i hi heq => hg (by rw [← heq, hframe i hi])
  refine ⟨_, storeBytes_self h hS hframe, ⟨rfl, hrows, fun i hi => ?_, fun i hi hout => ?_⟩,
    h.congr (fun g hg => hrows g fun hgP => hg (hgP ▸ hS)) rfl⟩
  · rw [view, physByte_setBytes [], ← nth_add, put_byte (by omega) hi]
  · rw [view, physByte_setBytes [], put_rest]
    · rfl
    intro j hj heq
    rw [nth_add] at heq
    have := nth_inj (by omega) (by omega) heq
    omega

theorem Stored.kept (h : Stored m P k xs m') (hh : Holds (view m.mem P) p ys) (hp : p + ys.length ≤ 4096)
    (hd : p + ys.length ≤ k ∨ k + xs.length ≤ p) : Holds (view m'.mem P) p ys := fun i hi => by
  rw [h.other (p + i) (by omega) (by omega)]
  exact hh i hi

theorem table_nth : addrOf P + TABLE = nth (addrOf P) 0x500 := congrArg (addrOf P + ·) (by decide)

theorem low32 {a : U64} (ha : a.toNat < 2 ^ 32) :
    BitVec.ofNat 64 (ofLe (le 4 (a &&& 0xFFFFFFFF) ++ le 4 0)) = a := by
  have hmask : (a &&& 0xFFFFFFFF).toNat = a.toNat := by
    rw [BitVec.toNat_and, show (0xFFFFFFFF : U64).toNat = 2 ^ 32 - 1 from rfl, Nat.and_two_pow_sub_one_eq_mod]
    exact Nat.mod_eq_of_lt ha
  apply BitVec.eq_of_toNat_eq
  rw [ofLe_append, ofLe_le, ofLe_le, hmask, BitVec.toNat_ofNat]
  show (a.toNat % 256 ^ 4 + 256 ^ _ * (0 % 256 ^ 4)) % 2 ^ 64 = _
  omega

/-- **What the device reads** in a page with the driver's fields. -/
theorem read_command {ata : U8} {lba buf w : U64} {n : U32} (hP : P < MAX_FRAMES) (hbuf : buf.toNat < 2 ^ 32)
    (hctba : Holds (view mem P) 8 (le 4 ((addrOf P + TABLE) &&& 0xFFFFFFFF) ++ le 4 0))
    (hcfis : Holds (view mem P) 0x500 (cfis ata lba n))
    (hdba : Holds (view mem P) (0x500 + 128) (le 4 (buf &&& 0xFFFFFFFF) ++ le 4 0))
    (hdbc : Holds (view mem P) (0x500 + 140) (le 4 w)) :
    Command.read mem (addrOf P) =
      ⟨ata, lba.toNat % 2 ^ 48, n.toNat % 2 ^ 16, buf, w.toNat % 2 ^ 32 % 2 ^ 22 + 1⟩ := by
  have htab : (addrOf P + TABLE).toNat < 2 ^ 32 := by
    have h := (nth_page (i := 0x500) hP (by omega)).1
    rw [table_nth, h]
    unfold MAX_FRAMES at hP
    omega
  have hheader : BitVec.ofNat 64 (field (fun i => physByte mem (nth (addrOf P) i)) 8 8) = nth (addrOf P) 0x500 :=
    (congrArg (BitVec.ofNat 64) hctba.ofLe).trans (low32 htab)
  have htable : (fun i => physByte mem (nth (nth (addrOf P) 0x500) i)) = fun i => view mem P (0x500 + i) :=
    funext fun i => by rw [nth_add, view]
  have hbytes : ∀ i (hi : i < 14), physByte mem (nth (nth (addrOf P) 0x500) i) = (cfis ata lba n)[i] :=
    fun i hi => (congrFun htable i).trans (hcfis i hi)
  have hlba : ofLe [byteOf lba 0, byteOf lba 1, byteOf lba 2, byteOf lba 3, byteOf lba 4, byteOf lba 5] =
      lba.toNat % 2 ^ 48 := ofLe_le (n := 6)
  have hcount : ofLe [byteOf (n.setWidth 64) 0, byteOf (n.setWidth 64) 1] = n.toNat % 2 ^ 16 := by
    have h : ofLe (le 2 (n.setWidth 64)) = (n.setWidth 64).toNat % 256 ^ 2 := ofLe_le
    have hw : (n.setWidth 64).toNat = n.toNat := by
      rw [BitVec.toNat_setWidth]
      exact Nat.mod_eq_of_lt (lt_of_lt_of_le n.isLt (by norm_num))
    rwa [hw] at h
  have hdba' : BitVec.ofNat 64 (field (view mem P) (0x500 + 128) 8) = buf :=
    (congrArg (BitVec.ofNat 64) hdba.ofLe).trans (low32 hbuf)
  have hdbc' : field (view mem P) (0x500 + 140) 4 = w.toNat % 2 ^ 32 := hdbc.field
  simp only [Command.read, hheader, htable]
  rw [hbytes 2 (by decide), hbytes 4 (by decide), hbytes 5 (by decide), hbytes 6 (by decide), hbytes 8 (by decide),
    hbytes 9 (by decide), hbytes 10 (by decide), hbytes 12 (by decide), hbytes 13 (by decide), field_shift, field_shift,
    hdba', hdbc', ← hlba, ← hcount]
  rfl

/-- **The command.** Through a page that is mapped to itself, it arrives. -/
theorem setup_command (ata : U8) (lba : U64) {n : U32} (h : StaysSelf m S P) (hS : P ∈ S) (hP : P < MAX_FRAMES)
    (hf : f < MAX_FRAMES) (h1 : 1 ≤ n.toNat) (h8 : n.toNat ≤ 8) : ∃ m1 m2,
    setupCmdHeader (addrOf P) 5 1 m = some m1 ∧
    setupCfisAndPrdt (addrOf P) ata lba n (addrOf f) (n * 512) m1 = some m2 ∧ m2 = { m with mem := m2.mem } ∧
    (∀ g, g ≠ P → m2.mem g = m.mem g) ∧
    Command.read m2.mem (addrOf P) = ⟨ata, lba.toNat % 2 ^ 48, n.toNat, addrOf f, 512 * n.toNat⟩ := by
  have htab : addrOf P + TABLE = nth (addrOf P) 0x500 := table_nth
  have hprdt : addrOf P + TABLE + PRDT = nth (addrOf P) (0x500 + 128) := by
    rw [htab, ← nth_add]
    exact congrArg (nth (addrOf P) 0x500 + ·) (by decide)
  obtain ⟨m1, e1, w1, s1⟩ := storeBytes_page h hS hP 0 (le 2 5 ++ le 2 1 ++ le 4 0 ++
    le 4 ((addrOf P + TABLE) &&& 0xFFFFFFFF) ++ le 4 0) (by simp)
  obtain ⟨m2, e2, w2, s2⟩ := storeBytes_page s1 hS hP 0x500 (List.replicate 64 0) (by simp)
  obtain ⟨m3, e3, w3, s3⟩ := storeBytes_page s2 hS hP 0x500 (cfis ata lba n) (by simp [cfis])
  obtain ⟨m4, e4, w4, -⟩ := storeBytes_page s3 hS hP (0x500 + 128) (le 4 (addrOf f &&& 0xFFFFFFFF) ++ le 4 0 ++
    le 4 0 ++ le 4 ((n * 512 - 1).setWidth 64)) (by simp)
  rw [nth_zero] at e1
  -- the four fields the device looks at, after the stores behind them
  have hheader := w1.holds
  rw [List.append_assoc] at hheader
  have hctba : Holds (view m4.mem P) 8 (le 4 ((addrOf P + TABLE) &&& 0xFFFFFFFF) ++ le 4 0) :=
    w4.kept (w3.kept (w2.kept hheader.right (by simp) (by simp)) (by simp) (by simp)) (by simp) (by simp)
  have hcfis := w4.kept w3.holds (by simp [cfis]) (by simp [cfis])
  have hdba := w4.holds.left.left
  have hdbc : Holds (view m4.mem P) (0x500 + 140) (le 4 ((n * 512 - 1).setWidth 64)) := by
    have := w4.holds.right
    simpa using this
  have hfbuf : (addrOf f).toNat < 2 ^ 32 := by
    rw [addrOf_toNat hf]
    unfold MAX_FRAMES at hf
    omega
  have hlast : ((n * 512 - 1).setWidth 64 : U64).toNat = 512 * n.toNat - 1 := by
    have h512 : (512 : U32).toNat = 512 := rfl
    have hone : (1 : U32).toNat = 1 := rfl
    rw [BitVec.toNat_setWidth, BitVec.toNat_sub, BitVec.toNat_mul, h512, hone]
    omega
  have hcmd := read_command hP hfbuf hctba hcfis hdba hdbc
  refine ⟨m1, m4, e1, ?_, ?_, fun g hg => ?_, ?_⟩
  · unfold setupCfisAndPrdt
    rw [hprdt, htab, e2, Option.bind_eq_bind, Option.bind_some, e3, Option.bind_some]
    exact e4
  · rw [w4.same, w3.same, w2.same, w1.same]
  · rw [w4.rows g hg, w3.rows g hg, w2.rows g hg, w1.rows g hg]
  · rw [hcmd, hlast]
    congr 1 <;> omega

end Setup

/-! ## The loop -/

/-- P is the command page, f the frame that is bounced through, and both stay mapped to themselves -/
structure Ready (s : St) (P f : ℕ) : Prop where
  lowest : firstFree s.m.pmm.bitmap 0 MAX_FRAMES = some f
  page : P < MAX_FRAMES
  ne : P ≠ f
  command : StaysSelf s.m {P, f} P
  bounce : StaysSelf s.m {P, f} f

/-- what a read of so many sectors fetches: each round sends 48 bits of its LBA -/
def fetched (disk : ℕ → ℕ → U8) (lba count : ℕ) : List U8 :=
  (List.range (512 * count)).map fun i => disk ((lba + i / 4096 * 8) % 2 ^ 48 + i / 512 % 8) (i % 512)

section Loop

variable {d : Device} {disk : ℕ → ℕ → U8} {s : St} {m : Machine} {P f : ℕ} {src dst lba : U64} {n count : U32}

theorem firstFree_congr {b b' : ℕ → BitVec 8} (h : ∀ g, isUsed b' g = isUsed b g) (i n : ℕ) :
    firstFree b' i n = firstFree b i n := by
  induction n generalizing i with
  | zero => rfl
  | succ n ih => rw [firstFree, firstFree, h, ih]

theorem copyOut_self (h : SelfMapped m f) {k : ℕ} (dst : U64) (b : Bytes.Mem)
    (hf : ∀ i, i < k → frameOf (nth src i) = f) :
    copyOut m src dst k b = some (b.put dst ((List.range k).map fun i => physByte m.mem (nth src i))) := by
  induction k generalizing src dst b with
  | zero => rfl
  | succ k ih =>
    have h0 := hf 0 (Nat.succ_pos k)
    rw [nth_zero] at h0
    have hrest := fun i (hi : i < k) => hf (i + 1) (Nat.succ_lt_succ hi)
    simp only [← nth_succ] at hrest
    rw [copyOut, loadByte_self h h0, Option.bind_some, ih _ _ hrest, List.range_succ_eq_map]
    simp only [List.map_cons, List.map_map, Function.comp_def, Nat.succ_eq_add_one, nth_zero, nth_succ]
    rfl

/-- the frame taken for a round is given back -/
theorem bounce_free (h : firstFree m.pmm.bitmap 0 MAX_FRAMES = some f) :
    ∃ m1, m.allocFrame = some (addrOf f, m1) ∧ m1.mem = m.mem ∧ m1.cr3 = m.cr3 ∧
      ∀ m2 : Machine, m2.pmm = m1.pmm → firstFree (m2.freeFrame (addrOf f)).pmm.bitmap 0 MAX_FRAMES = some f := by
  obtain ⟨-, hlt, hfree⟩ := firstFree_some h
  have hf : f < MAX_FRAMES := by omega
  refine ⟨{ m with pmm := { m.pmm with bitmap := setUsed m.pmm.bitmap f, usedFrames := m.pmm.usedFrames + 1#64 } },
    by rw [Machine.allocFrame, Pmm.allocFrame, h, Option.map_some, Option.map_some], rfl, rfl, fun m2 hm => ?_⟩
  rw [← h]
  refine firstFree_congr (fun g => ?_) 0 MAX_FRAMES
  have ha := frameOf_addrOf hf
  rw [Machine.freeFrame, freeFrame_isUsed _ _ (by rw [ha]; exact hf), ha, hm, isUsed_setUsed]
  by_cases hg : g = f
  · rw [hg, hfree]
    simp
  · simp [hg]

/-- **One round.** -/
theorem readChunk_spec (hs : Ready s P f) (hd : Serves disk (addrOf P) d) (lba dst : U64) (h1 : 1 ≤ n.toNat)
    (h8 : n.toNat ≤ 8) :
    ∃ s', readChunk d (addrOf P) lba n dst s = some (true, s') ∧ Ready s' P f ∧
      s'.buffer = s.buffer.put dst (diskBytes disk (lba.toNat % 2 ^ 48) (512 * n.toNat)) := by
  have hf : f < MAX_FRAMES := by
    have := (firstFree_some hs.lowest).2.1
    omega
  obtain ⟨m1, ha, hmem1, hcr1, hback⟩ := bounce_free hs.lowest
  have hcmd1 : StaysSelf m1 {P, f} P := hs.command.congr (fun g _ => by rw [hmem1]) hcr1
  obtain ⟨m2, m3, e2, e3, hm3, hrows, hread⟩ := setup_command ATA_READ_DMA_EX lba hcmd1 (Or.inl rfl)
    hs.page hf h1 h8
  have hlen : (Command.read m3.mem (addrOf P)).length = 512 * n.toNat := by
    rw [hread]
    exact Nat.min_eq_left (by simp only []; omega)
  have hata : (Command.read m3.mem (addrOf P)).ata = ATA_READ_DMA_EX := by rw [hread]
  have hbounce : ∀ i, i < 512 * n.toNat → frameOf (nth (addrOf f) i) = f := fun i hi => (nth_page hf (by omega)).2
  -- memory when the command is done
  obtain ⟨mem4, hmem4⟩ : ∃ mem4, mem4 = d.dma s.verdicts.length m3.mem := ⟨_, rfl⟩
  have hdata : ∀ i, i < 512 * n.toNat →
      physByte mem4 (nth (addrOf f) i) = disk (lba.toNat % 2 ^ 48 + i / 512) (i % 512) := fun i hi => by
    have := hd.data s.verdicts.length m3.mem i hata (by rw [hlen]; exact hi)
    rwa [hread, ← hmem4] at this
  have hrest : ∀ g, g ∉ ({P, f} : Set ℕ) → mem4 g = s.m.mem g := fun g hg => by
    rw [Set.mem_insert_iff, Set.mem_singleton_iff, not_or] at hg
    rw [hmem4, hd.rest _ _ g hata (by rw [frameOf_addrOf hs.page]; exact hg.1), hrows g hg.1, hmem1]
    intro i hi
    rw [hlen] at hi
    rw [hread]
    exact fun h => hg.2 ((hbounce i hi).symm.trans h).symm
  have hcr : m3.cr3 = s.m.cr3 := by rw [hm3, ← hcr1]
  have hself : StaysSelf { m3 with mem := mem4 } {P, f} f := hs.bounce.congr hrest hcr
  have hdone : issueAndWait (d.ci s.verdicts.length) (d.is s.verdicts.length) = true :=
    issueAndWait_iff.2 ⟨Or.inl (hd.done _), hd.good _⟩
  have hbytes : (n * 512).toNat = 512 * n.toNat := by
    have h512 : (512 : U32).toNat = 512 := rfl
    rw [BitVec.toNat_mul, h512]
    omega
  have hcopy := copyOut_self hself.selfMapped dst s.buffer hbounce
  have hxs : ((List.range (512 * n.toNat)).map fun i => physByte mem4 (nth (addrOf f) i)) =
      diskBytes disk (lba.toNat % 2 ^ 48) (512 * n.toNat) :=
    List.map_congr_left fun i hi => hdata i (List.mem_range.1 hi)
  rw [hxs] at hcopy
  refine ⟨{ s with
    m := Machine.freeFrame { m3 with mem := mem4 } (addrOf f),
    buffer := s.buffer.put dst (diskBytes disk (lba.toNat % 2 ^ 48) (512 * n.toNat)),
    verdicts := s.verdicts ++ [true] }, ?_, ⟨hback _ ?_, hs.page, hs.ne, ?_, ?_⟩, rfl⟩
  · simp only [readChunk, ha, bind, Option.bind_some, e2, e3, hdone, hbytes, ← hmem4, if_true, hcopy, pure]
  · rw [hm3]
  · exact hs.command.congr hrest hcr
  · exact hs.bounce.congr hrest hcr

theorem fetched_succ {lba count k : ℕ} (hk : k = min count 8) :
    fetched disk lba count = diskBytes disk (lba % 2 ^ 48) (512 * k) ++ fetched disk (lba + k) (count - k) := by
  have hsum : 512 * count = 512 * k + 512 * (count - k) := by omega
  rw [fetched, hsum, List.range_add, List.map_append, List.map_map]
  refine congrArg₂ (· ++ ·) (List.map_congr_left fun i hi => ?_) (List.map_congr_left fun i hi => ?_)
  · have := List.mem_range.1 hi
    have h0 : i / 4096 = 0 := by omega
    have h8 : i / 512 % 8 = i / 512 := by omega
    rw [h0, h8, Nat.zero_mul, Nat.add_zero]
  · have := List.mem_range.1 hi
    have h8 : k = 8 := by omega
    subst h8
    have hd : (512 * 8 + i) / 4096 * 8 = 8 + i / 4096 * 8 := by omega
    have hm : (512 * 8 + i) / 512 % 8 = i / 512 % 8 := by omega
    have hb : (512 * 8 + i) % 512 = i % 512 := by omega
    rw [Function.comp_apply, hd, hm, hb, ← Nat.add_assoc]

theorem fetched_mod {lba count : ℕ} : fetched disk (lba % 2 ^ 64) count = fetched disk lba count :=
  List.map_congr_left fun i _ => by
    have h : (lba % 2 ^ 64 + i / 4096 * 8) % 2 ^ 48 = (lba + i / 4096 * 8) % 2 ^ 48 := by omega
    rw [h]

/-- **The loop.** -/
theorem readLoop_spec (hd : Serves disk (addrOf P) d) (lba dst : U64) (count : U32) {fuel : ℕ}
    (hfuel : count.toNat < fuel) (hs : Ready s P f) :
    ∃ s', readLoop d (addrOf P) fuel lba count dst s = some (true, s') ∧
      s'.buffer = s.buffer.put dst (fetched disk lba.toNat count.toNat) := by
  induction fuel generalizing lba count dst s with
  | zero => exact absurd hfuel (Nat.not_lt_zero _)
  | succ fuel ih =>
    rw [readLoop]
    split_ifs with hc
    · refine ⟨s, rfl, ?_⟩
      rw [hc]
      rfl
    · have hpos : count.toNat ≠ 0 := fun h0 => hc (BitVec.eq_of_toNat_eq h0)
      have hn := chunkSize_toNat count
      obtain ⟨s1, e1, hs1, hb1⟩ := readChunk_spec (n := chunkSize count) hs hd lba dst (by omega) (by omega)
      have hsub := count_sub count
      obtain ⟨s2, e2, hb2⟩ := ih (lba + (chunkSize count).setWidth 64) (dst + (chunkSize count * 512).setWidth 64)
        (count - chunkSize count) (by omega) hs1
      refine ⟨s2, ?_, ?_⟩
      · dsimp only
        rw [e1, Option.bind_some]
        exact e2
      · have hstep : dst + (chunkSize count * 512).setWidth 64 = nth dst (512 * (chunkSize count).toNat) := by
          have h512 : (512 : U32).toNat = 512 := rfl
          refine congrArg (dst + ·) (BitVec.eq_of_toNat_eq ?_)
          rw [BitVec.toNat_setWidth, BitVec.toNat_mul, h512, BitVec.toNat_ofNat, hn]
          omega
        have hlba : (lba + (chunkSize count).setWidth 64).toNat = (lba.toNat + (chunkSize count).toNat) % 2 ^ 64 := by
          rw [BitVec.toNat_add, BitVec.toNat_setWidth]
          omega
        rw [hb2, hb1, hsub, ← hn, hlba, fetched_mod, fetched_succ hn, put_append, length_diskBytes, hstep]

/-! ## Calls -/

theorem put_inj {b : Bytes.Mem} {a : U64} {xs ys : List U8} (hx : xs.length ≤ 2 ^ 64) (hlen : xs.length = ys.length)
    (h : b.put a xs = b.put a ys) : xs = ys := by
  refine List.ext_getElem hlen fun i hi hi' => ?_
  rw [← put_byte (m := b) (a := a) hx hi, h, put_byte (by omega) hi']

theorem fetched_eq {lba k : ℕ} (hc : 0 < k) (h : lba + 8 * ((k + 7) / 8 - 1) < 2 ^ 48) :
    fetched disk lba k = diskBytes disk lba (512 * k) := by
  refine List.map_congr_left fun i hi => ?_
  have := List.mem_range.1 hi
  have hmod : (lba + i / 4096 * 8) % 2 ^ 48 = lba + i / 4096 * 8 := Nat.mod_eq_of_lt (by omega)
  have hsum : lba + i / 4096 * 8 + i / 512 % 8 = lba + i / 512 := by omega
  rw [hmod, hsum]

/-- the first sector of the last round is asked for under its own number -/
theorem fetched_last {lba k : ℕ} (hc : 0 < k)
    (h : ∀ disk, fetched disk lba k = diskBytes disk lba (512 * k)) : lba + 8 * ((k + 7) / 8 - 1) < 2 ^ 48 := by
  obtain ⟨j, hj⟩ : ∃ j, j = (k + 7) / 8 - 1 := ⟨_, rfl⟩
  have hlt : 4096 * j < 512 * k := by omega
  have hsec : 4096 * j / 512 = 8 * j := by omega
  have hrest : 8 * j % 8 = 0 := by omega
  have hround : 4096 * j / 4096 * 8 = 8 * j := by omega
  -- a disk that is zero but for this sector
  have hone := List.getElem_of_eq (h fun n _ => if n = lba + 8 * j then 1 else 0) (i := 4096 * j)
    (by simp [fetched, hlt])
  simp only [fetched, diskBytes, List.getElem_map, List.getElem_range, hsec, hrest, hround, Nat.add_zero,
    if_true] at hone
  split_ifs at hone with hm
  · rw [← hj, ← hm]
    exact Nat.mod_lt _ (by norm_num)
  · exact absurd hone (by decide)

/-- both frames are mapped to themselves, and whatever the disk holds, the buffer gets its sectors -/
def DiskReads (s : St) (P : ℕ) (lba : U64) (count : U32) (buffer : U64) : Prop :=
  (∃ bounce m, s.m.allocFrame = some (bounce, m) ∧ SelfMapped m (frameOf bounce)) ∧ SelfMapped s.m P ∧
  ∀ disk d, Serves disk (addrOf P) d → ∃ s', readSectors d lba count buffer s = some (true, s') ∧
    s'.buffer = s.buffer.put buffer (diskBytes disk lba.toNat (512 * count.toNat))

variable {rs : List ℕ} {X : Set ℕ} {buffer : U64}

theorem ready (hb : Built s.m rs X) (hm : BootMap s.m P) (hP : P ∈ X) (hlt : P < MAX_FRAMES)
    (hact : getPml4 s.m = frameOf s.m.gKernelPml4 ∨ getPml4 s.m ∈ rs)
    (hf : firstFree s.m.pmm.bitmap 0 MAX_FRAMES = some f) (hsf : Unshadowed s.m f) (hsP : Unshadowed s.m P) :
    Ready s P f := by
  obtain ⟨-, hflt, hfree⟩ := firstFree_some hf
  obtain ⟨L, h⟩ := hb.history
  refine ⟨hf, hlt, fun heq => ?_, staysSelf hb hm hP hfree hact hlt hsP, staysSelf hb hm hP hfree hact (by omega) hsf⟩
  have hused := (h.other P hP).1
  rw [heq, used, hfree] at hused
  cases hused

theorem readSectors_spec (hr : Ready s P f) (hd : Serves disk (addrOf P) d) (hpage : s.cmdPage = some (addrOf P))
    (hc : count ≠ 0) (lba buffer : U64) : ∃ s', readSectors d lba count buffer s = some (true, s') ∧
      s'.buffer = s.buffer.put buffer (fetched disk lba.toNat count.toNat) := by
  rw [readSectors, hpage]
  dsimp only
  rw [if_neg hc]
  exact readLoop_spec hd lba buffer count (Nat.lt_succ_self _) hr

/-- **Disk reads, exactly when.** In every space, for every LBA and count: the frames are reached and the sectors
arrive, whatever the disk, exactly if the PMM has a frame, neither the lowest free one nor the command page is shadowed
by the window of the space in force, and the last round starts at a sector of 48 bits. -/
theorem disk_reads_iff (hb : Built s.m rs X) (hm : BootMap s.m P) (hP : P ∈ X) (hlt : P < MAX_FRAMES)
    (hact : getPml4 s.m = frameOf s.m.gKernelPml4 ∨ getPml4 s.m ∈ rs) (hpage : s.cmdPage = some (addrOf P))
    (hc : count ≠ 0) : DiskReads s P lba count buffer ↔
      (∃ f, firstFree s.m.pmm.bitmap 0 MAX_FRAMES = some f ∧ Unshadowed s.m f) ∧ Unshadowed s.m P ∧
        lba.toNat + 8 * (chunks count - 1) < 2 ^ 48 := by
  have hpos : 0 < count.toNat := Nat.pos_of_ne_zero fun h0 => hc (BitVec.eq_of_toNat_eq h0)
  constructor
  · rintro ⟨⟨bounce, m1, ha, hself⟩, hselfP, hall⟩
    obtain ⟨⟨a, p⟩, hp, he⟩ := Option.map_eq_some_iff.1 ha
    obtain ⟨f, hf, he'⟩ := Option.map_eq_some_iff.1 hp
    cases he'
    cases he
    obtain ⟨-, hflt, hfree⟩ := firstFree_some hf
    have hflt' : f < MAX_FRAMES := by omega
    rw [frameOf_addrOf hflt'] at hself
    have hsf : Unshadowed s.m f := (selfMapped_iff hb hm hP hfree hact hflt' (Or.inr rfl)).1 hself
    have hsP := (selfMapped_iff hb hm hP hfree hact hlt (Or.inl rfl)).1 hselfP
    refine ⟨⟨f, hf, hsf⟩, hsP, fetched_last hpos fun disk => ?_⟩
    have hd := diskDevice_serves disk (addrOf P)
    obtain ⟨s1, e1, hb1⟩ := readSectors_spec (ready hb hm hP hlt hact hf hsf hsP) hd hpage hc lba buffer
    obtain ⟨s2, e2, hb2⟩ := hall disk _ hd
    rw [e1] at e2
    cases e2
    refine put_inj ?_ (by simp [fetched]) (hb1.symm.trans hb2)
    have := count.isLt
    rw [fetched, List.length_map, List.length_range]
    omega
  · rintro ⟨⟨f, hf, hsf⟩, hsP, hlast⟩
    have hr := ready hb hm hP hlt hact hf hsf hsP
    obtain ⟨m1, ha, hmem, hcr, -⟩ := bounce_free hf
    refine ⟨⟨_, m1, ha, ?_⟩, hr.command.selfMapped, fun disk d hd => ?_⟩
    · rw [frameOf_addrOf (by have := (firstFree_some hf).2.1; omega)]
      exact (hr.bounce.congr (fun g _ => by rw [hmem]) hcr).selfMapped
    · obtain ⟨s1, e1, hb1⟩ := readSectors_spec hr hd hpage hc lba buffer
      exact ⟨s1, e1, by rw [hb1, fetched_eq hpos hlast]⟩

end Loop

/-- a task's space over the boot tables, and a command page, where the PMM hands out frames of the bitmap b -/
structure Sample (b : ℕ → BitVec 8) (s : St) (rs : List ℕ) (X : Set ℕ) (P f : ℕ) : Prop where
  built : Built s.m rs X
  map : BootMap s.m P
  other : P ∈ X
  lt : P < MAX_FRAMES
  active : getPml4 s.m ∈ rs ∧ getPml4 s.m ≠ frameOf s.m.gKernelPml4
  command : s.cmdPage = some (addrOf P)
  lowest : firstFree s.m.pmm.bitmap 0 MAX_FRAMES = some f
  free : isUsed b P = false ∧ isUsed b f = false

theorem sample_exists {b : ℕ → BitVec 8} (h0 : b 0 = 0xFF) (lo : ℕ) (hlo : lo + 100 ≤ MAX_FRAMES)
    (hfree : ∀ f, lo ≤ f → f < lo + 100 → isUsed b f = false) : ∃ s rs X P f, Sample b s rs X P f := by
  obtain ⟨m0, hm0⟩ : ∃ m0, m0 = { bootMachine with pmm := ⟨b, 0, 0⟩ } := ⟨_, rfl⟩
  have hlow : ∀ f, f < 8 → used m0 f = true := fun f hf => by
    have h8 : ∀ k : Fin 8, decide ((0xFF : BitVec 8) &&& BitVec.twoPow 8 (k.val % 8) ≠ 0) = true := by decide
    rw [hm0, used, isUsed]
    simp only [Nat.div_eq_of_lt hf, h0]
    exact h8 ⟨f, hf⟩
  have hcount : 100 ≤ freeCount m0.pmm := by
    have hsub : Finset.Ico lo (lo + 100) ⊆ (Finset.range MAX_FRAMES).filter fun f => isUsed b f = false := by
      intro f hf
      rw [Finset.mem_Ico] at hf
      exact Finset.mem_filter.2 ⟨Finset.mem_range.2 (by omega), hfree f hf.1 hf.2⟩
    calc 100 = (Finset.Ico lo (lo + 100)).card := by rw [Nat.card_Ico]; omega
      _ ≤ freeCount m0.pmm := by rw [hm0]; exact Finset.card_le_card hsub
  obtain ⟨klv, hk⟩ := bootMachine_booted.kern
  have hk0 : Kern klv m0 := hk.congr (by rw [hm0]) (fun f k _ => by rw [hm0]) fun f k _ hu => by
    rw [boot_used, decide_eq_true_eq] at hu
    exact hlow f hu
  have hb0 := Built.boot ⟨⟨klv, hk0⟩, hlow 0 (by decide)⟩
  -- a space, loaded
  obtain ⟨L, h⟩ := hb0.history
  obtain ⟨a, m1, hc, hcost⟩ := create_isSome (m := m0) (by omega)
  obtain ⟨L', r, rfl, hlt, hrfree, -, -, hst, -⟩ := create_spec h.inv hc
  have hb1 := hb0.create hc
  rw [frameOf_addrOf hlt] at hb1
  have hb2 := hb1.load (List.mem_singleton_self r)
  -- the command page
  obtain ⟨a, m3, ha⟩ := alloc_isSome (m := { m1 with cr3 := addrOf r }) (by show 0 < freeCount m1.pmm; omega)
  obtain ⟨P, rfl, hPlt, hPfree, hm3, hu, hcost3⟩ := alloc_spec ha
  have hb3 := hb2.alloc (fun _ => 0) ha
  rw [frameOf_addrOf hPlt] at hb3
  have hback : ∀ {g}, used m1 g = false → isUsed b g = false := fun {g} hg => by
    cases hug : used m0 g with
    | false =>
      rw [hm0] at hug
      exact hug
    | true =>
      rw [hst.used hug] at hg
      cases hg
  have hPfree : used m1 P = false := hPfree
  have hrows : ∀ f k, klv f = some k → (m3.fill P fun _ => 0).mem f = m0.mem f := fun f k hf => by
    have hf0 := (hk0.used hf).1
    rw [fill_mem, if_neg, hm3]
    · exact hst.mem hf0
    · rintro rfl
      rw [hst.used hf0] at hPfree
      cases hPfree
  have hg : m3.gKernelPml4 = m0.gKernelPml4 := by
    rw [hm3]
    exact hst.rest.2.1
  have hroot : frameOf m0.gKernelPml4 = 1 := by
    rw [hm0]
    exact frameOf_addrOf (by decide)
  have hcr : getPml4 m3 = r := by
    rw [hm3]
    exact kptr_addrOf hlt
  obtain ⟨a, m4, ha4⟩ := alloc_isSome (m := m3.fill P fun _ => 0)
    (by show 0 < freeCount m3.pmm; change freeCount m1.pmm = _ at hcost3; omega)
  obtain ⟨x, hx, -⟩ := Option.map_eq_some_iff.1 ha4
  obtain ⟨f, hf, -⟩ := Option.map_eq_some_iff.1 hx
  refine ⟨⟨m3.fill P fun _ => 0, some (addrOf P), ⟨fun _ => 0, []⟩, []⟩, _, _, P, f, hb3,
    ⟨⟨klv, ?_, ?_⟩, fun v hv => ?_⟩, Set.mem_insert P _, hPlt, ⟨?_, ?_⟩, rfl, hf, hback hPfree, hback ?_⟩
  · refine hk0.congr hg hrows fun f k _ hu0 => ?_
    rw [used_fill, hu, Bool.or_eq_true]
    exact Or.inr (hst.used hu0)
  · cases hkP : klv P with
    | none => rfl
    | some k =>
      rw [hst.used (hk0.used hkP).1] at hPfree
      cases hPfree
  · obtain ⟨fl, hid⟩ := bootMachine_atBoot.remapped.identity hv
    refine ⟨fl, ?_⟩
    rw [show (m3.fill P fun _ => 0).gKernelPml4 = m0.gKernelPml4 from hg, hk0.translate hrows, hroot, ← hid, hm0]
  · show getPml4 m3 ∈ _
    rw [hcr]
    exact List.mem_singleton_self r
  · show getPml4 m3 ≠ frameOf m3.gKernelPml4
    rw [hcr, hg, hroot]
    rintro rfl
    rw [hlow 1 (by decide)] at hrfree
    cases hrfree
  · have hfree4 : used m3 f = false := (firstFree_some hf).2.2
    rw [hu, Bool.or_eq_false_iff] at hfree4
    exact hfree4.2

/-- a task's space, with 100 MiB of memory taken: sectors 5 to 24 -/
theorem disk_reads_above : ∃ s P, getPml4 s.m ≠ frameOf s.m.gKernelPml4 ∧ DiskReads s P 5 20 0x9000 := by
  obtain ⟨s, rs, X, P, f, h⟩ := sample_exists (b := fun k => if k < 3200 then 0xFF else 0) (by decide) 25600
    (by decide) fun f hlo _ => by
      rw [isUsed, if_neg (by omega)]
      simp
  have habove : ∀ {g}, g < MAX_FRAMES → isUsed (fun k => if k < 3200 then 0xFF else 0) g = false →
      Unshadowed s.m g := by
    intro g hg hu
    refine Or.inr fun hw => ?_
    have h2 : RESERVED_HIGH.toNat = 16777216 := rfl
    have hlt := hw.2
    rw [BitVec.lt_def, h2, addrOf_toNat hg] at hlt
    have h8 : ∀ k : Fin 8, (0xFF : BitVec 8) &&& BitVec.twoPow 8 k.val ≠ 0 := by decide
    rw [isUsed, if_pos (by omega), decide_eq_false_iff_not, not_not] at hu
    exact h8 ⟨g % 8, Nat.mod_lt _ (by decide)⟩ hu
  have hflt : f < MAX_FRAMES := by
    have := (firstFree_some h.lowest).2.1
    omega
  exact ⟨s, P, h.active.2, (disk_reads_iff h.built h.map h.other h.lt (Or.inr h.active.1) h.command (by decide)).2
    ⟨⟨f, h.lowest, habove hflt h.free.2⟩, habove h.lt h.free.1, by decide⟩⟩

/-- **A page in the window.** With the memory below 2 MiB taken, the command page is not where the driver looks. -/
theorem disk_reads_shadowed : ¬ ∀ (s : St) (rs : List ℕ) (X : Set ℕ) (P f : ℕ) (lba : U64) (count : U32) (buffer : U64),
    Built s.m rs X → BootMap s.m P → P ∈ X → P < MAX_FRAMES →
    (getPml4 s.m = frameOf s.m.gKernelPml4 ∨ getPml4 s.m ∈ rs) → s.cmdPage = some (addrOf P) →
    firstFree s.m.pmm.bitmap 0 MAX_FRAMES = some f → count ≠ 0 → DiskReads s P lba count buffer := by
  intro hall
  obtain ⟨s, rs, X, P, f, h⟩ := sample_exists (b := fun k => if 64 ≤ k ∧ k < 512 then 0 else 0xFF) (by decide) 512
    (by decide) fun f hlo hhi => by
      rw [isUsed, if_pos ⟨by omega, by omega⟩]
      simp
  have hread := hall s rs X P f 0 1 0 h.built h.map h.other h.lt (Or.inr h.active.1) h.command h.lowest (by decide)
  have hself := (selfMapped_iff h.built h.map h.other (firstFree_some h.lowest).2.2 (Or.inr h.active.1) h.lt
    (Or.inl rfl)).1 hread.2.1
  refine hself.resolve_left h.active.2 ?_
  -- only frames of the window were free
  have hu := h.free.1
  have h8 : ∀ k : Fin 8, (0xFF : BitVec 8) &&& BitVec.twoPow 8 k.val ≠ 0 := by decide
  have hin : 64 ≤ P / 8 ∧ P / 8 < 512 := by
    by_contra hout
    rw [isUsed, if_neg hout, decide_eq_false_iff_not, not_not] at hu
    exact h8 ⟨P % 8, Nat.mod_lt _ (by decide)⟩ hu
  have h1 : RESERVED_LOW.toNat = 2097152 := rfl
  have h2 : RESERVED_HIGH.toNat = 16777216 := rfl
  have ha := addrOf_toNat h.lt
  rw [InWindow, BitVec.le_def, BitVec.lt_def, h1, h2, ha]
  omega

end Retux.Ahci
