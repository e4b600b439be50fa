/-
`pmm::init` and the life of the bitmap after it (`mem/pmm.cpp`).

The bitmap starts with every frame used. `markRangeFree` frees the frames wholly inside an available region,
`markRangeUsed` takes back those that a reserved range touches: the kernel image, the first MiB, the boot information and
the modules. Both round in 64 bits, and both can wrap there: `base + 4095` in the first, `base + length + 4095` in the
second.

- `markRangeFree_spec`, `markRangeUsed_spec`: the frames a range frees and takes, wrapping included;
- `Counted`: the clear bits are `total_frames - used_frames`;
- `sound_iff`: the allocator is sound exactly when no wrap does harm.
-/
import Mathlib.Tactic
import Retux.Boot.Mb2
import Retux.Lib.Run
import Retux.Mem.Pmm

namespace Retux.Pmm

open Retux.Word Retux.Mb2 Retux.Run

/-! ## Model -/

/-- one round of `mark_range_free` -/
def markFree (st : St) (frame : ℕ) : St :=
  if isUsed st.bitmap frame then
    { st with bitmap := setFree st.bitmap frame, totalFrames := st.totalFrames + 1#64 }
  else st

/-- one round of `mark_range_used` -/
def markUsed (st : St) (frame : ℕ) : St :=
  if isUsed st.bitmap frame = false then
    { st with bitmap := setUsed st.bitmap frame, usedFrames := st.usedFrames + 1#64 }
  else st

/-- `for (addr = start; addr < end; addr += PAGE_SIZE)`, which stops at the end of the bitmap -/
def forFrames (visit : St → ℕ → St) (stop : ℕ) : ℕ → ℕ → St → St
  | 0, _, st => st
  | fuel + 1, addr, st =>
    if addr < stop then
      if addr / PAGE_SIZE ≥ MAX_FRAMES then st
      else forFrames visit stop fuel (addr + PAGE_SIZE) (visit st (addr / PAGE_SIZE))
    else st

def markRangeFree (st : St) (base length : U64) : St :=
  let start := (base + 0xFFF#64) &&& ~~~0xFFF#64
  let stop := (base + length) &&& ~~~0xFFF#64
  if start.toNat ≥ stop.toNat then st else forFrames markFree stop.toNat (MAX_FRAMES + 1) start.toNat st

def markRangeUsed (st : St) (base length : U64) : St :=
  let start := base &&& ~~~0xFFF#64
  let stop := (base + length + 0xFFF#64) &&& ~~~0xFFF#64
  forFrames markUsed stop.toNat (MAX_FRAMES + 1) start.toNat st

/-- the loop over the memory map -/
def markEntries (mem : Bytes) (mmapEnd entrySize : ℕ) : ℕ → ℕ → St → Option St
  | 0, _, _ => none
  | fuel + 1, entryPtr, st =>
    if entryPtr < mmapEnd then
      markEntries mem mmapEnd entrySize fuel (entryPtr + entrySize)
        (if u32 mem (entryPtr + 16) = MEMMAP_AVAIL then
          markRangeFree st (BitVec.ofNat 64 (u64 mem entryPtr)) (BitVec.ofNat 64 (u64 mem (entryPtr + 8)))
        else st)
    else some st

/-- the visitor for the modules; `mod_end - mod_start` is 32-bit -/
def markModule (mem : Bytes) (st : St) (tag : ℕ) : St :=
  if u32 mem tag = TAG_MODULE then
    markRangeUsed st (BitVec.ofNat 64 (u32 mem (tag + 8)))
      ((BitVec.ofNat 32 (u32 mem (tag + 12)) - BitVec.ofNat 32 (u32 mem (tag + 8))).zeroExtend 64)
  else st

/-- `pmm::init`. A walk gets as many rounds as the boot information has bytes. -/
def init (mem : Bytes) (bootInfoAddr kernelStart kernelEnd : U64) : Option St := do
  let info := bootInfoAddr.toNat
  let totalSize := u32 mem info
  let mmap ← (← findTag mem TAG_MEMMAP totalSize (info + 8))
  let st ← markEntries mem (mmap + u32 mem (mmap + 4)) (u32 mem (mmap + 8)) totalSize (mmap + 16)
    { bitmap := fun _ => 0xFF, totalFrames := 0, usedFrames := 0 }
  let st := markRangeUsed st kernelStart (kernelEnd - kernelStart)
  let st := markRangeUsed st 0 0x100000
  let st := markRangeUsed st bootInfoAddr (BitVec.ofNat 64 totalSize)
  forEachTag mem (fun st tag => (markModule mem st tag, false)) totalSize (info + 8) st

/-! ## Ranges -/

section Ranges

variable {st : St} {visit : St → ℕ → St}

/-- the loop is a fold over the frames -/
theorem forFrames_eq (s e n : ℕ) (hn : min e MAX_FRAMES - s < n) (st : St) :
    forFrames visit (e * PAGE_SIZE) n (s * PAGE_SIZE) st =
      (List.range' s (min e MAX_FRAMES - s)).foldl visit st := by
  have hpage : 0 < PAGE_SIZE := by decide
  induction n generalizing s st with
  | zero => omega
  | succ n ih =>
    rw [forFrames]
    by_cases hs : s < e
    · rw [if_pos (Nat.mul_lt_mul_of_pos_right hs hpage), Nat.mul_div_cancel _ hpage]
      by_cases hm : s ≥ MAX_FRAMES
      · rw [if_pos hm, show min e MAX_FRAMES - s = 0 by omega]
        rfl
      · rw [if_neg hm, show s * PAGE_SIZE + PAGE_SIZE = (s + 1) * PAGE_SIZE by rw [Nat.succ_mul],
          ih (s + 1) (by omega), show min e MAX_FRAMES - s = (min e MAX_FRAMES - (s + 1)) + 1 by omega,
          List.range'_succ, List.foldl_cons]
    · rw [if_neg (by rw [not_lt]; exact Nat.mul_le_mul_right _ (not_lt.1 hs)), show min e MAX_FRAMES - s = 0 by omega]
      rfl

theorem markFree_isUsed (f g : ℕ) :
    isUsed (markFree st f).bitmap g = (isUsed st.bitmap g && !decide (g = f)) := by
  unfold markFree
  split_ifs with hu
  · rw [isUsed_setFree, Bool.and_comm]
  · by_cases hg : g = f
    · simp [hg, Bool.eq_false_iff.2 hu]
    · simp [hg]

theorem markUsed_isUsed (f g : ℕ) : isUsed (markUsed st f).bitmap g = (isUsed st.bitmap g || decide (g = f)) := by
  unfold markUsed
  split_ifs with hu
  · rw [isUsed_setUsed, Bool.or_comm]
  · by_cases hg : g = f
    · simp [hg, Bool.eq_true_of_not_eq_false hu]
    · simp [hg]

theorem foldl_markFree (l : List ℕ) (st : St) (g : ℕ) :
    isUsed (l.foldl markFree st).bitmap g = (isUsed st.bitmap g && !decide (g ∈ l)) := by
  induction l generalizing st with
  | nil => simp
  | cons f l ih => rw [List.foldl_cons, ih, markFree_isUsed, Bool.and_assoc, ← Bool.not_or]; simp

theorem foldl_markUsed (l : List ℕ) (st : St) (g : ℕ) :
    isUsed (l.foldl markUsed st).bitmap g = (isUsed st.bitmap g || decide (g ∈ l)) := by
  induction l generalizing st with
  | nil => simp
  | cons f l ih => rw [List.foldl_cons, ih, markUsed_isUsed, Bool.or_assoc]; simp

/-- the frame lies wholly inside the region -/
def Inside (base length f : ℕ) : Prop := base ≤ f * PAGE_SIZE ∧ (f + 1) * PAGE_SIZE ≤ base + length

/-- the outward-rounded range touches the frame -/
def Touches (base length f : ℕ) : Prop := base / PAGE_SIZE ≤ f ∧ f < (base + length + 4095) / PAGE_SIZE

/-- what `mark_range_free` frees: the ceiling of a base in the last page of the address space is 0 -/
def Freed (base length f : ℕ) : Prop := 2 ^ 64 - 4096 < base ∨ Inside base length f

/-- what `mark_range_used` takes: the ceiling of an end in the last page is 0 -/
def Taken (base length f : ℕ) : Prop := base + length ≤ 2 ^ 64 - 4096 ∧ Touches base length f

instance (base length f : ℕ) : Decidable (Inside base length f) := inferInstanceAs (Decidable (_ ∧ _))
instance (base length f : ℕ) : Decidable (Touches base length f) := inferInstanceAs (Decidable (_ ∧ _))
instance (base length f : ℕ) : Decidable (Freed base length f) := inferInstanceAs (Decidable (_ ∨ _))
instance (base length f : ℕ) : Decidable (Taken base length f) := inferInstanceAs (Decidable (_ ∧ _))

/-- the frames `mark_range_free` visits -/
theorem markRangeFree_eq (st : St) (base length : U64) (h : base.toNat + length.toNat < 2 ^ 64) : ∃ l : List ℕ,
    markRangeFree st base length = l.foldl markFree st ∧
      ∀ f, f ∈ l ↔ f < MAX_FRAMES ∧ Freed base.toNat length.toNat f := by
  have hstart : ((base + 0xFFF#64) &&& ~~~0xFFF#64).toNat = (base.toNat + 4095) % 2 ^ 64 / 4096 * 4096 := by
    rw [and_not_page, BitVec.toNat_add]
    rfl
  have hstop : ((base + length) &&& ~~~0xFFF#64).toNat = (base.toNat + length.toNat) / 4096 * 4096 := by
    rw [and_not_page, BitVec.toNat_add, Nat.mod_eq_of_lt h]
  unfold markRangeFree
  simp only
  rw [hstart, hstop]
  have hb := base.isLt
  split_ifs with hge
  · refine ⟨[], rfl, fun f => ⟨fun hf => absurd hf List.not_mem_nil, ?_⟩⟩
    rintro ⟨hf, hw | ⟨h1, h2⟩⟩ <;> unfold PAGE_SIZE at * <;> omega
  · refine ⟨_, forFrames_eq _ _ _ (by omega) st, fun f => ?_⟩
    rw [List.mem_range'_1]
    unfold Freed Inside PAGE_SIZE MAX_FRAMES at *
    constructor
    · intro hf
      omega
    · rintro ⟨hf, hw | ⟨h1, h2⟩⟩ <;> omega

/-- the frames `mark_range_used` visits -/
theorem markRangeUsed_eq (st : St) (base length : U64) (h : base.toNat + length.toNat < 2 ^ 64) : ∃ l : List ℕ,
    markRangeUsed st base length = l.foldl markUsed st ∧
      ∀ f, f ∈ l ↔ f < MAX_FRAMES ∧ Taken base.toNat length.toNat f := by
  have hstop : ((base + length + 0xFFF#64) &&& ~~~0xFFF#64).toNat =
      (base.toNat + length.toNat + 4095) % 2 ^ 64 / 4096 * 4096 := by
    rw [and_not_page, BitVec.toNat_add, BitVec.toNat_add, Nat.mod_eq_of_lt h]
    rfl
  unfold markRangeUsed
  simp only
  rw [hstop, and_not_page]
  refine ⟨_, forFrames_eq _ _ _ (by omega) st, fun f => ?_⟩
  rw [List.mem_range'_1]
  unfold Taken Touches PAGE_SIZE MAX_FRAMES at *
  omega

end Ranges

/-! ## The counters -/

/-- the clear bits are `total_frames - used_frames` -/
def Counted (st : St) : Prop := freeCount st + st.usedFrames.toNat = st.totalFrames.toNat

section Counters

variable {st : St}

/-- while nothing is taken back -/
theorem markFree_counted {f : ℕ} (h : Counted st) (h0 : st.usedFrames = 0) (hf : f < MAX_FRAMES) :
    Counted (markFree st f) ∧ (markFree st f).usedFrames = 0 := by
  have hbits : ∀ g, isUsed (markFree st f).bitmap g = (isUsed st.bitmap g && !decide (g = f)) := markFree_isUsed f
  unfold markFree at hbits ⊢
  split_ifs at hbits ⊢ with hu
  · have htake := freeCount_take { st with bitmap := setFree st.bitmap f, totalFrames := st.totalFrames + 1#64 } st hf
      (by rw [hbits]; simp) fun g => by rw [hbits]; by_cases hg : g = f <;> simp [hg, hu]
    have hle := freeCount_le { st with bitmap := setFree st.bitmap f, totalFrames := st.totalFrames + 1#64 }
    unfold Counted at h ⊢
    rw [h0] at h
    have hz : (0 : U64).toNat = 0 := rfl
    have ht : st.totalFrames.toNat < MAX_FRAMES := by omega
    have hadd : (st.totalFrames + 1#64).toNat = st.totalFrames.toNat + 1 := by
      rw [BitVec.toNat_add]
      unfold MAX_FRAMES at ht
      exact Nat.mod_eq_of_lt (by show st.totalFrames.toNat + 1 < 2 ^ 64; omega)
    refine ⟨?_, h0⟩
    show freeCount _ + st.usedFrames.toNat = (st.totalFrames + 1#64).toNat
    rw [hadd, htake, h0]
    omega
  · exact ⟨h, h0⟩

theorem usedFrames_succ (h : st.usedFrames.toNat < st.totalFrames.toNat) :
    (st.usedFrames + 1#64).toNat = st.usedFrames.toNat + 1 :=
  BitVec.toNat_add_of_lt (Nat.lt_of_le_of_lt h st.totalFrames.isLt)

theorem markUsed_counted {f : ℕ} (h : Counted st) (hf : f < MAX_FRAMES) : Counted (markUsed st f) := by
  have hbits : ∀ g, isUsed (markUsed st f).bitmap g = (isUsed st.bitmap g || decide (g = f)) := markUsed_isUsed f
  unfold markUsed at hbits ⊢
  split_ifs at hbits ⊢ with hu
  · have htake := freeCount_take st { st with bitmap := setUsed st.bitmap f, usedFrames := st.usedFrames + 1#64 } hf hu
      fun g => by rw [hbits, Bool.or_comm]
    unfold Counted at h ⊢
    have hadd : (st.usedFrames + 1#64).toNat = st.usedFrames.toNat + 1 := usedFrames_succ (by omega)
    show freeCount _ + (st.usedFrames + 1#64).toNat = st.totalFrames.toNat
    rw [hadd]
    omega
  · exact h

theorem alloc_total {st' : St} {a : U64} (ha : allocFrame st = some (a, st')) : st'.totalFrames = st.totalFrames := by
  obtain ⟨f, -, he⟩ := Option.map_eq_some_iff.1 ha
  cases he
  rfl

theorem alloc_counted {st' : St} {a : U64} (h : Counted st) (ha : allocFrame st = some (a, st')) : Counted st' := by
  have hcost := allocFrame_freeCount ha
  obtain ⟨f, -, he⟩ := Option.map_eq_some_iff.1 ha
  cases he
  unfold Counted at h ⊢
  have hadd : (st.usedFrames + 1#64).toNat = st.usedFrames.toNat + 1 := usedFrames_succ (by omega)
  show _ + (st.usedFrames + 1#64).toNat = st.totalFrames.toNat
  rw [hadd]
  omega

/-- a frame given back that was counted as used -/
theorem free_counted {f : ℕ} (h : Counted st) (hf : f < MAX_FRAMES) (hu : isUsed st.bitmap f = true)
    (hpos : 0 < st.usedFrames.toNat) : Counted (freeFrame st (addrOf f)) := by
  have hbits := freeFrame_isUsed st (addrOf f) (by rw [frameOf_addrOf hf]; exact hf)
  rw [frameOf_addrOf hf] at hbits
  have htake := freeCount_take (freeFrame st (addrOf f)) st hf (by rw [hbits]; simp)
    fun g => by rw [hbits]; by_cases hg : g = f <;> simp [hg, hu]
  unfold Counted at h ⊢
  have hsub : (st.usedFrames - 1#64).toNat = st.usedFrames.toNat - 1 := by bv_omega
  have hrest : (freeFrame st (addrOf f)).usedFrames = st.usedFrames - 1#64 ∧
      (freeFrame st (addrOf f)).totalFrames = st.totalFrames := by
    unfold freeFrame
    simp only [frameOf_addrOf hf]
    rw [if_neg (not_or.2 ⟨Nat.not_le.2 hf, by rw [hu]; decide⟩)]
    exact ⟨rfl, rfl⟩
  rw [hrest.1, hrest.2, htake, hsub]
  omega

end Counters

/-! ## Setup -/

def Tag.entries? : Tag → Option (List MemMapEntry)
  | .memmap _ entries => some entries
  | _ => none

/-- the range of a module -/
def Tag.module? : Tag → Option (ℕ × ℕ)
  | .bootModule _ modStart modEnd => some (modStart, modEnd)
  | _ => none

/-- what the boot loader hands over: the tags in memory, with one memory map at least, and the ranges that do not wrap -/
structure BootInfo where
  mem : Bytes
  bootInfoAddr : U64
  kernelStart : U64
  kernelEnd : U64
  tags : List Tag
  entries : List MemMapEntry
  chain : Chain mem (bootInfoAddr.toNat + 8) tags
  size : 16 + (tags.map fun t => aligned t.size).sum ≤ u32 mem bootInfoAddr.toNat
  memmap : tags.findSome? Tag.entries? = some entries
  regions : ∀ e ∈ entries, e.baseAddr + e.length < 2 ^ 64
  kernel : kernelStart.toNat ≤ kernelEnd.toNat
  info : bootInfoAddr.toNat + u32 mem bootInfoAddr.toNat < 2 ^ 64
  modules : ∀ t ∈ tags, ∀ s e, Tag.module? t = some (s, e) → s ≤ e

namespace BootInfo

variable (b : BootInfo)

def totalSize : ℕ := u32 b.mem b.bootInfoAddr.toNat

/-- the frame lies wholly inside one available region -/
def Available (f : ℕ) : Prop := ∃ e ∈ b.entries, e.type = MEMMAP_AVAIL ∧ Inside e.baseAddr e.length f

def KernelFrame (f : ℕ) : Prop := Touches b.kernelStart.toNat (b.kernelEnd.toNat - b.kernelStart.toNat) f

/-- touched by the first MiB, the boot information or a module -/
def OtherReserved (f : ℕ) : Prop :=
  Touches 0 0x100000 f ∨ Touches b.bootInfoAddr.toNat b.totalSize f ∨
    ∃ t ∈ b.tags, ∃ s e, Tag.module? t = some (s, e) ∧ Touches s (e - s) f

def Reserved (f : ℕ) : Prop := b.KernelFrame f ∨ b.OtherReserved f

/-- an available region starts so high that its ceiling is 0 -/
def HighRegion : Prop := ∃ e ∈ b.entries, e.type = MEMMAP_AVAIL ∧ 2 ^ 64 - 4096 < e.baseAddr

/-- the kernel ends so high that its ceiling is 0 -/
def HighKernel : Prop := 2 ^ 64 - 4096 < b.kernelEnd.toNat

end BootInfo

section Setup

variable {st : St} {mem : Bytes}

theorem u32_lt (mem : Bytes) (a : ℕ) : u32 mem a < 2 ^ 32 := by
  have h0 := (mem a).isLt
  have h1 := (mem (a + 1)).isLt
  have h2 := (mem (a + 2)).isLt
  have h3 := (mem (a + 3)).isLt
  unfold u32
  omega

/-- one entry of the memory map -/
def markEntry (st : St) (e : MemMapEntry) : St :=
  if e.type = MEMMAP_AVAIL then markRangeFree st (BitVec.ofNat 64 e.baseAddr) (BitVec.ofNat 64 e.length) else st

/-- the loop over the memory map visits every entry -/
theorem markEntries_eq {entrySize a n : ℕ} {es : List MemMapEntry} (h : EntriesAt mem entrySize a es)
    (hs : 24 ≤ entrySize) (hn : es.length < n) (st : St) :
    markEntries mem (a + es.length * entrySize) entrySize n a st = some (es.foldl markEntry st) := by
  induction es generalizing a n st with
  | nil =>
    obtain ⟨n, rfl⟩ := Nat.exists_eq_succ_of_ne_zero (Nat.ne_zero_of_lt hn)
    rw [markEntries, if_neg (by simp)]
    rfl
  | cons e es ih =>
    obtain ⟨n, rfl⟩ := Nat.exists_eq_succ_of_ne_zero (Nat.ne_zero_of_lt hn)
    obtain ⟨⟨hbase, hlen, htype⟩, hrest⟩ := h
    have hend : a + (e :: es).length * entrySize = a + entrySize + es.length * entrySize := by
      rw [List.length_cons, Nat.succ_mul]
      omega
    rw [markEntries, if_pos (by rw [hend]; omega), hbase, hlen, htype, hend, ih hrest (by simpa using hn)]
    rfl

/-- the frames free so far, and the counters -/
structure Free (st : St) (A : ℕ → Prop) : Prop where
  bits : ∀ f, f < MAX_FRAMES → (isUsed st.bitmap f = false ↔ A f)
  counted : Counted st

theorem start_free : Free { bitmap := fun _ => 0xFF, totalFrames := 0, usedFrames := 0 } fun _ => False := by
  have hused : ∀ f, isUsed (fun _ => 0xFF#8) f = true := by
    intro f
    rw [isUsed_iff]
    have hlt : f % 8 < 8 := Nat.mod_lt _ (by decide)
    generalize f % 8 = k at hlt
    interval_cases k <;> rfl
  refine ⟨fun f _ => by simp [hused], ?_⟩
  have h0 : freeCount { bitmap := fun _ => 0xFF, totalFrames := 0, usedFrames := 0 } = 0 := by
    unfold freeCount
    rw [Finset.card_eq_zero, Finset.filter_eq_empty_iff]
    intro f _
    simp [hused]
  unfold Counted
  rw [h0]
  rfl

/-- one more list of frames freed -/
theorem Free.markFree {A : ℕ → Prop} {l : List ℕ} (h : Free st A) (h0 : st.usedFrames = 0)
    (hl : ∀ f ∈ l, f < MAX_FRAMES) :
    Free (l.foldl markFree st) (fun f => A f ∨ f ∈ l) ∧ (l.foldl Pmm.markFree st).usedFrames = 0 := by
  have hcount : Counted (l.foldl Pmm.markFree st) ∧ (l.foldl Pmm.markFree st).usedFrames = 0 :=
    List.foldlRecOn (motive := fun u : St => Counted u ∧ u.usedFrames = 0) l _ ⟨h.counted, h0⟩
      fun u hu f hf => markFree_counted hu.1 hu.2 (hl f hf)
  refine ⟨⟨fun f hf => ?_, hcount.1⟩, hcount.2⟩
  rw [foldl_markFree, Bool.and_eq_false_iff, h.bits f hf]
  simp

/-- one more list of frames taken -/
theorem Free.markUsed {A : ℕ → Prop} {l : List ℕ} (h : Free st A) (hl : ∀ f ∈ l, f < MAX_FRAMES) :
    Free (l.foldl markUsed st) fun f => A f ∧ f ∉ l := by
  have hcount : Counted (l.foldl Pmm.markUsed st) :=
    List.foldlRecOn (motive := Counted) l _ h.counted fun u hu f hf => markUsed_counted hu (hl f hf)
  refine ⟨fun f hf => ?_, hcount⟩
  rw [foldl_markUsed, Bool.or_eq_false_iff, h.bits f hf]
  simp

theorem Free.congr {A B : ℕ → Prop} (h : Free st A) (hab : ∀ f, f < MAX_FRAMES → (A f ↔ B f)) : Free st B :=
  ⟨fun f hf => (h.bits f hf).trans (hab f hf), h.counted⟩

theorem Free.range {A : ℕ → Prop} (base length : U64) (h : Free st A) (hw : base.toNat + length.toNat < 2 ^ 64) :
    Free (markRangeUsed st base length) fun f => A f ∧ ¬ Taken base.toNat length.toNat f := by
  obtain ⟨l, heq, hl⟩ := markRangeUsed_eq st base length hw
  rw [heq]
  refine (h.markUsed fun f hf => ((hl f).1 hf).1).congr fun f hf => and_congr_right fun _ => not_congr ?_
  rw [hl]
  exact and_iff_right hf

/-- the whole memory map -/
theorem Free.entries {A : ℕ → Prop} {es : List MemMapEntry} (h : Free st A) (h0 : st.usedFrames = 0)
    (hes : ∀ e ∈ es, e.baseAddr + e.length < 2 ^ 64) :
    Free (es.foldl markEntry st) fun f =>
      A f ∨ ∃ e ∈ es, e.type = MEMMAP_AVAIL ∧ Freed e.baseAddr e.length f := by
  induction es generalizing st A with
  | nil => exact h.congr fun f _ => by simp
  | cons e es ih =>
    have he := hes e (List.mem_cons_self ..)
    have hrest : ∀ e ∈ es, e.baseAddr + e.length < 2 ^ 64 := fun e he => hes e (List.mem_cons_of_mem _ he)
    rw [List.foldl_cons]
    by_cases ht : e.type = MEMMAP_AVAIL
    · have hb : (BitVec.ofNat 64 e.baseAddr).toNat = e.baseAddr := by
        rw [BitVec.toNat_ofNat]
        exact Nat.mod_eq_of_lt (by omega)
      have hlen : (BitVec.ofNat 64 e.length).toNat = e.length := by
        rw [BitVec.toNat_ofNat]
        exact Nat.mod_eq_of_lt (by omega)
      obtain ⟨l, heq, hl⟩ := markRangeFree_eq st (BitVec.ofNat 64 e.baseAddr) (BitVec.ofNat 64 e.length)
        (by rw [hb, hlen]; exact he)
      rw [hb, hlen] at hl
      have hstep : markEntry st e = l.foldl Pmm.markFree st := by rw [markEntry, if_pos ht, heq]
      obtain ⟨h1, h2⟩ := h.markFree h0 fun f hf => ((hl f).1 hf).1
      rw [hstep]
      refine (ih h1 h2 hrest).congr fun f hf => ?_
      rw [or_assoc, hl, and_iff_right hf]
      simp [ht]
    · have hstep : markEntry st e = st := by rw [markEntry, if_neg ht]
      rw [hstep]
      exact (ih h h0 hrest).congr fun f _ => by simp [ht]

/-- a module is a 32-bit range -/
theorem markModule_eq {a : ℕ} {t : Tag} (ht : t.At mem a) :
    markModule mem st a = match Tag.module? t with
      | none => st
      | some (s, e) => markRangeUsed st (BitVec.ofNat 64 s) ((BitVec.ofNat 32 e - BitVec.ofNat 32 s).zeroExtend 64) := by
  unfold markModule
  rw [ht.type]
  cases t with
  | memmap entrySize entries => exact if_neg (show TAG_MEMMAP ≠ TAG_MODULE by decide)
  | bootModule size modStart modEnd =>
    obtain ⟨h1, h2, -⟩ := ht.body
    rw [h1, h2]
    exact if_pos rfl
  | other type size => exact if_neg ht.body.2.1

theorem Free.modules {A : ℕ → Prop} {l : List (ℕ × Tag)} (h : Free st A) (hl : ∀ p ∈ l, p.2.At mem p.1)
    (hse : ∀ p ∈ l, ∀ s e, Tag.module? p.2 = some (s, e) → s ≤ e) :
    Free (l.foldl (fun st p => markModule mem st p.1) st) fun f =>
      A f ∧ ¬ ∃ p ∈ l, ∃ s e, Tag.module? p.2 = some (s, e) ∧ Touches s (e - s) f := by
  induction l generalizing st A with
  | nil => exact h.congr fun f _ => by simp
  | cons p l ih =>
    have hp := hl p (List.mem_cons_self ..)
    have hl' : ∀ p ∈ l, p.2.At mem p.1 := fun p hp => hl p (List.mem_cons_of_mem _ hp)
    have hse' : ∀ p ∈ l, ∀ s e, Tag.module? p.2 = some (s, e) → s ≤ e := fun p hp => hse p (List.mem_cons_of_mem _ hp)
    rw [List.foldl_cons, markModule_eq hp]
    cases hm : Tag.module? p.2 with
    | none => exact (ih h hl' hse').congr fun f _ => by simp [hm]
    | some r =>
      obtain ⟨s, e⟩ := r
      have hle := hse p (List.mem_cons_self ..) s e hm
      have hlt : e < 2 ^ 32 := by
        obtain ⟨a, t⟩ := p
        cases t with
        | memmap entrySize entries => cases hm
        | bootModule size modStart modEnd =>
          cases hm
          rw [← hp.body.2.1]
          exact u32_lt _ _
        | other type size => cases hm
      have hs : (BitVec.ofNat 64 s).toNat = s := by
        rw [BitVec.toNat_ofNat]
        exact Nat.mod_eq_of_lt (by omega)
      have he : ((BitVec.ofNat 32 e - BitVec.ofNat 32 s).zeroExtend 64).toNat = e - s := by
        rw [BitVec.toNat_setWidth, BitVec.toNat_sub, BitVec.toNat_ofNat, BitVec.toNat_ofNat]
        omega
      have hrange := h.range (BitVec.ofNat 64 s) ((BitVec.ofNat 32 e - BitVec.ofNat 32 s).zeroExtend 64)
        (by rw [hs, he]; omega)
      rw [hs, he] at hrange
      -- a range below 4 GiB does not wrap
      have htouch : ∀ f, Taken s (e - s) f ↔ Touches s (e - s) f := fun f => and_iff_right (by omega)
      refine (ih hrange hl' hse').congr fun f _ => ?_
      rw [htouch]
      simp only [List.mem_cons, exists_eq_or_imp, hm, Option.some.injEq, Prod.mk.injEq, and_assoc, not_or]
      constructor
      · rintro ⟨ha, hn, hr⟩
        refine ⟨ha, ?_, hr⟩
        rintro ⟨s', e', rfl, rfl, ht⟩
        exact hn ht
      · rintro ⟨ha, hn, hr⟩
        exact ⟨ha, fun ht => hn ⟨s, e, rfl, rfl, ht⟩, hr⟩

theorem le_aligned {n : ℕ} (h : n + 7 < 4294967296) : n ≤ aligned n := by
  unfold aligned
  omega

theorem tags_length {tags : List Tag} {a : ℕ} (h : Chain mem a tags) :
    8 * tags.length ≤ (tags.map fun t => aligned t.size).sum := by
  induction tags generalizing a with
  | nil => simp
  | cons t ts ih =>
    have h1 := h.1.eight_le
    have h2 := ih h.2
    simp only [List.length_cons, List.map_cons, List.sum_cons]
    omega

/-- the first memory map is the one `find_tag` stops at -/
theorem find_memmap {tags : List Tag} {a : ℕ} {entries : List MemMapEntry} (h : Chain mem a tags)
    (hm : tags.findSome? Tag.entries? = some entries) :
    ∃ pos entrySize, ((place a tags).find? fun p => p.2.type = TAG_MEMMAP) = some (pos, .memmap entrySize entries) := by
  induction tags generalizing a with
  | nil => cases hm
  | cons t ts ih =>
    cases t with
    | memmap entrySize es =>
      cases hm
      exact ⟨a, entrySize, rfl⟩
    | bootModule size modStart modEnd =>
      obtain ⟨pos, entrySize, hf⟩ := ih h.2 hm
      exact ⟨pos, entrySize, hf⟩
    | other type size =>
      obtain ⟨pos, entrySize, hf⟩ := ih h.2 hm
      have hne : (Tag.other type size).type ≠ TAG_MEMMAP := h.1.body.2.2.1
      refine ⟨pos, entrySize, ?_⟩
      rw [place, List.find?_cons, show decide ((a, Tag.other type size).2.type = TAG_MEMMAP) = false from
        decide_eq_false hne]
      exact hf

theorem BootInfo.totalSize_lt (b : BootInfo) : b.totalSize < 2 ^ 32 := u32_lt _ _

/-- below 4 GiB, of the reserved ranges only the kernel's can wrap -/
theorem BootInfo.info_taken (b : BootInfo) {f : ℕ} (hf : f < MAX_FRAMES) :
    Taken b.bootInfoAddr.toNat b.totalSize f ↔ Touches b.bootInfoAddr.toNat b.totalSize f := by
  refine ⟨fun h => h.2, fun h => ⟨?_, h⟩⟩
  have hlt := b.totalSize_lt
  have h1 := h.1
  unfold PAGE_SIZE MAX_FRAMES at *
  omega

/-- **`pmm::init`** returns, and this is what is free then. -/
theorem BootInfo.init_spec (b : BootInfo) : ∃ st, Pmm.init b.mem b.bootInfoAddr b.kernelStart b.kernelEnd = some st ∧
    Free st fun f => (b.HighRegion ∨ b.Available f) ∧ ¬ (¬ b.HighKernel ∧ b.KernelFrame f) ∧ ¬ b.OtherReserved f := by
  have hsize : 16 + (b.tags.map fun t => aligned t.size).sum ≤ b.totalSize := b.size
  have hlen := tags_length b.chain
  have hn : b.tags.length < b.totalSize := by omega
  obtain ⟨pos, entrySize, hfind⟩ := find_memmap b.chain b.memmap
  have hmem := List.mem_of_find?_eq_some hfind
  have hat : (Tag.memmap entrySize b.entries).At b.mem pos := place_at b.chain _ hmem
  obtain ⟨hes, h24, hentries⟩ := hat.body
  -- the map is inside the boot information, so the loop has rounds enough
  have hcount : b.entries.length < b.totalSize := by
    have hin : (Tag.memmap entrySize b.entries) ∈ b.tags := by
      rw [← place_snd (b.bootInfoAddr.toNat + 8) b.tags]
      exact List.mem_map_of_mem hmem
    have hle : aligned (Tag.memmap entrySize b.entries).size ≤ (b.tags.map fun t => aligned t.size).sum :=
      List.single_le_sum (by simp) _ (List.mem_map_of_mem hin)
    have hsz : (Tag.memmap entrySize b.entries).size = 16 + b.entries.length * entrySize := rfl
    have hmul : b.entries.length * 1 ≤ b.entries.length * entrySize := Nat.mul_le_mul_left _ (by omega)
    have hge := le_aligned hat.fits
    omega
  have hkernel : (b.kernelEnd - b.kernelStart).toNat = b.kernelEnd.toNat - b.kernelStart.toNat :=
    BitVec.toNat_sub_of_le b.kernel
  have hinfo : (BitVec.ofNat 64 b.totalSize).toNat = b.totalSize := by
    have := b.totalSize_lt
    rw [BitVec.toNat_ofNat]
    exact Nat.mod_eq_of_lt (by omega)
  have h1 := start_free.entries rfl b.regions
  have h2 := h1.range b.kernelStart (b.kernelEnd - b.kernelStart)
    (by rw [hkernel]; have := b.kernelEnd.isLt; have := b.kernel; omega)
  have h3 := h2.range 0 0x100000 (by decide)
  have h4 := h3.range b.bootInfoAddr (BitVec.ofNat 64 b.totalSize) (by rw [hinfo]; exact b.info)
  have h5 := h4.modules (fun p hp => place_at b.chain p hp) fun p hp s e hse => b.modules p.2 (by
    rw [← place_snd (b.bootInfoAddr.toNat + 8) b.tags]
    exact List.mem_map_of_mem hp) s e hse
  refine ⟨_, ?_, h5.congr fun f hf => ?_⟩
  · unfold Pmm.init
    simp only [bind, show u32 b.mem b.bootInfoAddr.toNat = b.totalSize from rfl]
    rw [findTag_chain b.chain hn, Option.bind_some, hfind]
    simp only [Option.map_some, Option.bind_some]
    rw [hat.size, hes, show pos + (Tag.memmap entrySize b.entries).size = pos + 16 + b.entries.length * entrySize from
      (Nat.add_assoc _ _ _).symm, markEntries_eq hentries h24 hcount, Option.bind_some]
    exact forEachTag_chain b.chain hn _
  · have hfree : (False ∨ ∃ e ∈ b.entries, e.type = MEMMAP_AVAIL ∧ Freed e.baseAddr e.length f) ↔
        b.HighRegion ∨ b.Available f := by
      rw [false_or]
      unfold Freed BootInfo.HighRegion BootInfo.Available
      simp only [and_or_left, exists_or]
    have hkern : Taken b.kernelStart.toNat (b.kernelEnd - b.kernelStart).toNat f ↔ ¬ b.HighKernel ∧ b.KernelFrame f := by
      rw [hkernel]
      unfold Taken BootInfo.HighKernel BootInfo.KernelFrame
      rw [Nat.add_sub_cancel' b.kernel, not_lt]
    have hlow : Taken (0 : U64).toNat (0x100000 : U64).toNat f ↔ Touches 0 0x100000 f := and_iff_right (by decide)
    have hmods : (∃ p ∈ place (b.bootInfoAddr.toNat + 8) b.tags, ∃ s e, Tag.module? p.2 = some (s, e) ∧
        Touches s (e - s) f) ↔ ∃ t ∈ b.tags, ∃ s e, Tag.module? t = some (s, e) ∧ Touches s (e - s) f := by
      conv_rhs => rw [← place_snd (b.bootInfoAddr.toNat + 8) b.tags]
      simp only [List.mem_map, exists_exists_and_eq_and]
    rw [hfree, hkern, hlow, hinfo, b.info_taken hf, hmods, BootInfo.OtherReserved, not_or, not_or]
    simp only [and_assoc]

end Setup

/-! ## Allocating and freeing -/

/-- the allocator and the frames it has handed out -/
structure Holding where
  st : St
  held : List ℕ

inductive Op where
  | allocFrame
  /-- a frame that is held -/
  | freeFrame (frame : ℕ)

def step (x : Holding) : Op → Option Holding
  | .allocFrame => (Pmm.allocFrame x.st).map fun (a, st) => ⟨st, frameOf a :: x.held⟩
  | .freeFrame f => if f ∈ x.held then some ⟨Pmm.freeFrame x.st (addrOf f), x.held.erase f⟩ else none

/-- frames handed out are handed out once, are available memory and not reserved; the counters agree with the bitmap -/
structure Holding.Sound (b : BootInfo) (x : Holding) : Prop where
  once : x.held.Nodup
  frames : ∀ f ∈ x.held, f ≠ 0 ∧ f < MAX_FRAMES ∧ b.Available f ∧ ¬ b.Reserved f
  clear : freeCount x.st = x.st.totalFrames.toNat - x.st.usedFrames.toNat
  used : x.st.usedFrames.toNat ≤ x.st.totalFrames.toNat

/-- what the allocator is for -/
def BootInfo.Sound (b : BootInfo) : Prop :=
  ∃ st, Pmm.init b.mem b.bootInfoAddr b.kernelStart b.kernelEnd = some st ∧
    (∀ f, f < MAX_FRAMES ∧ isUsed st.bitmap f = false ↔ f < MAX_FRAMES ∧ b.Available f ∧ ¬ b.Reserved f) ∧
    ∀ ops, Always step (Holding.Sound b) ⟨st, []⟩ ops

/-- a ceiling that wraps does no harm -/
def BootInfo.Harmless (b : BootInfo) : Prop :=
  (b.HighRegion → ∀ f < MAX_FRAMES, b.Available f ∨ b.Reserved f) ∧
    (b.HighKernel → ∀ f < MAX_FRAMES, b.KernelFrame f → b.OtherReserved f ∨ ¬ b.Available f ∧ ¬ b.HighRegion)

section Run

variable {b : BootInfo}

/-- the invariant of a run: what is free or held was free at the start -/
structure Holding.Inv (b : BootInfo) (x : Holding) : Prop where
  once : x.held.Nodup
  held : ∀ f ∈ x.held, f < MAX_FRAMES ∧ isUsed x.st.bitmap f = true ∧ b.Available f ∧ ¬ b.Reserved f
  free : ∀ f, f < MAX_FRAMES → isUsed x.st.bitmap f = false → b.Available f ∧ ¬ b.Reserved f
  counted : Counted x.st
  length : x.held.length ≤ x.st.usedFrames.toNat

theorem Holding.Inv.sound {x : Holding} (h : x.Inv b) : x.Sound b := by
  have hcount := h.counted
  unfold Counted at hcount
  refine ⟨h.once, fun f hf => ?_, by omega, by omega⟩
  obtain ⟨hlt, -, hav, hres⟩ := h.held f hf
  refine ⟨?_, hlt, hav, hres⟩
  -- the first MiB is reserved
  rintro rfl
  exact hres (Or.inr (Or.inl ⟨by decide, by decide⟩))

theorem step_inv {x x' : Holding} {op : Op} (h : x.Inv b) (hs : step x op = some x') : x'.Inv b := by
  cases op with
  | allocFrame =>
    obtain ⟨⟨a, st⟩, ha, rfl⟩ := Option.map_eq_some_iff.1 hs
    have hcounted := alloc_counted h.counted ha
    have hcost := allocFrame_freeCount ha
    obtain ⟨f, rfl, hlt, hfree, hbits⟩ := allocFrame_spec ha
    have htotal := alloc_total ha
    simp only [frameOf_addrOf hlt]
    refine ⟨List.nodup_cons.2 ⟨fun hf => ?_, h.once⟩, fun g hg => ?_, fun g hg hgf => ?_, hcounted, ?_⟩
    · rw [(h.held f hf).2.1] at hfree
      cases hfree
    · show g < MAX_FRAMES ∧ isUsed st.bitmap g = true ∧ _
      rw [hbits]
      rcases List.mem_cons.1 hg with rfl | hg
      · obtain ⟨h1, h2⟩ := h.free g hlt hfree
        exact ⟨hlt, by simp, h1, h2⟩
      · obtain ⟨h0, h1, h2⟩ := h.held g hg
        exact ⟨h0, by simp [h1], h2⟩
    · have hgf' : isUsed st.bitmap g = false := hgf
      rw [hbits, Bool.or_eq_false_iff] at hgf'
      exact h.free g hg hgf'.2
    · have h1 := h.counted
      have h2 := h.length
      unfold Counted at h1 hcounted
      rw [htotal] at hcounted
      show (f :: x.held).length ≤ st.usedFrames.toNat
      rw [List.length_cons]
      omega
  | freeFrame f =>
    have hs' : (if f ∈ x.held then some ⟨Pmm.freeFrame x.st (addrOf f), x.held.erase f⟩ else none) = some x' := hs
    split_ifs at hs' with hf
    cases hs'
    obtain ⟨hlt, hu, hav, hres⟩ := h.held f hf
    have hpos : 0 < x.held.length := List.length_pos_of_mem hf
    have hlen := h.length
    have hcounted := free_counted h.counted hlt hu (by omega)
    have hbits := freeFrame_isUsed x.st (addrOf f) (by rw [frameOf_addrOf hlt]; exact hlt)
    rw [frameOf_addrOf hlt] at hbits
    refine ⟨h.once.erase f, fun g hg => ?_, fun g hg hgf => ?_, hcounted, ?_⟩
    · obtain ⟨hgf, hg⟩ := h.once.mem_erase_iff.1 hg
      obtain ⟨h0, h1, h2⟩ := h.held g hg
      exact ⟨h0, by rw [hbits]; simp [hgf, h1], h2⟩
    · by_cases he : g = f
      · rw [he]
        exact ⟨hav, hres⟩
      · rw [hbits] at hgf
        simp only [he, decide_false, Bool.not_false, Bool.true_and] at hgf
        exact h.free g hg hgf
    · have h1 := h.counted
      have hcost := freeCount_take (Pmm.freeFrame x.st (addrOf f)) x.st hlt (by rw [hbits]; simp)
        fun g => by rw [hbits]; by_cases hg : g = f <;> simp [hg, hu]
      have htotal : (Pmm.freeFrame x.st (addrOf f)).totalFrames = x.st.totalFrames := by
        unfold Pmm.freeFrame
        simp only
        split_ifs <;> rfl
      unfold Counted at h1 hcounted
      rw [htotal] at hcounted
      rw [List.length_erase_of_mem hf]
      show x.held.length - 1 ≤ (Pmm.freeFrame x.st (addrOf f)).usedFrames.toNat
      omega

/-- **The frame allocator, exactly when.** After `pmm::init` the free frames are those wholly inside an available region
and touched by nothing reserved, and over any sequence of allocations and frees the allocator hands out only these, each
once, with true counters, if and only if no rounding that wraps does harm. -/
theorem BootInfo.sound_iff (b : BootInfo) : b.Sound ↔ b.Harmless := by
  obtain ⟨st, hst, hfree⟩ := b.init_spec
  constructor
  · rintro ⟨st', hst', hiff, -⟩
    rw [hst] at hst'
    cases hst'
    refine ⟨fun hh f hf => ?_, fun hk f hf hkf => ?_⟩
    · by_contra hn
      rw [not_or] at hn
      have hclear := (hfree.bits f hf).2 ⟨Or.inl hh, fun hk => hn.2 (Or.inl hk.2), fun ho => hn.2 (Or.inr ho)⟩
      exact hn.1 ((hiff f).1 ⟨hf, hclear⟩).2.1
    · by_cases ho : b.OtherReserved f
      · exact Or.inl ho
      · refine Or.inr ?_
        rw [← not_or]
        intro hav
        have hclear := (hfree.bits f hf).2 ⟨hav.symm, fun hn => hn.1 hk, ho⟩
        exact ((hiff f).1 ⟨hf, hclear⟩).2.2 (Or.inl hkf)
  · rintro ⟨hregion, hkernel⟩
    have hbits : ∀ f, f < MAX_FRAMES → (isUsed st.bitmap f = false ↔ b.Available f ∧ ¬ b.Reserved f) := by
      intro f hf
      rw [hfree.bits f hf]
      constructor
      · rintro ⟨hav, hk, ho⟩
        have hnk : ¬ b.KernelFrame f := by
          intro hkf
          by_cases hh : b.HighKernel
          · rcases hkernel hh f hf hkf with h1 | ⟨h1, h2⟩
            · exact ho h1
            · exact hav.elim h2 h1
          · exact hk ⟨hh, hkf⟩
        have hres : ¬ b.Reserved f := fun hr => hr.elim hnk ho
        refine ⟨?_, hres⟩
        rcases hav with hh | hav
        · exact (hregion hh f hf).resolve_right hres
        · exact hav
      · rintro ⟨hav, hres⟩
        exact ⟨Or.inr hav, fun hk => hres (Or.inl hk.2), fun ho => hres (Or.inr ho)⟩
    refine ⟨st, hst, fun f => and_congr_right (hbits f), fun ops => ?_⟩
    have h0 : Holding.Inv b ⟨st, []⟩ :=
      ⟨List.nodup_nil, fun f hf => absurd hf List.not_mem_nil, fun f hf hu => (hbits f hf).1 hu, hfree.counted,
        Nat.zero_le _⟩
    exact always_of_inv (fun x h => h.sound) (fun x op x' h hs => step_inv h hs) h0

/-- boot information at 0x9000 with one available region of 50 bytes, at 2^64 - 100 -/
def lastPageMem : Bytes := fun a =>
  ([56, 0, 0, 0, 0, 0, 0, 0,
    6, 0, 0, 0, 40, 0, 0, 0, 24, 0, 0, 0, 0, 0, 0, 0,
    0x9C, 0xFF, 0xFF, 0xFF, 0xFF, 0xFF, 0xFF, 0xFF, 50, 0, 0, 0, 0, 0, 0, 0, 1, 0, 0, 0, 0, 0, 0, 0,
    0, 0, 0, 0, 8, 0, 0, 0] : List (BitVec 8)).getD (a - 0x9000) 0

def lastPage : BootInfo where
  mem := lastPageMem
  bootInfoAddr := 0x9000
  kernelStart := 0x100000
  kernelEnd := 0x200000
  tags := [.memmap 24 [⟨2 ^ 64 - 100, 50, 1⟩]]
  entries := [⟨2 ^ 64 - 100, 50, 1⟩]
  chain := by
    have hsize : aligned (Tag.memmap 24 [⟨2 ^ 64 - 100, 50, 1⟩]).size = 40 := by decide
    refine ⟨⟨by decide, by decide, ⟨by decide, le_rfl, ⟨by decide, by decide, by decide⟩, trivial⟩, by decide⟩, ?_⟩
    rw [Chain, hsize]
    decide
  size := by decide
  memmap := rfl
  regions := by
    intro e he
    rw [List.mem_singleton.1 he]
    decide
  kernel := by decide
  info := by decide
  modules := by
    intro t ht s e hse
    rw [List.mem_singleton.1 ht] at hse
    cases hse

/-- **The last page.** A region of 50 bytes makes every unreserved frame below 4 GiB free: frame 768 has no memory. -/
theorem lastPage_unsound : ¬ ∀ b : BootInfo, b.Sound := by
  intro hall
  obtain ⟨st, hst, hiff, -⟩ := hall lastPage
  obtain ⟨st', hst', hfree⟩ := lastPage.init_spec
  rw [hst] at hst'
  cases hst'
  have hav : ¬ lastPage.Available 768 := by
    rintro ⟨e, he, -, hin⟩
    rw [List.mem_singleton.1 he] at hin
    exact absurd hin (by decide)
  have hclear := (hfree.bits 768 (by decide)).2 ⟨Or.inl ⟨_, List.mem_singleton_self _, rfl, by decide⟩, ?_, ?_⟩
  · exact hav ((hiff 768).1 ⟨by decide, hclear⟩).2.1
  · rintro ⟨-, hk⟩
    exact absurd hk (show ¬ Touches 0x100000 0x100000 768 by decide)
  · rintro (h | h | ⟨t, ht, s, e, hse, -⟩)
    · exact absurd h (by decide)
    · exact absurd h (show ¬ Touches 0x9000 56 768 by decide)
    · rw [List.mem_singleton.1 ht] at hse
      cases hse

end Run

end Retux.Pmm
