/-
The AHCI driver (`dev/ahci.cpp`): one command slot, polled.

The port is a parameter. A device answers each command with a sequence of values read from CI and one read from IS, and
may change physical memory. `read_sectors` runs on the page tables in force: the command page and the bounce frame are
reached through addresses equal to their physical ones. The caller's buffer is an object apart. `none` is a page fault,
or the halt when no frame is free.

`issue_and_wait` polls until CI bit 0 is clear, or until `timeout--` meets 0; then the count has wrapped to 2^32 - 1.

- `poll_pos`: what the count says after the loop;
- `verdict_iff`: the verdict is right exactly if the error bit is set or CI was clear in time, before the last poll;
- `readLoop_log`: the commands of one call and their verdicts;
- `read_honest_iff`: the same for whole calls, over every device.
-/
import Mathlib.Tactic
import Retux.Mem.Access

namespace Retux.Ahci

open Retux.Word Retux.Pmm Retux.Vmm Retux.Bytes

/-! ## Model -/

def TIMEOUT : ℕ := 5000000
/-- IS bit 30, task file error -/
def ERROR_BIT : U32 := BitVec.twoPow 32 30
def ATA_READ_DMA_EX : U8 := 0x25
def MAX_SECTORS : U32 := 8

/-- `while ((ci & 1) && timeout--);` from read i on, with timeout as it leaves it -/
def poll (ci : ℕ → U32) (i : ℕ) : ℕ → U32
  | 0 => if ci i &&& 1 = 0 then 0 else 0 - 1
  | t + 1 => if ci i &&& 1 = 0 then BitVec.ofNat 32 (t + 1) else poll ci (i + 1) t

def issueAndWait (ci : ℕ → U32) (is : U32) : Bool :=
  let timeout := poll ci 0 TIMEOUT
  timeout > 0 && is &&& ERROR_BIT = 0

structure Device where
  /-- command, read -/
  ci : ℕ → ℕ → U32
  is : ℕ → U32
  /-- what the device makes of memory while command k runs -/
  dma : ℕ → (ℕ → Idx → U64) → ℕ → Idx → U64

structure St where
  m : Machine
  /-- `cmd_list_phys`, once `init_port` has run -/
  cmdPage : Option U64
  buffer : Bytes.Mem
  /-- the verdicts of all commands so far (a ghost) -/
  verdicts : List Bool

/-- `cmd_table_virt - cmd_list_virt`, `prdt - cmd_table_virt` -/
def TABLE : U64 := 0x500
def PRDT : U64 := 128

/-- opts, prdtl, prdbc, ctba, ctbau -/
def setupCmdHeader (page : U64) (opts prdtl : U64) (m : Machine) : Option Machine :=
  storeBytes m page (le 2 opts ++ le 2 prdtl ++ le 4 0 ++ le 4 ((page + TABLE) &&& 0xFFFFFFFF) ++ le 4 0)

/-- cfis[0..13] -/
def cfis (ataCmd : U8) (lba : U64) (sectorCount : U32) : List U8 :=
  [0x27, 0x80, ataCmd, 0, byteOf lba 0, byteOf lba 1, byteOf lba 2, 0x40, byteOf lba 3, byteOf lba 4, byteOf lba 5, 0,
    byteOf (sectorCount.setWidth 64) 0, byteOf (sectorCount.setWidth 64) 1]

def setupCfisAndPrdt (page : U64) (ataCmd : U8) (lba : U64) (sectorCount : U32) (bufPhys : U64) (bytes : U32)
    (m : Machine) : Option Machine := do
  let m ← storeBytes m (page + TABLE) (List.replicate 64 0)
  let m ← storeBytes m (page + TABLE) (cfis ataCmd lba sectorCount)
  -- dbal, dbau, reserved, dbc
  storeBytes m (page + TABLE + PRDT)
    (le 4 (bufPhys &&& 0xFFFFFFFF) ++ le 4 0 ++ le 4 0 ++ le 4 ((bytes - 1).setWidth 64))

/-- `dst[i] = src[i]` for n bytes from i on -/
def copyOut (m : Machine) (src dst : U64) : ℕ → Bytes.Mem → Option Bytes.Mem
  | 0, b => some b
  | n + 1, b => (loadByte m src).bind fun x => copyOut m (src + 1) (dst + 1) n (b.write dst x)

/-- one round of the loop -/
def readChunk (d : Device) (page lba : U64) (n : U32) (dst : U64) (s : St) : Option (Bool × St) := do
  let bytes := n * 512
  let (bounce, m) ← s.m.allocFrame
  let m ← setupCmdHeader page 5 1 m
  let m ← setupCfisAndPrdt page ATA_READ_DMA_EX lba n bounce bytes m
  let k := s.verdicts.length
  let m := { m with mem := d.dma k m.mem }
  let ok := issueAndWait (d.ci k) (d.is k)
  let buffer ← (if ok then copyOut m bounce dst bytes.toNat s.buffer else some s.buffer)
  return (ok, { s with m := m.freeFrame bounce, buffer := buffer, verdicts := s.verdicts ++ [ok] })

/-- the n of the loop -/
def chunkSize (count : U32) : U32 := if count > MAX_SECTORS then MAX_SECTORS else count

/-- the loop, on fuel -/
def readLoop (d : Device) (page : U64) : ℕ → U64 → U32 → U64 → St → Option (Bool × St)
  | 0, _, _, _, _ => none
  | fuel + 1, lba, count, dst, s =>
    if count = 0 then some (true, s)
    else
      let n := chunkSize count
      (readChunk d page lba n dst s).bind fun (ok, s) =>
        if ok = false then some (false, s)
        else readLoop d page fuel (lba + n.setWidth 64) (count - n) (dst + (n * 512).setWidth 64) s

def readSectors (d : Device) (lba : U64) (count : U32) (buffer : U64) (s : St) : Option (Bool × St) :=
  match s.cmdPage with
  | none => some (false, s)
  | some page => if count = 0 then some (false, s) else readLoop d page (count.toNat + 1) lba count buffer s

/-! ## One command -/

/-- the port was seen idle by the loop, and no error is reported -/
def Completed (ci : ℕ → U32) (is : U32) : Prop := (∃ i, i ≤ TIMEOUT ∧ ci i &&& 1 = 0) ∧ is &&& ERROR_BIT = 0

/-- the port was idle before the last poll, or reports an error -/
def Clear (ci : ℕ → U32) (is : U32) : Prop := (∃ i, i < TIMEOUT ∧ ci i &&& 1 = 0) ∨ is &&& ERROR_BIT ≠ 0

section Command

variable {ci : ℕ → U32} {is : U32} {i t : ℕ}

theorem poll_pos (ht : t < 2 ^ 32) :
    0 < poll ci i t ↔ (∃ j, j < t ∧ ci (i + j) &&& 1 = 0) ∨ ∀ j, j ≤ t → ci (i + j) &&& 1 ≠ 0 := by
  induction t generalizing i with
  | zero =>
    rw [poll]
    split_ifs with h
    · refine ⟨fun h0 => absurd h0 (by decide), fun h0 => ?_⟩
      rcases h0 with ⟨j, hj, -⟩ | hall
      · exact absurd hj (Nat.not_lt_zero j)
      · exact absurd h (hall 0 le_rfl)
    · refine ⟨fun _ => Or.inr fun j hj => ?_, fun _ => by decide⟩
      rwa [Nat.le_zero.1 hj]
  | succ t ih =>
    rw [poll]
    split_ifs with h
    · refine ⟨fun _ => Or.inl ⟨0, Nat.succ_pos t, h⟩, fun _ => ?_⟩
      rw [BitVec.lt_def, BitVec.toNat_ofNat, Nat.mod_eq_of_lt ht]
      exact Nat.succ_pos t
    · rw [ih (by omega)]
      constructor
      · rintro (⟨j, hj, hc⟩ | hall)
        · exact Or.inl ⟨j + 1, by omega, by rwa [Nat.add_comm j, ← Nat.add_assoc]⟩
        · refine Or.inr fun j hj => ?_
          cases j with
          | zero => exact h
          | succ j =>
            rw [Nat.add_comm j, ← Nat.add_assoc]
            exact hall j (by omega)
      · rintro (⟨j, hj, hc⟩ | hall)
        · cases j with
          | zero => exact absurd hc h
          | succ j =>
            rw [Nat.add_comm j, ← Nat.add_assoc] at hc
            exact Or.inl ⟨j, by omega, hc⟩
        · refine Or.inr fun j hj => ?_
          rw [Nat.add_assoc, Nat.add_comm 1]
          exact hall (j + 1) (by omega)

theorem issueAndWait_iff : issueAndWait ci is = true ↔
    ((∃ j, j < TIMEOUT ∧ ci j &&& 1 = 0) ∨ ∀ j, j ≤ TIMEOUT → ci j &&& 1 ≠ 0) ∧ is &&& ERROR_BIT = 0 := by
  have h : 0 < poll ci 0 TIMEOUT ↔ _ := poll_pos (by decide)
  simp only [Nat.zero_add] at h
  simp only [issueAndWait, Bool.and_eq_true, decide_eq_true_eq, gt_iff_lt, h]

/-- **The verdict.** -/
theorem verdict_iff : (issueAndWait ci is = true ↔ Completed ci is) ↔ Clear ci is := by
  rw [issueAndWait_iff]
  unfold Completed Clear
  by_cases herr : is &&& ERROR_BIT = 0
  · simp only [herr, and_true, ne_eq, not_true_eq_false, or_false]
    constructor
    · intro h
      by_contra hno
      -- never idle, or idle at the last poll only: either way the verdict is wrong
      by_cases hlast : ci TIMEOUT &&& 1 = 0
      · rcases h.2 ⟨TIMEOUT, le_rfl, hlast⟩ with hearly | hall
        · exact hno hearly
        · exact hall TIMEOUT le_rfl hlast
      · obtain ⟨j, hj, hc⟩ := h.1 (Or.inr fun j hj hc => by
          rcases Nat.lt_or_eq_of_le hj with hj | rfl
          · exact hno ⟨j, hj, hc⟩
          · exact hlast hc)
        rcases Nat.lt_or_eq_of_le hj with hj | rfl
        · exact hno ⟨j, hj, hc⟩
        · exact hlast hc
    · intro hearly
      obtain ⟨j, hj, hc⟩ := hearly
      exact ⟨fun _ => ⟨j, Nat.le_of_lt hj, hc⟩, fun _ => Or.inl ⟨j, hj, hc⟩⟩
  · simp only [herr, and_false, ne_eq, not_false_eq_true, or_true]

end Command

/-! ## One call -/

/-- the commands a read of so many sectors takes -/
def chunks (count : U32) : ℕ := (count.toNat + 7) / 8

def Device.verdict (d : Device) (k : ℕ) : Bool := issueAndWait (d.ci k) (d.is k)

def Device.Completed (d : Device) (k : ℕ) : Prop := Ahci.Completed (d.ci k) (d.is k)

def Device.Clear (d : Device) (k : ℕ) : Prop := Ahci.Clear (d.ci k) (d.is k)

/-- the log of a call that issues commands from k on: it stops at the first bad verdict, or when all are done -/
structure Log (d : Device) (k total : ℕ) (r : Bool) (vs : List Bool) : Prop where
  verdicts : ∀ i (hi : i < vs.length), vs[i] = d.verdict (k + i)
  short : vs.length ≤ total
  earlier : ∀ i, i + 1 < vs.length → d.verdict (k + i) = true
  all : r = true → vs.length = total ∧ ∀ i, i < total → d.verdict (k + i) = true
  stopped : r = false → ∃ i, i + 1 = vs.length ∧ d.verdict (k + i) = false

section Call

variable {d : Device} {page lba dst : U64} {count : U32} {s s' : St} {r : Bool}

theorem Log.cons {k total : ℕ} {vs : List Bool} (h : Log d (k + 1) total r vs) (hk : d.verdict k = true) :
    Log d k (total + 1) r (true :: vs) := by
  have hshift : ∀ i, k + (i + 1) = k + 1 + i := fun i => by omega
  refine ⟨fun i hi => ?_, by rw [List.length_cons]; exact Nat.succ_le_succ h.short, fun i hi => ?_, fun hr => ?_,
    fun hr => ?_⟩
  · cases i with
    | zero => exact hk.symm
    | succ i =>
      rw [hshift]
      exact h.verdicts i (by rw [List.length_cons] at hi; omega)
  · cases i with
    | zero => exact hk
    | succ i =>
      rw [hshift]
      exact h.earlier i (by rw [List.length_cons] at hi; omega)
  · obtain ⟨hlen, hall⟩ := h.all hr
    refine ⟨by rw [List.length_cons, hlen], fun i hi => ?_⟩
    cases i with
    | zero => exact hk
    | succ i =>
      rw [hshift]
      exact hall i (by omega)
  · obtain ⟨i, hi, hv⟩ := h.stopped hr
    exact ⟨i + 1, by rw [List.length_cons, hi], by rw [hshift]; exact hv⟩

theorem readChunk_log {n : U32} (h : readChunk d page lba n dst s = some (r, s')) :
    r = d.verdict s.verdicts.length ∧ s'.verdicts = s.verdicts ++ [r] := by
  unfold readChunk at h
  simp only [bind, Option.bind_eq_some_iff, pure, Option.some.injEq, Prod.mk.injEq] at h
  obtain ⟨-, -, -, -, -, -, -, -, rfl, rfl⟩ := h
  exact ⟨rfl, rfl⟩

theorem chunkSize_toNat (count : U32) : (chunkSize count).toNat = min count.toNat 8 := by
  have h8 : MAX_SECTORS.toNat = 8 := rfl
  unfold chunkSize
  split_ifs with h
  · rw [gt_iff_lt, BitVec.lt_def, h8] at h
    rw [h8]
    omega
  · rw [gt_iff_lt, BitVec.lt_def, h8] at h
    omega

theorem count_sub (count : U32) : (count - chunkSize count).toNat = count.toNat - min count.toNat 8 := by
  rw [BitVec.toNat_sub_of_le (by rw [BitVec.le_def, chunkSize_toNat]; exact Nat.min_le_left _ _), chunkSize_toNat]

theorem chunks_pos (hc : count ≠ 0) : chunks count = chunks (count - chunkSize count) + 1 := by
  have hpos : count.toNat ≠ 0 := fun h0 => hc (BitVec.eq_of_toNat_eq h0)
  unfold chunks
  rw [count_sub]
  omega

/-- **Commands and verdicts.** -/
theorem readLoop_log {fuel : ℕ} (h : readLoop d page fuel lba count dst s = some (r, s')) :
    ∃ vs, s'.verdicts = s.verdicts ++ vs ∧ Log d s.verdicts.length (chunks count) r vs := by
  induction fuel generalizing lba count dst s with
  | zero => cases h
  | succ fuel ih =>
    rw [readLoop] at h
    split_ifs at h with hc
    · cases h
      have h0 : chunks count = 0 := by rw [hc]; rfl
      refine ⟨[], by rw [List.append_nil], ⟨fun i hi => absurd hi (Nat.not_lt_zero i), Nat.zero_le _,
        fun i hi => absurd hi (Nat.not_lt_zero _), fun _ => ⟨h0.symm, fun i hi => absurd hi (by omega)⟩, fun hr => ?_⟩⟩
      cases hr
    · obtain ⟨⟨ok, s1⟩, h1, h2⟩ := Option.bind_eq_some_iff.1 h
      obtain ⟨hok, hlog⟩ := readChunk_log h1
      dsimp only at h2
      rw [chunks_pos hc]
      cases ok with
      | false =>
        cases h2
        refine ⟨[false], hlog, ⟨fun i hi => ?_, Nat.succ_le_succ (Nat.zero_le _), fun i hi => ?_, fun hr => ?_,
          fun _ => ?_⟩⟩
        · obtain rfl : i = 0 := by simpa using hi
          exact hok
        · exact absurd hi (by simp)
        · cases hr
        · exact ⟨0, rfl, hok.symm⟩
      | true =>
        obtain ⟨vs, hvs, hl⟩ := ih h2
        refine ⟨true :: vs, by rw [hvs, hlog, List.append_assoc]; rfl, Log.cons ?_ hok.symm⟩
        rw [hlog, List.length_append] at hl
        exact hl

/-- every verdict of the call is right, and it returns true only if the device completed every chunk -/
def Honest (d : Device) (count : U32) (s : St) (r : Bool) (s' : St) : Prop :=
  (∀ k (hk : k < s'.verdicts.length), s.verdicts.length ≤ k → (s'.verdicts[k] = true ↔ d.Completed k)) ∧
    (r = true → ∀ i, i < chunks count → d.Completed (s.verdicts.length + i))

/-- **Honesty of a log.** -/
theorem Log.honest_iff {k total : ℕ} {vs : List Bool} (h : Log d k total r vs) :
    ((∀ i, i < vs.length → (d.verdict (k + i) = true ↔ d.Completed (k + i))) ∧
      (r = true → ∀ i, i < total → d.Completed (k + i))) ↔
    ∀ i, i < total → (∀ j, j < i → d.Completed (k + j)) → d.Clear (k + i) := by
  constructor
  · rintro ⟨hright, -⟩ i hi hbefore
    have hlt : i < vs.length := by
      by_contra hge
      -- the call has stopped at an earlier command, which did complete
      have hr : r = false := by
        by_contra hr
        exact hge ((h.all (Bool.not_eq_false r ▸ hr)).1 ▸ hi)
      obtain ⟨j, hj, hv⟩ := h.stopped hr
      have := (hright j (by omega)).2 (hbefore j (by omega))
      rw [hv] at this
      cases this
    exact verdict_iff.1 (hright i hlt)
  · intro hclear
    have hright : ∀ i, i < vs.length → (d.verdict (k + i) = true ↔ d.Completed (k + i)) := by
      intro i
      induction i using Nat.strong_induction_on with
      | _ i ih =>
        intro hi
        have hshort := h.short
        refine verdict_iff.2 (hclear i (by omega) fun j hj => ?_)
        exact (ih j hj (by omega)).1 (h.earlier j (by omega))
    refine ⟨hright, fun hr i hi => ?_⟩
    obtain ⟨hlen, hall⟩ := h.all hr
    exact (hright i (by omega)).1 (hall i hi)

theorem honest_iff {vs : List Bool} (hs : s'.verdicts = s.verdicts ++ vs)
    (hl : Log d s.verdicts.length (chunks count) r vs) : Honest d count s r s' ↔
      ∀ i, i < chunks count → (∀ j, j < i → d.Completed (s.verdicts.length + j)) → d.Clear (s.verdicts.length + i) := by
  rw [← hl.honest_iff]
  refine and_congr_left fun _ => ⟨fun h i hi => ?_, fun h k hk hle => ?_⟩
  · have hi' : s.verdicts.length + i < s'.verdicts.length := by
      rw [hs, List.length_append]
      omega
    have := h _ hi' (Nat.le_add_right _ _)
    simp only [hs] at this
    rwa [List.getElem_append_right (Nat.le_add_right _ _), getElem_congr_idx (Nat.add_sub_cancel_left ..),
      hl.verdicts i hi] at this
  · obtain ⟨i, rfl⟩ := Nat.exists_eq_add_of_le hle
    have hi : i < vs.length := by
      rw [hs, List.length_append] at hk
      omega
    simp only [hs]
    rw [List.getElem_append_right hle, getElem_congr_idx (Nat.add_sub_cancel_left ..), hl.verdicts i hi]
    exact h i hi

/-- **Honest reads, exactly when.** For every device and every call that returns: the verdicts are right, and `true`
means that every chunk completed, if and only if each command after completed ones either fails or is done in time. -/
theorem read_honest_iff (d : Device) (lba : U64) (count : U32) (buffer : U64) (s s' : St) (r : Bool) :
    (∀ ci is, (issueAndWait ci is = true ↔ Completed ci is) ↔ Clear ci is) ∧
    (readSectors d lba count buffer s = some (r, s') →
      (Honest d count s r s' ↔ (s.cmdPage ≠ none → ∀ i, i < chunks count →
        (∀ j, j < i → d.Completed (s.verdicts.length + j)) → d.Clear (s.verdicts.length + i)))) := by
  refine ⟨fun ci is => verdict_iff, fun h => ?_⟩
  unfold readSectors at h
  cases hp : s.cmdPage with
  | none =>
    rw [hp] at h
    cases h
    simp only [ne_eq, not_true_eq_false, false_imp_iff, iff_true]
    exact ⟨fun k hk hle => absurd hk (by omega), fun hr => (by cases hr)⟩
  | some page =>
    rw [hp] at h
    dsimp only at h
    split_ifs at h with hc
    · cases h
      have h0 : chunks count = 0 := by rw [hc]; rfl
      refine ⟨fun _ _ i hi => absurd hi (by omega), fun _ => ⟨fun k hk hle => absurd hk (by omega), fun hr => ?_⟩⟩
      cases hr
    · obtain ⟨vs, hs, hl⟩ := readLoop_log h
      rw [honest_iff hs hl]
      simp

end Call

/-- **A port that stays busy.** CI never clears, and the command is reported as done. -/
theorem stuck_port : ¬ ∀ (ci : ℕ → U32) (is : U32), issueAndWait ci is = true ↔ Completed ci is := by
  intro hall
  rcases verdict_iff.1 (hall (fun _ => 1) 0) with ⟨j, -, hidle⟩ | herr
  · have hbusy : (1 : U32) &&& 1 ≠ 0 := by decide
    exact hbusy hidle
  · exact herr (by decide)

end Retux.Ahci
