/-
Reading files through descriptors (`sys_read`, `sys_lseek` in `cpu/syscall.cpp`, over `tar_read` and `proc_read`).

Both drivers clamp the count with the same test, `offset + count > size`, on 64-bit words. `Clamped` is what a call
should do. A run is any sequence of reads and seeks on one open file; the bytes a read writes are logged.

- `read_exact`: a count that does not wrap is clamped;
- `read_wrapped`: one that wraps is not;
- `reads_clamped_iff`: over whole runs.
-/
import Mathlib.Tactic
import Retux.Lib.Run
import Retux.Sys.Memory
import Retux.Fs.Drivers

namespace Retux.Sys

open Retux.Word Retux.Bytes Retux.Str Retux.Run Retux.Vfs Retux.Tar Retux.Proc

/-! ## Model -/

def EIO : U64 := 5

def SEEK_SET : U64 := 0
def SEEK_CUR : U64 := 1
def SEEK_END : U64 := 2

/-- an open inode, with its driver -/
inductive Inode where
  | tar (st : TarState) (nodeIdx : ℕ)
  | proc (content : Option ProcContent)

def Inode.size : Inode → U64
  | tar st nodeIdx => (st.nodes nodeIdx).size.setWidth 64
  | proc none => 0
  | proc (some content) => content.size

/-- `inode->ops->read` -/
def Inode.read (inode : Inode) (offset buf count : U64) (m : Mem) : U64 × Mem :=
  match inode with
  | tar st nodeIdx => tarRead st nodeIdx offset buf count m
  | proc content => procRead content offset buf count m

structure FileSt where
  inode : Inode
  offset : U64
  mem : U64 → U8
  /-- what the last call returned, and the addresses it wrote (ghosts) -/
  result : U64
  written : List U64

def sysRead (s : FileSt) (buf len : U64) : FileSt :=
  let r := s.inode.read s.offset buf len ⟨s.mem, []⟩
  let s := { s with mem := r.2.byte, written := r.2.log }
  if r.1.toInt < 0 then { s with result := - EIO } else { s with offset := s.offset + r.1, result := r.1 }

def seekBase (s : FileSt) (whence : U64) : Option U64 :=
  if whence = SEEK_SET then some 0
  else if whence = SEEK_CUR then some s.offset
  else if whence = SEEK_END then some s.inode.size
  else none

def sysLseek (s : FileSt) (offset whence : U64) : FileSt :=
  match seekBase s whence with
  | none => { s with result := -EINVAL, written := [] }
  | some base =>
    let result := base + offset
    if result.toInt < 0 then { s with result := -EINVAL, written := [] }
    else { s with offset := result, result := result, written := [] }

inductive FileEvent where
  | read (buf len : U64)
  | lseek (offset whence : U64)

def fileStep (s : FileSt) : FileEvent → Option FileSt
  | .read buf len => some (sysRead s buf len)
  | .lseek offset whence => some (sysLseek s offset whence)

/-- the file as `open` leaves it -/
def opened (inode : Inode) (mem : U64 → U8) : FileSt := ⟨inode, 0, mem, 0, []⟩

/-! ## Clamped reads -/

/-- a file with its bytes -/
def Inode.Regular : Inode → (ℕ → U8) → Prop
  | tar st nodeIdx, d => (st.nodes nodeIdx).isDir = false ∧ d = fun i => st.base ((st.nodes nodeIdx).dataOffset.toNat + i)
  | proc none, _ => False
  | proc (some content), d => content.data = some d

/-- the bytes there are, of those asked for -/
def clamped (size offset count : ℕ) : ℕ := if size ≤ offset then 0 else min count (size - offset)

/-- exactly the n bytes at buf are written, with d from offset on -/
structure ReadOk (d : ℕ → U8) (s : FileSt) (buf : U64) (n : ℕ) (s' : FileSt) : Prop where
  result : s'.result = BitVec.ofNat 64 n
  offset : s'.offset = s.offset + BitVec.ofNat 64 n
  written : ∀ a, a ∈ s'.written ↔ ∃ i, i < n ∧ a = nth buf i
  bytes : ∀ i, i < n → s'.mem (nth buf i) = d (s.offset.toNat + i)
  rest : ∀ a, a ∉ s'.written → s'.mem a = s.mem a

def Clamped (d : ℕ → U8) (s : FileSt) : FileEvent → Prop
  | .read buf len =>
    ReadOk d s buf (clamped s.inode.size.toNat s.offset.toNat len.toNat) (sysRead s buf len)
  | .lseek _ _ => True

/-- the end of the request is a 64-bit offset, or there is nothing to read -/
def NoWrap (s : FileSt) : FileEvent → Prop
  | .read _ len => s.inode.size.toNat ≤ s.offset.toNat ∨ s.offset.toNat + len.toNat < 2 ^ 64
  | .lseek _ _ => True

section Reads

variable {inode : Inode} {d : ℕ → U8} {s : FileSt} {buf len offset size : U64} {m : Mem} {n : ℕ}

/-- files are small: 32-bit sizes in an archive, 512 bytes in /proc -/
theorem size_small (h : inode.Regular d) : inode.size.toNat < 2 ^ 32 := by
  cases inode with
  | tar st nodeIdx =>
    rw [Inode.size, BitVec.toNat_setWidth]
    have := (st.nodes nodeIdx).size.isLt
    omega
  | proc content =>
    cases content with
    | none => exact absurd h not_false
    | some content =>
      have hfits := content.fits
      rw [Inode.size]
      omega

/-- **Both drivers.** -/
theorem Inode.read_eq (h : inode.Regular d) : inode.read offset buf len m =
    if inode.size ≤ offset then (0, m)
    else (clamp offset len inode.size, m.put buf ((List.range (clamp offset len inode.size).toNat).map
      fun i => d (offset.toNat + i))) := by
  cases inode with
  | tar st nodeIdx =>
    obtain ⟨hfile, rfl⟩ := h
    simp only [Inode.read, Inode.size, tarRead, hfile, Bool.false_eq_true, if_false, ge_iff_le, memcpy_eq,
      Nat.add_assoc]
    rfl
  | proc content =>
    cases content with
    | none => exact absurd h not_false
    | some content =>
      have hdata : content.data = some d := h
      simp only [Inode.read, Inode.size, procRead, hdata, ge_iff_le, memcpy_eq]
      rfl

theorem clamp_wrapped (ho : offset.toNat < size.toNat) (hw : 2 ^ 64 ≤ offset.toNat + len.toNat) :
    clamp offset len size = len := by
  have hlt := len.isLt
  have hoff := offset.isLt
  have hsum : (offset + len).toNat = offset.toNat + len.toNat - 2 ^ 64 := by
    rw [BitVec.toNat_add]
    omega
  unfold clamp
  rw [if_neg]
  rw [gt_iff_lt, BitVec.lt_def, hsum]
  omega

/-- a put is what a good read amounts to -/
theorem readOk_of_put (hn : n < 2 ^ 63) (hs : inode.read s.offset buf len ⟨s.mem, []⟩ = (BitVec.ofNat 64 n,
    Mem.put ⟨s.mem, []⟩ buf ((List.range n).map fun i => d (s.offset.toNat + i)))) (hi : s.inode = inode) :
    ReadOk d s buf n (sysRead s buf len) := by
  have hpos : ¬ (BitVec.ofNat 64 n).toInt < 0 := by
    rw [BitVec.toInt_eq_toNat_of_lt (by rw [BitVec.toNat_ofNat]; omega)]
    omega
  have hlen : ((List.range n).map fun i => d (s.offset.toNat + i)).length = n := by simp
  have hread : sysRead s buf len = { s with
      offset := s.offset + BitVec.ofNat 64 n
      mem := (Mem.put ⟨s.mem, []⟩ buf ((List.range n).map fun i => d (s.offset.toNat + i))).byte
      result := BitVec.ofNat 64 n
      written := (Mem.put ⟨s.mem, []⟩ buf ((List.range n).map fun i => d (s.offset.toNat + i))).log } := by
    rw [sysRead, hi, hs]
    exact if_neg hpos
  rw [hread]
  refine ⟨rfl, rfl, fun a => ?_, fun i hi => ?_, fun a ha => ?_⟩
  · rw [mem_put_log, hlen]
    simp
  · simp only
    rw [put_byte (by rw [hlen]; omega) (by rw [hlen]; exact hi)]
    simp
  · exact put_rest fun i hi heq => ha (mem_put_log.2 (Or.inl ⟨i, hi, heq⟩))

/-- **A request that does not wrap.** -/
theorem read_exact (h : s.inode.Regular d)
    (hw : s.inode.size.toNat ≤ s.offset.toNat ∨ s.offset.toNat + len.toNat < 2 ^ 64) :
    ReadOk d s buf (clamped s.inode.size.toNat s.offset.toNat len.toNat) (sysRead s buf len) := by
  have hsmall := size_small h
  by_cases hend : s.inode.size.toNat ≤ s.offset.toNat
  · rw [clamped, if_pos hend]
    refine readOk_of_put (by decide) ?_ rfl
    rw [Inode.read_eq h, if_pos (BitVec.le_def.2 hend)]
    rfl
  · have hclamp := clamp_exact (Nat.not_le.1 hend) (hw.resolve_left hend)
    rw [clamped, if_neg hend]
    refine readOk_of_put (by omega) ?_ rfl
    rw [Inode.read_eq h, if_neg fun hle => hend (BitVec.le_def.1 hle), hclamp, ← hclamp, BitVec.ofNat_toNat,
      BitVec.setWidth_eq]

/-- **A request that wraps.** It is not clamped, and what the call returns is no length of this file. -/
theorem read_wrapped (h : s.inode.Regular d) (ho : s.offset.toNat < s.inode.size.toNat)
    (hw : 2 ^ 64 ≤ s.offset.toNat + len.toNat) :
    (sysRead s buf len).result ≠ BitVec.ofNat 64 (clamped s.inode.size.toNat s.offset.toNat len.toNat) := by
  have hsmall := size_small h
  have hlt := len.isLt
  have hn : clamped s.inode.size.toNat s.offset.toNat len.toNat = s.inode.size.toNat - s.offset.toNat := by
    rw [clamped, if_neg (Nat.not_le.2 ho)]
    omega
  have hread : (s.inode.read s.offset buf len ⟨s.mem, []⟩).1 = len := by
    rw [Inode.read_eq h, if_neg fun hle => Nat.not_le.2 ho (BitVec.le_def.1 hle)]
    exact clamp_wrapped ho hw
  rw [hn]
  intro heq
  have hresult := congrArg BitVec.toNat heq
  rw [BitVec.toNat_ofNat, Nat.mod_eq_of_lt (by omega)] at hresult
  unfold sysRead at hresult
  simp only [hread] at hresult
  split_ifs at hresult
  · have hio : (- EIO).toNat = 2 ^ 64 - 5 := by decide
    rw [hio] at hresult
    omega
  · have hlen : len.toNat = s.inode.size.toNat - s.offset.toNat := hresult
    omega

theorem clamped_iff (h : s.inode.Regular d) (e : FileEvent) : Clamped d s e ↔ NoWrap s e := by
  cases e with
  | read buf len =>
    constructor
    · intro hc
      by_contra hw
      simp only [NoWrap, not_or, not_le, not_lt] at hw
      exact read_wrapped h hw.1 hw.2 hc.result
    · exact fun hw => read_exact h hw
  | lseek offset whence => exact Iff.rfl

theorem fileStep_inode {e : FileEvent} {s' : FileSt} (hs : fileStep s e = some s') : s'.inode = s.inode := by
  cases e with
  | read buf len =>
    cases hs
    unfold sysRead
    dsimp only
    split_ifs <;> rfl
  | lseek offset whence =>
    cases hs
    unfold sysLseek
    cases seekBase s whence with
    | none => rfl
    | some base =>
      dsimp only
      split_ifs <;> rfl

/-- **Clamped reads, exactly when.** For every regular file and every run of reads and seeks from `open` on: all reads
are clamped if and only if no request for a non-empty rest of the file wraps. -/
theorem reads_clamped_iff (h : inode.Regular d) (mem : U64 → U8) (es : List FileEvent) :
    Each fileStep (Clamped d) (opened inode mem) es ↔ Each fileStep NoWrap (opened inode mem) es := by
  refine each_congr (I := fun s => s.inode = inode) ?_ ?_ rfl
  · intro s e s' hi hs
    rw [fileStep_inode hs, hi]
  · intro s e hi
    exact clamped_iff (hi ▸ h) e

end Reads

/-- a file of /proc with the bytes 7, 7, .. -/
def sampleProc : Inode := .proc (some ⟨some fun _ => 7, 10, by decide⟩)

/-- a seek to 4, then a read past the end -/
theorem reads_clamped_sample : Each fileStep (Clamped fun _ => 7) (opened sampleProc fun _ => 0)
    [.lseek 4 SEEK_SET, .read 0x1000 100] := by
  have hreg : sampleProc.Regular fun _ => 7 := rfl
  refine (reads_clamped_iff hreg _ _).2 ⟨trivial, fun s hs => ⟨?_, fun _ _ => trivial⟩⟩
  cases hs
  exact Or.inr (by decide)

/-- **A count that wraps.** From offset 1, 2^64 - 1 bytes are not cut to the 9 there are. -/
theorem count_wraps : ¬ ∀ (inode : Inode) (d : ℕ → U8) (mem : U64 → U8) (es : List FileEvent), inode.Regular d →
    Each fileStep (Clamped d) (opened inode mem) es := by
  intro hall
  have h := (hall sampleProc (fun _ => 7) (fun _ => 0) [.lseek 1 SEEK_SET, .read 0x1000 0xFFFFFFFFFFFFFFFF] rfl).2 _ rfl
  have hreg : (sysLseek (opened sampleProc fun _ => 0) 1 SEEK_SET).inode.Regular fun _ => 7 := rfl
  exact read_wrapped hreg (by decide) (by decide) h.1.result

end Retux.Sys
