/-
Bytes of physical memory, and the kernel's access to them through the page tables.

A kernel load or store translates its address under the loaded CR3 and needs the page present, no more: CR0.WP is
never set, so the kernel also writes read-only pages. `none` is a page fault.

- `physByte_set`, `physByte_setBytes`: physical memory is an array of bytes;
- `loadByte_self`, `storeBytes_self`: through a page that is mapped to itself, the frame is read and written.
-/
import Mathlib.Tactic
import Retux.Lib.Bytes
import Retux.Mem.Translate

namespace Retux.Vmm

open Retux.Word Retux.Pmm Retux.Bytes

/-! ## Model -/

/-- the word of its frame an address falls in -/
def wordIdx (phys : U64) : Idx := ⟨phys.toNat % 4096 / 8, by omega⟩

def physByte (mem : ℕ → Idx → U64) (phys : U64) : U8 := byteOf (mem (frameOf phys) (wordIdx phys)) (phys.toNat % 8)

def setPhysByte (mem : ℕ → Idx → U64) (phys : U64) (x : U8) : ℕ → Idx → U64 :=
  Function.update mem (frameOf phys) (Function.update (mem (frameOf phys)) (wordIdx phys)
    (setByteOf (mem (frameOf phys) (wordIdx phys)) (phys.toNat % 8) x))

/-- bytes at phys, phys + 1, .. -/
def setPhysBytes (mem : ℕ → Idx → U64) : U64 → List U8 → ℕ → Idx → U64
  | _, [] => mem
  | phys, x :: xs => setPhysBytes (setPhysByte mem phys x) (phys + 1) xs

def loadByte (m : Machine) (virt : U64) : Option U8 :=
  (translate m.mem (getPml4 m) virt).map fun x => physByte m.mem x.1

def storeByte (m : Machine) (virt : U64) (x : U8) : Option Machine :=
  (translate m.mem (getPml4 m) virt).map fun y => { m with mem := setPhysByte m.mem y.1 x }

/-- stores to virt, virt + 1, .. -/
def storeBytes (m : Machine) : U64 → List U8 → Option Machine
  | _, [] => some m
  | virt, x :: xs => (storeByte m virt x).bind fun m => storeBytes m (virt + 1) xs

/-! ## Physical bytes -/

section Access

variable {m : Machine} {mem : ℕ → Idx → U64} {a b : U64} {x : U8}

theorem phys_ext (hf : frameOf a = frameOf b) (hw : wordIdx a = wordIdx b) (hb : a.toNat % 8 = b.toNat % 8) : a = b := by
  unfold frameOf PAGE_SIZE at hf
  have hw' : a.toNat % 4096 / 8 = b.toNat % 4096 / 8 := congrArg Fin.val hw
  apply BitVec.eq_of_toNat_eq
  omega

/-- **An array of bytes.** -/
theorem physByte_set : physByte (setPhysByte mem a x) b = if b = a then x else physByte mem b := by
  unfold physByte setPhysByte
  by_cases hf : frameOf b = frameOf a
  · rw [hf, Function.update_self]
    by_cases hw : wordIdx b = wordIdx a
    · rw [hw, Function.update_self, byteOf_setByteOf (Nat.mod_lt _ (by decide)) (Nat.mod_lt _ (by decide))]
      by_cases hb : b.toNat % 8 = a.toNat % 8
      · rw [if_pos hb, if_pos (phys_ext hf hw hb)]
      · have hne : b ≠ a := fun h => hb (by rw [h])
        rw [if_neg hb, if_neg hne]
    · have hne : b ≠ a := fun h => hw (by rw [h])
      rw [Function.update_of_ne hw, if_neg hne]
  · have hne : b ≠ a := fun h => hf (by rw [h])
    rw [Function.update_of_ne hf, if_neg hne]

/-- other frames are untouched -/
theorem setPhysByte_row {f : ℕ} (hf : f ≠ frameOf a) : setPhysByte mem a x f = mem f := Function.update_of_ne hf _ _

theorem physByte_setBytes {xs : List U8} (log : List U64) :
    physByte (setPhysBytes mem a xs) = (Mem.put ⟨physByte mem, log⟩ a xs).byte := by
  induction xs generalizing mem a log with
  | nil => rfl
  | cons x xs ih =>
    have hset : physByte (setPhysByte mem a x) = Function.update (physByte mem) a x := by
      funext b
      rw [physByte_set, Function.update_apply]
    rw [setPhysBytes, ih, hset]
    rfl

theorem setPhysBytes_row {xs : List U8} {f : ℕ} (hf : ∀ i, i < xs.length → frameOf (nth a i) ≠ f) :
    setPhysBytes mem a xs f = mem f := by
  induction xs generalizing mem a with
  | nil => rfl
  | cons x xs ih =>
    have h0 := hf 0 (Nat.succ_pos _)
    rw [nth_zero] at h0
    rw [setPhysBytes, ih fun i hi => ?_, setPhysByte_row (Ne.symm h0)]
    rw [nth_succ]
    exact hf (i + 1) (Nat.succ_lt_succ hi)

/-! ## Pages mapped to themselves -/

/-- frame f is mapped to itself -/
def SelfMapped (m : Machine) (f : ℕ) : Prop := ∀ v, frameOf v = f → ∃ fl, translate m.mem (getPml4 m) v = some (v, fl)

/-- and stays so whatever the frames S hold -/
def StaysSelf (m : Machine) (S : Set ℕ) (f : ℕ) : Prop :=
  ∀ mem', (∀ g, g ∉ S → mem' g = m.mem g) → SelfMapped { m with mem := mem' } f

variable {m' : Machine} {S : Set ℕ} {f : ℕ} {xs : List U8} {v : U64}

theorem StaysSelf.selfMapped (h : StaysSelf m S f) : SelfMapped m f := h m.mem fun _ _ => rfl

theorem StaysSelf.congr (h : StaysSelf m S f) (hm : ∀ g, g ∉ S → m'.mem g = m.mem g) (hc : m'.cr3 = m.cr3) :
    StaysSelf m' S f := by
  intro mem' hmem v hv
  obtain ⟨fl, ht⟩ := h mem' (fun g hg => (hmem g hg).trans (hm g hg)) v hv
  refine ⟨fl, ?_⟩
  rw [← ht, getPml4, getPml4, hc]

theorem loadByte_self (h : SelfMapped m f) (hv : frameOf v = f) : loadByte m v = some (physByte m.mem v) := by
  obtain ⟨fl, ht⟩ := h v hv
  rw [loadByte, ht]
  rfl

/-- **Stores.** -/
theorem storeBytes_self (h : StaysSelf m S f) (hf : f ∈ S) (ha : ∀ i, i < xs.length → frameOf (nth a i) = f) :
    storeBytes m a xs = some { m with mem := setPhysBytes m.mem a xs } := by
  induction xs generalizing m a with
  | nil => rfl
  | cons x xs ih =>
    have h0 := ha 0 (Nat.succ_pos _)
    rw [nth_zero] at h0
    obtain ⟨fl, ht⟩ := h.selfMapped a h0
    have hstep : StaysSelf { m with mem := setPhysByte m.mem a x } S f := by
      refine h.congr (fun g hg => setPhysByte_row ?_) rfl
      rintro rfl
      rw [h0] at hg
      exact hg hf
    rw [storeBytes, storeByte, ht]
    refine ih hstep fun i hi => ?_
    rw [nth_succ]
    exact ha (i + 1) (Nat.succ_lt_succ hi)

end Access

end Retux.Vmm
