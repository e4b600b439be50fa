/-
The memory system calls of `cpu/syscall.cpp`: mmap, munmap, mprotect, over the machine and the task fields they read.

Every loop runs over wrapping 64-bit addresses (`forPages`). `none` is a halt: the frame allocator ran dry. The fuel of a
loop never runs out when its bounds are page-aligned, and all bounds here are (`pages_fuel`).
-/
import Mathlib.Tactic
import Retux.Mem.Spaces

namespace Retux.Sys

open Retux.Word Retux.Pmm Retux.Vmm

def ENODEV : U64 := 19
def EINVAL : U64 := 22

/-- `x & ~(PAGE_SIZE - 1)` -/
def pageDown (x : U64) : U64 := x &&& ~~~0xFFF#64

/-- `(x + PAGE_SIZE - 1) & ~(PAGE_SIZE - 1)`: wraps from 2^64 - 4095 on -/
def pageUp (x : U64) : U64 := (x + 0xFFF#64) &&& ~~~0xFFF#64

def PROT_WRITE : U64 := 0x2
def PROT_EXEC : U64 := 0x4
def MAP_ANONYMOUS : U64 := 0x20

/-- top of the program's own part of the user half: 128 stack pages below `USER_STACK_VIRT + 0x1000` -/
def LINUX_STACK_BASE : U64 := 0x00007FFFFFFFE000 + 0x1000 - 128 * 0x1000
def LINUX_MMAP_BASE : U64 := 0x0000600000000000

/-- the page flags of mmap and mprotect -/
def protFlags (prot : U64) : U64 :=
  let pflags := PRESENT ||| USER
  let pflags := if prot &&& PROT_WRITE ≠ 0 then pflags ||| WRITABLE else pflags
  if prot &&& PROT_EXEC = 0 then pflags ||| NO_EXECUTE else pflags

/-- the machine, and the running task's bump pointer -/
structure Proc where
  m : Machine
  mmapNext : U64

/-- more rounds than any loop over pages takes -/
def FUEL : ℕ := 2 ^ 52 + 1

/-- one round of the mmap loop: a fresh frame, mapped, then zeroed through the physmap -/
def mapZeroed (m : Machine) (va pflags : U64) : Option Machine :=
  (mapFresh m va pflags).map fun (phys, m) => m.fill (frameOf phys) fun _ => 0

def sysMmap (p : Proc) (_addr len prot flags _fd _off : U64) : Option (U64 × Proc) :=
  if flags &&& MAP_ANONYMOUS = 0 then some (-ENODEV, p)
  else if len = 0 then some (-EINVAL, p)
  else
    let mapLen := pageUp len
    let base := p.mmapNext
    (forPages (fun m va => mapZeroed m va (protFlags prot)) (base + mapLen) FUEL base p.m).map fun m =>
      (base, { m := m, mmapNext := base + mapLen })

def sysMunmap (m : Machine) (addr len : U64) : Option Machine :=
  forPages unmapAndFree (pageUp (addr + len)) FUEL (pageDown addr) m

def sysMprotect (m : Machine) (addr len prot : U64) : Option Machine :=
  forPages (fun m va => protect m va (protFlags prot)) (pageUp (addr + len)) FUEL (pageDown addr) m

/-! ## Bounds -/

theorem pageDown_toNat (x : U64) : (pageDown x).toNat = x.toNat / 4096 * 4096 := and_not_page x

theorem pageUp_aligned (x : U64) : (pageUp x).toNat % 4096 = 0 := by
  rw [pageUp, and_not_page]; omega

theorem pageDown_aligned (x : U64) : (pageDown x).toNat % 4096 = 0 := by
  rw [pageDown_toNat]; omega

/-- rounding up, where it does not wrap -/
theorem pageUp_toNat {x : U64} (h : x.toNat + 4095 < 2 ^ 64) : (pageUp x).toNat = (x.toNat + 4095) / 4096 * 4096 := by
  rw [pageUp, and_not_page, BitVec.toNat_add]
  have : (0xFFF#64).toNat = 4095 := rfl
  rw [this, Nat.mod_eq_of_lt h]

theorem pages_fuel (start stop : U64) : (stop.toNat - start.toNat) / 4096 < FUEL := by
  have := stop.isLt
  unfold FUEL
  omega

theorem sysMunmap_eq (m : Machine) (addr len : U64) :
    sysMunmap m addr len = (pages (pageDown addr) (pageUp (addr + len))).foldlM unmapAndFree m :=
  forPages_eq_foldlM _ _ (pageUp_aligned _) _ _ (pageDown_aligned _) (pages_fuel _ _) _

theorem sysMprotect_eq (m : Machine) (addr len prot : U64) :
    sysMprotect m addr len prot = (pages (pageDown addr) (pageUp (addr + len))).foldlM
      (fun m va => protect m va (protFlags prot)) m :=
  forPages_eq_foldlM _ _ (pageUp_aligned _) _ _ (pageDown_aligned _) (pages_fuel _ _) _

theorem protFlags_leaf (prot : U64) : LeafFlags (protFlags prot) ∧ user (protFlags prot) = true := by
  unfold protFlags
  split_ifs <;> decide

end Retux.Sys
