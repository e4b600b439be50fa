/-
The virtual memory manager (`mem/vmm.cpp`): four-level x86-64 page tables in physical memory.

Physical memory is a table of 4 KiB frames of 512 words. The kernel reaches every frame through the physmap, so a
kernel pointer to a table is the number of the frame behind it (`entryToKptr`). The TLB is not modelled: a translation
is what a walk of the tables gives. `none` is a halt: the only one here is the frame allocator running dry.

`Machine.freed` is a ghost: the arguments of all `free_frame` calls so far, newest first. The bitmap alone cannot tell
a frame freed twice from one freed once.

Every function is the source function of the same name, loop for loop. Loops that overwrite a whole table
(`for i < 512: t[i] = ...`) are one `fill`.
-/
import Mathlib.Tactic
import Retux.Lib.Word
import Retux.Mem.Pmm

namespace Retux.Vmm

open Retux.Word Retux.Pmm

/-! ## Entries -/

/-- index into a page table -/
abbrev Idx := Fin 512

instance idxNeZero : NeZero 512 := ⟨by decide⟩

def PRESENT : U64 := BitVec.twoPow 64 0
def WRITABLE : U64 := BitVec.twoPow 64 1
def USER : U64 := BitVec.twoPow 64 2
def PWT : U64 := BitVec.twoPow 64 3
def PCD : U64 := BitVec.twoPow 64 4
def HUGE_PAGE : U64 := BitVec.twoPow 64 7
def NO_EXECUTE : U64 := BitVec.twoPow 64 63

/-- bits 51:12 of an entry hold the frame address -/
def PHYS_MASK : U64 := frameMask

/-- `heap::VIRT_BASE` -/
def HEAP_VIRT_BASE : U64 := 0xFFFF800000000000
def PHYSMAP_BASE : U64 := 0xFFFFC00000000000

def KERNEL_RX : U64 := PRESENT
def KERNEL_RO : U64 := PRESENT ||| NO_EXECUTE
def KERNEL_RW : U64 := PRESENT ||| WRITABLE ||| NO_EXECUTE

/-- the private window of PML4 slot 0: 2 MiB to 16 MiB -/
def RESERVED_LOW : U64 := 0x200000
def RESERVED_HIGH : U64 := 0x1000000

/-- `(virt >> shift) & 0x1FF` -/
def tableIdx (virt : U64) (shift : ℕ) : Idx := ⟨virt.toNat / 2 ^ shift % 512, Nat.mod_lt _ (by decide)⟩

def HEAP_PML4_IDX : Idx := tableIdx HEAP_VIRT_BASE 39
def PHYSMAP_PML4_IDX : Idx := tableIdx PHYSMAP_BASE 39

def entryPhys (entry : U64) : U64 := entry &&& PHYS_MASK

/-- the table an entry points at -/
def entryToKptr (entry : U64) : ℕ := frameOf (entryPhys entry)

/-! ## The machine -/

structure Machine where
  /-- physical memory: frame, then word in the frame -/
  mem : ℕ → Idx → U64
  pmm : Pmm.St
  /-- the loaded CR3 -/
  cr3 : U64
  /-- the boot PML4, captured by `remap_kernel` -/
  gKernelPml4 : U64
  freed : List U64

def Machine.allocFrame (m : Machine) : Option (U64 × Machine) :=
  (Pmm.allocFrame m.pmm).map fun r => (r.1, { m with pmm := r.2 })

def Machine.freeFrame (m : Machine) (physAddr : U64) : Machine :=
  { m with pmm := Pmm.freeFrame m.pmm physAddr, freed := physAddr :: m.freed }

/-- `table[idx] = v` -/
def Machine.store (m : Machine) (table : ℕ) (idx : Idx) (v : U64) : Machine :=
  { m with mem := Function.update m.mem table (Function.update (m.mem table) idx v) }

/-- `for i < 512: table[i] = g(i)` -/
def Machine.fill (m : Machine) (table : ℕ) (g : Idx → U64) : Machine :=
  { m with mem := Function.update m.mem table g }

def getPml4 (m : Machine) : ℕ := entryToKptr m.cr3

/-! ## Walking and editing -/

def ensureTable (m : Machine) (table : ℕ) (idx : Idx) (flags : U64) : Option (ℕ × Machine) :=
  if m.mem table idx &&& PRESENT = 0 then
    m.allocFrame.map fun (frame, m) =>
      let m := (m.fill (frameOf frame) fun _ => 0).store table idx (frame ||| flags ||| PRESENT)
      (entryToKptr (m.mem table idx), m)
  else
    let m := m.store table idx (m.mem table idx ||| (flags &&& (USER ||| WRITABLE)))
    some (entryToKptr (m.mem table idx), m)

def splitHugePage (m : Machine) (pd : ℕ) (pdIdx : Idx) : Option Machine :=
  let entry := m.mem pd pdIdx
  let base := entry &&& 0x000FFFFFFFE00000
  let flags := (entry &&& 0xFFF) &&& ~~~(HUGE_PAGE ||| BitVec.twoPow 64 12)
  m.allocFrame.map fun (ptFrame, m) =>
    (m.fill (frameOf ptFrame) fun i => (base + BitVec.ofNat 64 i * 0x1000) ||| flags).store pd pdIdx
      (ptFrame ||| PRESENT ||| WRITABLE)

def isHuge (entry : U64) : Bool := entry &&& PRESENT ≠ 0 && entry &&& HUGE_PAGE ≠ 0

/-- `if ((pd[pd_idx] & PRESENT) && (pd[pd_idx] & HUGE_PAGE)) split_huge_page(pd, pd_idx)`, in `map_into` and `unmap` -/
def splitIfHuge (m : Machine) (pd : ℕ) (pdIdx : Idx) : Option Machine :=
  if isHuge (m.mem pd pdIdx) then splitHugePage m pd pdIdx else some m

/-- `virt &= ~0xFFF` is left out: the four indices do not read the low 12 bits -/
def mapInto (m : Machine) (pml4 : ℕ) (virt phys flags : U64) : Option Machine := do
  let phys := phys &&& ~~~0xFFF#64
  let intermediate := if flags &&& USER ≠ 0 then PRESENT ||| WRITABLE ||| USER else PRESENT ||| WRITABLE
  let (pdpt, m) ← ensureTable m pml4 (tableIdx virt 39) intermediate
  let (pd, m) ← ensureTable m pdpt (tableIdx virt 30) intermediate
  let m ← splitIfHuge m pd (tableIdx virt 21)
  let (pt, m) ← ensureTable m pd (tableIdx virt 21) intermediate
  return m.store pt (tableIdx virt 12) (phys ||| flags)

/-- the loop of `free_table`: `below` frees what a present, non-huge entry points at -/
def freeEntries (below : Machine → U64 → Machine) (m : Machine) (tablePhys : U64) : Machine :=
  let m := (List.finRange 512).foldl (fun m i =>
    if m.mem (frameOf tablePhys) i &&& PRESENT = 0 ∨ m.mem (frameOf tablePhys) i &&& HUGE_PAGE ≠ 0 then m
    else below m (entryPhys (m.mem (frameOf tablePhys) i))) m
  m.freeFrame tablePhys

/-- `level`: levels of indirection below `tablePhys` (0 = PT, whose entries are leaves) -/
def freeTable : ℕ → Machine → U64 → Machine
  | 0 => freeEntries Machine.freeFrame
  | level + 1 => freeEntries (freeTable level)

/-! ## The interface -/

def map (m : Machine) (virt phys flags : U64) : Option Machine := mapInto m (getPml4 m) virt phys flags

def unmap (m : Machine) (virt : U64) : Option Machine :=
  let pml4 := getPml4 m
  if m.mem pml4 (tableIdx virt 39) &&& PRESENT = 0 then some m else
  let pdpt := entryToKptr (m.mem pml4 (tableIdx virt 39))
  if m.mem pdpt (tableIdx virt 30) &&& PRESENT = 0 then some m else do
  let pd := entryToKptr (m.mem pdpt (tableIdx virt 30))
  let m ← splitIfHuge m pd (tableIdx virt 21)
  if m.mem pd (tableIdx virt 21) &&& PRESENT = 0 then some m else
  let pt := entryToKptr (m.mem pd (tableIdx virt 21))
  some (m.store pt (tableIdx virt 12) 0)

def virtToPhys (m : Machine) (virt : U64) : U64 :=
  let pml4 := getPml4 m
  if m.mem pml4 (tableIdx virt 39) &&& PRESENT = 0 then 0 else
  let pdpt := entryToKptr (m.mem pml4 (tableIdx virt 39))
  if m.mem pdpt (tableIdx virt 30) &&& PRESENT = 0 then 0 else
  if m.mem pdpt (tableIdx virt 30) &&& HUGE_PAGE ≠ 0 then
    (entryPhys (m.mem pdpt (tableIdx virt 30)) &&& 0x000FFFFFC0000000) + (virt &&& 0x3FFFFFFF) else
  let pd := entryToKptr (m.mem pdpt (tableIdx virt 30))
  if m.mem pd (tableIdx virt 21) &&& PRESENT = 0 then 0 else
  if m.mem pd (tableIdx virt 21) &&& HUGE_PAGE ≠ 0 then
    (entryPhys (m.mem pd (tableIdx virt 21)) &&& 0x000FFFFFFFE00000) + (virt &&& 0x1FFFFF) else
  let pt := entryToKptr (m.mem pd (tableIdx virt 21))
  if m.mem pt (tableIdx virt 12) &&& PRESENT = 0 then 0 else
  entryPhys (m.mem pt (tableIdx virt 12)) + (virt &&& 0xFFF)

def protect (m : Machine) (virt flags : U64) : Option Machine :=
  let phys := virtToPhys m virt
  if phys = 0 then some m else map m virt phys flags

/-! ## Address spaces -/

/-- `virt_2mb` of `create_address_space` -/
def virt2mb (pdptIdx pdIdx : Idx) : U64 := (BitVec.ofNat 64 pdptIdx <<< 30) ||| (BitVec.ofNat 64 pdIdx <<< 21)

/-- one round of the copy loop of `create_address_space`: a private PD holding the kernel's entries, window excluded -/
def createPd (newPdpt kernelPdpt : ℕ) (m : Machine) (pdptIdx : Idx) : Option Machine :=
  if m.mem kernelPdpt pdptIdx &&& PRESENT = 0 then some m
  else
    let kernelPd := entryToKptr (m.mem kernelPdpt pdptIdx)
    m.allocFrame.map fun (newPdPhys, m) =>
      let m := m.fill (frameOf newPdPhys) fun pdIdx =>
        let reserved := RESERVED_LOW ≤ virt2mb pdptIdx pdIdx ∧ virt2mb pdptIdx pdIdx < RESERVED_HIGH
        if ¬ reserved ∧ m.mem kernelPd pdIdx &&& PRESENT ≠ 0 then m.mem kernelPd pdIdx else 0
      m.store newPdpt pdptIdx (newPdPhys ||| PRESENT ||| WRITABLE ||| USER)

/-- `if (kernel_pml4[0] & PRESENT) for pdpt_idx < 4`: the low 4 GiB -/
def createLow (newPdpt kernelPml4 : ℕ) (m : Machine) : Option Machine :=
  if m.mem kernelPml4 0 &&& PRESENT = 0 then some m
  else [0, 1, 2, 3].foldlM (createPd newPdpt (entryToKptr (m.mem kernelPml4 0))) m

def createAddressSpace (m : Machine) : Option (U64 × Machine) := do
  let (newPml4Phys, m) ← m.allocFrame
  let newPml4 := frameOf newPml4Phys
  let m := m.fill newPml4 fun _ => 0
  let kernelPml4 := frameOf m.gKernelPml4
  let m := m.store newPml4 HEAP_PML4_IDX (m.mem kernelPml4 HEAP_PML4_IDX)
  let m := m.store newPml4 PHYSMAP_PML4_IDX (m.mem kernelPml4 PHYSMAP_PML4_IDX)
  let (newPdptPhys, m) ← m.allocFrame
  let newPdpt := frameOf newPdptPhys
  let m := m.fill newPdpt fun _ => 0
  let m ← createLow newPdpt kernelPml4 m
  let m := m.store newPml4 0 (newPdptPhys ||| PRESENT ||| WRITABLE ||| USER)
  return (newPml4Phys, m)

def cloneLeaf (dstPml4 : ℕ) (virt srcEntry : U64) (m : Machine) : Option Machine := do
  let flags := srcEntry &&& (PRESENT ||| WRITABLE ||| USER ||| NO_EXECUTE)
  let (newPhys, m) ← m.allocFrame
  let m := m.fill (frameOf newPhys) (m.mem (entryToKptr srcEntry))
  mapInto m dstPml4 virt newPhys flags

/-- `(pml4_idx << 39) | (pdpt_idx << 30) | (pd_idx << 21) | (pt_idx << 12)` -/
def mkVirt (pml4Idx pdptIdx pdIdx ptIdx : Idx) : U64 :=
  (BitVec.ofNat 64 pml4Idx <<< 39) ||| (BitVec.ofNat 64 pdptIdx <<< 30) ||| (BitVec.ofNat 64 pdIdx <<< 21) |||
    (BitVec.ofNat 64 ptIdx <<< 12)

def clonePt (dstPml4 srcPt : ℕ) (pml4Idx pdptIdx pdIdx : Idx) (m : Machine) : Option Machine :=
  (List.finRange 512).foldlM (fun m ptIdx =>
    if m.mem srcPt ptIdx &&& PRESENT = 0 then some m
    else cloneLeaf dstPml4 (mkVirt pml4Idx pdptIdx pdIdx ptIdx) (m.mem srcPt ptIdx) m) m

/-- the reserved window of slot 0: all that is private there -/
def cloneSlot0 (dstPml4 srcPml4 : ℕ) (m : Machine) : Option Machine :=
  if m.mem srcPml4 0 &&& PRESENT = 0 then some m else
  let srcPdpt := entryToKptr (m.mem srcPml4 0)
  if m.mem srcPdpt 0 &&& PRESENT = 0 then some m else
  let srcPd := entryToKptr (m.mem srcPdpt 0)
  (List.finRange 512).foldlM (fun m pdIdx =>
    if virt2mb 0 pdIdx < RESERVED_LOW ∨ RESERVED_HIGH ≤ virt2mb 0 pdIdx then some m
    else if m.mem srcPd pdIdx &&& PRESENT = 0 then some m
    else clonePt dstPml4 (entryToKptr (m.mem srcPd pdIdx)) 0 0 pdIdx m) m

/-- the PD loop of `clone_address_space` outside slot 0 -/
def clonePd (dstPml4 srcPd : ℕ) (pml4Idx pdptIdx : Idx) (m : Machine) : Option Machine :=
  (List.finRange 512).foldlM (fun m pdIdx =>
    if m.mem srcPd pdIdx &&& PRESENT = 0 then some m
    else clonePt dstPml4 (entryToKptr (m.mem srcPd pdIdx)) pml4Idx pdptIdx pdIdx m) m

/-- the PDPT loop of `clone_address_space` outside slot 0 -/
def clonePdpt (dstPml4 srcPdpt : ℕ) (pml4Idx : Idx) (m : Machine) : Option Machine :=
  (List.finRange 512).foldlM (fun m pdptIdx =>
    if m.mem srcPdpt pdptIdx &&& PRESENT = 0 then some m
    else clonePd dstPml4 (entryToKptr (m.mem srcPdpt pdptIdx)) pml4Idx pdptIdx m) m

/-- a PML4 slot the loops of clone and destroy skip: slot 0 is walked apart, the heap and physmap slots are shared -/
def skippedSlot (pml4Idx : Idx) : Bool := pml4Idx = 0 || pml4Idx = HEAP_PML4_IDX || pml4Idx = PHYSMAP_PML4_IDX

def cloneAddressSpace (dstCr3 srcCr3 : U64) (m : Machine) : Option Machine := do
  let srcPml4 := entryToKptr srcCr3
  let dstPml4 := entryToKptr dstCr3
  let m ← cloneSlot0 dstPml4 srcPml4 m
  (List.finRange 512).foldlM (fun m pml4Idx =>
    if skippedSlot pml4Idx then some m
    else if m.mem srcPml4 pml4Idx &&& PRESENT = 0 then some m
    else clonePdpt dstPml4 (entryToKptr (m.mem srcPml4 pml4Idx)) pml4Idx m) m

/-- one PD of slot 0: in the first, the page tables of the window go with their leaves; the rest is borrowed -/
def destroySlot0Pd (pdptIdx : Idx) (pdPhys : U64) (m : Machine) : Machine :=
  let m := if pdptIdx = 0 then
      (List.finRange 512).foldl (fun m pdIdx =>
        if virt2mb 0 pdIdx < RESERVED_LOW ∨ RESERVED_HIGH ≤ virt2mb 0 pdIdx then m
        else if m.mem (frameOf pdPhys) pdIdx &&& PRESENT = 0 then m
        else freeTable 0 m (entryPhys (m.mem (frameOf pdPhys) pdIdx))) m
    else m
  m.freeFrame pdPhys

def destroyPml4Slot0 (pdptPhys : U64) (m : Machine) : Machine :=
  let m := [0, 1, 2, 3].foldl (fun m pdptIdx =>
    if m.mem (frameOf pdptPhys) pdptIdx &&& PRESENT = 0 then m
    else destroySlot0Pd pdptIdx (entryPhys (m.mem (frameOf pdptPhys) pdptIdx)) m) m
  m.freeFrame pdptPhys

def destroyAddressSpace (cr3 : U64) (m : Machine) : Machine :=
  let pml4Phys := cr3 &&& PHYS_MASK
  let pml4 := frameOf pml4Phys
  let m := if m.mem pml4 0 &&& PRESENT = 0 then m else destroyPml4Slot0 (entryPhys (m.mem pml4 0)) m
  let m := (List.finRange 512).foldl (fun m pml4Idx =>
    if skippedSlot pml4Idx then m
    else if m.mem pml4 pml4Idx &&& PRESENT = 0 then m
    else freeTable 2 m (entryPhys (m.mem pml4 pml4Idx))) m
  m.freeFrame pml4Phys

end Retux.Vmm
