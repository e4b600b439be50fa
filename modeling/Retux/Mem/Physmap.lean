/-
Kernel pointers (`phys_to_virt`, and the pointers of `mem/vmm.cpp` built from it).

In `Mem.Vmm` a kernel pointer to a table is the frame behind it. The processor does not know that: it walks
PHYSMAP_BASE + frame in the loaded tables, the very tables that `map_into` edits. Here every access goes that way. `none`
is a page fault (or the frame allocator running dry). CR0.WP is clear, so the walk's WRITABLE bits do not matter to the
kernel.

`Direct m` says that the physmap reaches every frame below 4 GiB. While it holds, each access is the one `Mem.Vmm` makes
(`readVia_eq`, `storeVia_eq`, `fillVia_eq`).
-/
import Mathlib.Tactic
import Retux.Mem.Translate

namespace Retux.Vmm

open Retux.Word Retux.Pmm

/-! ## Accesses -/

/-- the frame that `phys_to_virt(frame)` reaches -/
def reach (m : Machine) (frame : ℕ) : Option ℕ :=
  (translate m.mem (getPml4 m) (PHYSMAP_BASE + addrOf frame)).map fun x => frameOf x.1

def readVia (m : Machine) (table : ℕ) (idx : Idx) : Option U64 := (reach m table).map fun f => m.mem f idx

def storeVia (m : Machine) (table : ℕ) (idx : Idx) (v : U64) : Option Machine :=
  (reach m table).map fun f => m.store f idx v

/-- `for i < 512: table[i] = g(i)` -/
def fillVia (m : Machine) (table : ℕ) (g : Idx → U64) : Option Machine :=
  (List.finRange 512).foldlM (fun m i => storeVia m table i (g i)) m

def ensureTableVia (m : Machine) (table : ℕ) (idx : Idx) (flags : U64) : Option (ℕ × Machine) := do
  let entry ← readVia m table idx
  if entry &&& PRESENT = 0 then
    let (frame, m) ← m.allocFrame
    let m ← fillVia m (frameOf frame) fun _ => 0
    let m ← storeVia m table idx (frame ||| flags ||| PRESENT)
    let entry ← readVia m table idx
    return (entryToKptr entry, m)
  else
    let m ← storeVia m table idx (entry ||| (flags &&& (USER ||| WRITABLE)))
    let entry ← readVia m table idx
    return (entryToKptr entry, m)

def splitHugePageVia (m : Machine) (pd : ℕ) (pdIdx : Idx) : Option Machine := do
  let entry ← readVia m pd pdIdx
  let base := entry &&& 0x000FFFFFFFE00000
  let flags := (entry &&& 0xFFF) &&& ~~~(HUGE_PAGE ||| BitVec.twoPow 64 12)
  let (ptFrame, m) ← m.allocFrame
  let m ← fillVia m (frameOf ptFrame) fun i => (base + BitVec.ofNat 64 i * 0x1000) ||| flags
  storeVia m pd pdIdx (ptFrame ||| PRESENT ||| WRITABLE)

def mapIntoVia (m : Machine) (pml4 : ℕ) (virt phys flags : U64) : Option Machine := do
  let phys := phys &&& ~~~0xFFF#64
  let intermediate := if flags &&& USER ≠ 0 then PRESENT ||| WRITABLE ||| USER else PRESENT ||| WRITABLE
  let (pdpt, m) ← ensureTableVia m pml4 (tableIdx virt 39) intermediate
  let (pd, m) ← ensureTableVia m pdpt (tableIdx virt 30) intermediate
  let entry ← readVia m pd (tableIdx virt 21)
  let m ← if isHuge entry then splitHugePageVia m pd (tableIdx virt 21) else some m
  let (pt, m) ← ensureTableVia m pd (tableIdx virt 21) intermediate
  storeVia m pt (tableIdx virt 12) (phys ||| flags)

/-- `vmm::map` -/
def mapVia (m : Machine) (virt phys flags : U64) : Option Machine := mapIntoVia m (getPml4 m) virt phys flags

/-! ## While the physmap is whole -/

/-- the physmap reaches every frame -/
def Direct (m : Machine) : Prop := ∀ f, f < MAX_FRAMES → reach m f = some f

section Direct

variable {m : Machine} {f : ℕ} {i : Idx} {e : U64}

theorem readVia_eq (h : Direct m) (hf : f < MAX_FRAMES) (i : Idx) : readVia m f i = some (m.mem f i) := by
  rw [readVia, h f hf]
  rfl

theorem storeVia_eq (h : Direct m) (hf : f < MAX_FRAMES) (i : Idx) (e : U64) :
    storeVia m f i e = some (m.store f i e) := by
  rw [storeVia, h f hf]
  rfl

theorem store_same (m : Machine) (f : ℕ) (i : Idx) : m.store f i (m.mem f i) = m := by
  unfold Machine.store
  rw [Function.update_eq_self, Function.update_eq_self]

/-- 512 stores are a fill -/
theorem foldl_store (m : Machine) (f : ℕ) (g : Idx → U64) (l : List Idx) :
    l.foldl (fun m i => m.store f i (g i)) m = m.fill f fun i => if i ∈ l then g i else m.mem f i := by
  induction l generalizing m with
  | nil =>
    simp only [List.foldl_nil, Machine.fill, List.not_mem_nil, if_false]
    rw [Function.update_eq_self]
  | cons i l ih =>
    rw [List.foldl_cons, ih]
    unfold Machine.fill Machine.store
    simp only [Function.update_self, Function.update_idem]
    congr 2
    funext j
    by_cases hj : j ∈ l
    · simp [hj]
    · by_cases hji : j = i
      · simp [hji]
      · simp [hj, hji]

/-- the fill loop, where the stores keep the physmap whole -/
theorem fillVia_eq {P : Machine → Prop} (hP : ∀ m, P m → Direct m) (hstore : ∀ m i e, P m → P (m.store f i e))
    (hf : f < MAX_FRAMES) (h : P m) (g : Idx → U64) : fillVia m f g = some (m.fill f g) := by
  have hloop : ∀ (l : List Idx) m, P m → l.foldlM (fun m i => storeVia m f i (g i)) m =
      some (l.foldl (fun m i => m.store f i (g i)) m) := by
    intro l
    induction l with
    | nil => exact fun m _ => rfl
    | cons i l ih =>
      intro m hm
      rw [List.foldlM_cons, storeVia_eq (hP m hm) hf, List.foldl_cons]
      exact ih _ (hstore m i (g i) hm)
  rw [fillVia, hloop _ m h, foldl_store]
  simp only [List.mem_finRange, if_true]

end Direct

end Retux.Vmm
