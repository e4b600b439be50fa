/-
The kernel heap (`mem/heap.cpp`): boundary tags, a free list through the free blocks, first fit.

`mem` is the heap's memory by virtual address, in words of 64 bits: all the code's accesses are to aligned words, or to
the low byte of one (`free`). A page that is not mapped yet has the words its frame will hold when it is: any words.
Frames and page tables are the machine `m`. The walks of the free list run on fuel: one longer than the address space
goes round for ever.

- `HeapInv`: the blocks fill the heap, their tags agree, the free ones are the list;
- `take_spec`: the first block that passes comes off the list;
- `coalesce_spec`: a free block, merged with its neighbours, goes on it.
-/
import Mathlib.Tactic
import Retux.Lib.Tags
import Retux.Mem.Zones

namespace Retux

open Retux.Word Retux.Bytes Retux.Tags Retux.Vmm Retux.Pmm

/-! ## Model -/

structure Heap where
  mem : U64 → U64
  freeList : U64
  heapEnd : U64
  m : Machine

namespace Heap

def PAGE_SIZE : U64 := 4096
def ALIGNMENT : U64 := 8
/-- `sizeof(Block)`, and of a `Footer` -/
def SIZEOF_BLOCK : U64 := 16
def MIN_BLOCK : U64 := 40

inductive Halt where
  /-- "heap: out of virtual address space" -/
  | outOfVirtual
  /-- "heap: out of physical memory", or the frame allocator's own halt -/
  | outOfPhysical
  /-- "heap: kmalloc failed after growing heap" -/
  | afterGrowing
  /-- a walk of the free list that does not end -/
  | endless
deriving DecidableEq

def write (h : Heap) (a x : U64) : Heap := { h with mem := Function.update h.mem a x }

/-- `block->size`; a footer has the same two fields -/
def size (h : Heap) (block : U64) : U64 := h.mem block

def setSize (h : Heap) (block x : U64) : Heap := h.write block x

/-- `block->free` -/
def isFree (h : Heap) (block : U64) : Bool := flag (h.mem (block + 8))

def setFree (h : Heap) (block : U64) (x : Bool) : Heap :=
  h.write (block + 8) (setByteOf (h.mem (block + 8)) 0 (if x then 1 else 0))

def footerOf (h : Heap) (block : U64) : U64 := block + h.size block - SIZEOF_BLOCK

def nextBlock (h : Heap) (block : U64) : U64 := block + h.size block

def prevBlock (h : Heap) (block : U64) : U64 :=
  if block - SIZEOF_BLOCK < HEAP_START then 0
  else if block - h.size (block - SIZEOF_BLOCK) < HEAP_START then 0
  else block - h.size (block - SIZEOF_BLOCK)

def setNext (h : Heap) (block next : U64) : Heap := h.write (block + SIZEOF_BLOCK) next

def getNext (h : Heap) (block : U64) : U64 := h.mem (block + SIZEOF_BLOCK)

def addBlockToFreeList (h : Heap) (block : U64) : Heap :=
  let h := h.setFree block true
  { h.setNext block h.freeList with freeList := block }

def removeBlockFromFreeList (h : Heap) (block prev : U64) : Heap :=
  if prev ≠ 0 then h.setNext prev (h.getNext block) else { h with freeList := h.getNext block }

def FUEL : ℕ := 2 ^ 64

/-- `for (curr = free_list; curr; prev = curr, curr = get_next(curr))`, up to the first block that passes: it and the
one before it, or `some none` -/
def walk (h : Heap) (found : U64 → Bool) : ℕ → U64 → U64 → Option (Option (U64 × U64))
  | 0, _, _ => none
  | n + 1, prev, curr =>
    if curr = 0 then some none
    else if found curr then some (some (prev, curr))
    else walk h found n curr (h.getNext curr)

/-- the loops of `coalesce` -/
def unlink (h : Heap) (target : U64) : Except Halt Heap :=
  match h.walk (fun curr => curr = target) FUEL 0 h.freeList with
  | none => .error .endless
  | some none => .ok h
  | some (some (prev, curr)) => .ok (h.removeBlockFromFreeList curr prev)

/-- `block->size += by`, and the new footer -/
def extend (h : Heap) (block more : U64) : Heap :=
  let h := h.setSize block (h.size block + more)
  let h := h.setSize (h.footerOf block) (h.size block)
  h.setFree (h.footerOf block) true

/-- merge with next block -/
def mergeNext (h : Heap) (block : U64) : Except Halt Heap :=
  let next := h.nextBlock block
  if next < h.heapEnd ∧ h.isFree next = true then do
    let h ← h.unlink next
    return h.extend block (h.size next)
  else .ok h

/-- merge with previous block -/
def mergePrev (h : Heap) (block : U64) : Except Halt (U64 × Heap) :=
  let prev := h.prevBlock block
  if prev ≠ 0 ∧ h.isFree prev = true then do
    let h ← h.unlink prev
    return (prev, h.extend prev (h.size block))
  else .ok (block, h)

def coalesce (h : Heap) (block : U64) : Except Halt Heap := do
  let h ← h.mergeNext block
  let (block, h) ← h.mergePrev block
  return h.addBlockToFreeList block

def growHeap (h : Heap) (pages : U64) : Except Halt Heap :=
  let virt := h.heapEnd
  if HEAP_MAX < virt + pages * PAGE_SIZE then .error .outOfVirtual
  else match (List.range pages.toNat).foldlM (growPage virt) h.m with
    | none => .error .outOfPhysical
    | some m =>
      let h := { h with m := m, heapEnd := virt + pages * PAGE_SIZE }
      let h := h.setSize virt (pages * PAGE_SIZE)
      let h := h.setFree virt true
      let h := h.setSize (h.footerOf virt) (h.size virt)
      let h := h.setFree (h.footerOf virt) true
      h.coalesce virt

/-- `size + sizeof(Block) + sizeof(Footer)`, aligned, and at least `MIN_BLOCK` -/
def totalSize (size : U64) : U64 :=
  let total := size + SIZEOF_BLOCK + SIZEOF_BLOCK
  let total := (total + ALIGNMENT - 1) &&& ~~~(ALIGNMENT - 1)
  if total < MIN_BLOCK then MIN_BLOCK else total

/-- the leftover of a block becomes a block, if there is room for one -/
def splitBlock (h : Heap) (curr total : U64) : Heap :=
  let remaining := h.size curr - total
  if remaining ≥ MIN_BLOCK then
    let newBlock := curr + total
    let h := h.setSize newBlock remaining
    let h := h.setFree newBlock true
    let h := h.setSize (h.footerOf newBlock) remaining
    let h := h.setFree (h.footerOf newBlock) true
    let h := h.addBlockToFreeList newBlock
    let h := h.setSize curr total
    h.setSize (h.footerOf curr) total
  else h

/-- 0 if no block is large enough -/
def allocateBlock (h : Heap) (size : U64) : Except Halt (U64 × Heap) :=
  let total := totalSize size
  match h.walk (fun curr => h.size curr ≥ total) FUEL 0 h.freeList with
  | none => .error .endless
  | some none => .ok (0, h)
  | some (some (prev, curr)) =>
    let h := h.removeBlockFromFreeList curr prev
    let h := h.splitBlock curr total
    let h := h.setFree curr false
    .ok (curr, h.setFree (h.footerOf curr) false)

/-- the pages `kmalloc` grows by -/
def pagesFor (size : U64) : U64 :=
  let pagesNeeded := (size + SIZEOF_BLOCK + SIZEOF_BLOCK + PAGE_SIZE - 1) / PAGE_SIZE
  if pagesNeeded > 4 then pagesNeeded else 4

def kmalloc (h : Heap) (size : U64) : Except Halt (U64 × Heap) :=
  if size = 0 then .ok (0, h)
  else do
    let (block, h) ← h.allocateBlock size
    if block ≠ 0 then return (block + SIZEOF_BLOCK, h)
    else do
      let h ← h.growHeap (pagesFor size)
      let (block, h) ← h.allocateBlock size
      if block = 0 then .error .afterGrowing else return (block + SIZEOF_BLOCK, h)

def kfree (h : Heap) (ptr : U64) : Except Halt Heap :=
  if ptr = 0 then .ok h
  else
    let block := ptr - SIZEOF_BLOCK
    if h.isFree block then .ok h
    else
      let h := h.setFree block true
      (h.setFree (h.footerOf block) true).coalesce block

/-- `heap::init`, on any memory -/
def init (mem : U64 → U64) (m : Machine) : Except Halt Heap := growHeap ⟨mem, 0, HEAP_START, m⟩ 256

/-! ## Offsets -/

/-- more than the heap ever has -/
def LIMIT : ℕ := 2 ^ 40

/-- the address of offset o -/
def ptr (o : ℕ) : U64 := nth HEAP_START o

/-- the memory by offsets -/
def words (h : Heap) (o : ℕ) : U64 := if o < LIMIT then h.mem (ptr o) else 0

/-- `x` with its low byte written as a bool -/
def mark (x : U64) (f : Bool) : U64 := setByteOf x 0 (if f then 1 else 0)

section Offsets

variable {h : Heap} {a b o : ℕ} {x y : U64} {f : Bool}

theorem ptr_toNat (ho : o < LIMIT) : (ptr o).toNat = 0xFFFF800000000000 + o := by
  unfold LIMIT at ho
  have hs : HEAP_START.toNat = 0xFFFF800000000000 := by decide
  rw [ptr, nth_toNat (by omega), hs]

theorem ptr_inj (ha : a < LIMIT) (hb : b < LIMIT) (h : ptr a = ptr b) : a = b := by
  have ht := congrArg BitVec.toNat h
  rw [ptr_toNat ha, ptr_toNat hb] at ht
  omega

theorem ptr_ne_zero (ho : o < LIMIT) : ptr o ≠ 0 := by
  intro h
  have ht := congrArg BitVec.toNat h
  rw [ptr_toNat ho] at ht
  exact absurd ht (by simp)

theorem ptr_lt (ha : a < LIMIT) (hb : b < LIMIT) : ptr a < ptr b ↔ a < b := by
  rw [BitVec.lt_def, ptr_toNat ha, ptr_toNat hb]
  omega

theorem nth_word : nth y x.toNat = y + x := by rw [nth, BitVec.ofNat_toNat, BitVec.setWidth_eq]

theorem ptr_add : ptr o + x = ptr (o + x.toNat) :=
  calc ptr o + x = nth (ptr o) x.toNat := nth_word.symm
    _ = ptr (o + x.toNat) := nth_add

theorem ptr_sub (h : x.toNat ≤ o) : ptr o - x = ptr (o - x.toNat) := by
  have hadd : ptr (o - x.toNat) + x = ptr o := by rw [ptr_add, Nat.sub_add_cancel h]
  rw [← hadd, BitVec.add_sub_cancel]

theorem words_eq (ho : o < LIMIT) : h.words o = h.mem (ptr o) := if_pos ho

theorem words_write (ha : a < LIMIT) : (h.write (ptr a) x).words = Function.update h.words a x := by
  have hmem : (h.write (ptr a) x).mem = Function.update h.mem (ptr a) x := rfl
  funext o
  unfold words
  rw [hmem]
  by_cases ho : o < LIMIT
  · rw [if_pos ho]
    by_cases hoa : o = a
    · rw [hoa, Function.update_self, Function.update_self]
    · rw [Function.update_of_ne fun he => hoa (ptr_inj ho ha he), Function.update_of_ne hoa, if_pos ho]
  · have hoa : o ≠ a := by
      rintro rfl
      exact ho ha
    rw [if_neg ho, Function.update_of_ne hoa, if_neg ho]

theorem flag_mark : flag (mark x f) = f := by
  unfold flag mark
  rw [byteOf_setByteOf (by decide) (by decide), if_pos rfl]
  cases f <;> rfl

theorem size_ptr (ho : o < LIMIT) : h.size (ptr o) = h.words o := (words_eq ho).symm

theorem ptr_add_8 : ptr o + 8 = ptr (o + 8) := ptr_add

theorem ptr_add_16 : ptr o + SIZEOF_BLOCK = ptr (o + 16) := ptr_add

theorem isFree_ptr (ho : o + 8 < LIMIT) : h.isFree (ptr o) = flag (h.words (o + 8)) := by
  rw [isFree, ptr_add_8, words_eq ho]

theorem getNext_ptr (ho : o + 16 < LIMIT) : h.getNext (ptr o) = h.words (o + 16) := by
  rw [getNext, ptr_add_16, words_eq ho]

theorem words_setSize (ho : o < LIMIT) : (h.setSize (ptr o) x).words = Function.update h.words o x := words_write ho

theorem words_setFree (ho : o + 8 < LIMIT) :
    (h.setFree (ptr o) f).words = Function.update h.words (o + 8) (mark (h.words (o + 8)) f) := by
  rw [setFree, ptr_add_8, words_write ho, words_eq ho, mark]

theorem words_setNext (ho : o + 16 < LIMIT) : (h.setNext (ptr o) x).words = Function.update h.words (o + 16) x := by
  rw [setNext, ptr_add_16, words_write ho]

theorem nextBlock_ptr (ho : o < LIMIT) : h.nextBlock (ptr o) = ptr (o + (h.words o).toNat) := by
  rw [nextBlock, size_ptr ho, ptr_add]

theorem footerOf_ptr (ho : o < LIMIT) (hs : 16 ≤ (h.words o).toNat) :
    h.footerOf (ptr o) = ptr (o + (h.words o).toNat - 16) := by
  have h16 : SIZEOF_BLOCK.toNat = 16 := rfl
  rw [footerOf, size_ptr ho, ptr_add, ptr_sub (by omega), h16]

/-- nothing before the first block -/
theorem prevBlock_zero : h.prevBlock (ptr 0) = 0 := if_pos (by decide)

/-- the block before, by its footer -/
theorem prevBlock_ptr (ho : o < LIMIT) (h16 : 16 ≤ o) (hs : (h.words (o - 16)).toNat ≤ o) :
    h.prevBlock (ptr o) = ptr (o - (h.words (o - 16)).toNat) := by
  have hblock : ptr o - SIZEOF_BLOCK = ptr (o - 16) := ptr_sub h16
  have hstart : ∀ k, k < LIMIT → ¬ ptr k < HEAP_START := fun k hk hlt => by
    rw [BitVec.lt_def, ptr_toNat hk, show HEAP_START.toNat = 0xFFFF800000000000 by decide] at hlt
    omega
  rw [prevBlock, hblock, if_neg (hstart _ (by omega)), size_ptr (by omega), ptr_sub hs, if_neg (hstart _ (by omega))]

end Offsets

/-! ## The invariant -/

/-- the cells fill the heap and their tags are right; of the free ones, those at fs are on the list -/
structure Listed (h : Heap) (cs : List Cell) (fs : List ℕ) : Prop where
  sized : Sized cs
  tags : Tagged h.words 0 cs
  heapEnd : h.heapEnd = ptr (total cs)
  small : total cs ≤ 0xFFFFFFFF
  nodup : fs.Nodup
  starts : ∀ o ∈ fs, ∃ c, At 0 cs o c
  list : ∃ l, l.Perm fs ∧ Linked ptr h.words h.freeList l

/-- **The heap is sound**: every free cell is on the list. -/
def HeapInv (h : Heap) (cs : List Cell) : Prop := Listed h cs (frees 0 cs)

/-- the pointer before the rest of the list -/
def lastPtr (p : U64) (l : List ℕ) : U64 := l.getLast?.elim p ptr

section Walk

variable {h : Heap} {found : U64 → Bool} {prev curr : U64} {l l1 l2 : List ℕ} {n x : ℕ}

theorem lastPtr_cons {y : ℕ} : lastPtr prev (y :: l) = lastPtr (ptr y) l := by
  unfold lastPtr
  cases l with
  | nil => rfl
  | cons z l =>
    rw [List.getLast?_cons_cons, List.getLast?_eq_some_getLast (List.cons_ne_nil z l)]
    rfl

/-- the walk stops at the first block that passes -/
theorem walk_found (hl : Linked ptr h.words curr (l1 ++ x :: l2)) (hlow : ∀ y ∈ l1 ++ x :: l2, y + 16 < LIMIT)
    (hn : l1.length < n) (h1 : ∀ y ∈ l1, found (ptr y) = false) (hx : found (ptr x) = true) :
    h.walk found n prev curr = some (some (lastPtr prev l1, ptr x)) := by
  induction l1 generalizing n prev curr with
  | nil =>
    obtain ⟨n, rfl⟩ : ∃ k, n = k + 1 := ⟨n - 1, by simp at hn; omega⟩
    have hx0 := hlow x (List.mem_cons_self ..)
    rw [walk, hl.1, if_neg (ptr_ne_zero (by omega)), if_pos hx]
    rfl
  | cons y l1 ih =>
    obtain ⟨n, rfl⟩ : ∃ k, n = k + 1 := ⟨n - 1, by simp at hn; omega⟩
    have hy0 := hlow y (List.mem_cons_self ..)
    rw [walk, hl.1, if_neg (ptr_ne_zero (by omega)), if_neg (by rw [h1 y (List.mem_cons_self ..)]; decide),
      getNext_ptr hy0, lastPtr_cons]
    exact ih hl.2 (fun z hz => hlow z (List.mem_cons_of_mem _ hz)) (by simpa using hn)
      fun z hz => h1 z (List.mem_cons_of_mem _ hz)

theorem walk_none (hl : Linked ptr h.words curr l) (hlow : ∀ y ∈ l, y + 16 < LIMIT) (hn : l.length < n)
    (h1 : ∀ y ∈ l, found (ptr y) = false) : h.walk found n prev curr = some none := by
  induction l generalizing n prev curr with
  | nil =>
    obtain ⟨n, rfl⟩ : ∃ k, n = k + 1 := ⟨n - 1, by simp at hn; omega⟩
    exact if_pos hl
  | cons y l ih =>
    obtain ⟨n, rfl⟩ : ∃ k, n = k + 1 := ⟨n - 1, by simp at hn; omega⟩
    have hy0 := hlow y (List.mem_cons_self ..)
    rw [walk, hl.1, if_neg (ptr_ne_zero (by omega)), if_neg (by rw [h1 y (List.mem_cons_self ..)]; decide),
      getNext_ptr hy0]
    exact ih hl.2 (fun z hz => hlow z (List.mem_cons_of_mem _ hz)) (by simpa using hn)
      fun z hz => h1 z (List.mem_cons_of_mem _ hz)

/-- **Off the list.** Only the link of the block before changes. -/
theorem remove_spec (hl : Linked ptr h.words h.freeList (l1 ++ x :: l2)) (hnd : (l1 ++ x :: l2).Nodup)
    (hlow : ∀ y ∈ l1 ++ x :: l2, y + 16 < LIMIT) :
    Linked ptr (h.removeBlockFromFreeList (ptr x) (lastPtr 0 l1)).words
        (h.removeBlockFromFreeList (ptr x) (lastPtr 0 l1)).freeList (l1 ++ l2) ∧
      (∀ a, (∀ y ∈ l1, a ≠ y + 16) → (h.removeBlockFromFreeList (ptr x) (lastPtr 0 l1)).words a = h.words a) ∧
      (h.removeBlockFromFreeList (ptr x) (lastPtr 0 l1)).heapEnd = h.heapEnd := by
  have hx := hlow x (by simp)
  rcases List.eq_nil_or_concat' l1 with rfl | ⟨l1, y, rfl⟩
  · have hzero : lastPtr 0 [] = 0 := rfl
    unfold removeBlockFromFreeList
    rw [hzero, if_neg (not_not.2 rfl), getNext_ptr hx]
    exact ⟨hl.2, fun _ _ => rfl, rfl⟩
  · have hlast : lastPtr 0 (l1 ++ [y]) = ptr y := by simp [lastPtr]
    have hy := hlow y (by simp)
    rw [List.append_assoc] at hl hnd
    have hwords : (h.setNext (ptr y) (h.getNext (ptr x))).words =
        Function.update h.words (y + 16) (h.words (x + 16)) := by
      rw [words_setNext hy, getNext_ptr hx]
    -- the other links are elsewhere
    have hother : ∀ o ∈ l1 ++ l2, (h.setNext (ptr y) (h.getNext (ptr x))).words (o + 16) = h.words (o + 16) := by
      intro o ho
      rw [hwords]
      refine Function.update_of_ne (fun he => ?_) _ _
      have hoy : o = y := by omega
      rw [List.nodup_append] at hnd
      obtain ⟨-, hnd2, hdisj⟩ := hnd
      rcases List.mem_append.1 ho with ho | ho
      · exact hdisj o ho y (by simp) hoy
      · rw [hoy] at ho
        exact (List.nodup_cons.1 hnd2).1 (by simp [ho])
    unfold removeBlockFromFreeList
    rw [hlast, if_pos (ptr_ne_zero (by omega)), List.append_assoc]
    refine ⟨hl.remove (by rw [hwords, Function.update_self]) hother, fun a ha => ?_, rfl⟩
    rw [hwords]
    exact Function.update_of_ne (ha y (by simp)) _ _

end Walk

/-! ## The steps of `coalesce` -/

section Steps

variable {h : Heap} {cs pre post : List Cell} {fs : List ℕ} {c d : Cell} {o x S : ℕ} {more : U64}

theorem Listed.low (H : Listed h cs fs) (hc : At 0 cs o c) : o + c.size < LIMIT ∧ 40 ≤ c.size := by
  have hb := hc.bounds
  have hs := H.small
  have hm := (H.sized c hc.mem).1
  unfold LIMIT
  unfold MIN at hm
  omega

theorem Listed.link_low (H : Listed h cs fs) (hx : x ∈ fs) : x + 16 < LIMIT := by
  obtain ⟨c, hc⟩ := H.starts x hx
  have := H.low hc
  omega

theorem Listed.length_lt (H : Listed h cs fs) : fs.length < FUEL := by
  have hsub : fs ⊆ List.range (total cs + 1) := by
    intro x hx
    obtain ⟨c, hc⟩ := H.starts x hx
    have hb := hc.bounds
    rw [List.mem_range]
    omega
  have hlen := (List.subperm_of_subset H.nodup hsub).length_le
  have hs := H.small
  rw [List.length_range] at hlen
  unfold FUEL
  omega

/-- a header is no link -/
theorem Listed.not_link (H : Listed h cs fs) (hc : At 0 cs o c) : ¬ IsLink 0 cs o ∧ ¬ IsLink 0 cs (o + 8) := by
  have hstart : ∀ k, k < 16 → ¬ IsLink 0 cs (o + k) := by
    rintro k hk ⟨x, d, hd, he⟩
    have h1 := (H.low hc).2
    have h2 := (H.low hd).2
    rcases hc.apart hd with ⟨rfl, -⟩ | h | h <;> omega
  exact ⟨hstart 0 (by decide), hstart 8 (by decide)⟩

theorem Listed.perm {fs' : List ℕ} (H : Listed h cs fs) (hp : fs.Perm fs') : Listed h cs fs' := by
  obtain ⟨l, hl, hlinked⟩ := H.list
  exact ⟨H.sized, H.tags, H.heapEnd, H.small, hp.nodup_iff.1 H.nodup, fun y hy => H.starts y (hp.mem_iff.2 hy), l,
    hl.trans hp, hlinked⟩

/-- **A block off the list**: the first that passes. -/
theorem take_spec (H : Listed h cs fs) (found : U64 → Bool) (hex : ∃ x ∈ fs, found (ptr x) = true) :
    ∃ x ∈ fs, ∃ prev, found (ptr x) = true ∧ h.walk found FUEL 0 h.freeList = some (some (prev, ptr x)) ∧
      Listed (h.removeBlockFromFreeList (ptr x) prev) cs (fs.erase x) ∧
        ∀ a, ¬ IsLink 0 cs a → (h.removeBlockFromFreeList (ptr x) prev).words a = h.words a := by
  obtain ⟨l, hperm, hl⟩ := H.list
  obtain ⟨x0, hx0, hf0⟩ := hex
  obtain ⟨x, hfind⟩ := Option.isSome_iff_exists.1
    (List.find?_isSome.2 ⟨x0, hperm.mem_iff.2 hx0, hf0⟩ : (l.find? fun y => found (ptr y)).isSome)
  obtain ⟨hfx, l1, l2, rfl, h1⟩ := List.find?_eq_some_iff_append.1 hfind
  have hnd := hperm.nodup_iff.2 H.nodup
  have hlow : ∀ y ∈ l1 ++ x :: l2, y + 16 < LIMIT := fun y hy => H.link_low (hperm.mem_iff.1 hy)
  have hx1 : x ∉ l1 := fun hm => (List.nodup_append.1 hnd).2.2 x hm x (List.mem_cons_self ..) rfl
  have hfuel : l1.length < FUEL := by
    have hlen := hperm.length_eq
    have hfs := H.length_lt
    rw [List.length_append] at hlen
    omega
  have hwalk : h.walk found FUEL 0 h.freeList = some (some (lastPtr 0 l1, ptr x)) :=
    walk_found hl hlow hfuel (fun y hy => by simpa using h1 y hy) hfx
  obtain ⟨hlist, hwords, hend⟩ := remove_spec hl hnd hlow
  have hkeep : ∀ a, ¬ IsLink 0 cs a →
      (h.removeBlockFromFreeList (ptr x) (lastPtr 0 l1)).words a = h.words a := by
    intro a ha
    refine hwords a fun y hy he => ha ?_
    obtain ⟨c, hc⟩ := H.starts y (hperm.mem_iff.1 (List.mem_append_left _ hy))
    exact ⟨y, c, hc, he⟩
  have herase : (l1 ++ x :: l2).erase x = l1 ++ l2 := by
    rw [List.erase_append_right _ hx1, List.erase_cons_head]
  refine ⟨x, hperm.mem_iff.1 (by simp), lastPtr 0 l1, hfx, hwalk,
    ⟨H.sized, ?_, hend.trans H.heapEnd, H.small, H.nodup.erase x, ?_, l1 ++ l2, ?_, hlist⟩, hkeep⟩
  · exact H.tags.congr H.sized fun a _ _ ha => hkeep a ha
  · exact fun o ho => H.starts o (List.mem_of_mem_erase ho)
  · rw [← herase]
    exact hperm.erase x

theorem unlink_spec (H : Listed h cs fs) (hx : x ∈ fs) : ∃ h', h.unlink (ptr x) = .ok h' ∧
    Listed h' cs (fs.erase x) ∧ ∀ a, ¬ IsLink 0 cs a → h'.words a = h.words a := by
  obtain ⟨y, hy, prev, hfy, hwalk, H', hkeep⟩ := take_spec H (fun curr => curr = ptr x) ⟨x, hx, by simp⟩
  have hyx : y = x := by
    have hyl := H.link_low hy
    have hxl := H.link_low hx
    exact ptr_inj (by omega) (by omega) (of_decide_eq_true hfy)
  subst hyx
  exact ⟨_, by rw [unlink, hwalk], H', hkeep⟩

/-- the words of a footer -/
theorem words_footerSize {y : U64} (hS : (h.words o).toNat = S) (h16 : 16 ≤ S) (ho : o + S < LIMIT) :
    (h.setSize (h.footerOf (ptr o)) y).words = Function.update h.words (o + S - 16) y := by
  rw [footerOf_ptr (by omega) (by omega), hS, words_setSize (by omega)]

theorem words_footerFree {f : Bool} (hS : (h.words o).toNat = S) (h16 : 16 ≤ S) (ho : o + S < LIMIT) :
    (h.setFree (h.footerOf (ptr o)) f).words =
      Function.update h.words (o + S - 8) (mark (h.words (o + S - 8)) f) := by
  rw [footerOf_ptr (by omega) (by omega), hS, words_setFree (by omega), show o + S - 16 + 8 = o + S - 8 by omega]

theorem words_extend (hS : (h.words o + more).toNat = S) (h32 : 32 ≤ S) (ho : o + S < LIMIT) :
    (h.extend (ptr o) more).words = Function.update (Function.update (Function.update h.words o (h.words o + more))
      (o + S - 16) (h.words o + more)) (o + S - 8) (mark (h.words (o + S - 8)) true) := by
  have h1 : (h.setSize (ptr o) (h.size (ptr o) + more)).words = Function.update h.words o (h.words o + more) := by
    rw [words_setSize (by omega), size_ptr (by omega)]
  unfold extend
  simp only
  generalize h.setSize (ptr o) (h.size (ptr o) + more) = k at h1
  have hk : k.words o = h.words o + more := by rw [h1, Function.update_self]
  have h2 : (k.setSize (k.footerOf (ptr o)) (k.size (ptr o))).words =
      Function.update k.words (o + S - 16) (h.words o + more) := by
    rw [words_footerSize (by rw [hk]; exact hS) (by omega) ho, size_ptr (by omega), hk]
  generalize k.setSize (k.footerOf (ptr o)) (k.size (ptr o)) = k' at h2
  have hk' : k'.words o = h.words o + more := by
    rw [h2, Function.update_of_ne (by omega), hk]
  rw [words_footerFree (by rw [hk']; exact hS) (by omega) ho, h2, Function.update_of_ne (by omega), h1,
    Function.update_of_ne (by omega)]

/-- **Two blocks become one.** -/
theorem extend_spec (H : Listed h (pre ++ c :: d :: post) fs) (hc : c.free = true) (hd : more.toNat = d.size)
    (hfs : total pre + c.size ∉ fs) : Listed (h.extend (ptr (total pre)) more)
        (pre ++ ⟨c.size + d.size, true⟩ :: post) fs ∧
      ∀ a, a ≠ total pre → a ≠ total pre + (c.size + d.size) - 16 → a ≠ total pre + (c.size + d.size) - 8 →
        (h.extend (ptr (total pre)) more).words a = h.words a := by
  have hatc : At 0 (pre ++ c :: d :: post) (total pre) c := by simp
  have hatd : At 0 (pre ++ c :: d :: post) (total pre + c.size) d := by simp
  have lc := H.low hatc
  have ld := H.low hatd
  have htc := H.tags _ _ hatc
  have hS : (h.words (total pre) + more).toNat = c.size + d.size := by
    rw [BitVec.toNat_add, htc.size, hd]
    unfold LIMIT at ld
    omega
  have hw := words_extend hS (by omega) (by omega)
  have hkeep : ∀ a, a ≠ total pre → a ≠ total pre + (c.size + d.size) - 16 →
      a ≠ total pre + (c.size + d.size) - 8 → (h.extend (ptr (total pre)) more).words a = h.words a := by
    intro a h1 h2 h3
    rw [hw, Function.update_of_ne h3, Function.update_of_ne h2, Function.update_of_ne h1]
  -- a block of the list is before the two, the first of them, or after
  have hcases : ∀ y ∈ fs, (∃ e, At 0 pre y e) ∨ y = total pre ∨
      ∃ e, At (total pre + c.size + d.size) post y e := by
    intro y hy
    obtain ⟨e, he⟩ := H.starts y hy
    simp only [at_append, at_cons, Nat.zero_add] at he
    rcases he with he | ⟨rfl, -⟩ | ⟨rfl, -⟩ | he
    · exact Or.inl ⟨e, he⟩
    · exact Or.inr (Or.inl rfl)
    · exact absurd hy hfs
    · exact Or.inr (Or.inr ⟨e, he⟩)
  have htotal : total (pre ++ ⟨c.size + d.size, true⟩ :: post) = total (pre ++ c :: d :: post) := by
    simp only [total_append, total_cons]
    omega
  refine ⟨⟨?_, ?_, ?_, ?_, H.nodup, fun y hy => ?_, ?_⟩, hkeep⟩
  · have hcm := H.sized c hatc.mem
    have hdm := H.sized d hatd.mem
    refine H.sized.left.append fun e he => ?_
    rcases List.mem_cons.1 he with rfl | he
    · exact ⟨hcm.1.trans (Nat.le_add_right _ _), Nat.dvd_add hcm.2 hdm.2⟩
    · exact H.sized.right.tail.tail e he
  · refine Tagged.splice (m := [c, d]) (n := [⟨c.size + d.size, true⟩]) H.tags H.sized
      (fun x _ _ hx _ => ?_) ?_ (by simp)
    · simp only [Nat.zero_add, total_cons, total_nil] at hx
      exact hkeep x (by omega) (by omega) (by omega)
    · rintro y e (⟨rfl, rfl⟩ | he)
      · simp only [Nat.zero_add]
        refine ⟨?_, ?_, ?_, ?_⟩
        · rw [hw, Function.update_of_ne (by omega), Function.update_of_ne (by omega), Function.update_self]
          exact hS
        · rw [hkeep _ (by omega) (by omega) (by omega), htc.free, hc]
        · dsimp only
          rw [hw, Function.update_of_ne (by omega), Function.update_self]
          exact hS
        · dsimp only
          rw [hw, Function.update_self, flag_mark]
      · exact absurd he at_nil
  · rw [htotal]
    exact H.heapEnd
  · rw [htotal]
    exact H.small
  · simp only [at_append, at_cons, Nat.zero_add]
    rcases hcases y hy with ⟨e, he⟩ | rfl | ⟨e, he⟩
    · exact ⟨e, Or.inl he⟩
    · exact ⟨_, Or.inr (Or.inl ⟨rfl, rfl⟩)⟩
    · exact ⟨e, Or.inr (Or.inr (by rw [← Nat.add_assoc]; exact he))⟩
  · obtain ⟨l, hperm, hl⟩ := H.list
    refine ⟨l, hperm, hl.congr fun y hy => ?_⟩
    have hlow := H.starts y (hperm.mem_iff.1 hy)
    rcases hcases y (hperm.mem_iff.1 hy) with ⟨e, he⟩ | rfl | ⟨e, he⟩
    · have hb := he.bounds
      have hm := (H.sized.left e he.mem).1
      unfold MIN at hm
      exact hkeep _ (by omega) (by omega) (by omega)
    · exact hkeep _ (by omega) (by omega) (by omega)
    · have hb := he.bounds
      exact hkeep _ (by omega) (by omega) (by omega)

theorem words_push (ho : o + 16 < LIMIT) : (h.addBlockToFreeList (ptr o)).words =
    Function.update (Function.update h.words (o + 8) (mark (h.words (o + 8)) true)) (o + 16) h.freeList := by
  have hn : ∀ k : Heap, { k with freeList := ptr o }.words = k.words := fun _ => rfl
  unfold addBlockToFreeList
  rw [hn, words_setNext ho, words_setFree (by omega)]
  rfl

/-- **A free block onto the list.** -/
theorem push_spec (H : Listed h cs fs) (hc : At 0 cs o c) (hf : c.free = true) (ho : o ∉ fs) :
    Listed (h.addBlockToFreeList (ptr o)) cs (o :: fs) ∧ (h.addBlockToFreeList (ptr o)).freeList = ptr o ∧
      flag ((h.addBlockToFreeList (ptr o)).words (o + 8)) = true ∧
      ∀ a, a ≠ o + 8 → a ≠ o + 16 → (h.addBlockToFreeList (ptr o)).words a = h.words a := by
  have lc := H.low hc
  have hw := words_push (h := h) (o := o) (by omega)
  have hkeep : ∀ a, a ≠ o + 8 → a ≠ o + 16 → (h.addBlockToFreeList (ptr o)).words a = h.words a := by
    intro a h1 h2
    rw [hw, Function.update_of_ne h2, Function.update_of_ne h1]
  have hflag : flag ((h.addBlockToFreeList (ptr o)).words (o + 8)) = true := by
    rw [hw, Function.update_of_ne (by omega), Function.update_self, flag_mark]
  refine ⟨⟨H.sized, ?_, H.heapEnd, H.small, List.nodup_cons.2 ⟨ho, H.nodup⟩, fun y hy => ?_, ?_⟩, rfl, hflag, hkeep⟩
  · intro y e he
    have le := H.low he
    have hte := H.tags y e he
    rcases hc.apart he with ⟨rfl, rfl⟩ | hlt | hlt
    · refine ⟨?_, by rw [hflag, hf], ?_, ?_⟩
      · rw [hkeep _ (by omega) (by omega)]
        exact hte.size
      · rw [hkeep _ (by omega) (by omega)]
        exact hte.size'
      · rw [hkeep _ (by omega) (by omega)]
        exact hte.free'
    · exact hte.congr (H.sized e he.mem).1 fun a h1 h2 _ => hkeep a (by omega) (by omega)
    · exact hte.congr (H.sized e he.mem).1 fun a h1 h2 _ => hkeep a (by omega) (by omega)
  · rcases List.mem_cons.1 hy with rfl | hy
    · exact ⟨c, hc⟩
    · exact H.starts y hy
  · obtain ⟨l, hperm, hl⟩ := H.list
    refine ⟨o :: l, hperm.cons o, rfl, ?_⟩
    rw [hw, Function.update_self, ← hw]
    refine hl.congr fun y hy => ?_
    obtain ⟨e, he⟩ := H.starts y (hperm.mem_iff.1 hy)
    have hyo : y ≠ o := by
      rintro rfl
      exact ho (hperm.mem_iff.1 hy)
    have le := H.low he
    rcases hc.apart he with ⟨rfl, -⟩ | hlt | hlt
    · exact absurd rfl hyo
    · exact hkeep _ (by omega) (by omega)
    · exact hkeep _ (by omega) (by omega)

/-- the allocated blocks -/
def Used (cs : List Cell) (o : ℕ) (c : Cell) : Prop := At 0 cs o c ∧ c.free = false

/-- two free blocks, as one -/
theorem used_merge {d e : Cell} {y : ℕ} (hc : c.free = true) (hd : d.free = true) :
    Used (pre ++ ⟨c.size + d.size, true⟩ :: post) y e ↔ Used (pre ++ c :: d :: post) y e := by
  unfold Used
  simp only [at_append, at_cons, Nat.zero_add, Nat.add_assoc]
  constructor
  · rintro ⟨he | ⟨-, rfl⟩ | he, hf⟩
    · exact ⟨Or.inl he, hf⟩
    · cases hf
    · exact ⟨Or.inr (Or.inr (Or.inr he)), hf⟩
  · rintro ⟨he | ⟨-, rfl⟩ | ⟨-, rfl⟩ | he, hf⟩
    · exact ⟨Or.inl he, hf⟩
    · rw [hc] at hf
      cases hf
    · rw [hd] at hf
      cases hf
    · exact ⟨Or.inr (Or.inr he), hf⟩

/-- the block after, merged if it is free -/
theorem mergeNext_spec (H : Listed h (pre ++ c :: post) (frees 0 pre ++ frees (total pre + c.size) post))
    (hc : c.free = true) : ∃ h' c' post', h.mergeNext (ptr (total pre)) = .ok h' ∧
      Listed h' (pre ++ c' :: post') (frees 0 pre ++ frees (total pre + c'.size) post') ∧ c'.free = true ∧
        c.size ≤ c'.size ∧ (∀ y e, Used (pre ++ c' :: post') y e ↔ Used (pre ++ c :: post) y e) ∧
          h'.words (total pre + 8) = h.words (total pre + 8) ∧ (Merged post → Merged (c' :: post')) := by
  have hatc : At 0 (pre ++ c :: post) (total pre) c := by simp
  have lc := H.low hatc
  have htc := H.tags _ _ hatc
  have hnext : h.nextBlock (ptr (total pre)) = ptr (total pre + c.size) := by rw [nextBlock_ptr (by omega), htc.size]
  cases post with
  | nil =>
    have hstop : ¬ (ptr (total pre + c.size) < h.heapEnd ∧ h.isFree (ptr (total pre + c.size)) = true) := by
      rintro ⟨hlt, -⟩
      rw [H.heapEnd] at hlt
      simp at hlt
    refine ⟨h, c, [], ?_, H, hc, le_rfl, fun y e => Iff.rfl, rfl, fun _ => merged_singleton⟩
    rw [mergeNext, hnext, if_neg hstop]
  | cons d post =>
    have hatd : At 0 (pre ++ c :: d :: post) (total pre + c.size) d := by simp
    have ld := H.low hatd
    have htd := H.tags _ _ hatd
    have hfree : h.isFree (ptr (total pre + c.size)) = d.free := by rw [isFree_ptr (by omega), htd.free]
    have hlt : ptr (total pre + c.size) < h.heapEnd := by
      have hs := H.small
      simp only [total_append, total_cons] at hs
      rw [H.heapEnd, ptr_lt (by omega) (by unfold LIMIT; simp only [total_append, total_cons]; omega)]
      simp only [total_append, total_cons]
      omega
    cases hd : d.free with
    | false =>
      have hnf : ¬ (c.free = true ∧ d.free = true) := fun hcd => Bool.false_ne_true (hd.symm.trans hcd.2)
      refine ⟨h, c, d :: post, ?_, H, hc, le_rfl, fun y e => Iff.rfl, rfl, fun hm => hm.cons_cons hnf⟩
      rw [mergeNext, hnext, if_neg (by rw [hfree, hd]; simp)]
    | true =>
      have hfs : frees 0 pre ++ frees (total pre + c.size) (d :: post) =
          frees 0 pre ++ (total pre + c.size) :: frees (total pre + c.size + d.size) post := by rw [frees_free hd]
      rw [hfs] at H
      have hx : total pre + c.size ∈ frees 0 pre ++ (total pre + c.size) :: frees (total pre + c.size + d.size) post :=
        List.mem_append_right _ (List.mem_cons_self ..)
      have hnot := List.nodup_middle.1 H.nodup
      rw [List.nodup_cons] at hnot
      obtain ⟨h1, hu, H1, hw1⟩ := unlink_spec H hx
      rw [List.erase_append_right _ fun hm => hnot.1 (List.mem_append_left _ hm), List.erase_cons_head] at H1
      have hsize : (h1.size (ptr (total pre + c.size))).toNat = d.size := by
        rw [size_ptr (by omega), hw1 _ (H.not_link hatd).1, htd.size]
      obtain ⟨H2, hw2⟩ := extend_spec H1 hc hsize hnot.1
      rw [Nat.add_assoc] at H2
      refine ⟨_, ⟨c.size + d.size, true⟩, post, ?_, H2, rfl, Nat.le_add_right _ _, fun y e => ?_, ?_,
        fun hm => hm.cons_congr hd.symm⟩
      · rw [mergeNext, hnext, if_pos ⟨hlt, by rw [hfree, hd]⟩, hu]
        rfl
      · exact used_merge hc hd
      · rw [hw2 _ (by omega) (by omega) (by omega), hw1 _ (H.not_link hatc).2]

/-- the block before, merged if it is free -/
theorem mergePrev_spec (H : Listed h (pre ++ c :: post) (frees 0 pre ++ frees (total pre + c.size) post))
    (hc : c.free = true) : ∃ h' pre' c', h.mergePrev (ptr (total pre)) = .ok (ptr (total pre'), h') ∧
      Listed h' (pre' ++ c' :: post) (frees 0 pre' ++ frees (total pre' + c'.size) post) ∧ c'.free = true ∧
        c.size ≤ c'.size ∧ (∀ y e, Used (pre' ++ c' :: post) y e ↔ Used (pre ++ c :: post) y e) ∧
          h'.words (total pre + 8) = h.words (total pre + 8) ∧
            (total pre' = total pre ∨ total pre' + 40 ≤ total pre) ∧
              (Merged pre → Merged (c :: post) → Merged (pre' ++ c' :: post)) := by
  have hatc : At 0 (pre ++ c :: post) (total pre) c := by simp
  have lc := H.low hatc
  rcases List.eq_nil_or_concat' pre with rfl | ⟨pre, b, rfl⟩
  · refine ⟨h, [], c, ?_, H, hc, le_rfl, fun y e => Iff.rfl, rfl, Or.inl rfl, fun _ hm => hm⟩
    rw [mergePrev, total_nil, prevBlock_zero, if_neg fun hh => hh.1 rfl]
  · simp only [total_append, total_cons, total_nil, Nat.add_zero, List.append_assoc, List.cons_append,
      List.nil_append] at H lc ⊢
    have hatc : At 0 (pre ++ b :: c :: post) (total pre + b.size) c := by simp
    have hatb : At 0 (pre ++ b :: c :: post) (total pre) b := by simp
    have lb := H.low hatb
    have htb := H.tags _ _ hatb
    have hprev : h.prevBlock (ptr (total pre + b.size)) = ptr (total pre) := by
      rw [prevBlock_ptr (by omega) (by omega) (by rw [htb.size']; omega), htb.size', Nat.add_sub_cancel]
    have hfree : h.isFree (ptr (total pre)) = b.free := by rw [isFree_ptr (by omega), htb.free]
    cases hb : b.free with
    | false =>
      have hm : Merged (pre ++ [b]) → Merged (c :: post) → Merged (pre ++ [b] ++ c :: post) := fun hp hp' => by
        rw [List.append_assoc, List.singleton_append]
        exact merged_mid.2 ⟨hp, hp'.cons_used hb⟩
      refine ⟨h, pre ++ [b], c, ?_, ?_, hc, le_rfl, fun y e => ?_, rfl, Or.inl ?_, hm⟩
      · rw [mergePrev, hprev, if_neg (by rw [hfree, hb]; simp)]
        simp
      · simpa using H
      · simp
      · simp
    | true =>
      have hfs : frees 0 (pre ++ [b]) = frees 0 pre ++ [total pre] := by
        rw [frees_append, frees_free hb, Nat.zero_add, frees_nil]
      rw [hfs, List.append_assoc, List.singleton_append] at H
      have hnot := List.nodup_middle.1 H.nodup
      rw [List.nodup_cons] at hnot
      obtain ⟨h1, hu, H1, hw1⟩ := unlink_spec H (List.mem_append_right _ (List.mem_cons_self ..))
      rw [List.erase_append_right _ fun hm => hnot.1 (List.mem_append_left _ hm), List.erase_cons_head] at H1
      have hsize : (h1.size (ptr (total pre + b.size))).toNat = c.size := by
        rw [size_ptr (by omega), hw1 _ (H.not_link hatc).1, (H.tags _ _ hatc).size]
      -- the second of the two is not on the list
      have hsecond : total pre + b.size ∉ frees 0 pre ++ frees (total pre + b.size + c.size) post := by
        intro hm
        rcases List.mem_append.1 hm with hm | hm
        · obtain ⟨e, he, -⟩ := mem_frees.1 hm
          have := he.bounds
          omega
        · obtain ⟨e, he, -⟩ := mem_frees.1 hm
          have := he.bounds
          omega
      obtain ⟨H2, hw2⟩ := extend_spec H1 hb hsize hsecond
      rw [Nat.add_assoc] at H2
      refine ⟨_, pre, ⟨b.size + c.size, true⟩, ?_, H2, rfl, Nat.le_add_left _ _, fun y e => ?_, ?_, Or.inr (by omega),
        fun hp hp' => merged_mid.2 ⟨hp.snoc_congr hb.symm, hp'.cons_congr hc.symm⟩⟩
      · rw [mergePrev, hprev, if_pos ⟨ptr_ne_zero (by omega), by rw [hfree, hb]⟩, hu]
        rfl
      · exact used_merge hb hc
      · rw [hw2 _ (by omega) (by omega) (by omega), hw1 _ (H.not_link hatc).2]

/-- **`coalesce`.** A free block that is not on the list yet is merged with its neighbours and put on the list. Its own
flag stays where it was: no tag, footer or link of the merged block lies there. -/
theorem coalesce_spec (H : Listed h (pre ++ c :: post) (frees 0 pre ++ frees (total pre + c.size) post))
    (hc : c.free = true) : ∃ h' cs' o' c', h.coalesce (ptr (total pre)) = .ok h' ∧ HeapInv h' cs' ∧
      h'.freeList = ptr o' ∧ At 0 cs' o' c' ∧ c.size ≤ c'.size ∧ c'.free = true ∧
        (∀ y e, Used cs' y e ↔ Used (pre ++ c :: post) y e) ∧ flag (h'.words (total pre + 8)) = true ∧
          (Merged pre → Merged post → Merged cs') := by
  have hflag : flag (h.words (total pre + 8)) = true := by rw [(H.tags _ _ (by simp : At 0 _ (total pre) c)).free, hc]
  obtain ⟨h1, c1, post1, hn, H1, hc1, hle1, hu1, hw1, hm1⟩ := mergeNext_spec H hc
  obtain ⟨h2, pre2, c2, hp, H2, hc2, hle2, hu2, hw2, hpos, hm2⟩ := mergePrev_spec H1 hc1
  have hat : At 0 (pre2 ++ c2 :: post1) (total pre2) c2 := by simp
  have hnot : total pre2 ∉ frees 0 pre2 ++ frees (total pre2 + c2.size) post1 := by
    intro hm
    have h40 := (H2.low hat).2
    rcases List.mem_append.1 hm with hm | hm
    · obtain ⟨e, he, -⟩ := mem_frees.1 hm
      have hb := he.bounds
      have he40 := (H2.sized.left e he.mem).1
      unfold MIN at he40
      omega
    · obtain ⟨e, he, -⟩ := mem_frees.1 hm
      have hb := he.bounds
      omega
  obtain ⟨H3, hlist, hf3, hw3⟩ := push_spec H2 hat hc2 hnot
  refine ⟨_, pre2 ++ c2 :: post1, total pre2, c2, ?_, ?_, hlist, hat, hle1.trans hle2, hc2,
    fun y e => (hu2 y e).trans (hu1 y e), ?_, fun hpre hpost => hm2 hpre (hm1 hpost)⟩
  · simp only [coalesce, hn, hp, bind, Except.bind, pure, Except.pure]
  · -- the list holds every free block
    have hperm : (total pre2 :: (frees 0 pre2 ++ frees (total pre2 + c2.size) post1)).Perm
        (frees 0 (pre2 ++ c2 :: post1)) := by
      rw [frees_append, frees_free hc2, Nat.zero_add]
      exact List.perm_middle.symm
    exact H3.perm hperm
  · rcases hpos with he | hlt
    · rw [← he]
      exact hf3
    · rw [hw3 _ (by omega) (by omega), hw2, hw1]
      exact hflag

end Steps

end Heap

end Retux
