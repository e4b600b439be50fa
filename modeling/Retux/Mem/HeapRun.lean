/-
Runs of the kernel heap, from `heap::init` on: allocations, frees of live pointers, stores of the owners, and the rest of
the kernel, which moves frames and page tables but stays out of the heap's memory.

`live` are the pointers that are out. A store is of one word, the bytes next to the ones written as they were.

- `reachable_tidy`: the blocks in use are the live pointers, at every time, and free blocks are apart;
- `heap_represented`: what that says of the bytes; with every pointer freed, one free block is left;
- `kmalloc_serves_iff`: a block is as large as the request unless size + 39 wraps;
- `grow_satisfies`: after a growth the search succeeds;
- `kfree_twice`: the second of two frees does nothing.
-/
import Mathlib.Tactic
import Retux.Lib.Run
import Retux.Mem.Kmalloc

namespace Retux.Heap

open Retux.Word Retux.Bytes Retux.Tags Retux.Run Retux.Vmm Retux.Pmm

/-! ## Runs -/

structure St where
  heap : Heap
  live : List U64

inductive Event where
  | kmalloc (size : U64)
  | kfree (p : U64)
  /-- word i behind p -/
  | store (p : U64) (i : ℕ) (x : U64)
  /-- the rest of the kernel -/
  | other (m : Machine)

/-- the bytes between header and footer of the block of p -/
def payload (h : Heap) (p : U64) : ℕ := (h.size (p - SIZEOF_BLOCK)).toNat - 32

def step (s : St) : Event → Option St
  | .kmalloc size =>
    match s.heap.kmalloc size with
    | .error _ => none
    | .ok (p, h) => some ⟨h, if p = 0 then s.live else p :: s.live⟩
  | .kfree p =>
    if p = 0 ∨ p ∈ s.live then
      match s.heap.kfree p with
      | .error _ => none
      | .ok h => some ⟨h, s.live.erase p⟩
    else none
  | .store p i x =>
    if p ∈ s.live ∧ 8 * i + 8 ≤ s.heap.payload p then
      some { s with heap := s.heap.write (p + BitVec.ofNat 64 (8 * i)) x }
    else none
  | .other m => some { s with heap := { s.heap with m := m } }

def Reachable (s : St) : Prop :=
  ∃ (mem : U64 → U64) (m : Machine) (h : Heap) (es : List Event), init mem m = .ok h ∧ es.foldlM step ⟨h, []⟩ = some s

theorem reachable_init {mem : U64 → U64} {m : Machine} {h : Heap} (hi : init mem m = .ok h) : Reachable ⟨h, []⟩ :=
  ⟨mem, m, h, [], hi, rfl⟩

/-- the live pointers are those of the blocks in use -/
structure Owned (cs : List Cell) (live : List U64) : Prop where
  nodup : live.Nodup
  mem : ∀ p, p ∈ live ↔ ∃ o c, Used cs o c ∧ p = ptr (o + 16)

/-- **The invariant.** -/
def Sound (s : St) : Prop := ∃ cs, HeapInv s.heap cs ∧ Owned cs s.live

/-- and what the merging adds: no two free blocks side by side -/
def Tidy (s : St) : Prop := ∃ cs, HeapInv s.heap cs ∧ Owned cs s.live ∧ Merged cs ∧ cs ≠ []

/-! ## Steps -/

section Steps

variable {h : Heap} {cs cs' : List Cell} {live : List U64} {c d : Cell} {o x : ℕ}

theorem Owned.took (O : Owned cs live) (hx : x + 16 < LIMIT) (hlow : ∀ {y e}, Used cs y e → y + 16 < LIMIT)
    (ht : Took cs cs' x d) (hnot : ∀ e, ¬ Used cs x e) : Owned cs' (ptr (x + 16) :: live) := by
  refine ⟨List.nodup_cons.2 ⟨fun hm => ?_, O.nodup⟩, fun p => ?_⟩
  · obtain ⟨o, c, hc, he⟩ := (O.mem _).1 hm
    have hox : x = o := by
      have := ptr_inj hx (hlow hc) he
      omega
    exact hnot c (hox ▸ hc)
  · rw [List.mem_cons, O.mem]
    constructor
    · rintro (rfl | ⟨o, c, hc, rfl⟩)
      · exact ⟨x, d, (ht x d).2 (Or.inr ⟨rfl, rfl⟩), rfl⟩
      · exact ⟨o, c, (ht o c).2 (Or.inl hc), rfl⟩
    · rintro ⟨o, c, hc, rfl⟩
      rcases (ht o c).1 hc with hc | ⟨rfl, -⟩
      · exact Or.inr ⟨o, c, hc, rfl⟩
      · exact Or.inl rfl

theorem Owned.gave (O : Owned cs live) (ho : o + 16 < LIMIT) (hlow : ∀ {y e}, Used cs y e → y + 16 < LIMIT)
    (hu : ∀ y e, Used cs' y e ↔ Used cs y e ∧ y ≠ o) : Owned cs' (live.erase (ptr (o + 16))) := by
  refine ⟨O.nodup.erase _, fun p => ?_⟩
  rw [O.nodup.mem_erase_iff, O.mem]
  constructor
  · rintro ⟨hne, y, e, he, rfl⟩
    exact ⟨y, e, (hu y e).2 ⟨he, fun hyo => hne (by rw [hyo])⟩, rfl⟩
  · rintro ⟨y, e, he, rfl⟩
    obtain ⟨he, hyo⟩ := (hu y e).1 he
    refine ⟨fun heq => hyo ?_, y, e, he, rfl⟩
    have := ptr_inj (hlow he) ho heq
    omega

theorem HeapInv.used_low (H : HeapInv h cs) {y : ℕ} {e : Cell} (he : Used cs y e) : y + 16 < LIMIT := by
  have := H.low he.1
  omega

/-- the owner's words are no tags and no links -/
theorem store_spec {a : ℕ} {v : U64} (H : HeapInv h cs) (hu : Used cs o c) (hlo : o + 16 ≤ a)
    (hhi : a + 16 < o + c.size) :
    HeapInv (h.write (ptr a) v) cs := by
  have lc := H.low hu.1
  have hw : ∀ b, b ≠ a → (h.write (ptr a) v).words b = h.words b := fun b hb => by
    rw [words_write (by omega), Function.update_of_ne hb]
  refine ⟨H.sized, fun y e he => ?_, H.heapEnd, H.small, H.nodup, H.starts, ?_⟩
  · have le := H.low he
    have ht := H.tags y e he
    rcases hu.1.apart he with ⟨rfl, rfl⟩ | hlt | hlt
    · refine ⟨?_, ?_, ?_, ?_⟩
      · rw [hw _ (by omega)]
        exact ht.size
      · rw [hw _ (by omega)]
        exact ht.free
      · rw [hw _ (by omega)]
        exact ht.size'
      · rw [hw _ (by omega)]
        exact ht.free'
    · exact ht.congr (H.sized e he.mem).1 fun b h1 h2 _ => hw b (by omega)
    · exact ht.congr (H.sized e he.mem).1 fun b h1 h2 _ => hw b (by omega)
  · obtain ⟨l, hperm, hl⟩ := H.list
    refine ⟨l, hperm, hl.congr fun y hy => hw _ ?_⟩
    obtain ⟨e, he, hef⟩ := mem_frees.1 (hperm.mem_iff.1 hy)
    have le := H.low he
    rcases hu.1.apart he with ⟨-, rfl⟩ | hlt | hlt
    · rw [hu.2] at hef
      cases hef
    · omega
    · omega

/-- the payload of a live pointer -/
theorem payload_ptr (H : HeapInv h cs) (hc : At 0 cs o c) : h.payload (ptr (o + 16)) = c.size - 32 := by
  have lc := H.low hc
  have hblock : ptr (o + 16) - SIZEOF_BLOCK = ptr o := by rw [← ptr_add_16, BitVec.add_sub_cancel]
  rw [payload, hblock, size_ptr (by omega), (H.tags o c hc).size]

/-- **Step.** -/
theorem step_tidy (s : St) (e : Event) (s' : St) (hs : Tidy s) (hstep : step s e = some s') : Tidy s' := by
  obtain ⟨cs, H, O, M, hne⟩ := hs
  cases e with
  | kmalloc size =>
    unfold step at hstep
    simp only at hstep
    split at hstep
    · cases hstep
    · next p h hk =>
      cases hstep
      by_cases h0 : size = 0
      · unfold kmalloc at hk
        rw [if_pos h0] at hk
        cases hk
        exact ⟨cs, H, O, M, hne⟩
      · obtain ⟨cs', x, d, rfl, H', hx, -, -, ht, hnot, hm⟩ := kmalloc_spec H h0 hk
        have hd : Used cs' x d := (ht x d).2 (Or.inr ⟨rfl, rfl⟩)
        refine ⟨cs', H', ?_, hm M, List.ne_nil_of_mem hd.1.mem⟩
        simp only
        rw [if_neg (ptr_ne_zero (by omega))]
        exact O.took (by omega) H.used_low ht hnot
  | kfree p =>
    unfold step at hstep
    simp only at hstep
    split_ifs at hstep with hp
    split at hstep
    · cases hstep
    · next h hk =>
      cases hstep
      by_cases h0 : p = 0
      · unfold kfree at hk
        rw [if_pos h0] at hk
        cases hk
        have hnot : p ∉ s.live := fun hm => by
          obtain ⟨o, c, hc, he⟩ := (O.mem _).1 hm
          exact ptr_ne_zero (H.used_low hc) (he.symm.trans h0)
        rw [List.erase_of_not_mem hnot]
        exact ⟨cs, H, O, M, hne⟩
      · obtain ⟨o, c, hc, rfl⟩ := (O.mem p).1 (hp.resolve_left h0)
        obtain ⟨h', cs', hk', H', hu, -, hm, hne'⟩ := kfree_spec H hc.1 hc.2
        rw [hk] at hk'
        cases hk'
        exact ⟨cs', H', O.gave (H.used_low hc) H.used_low hu, hm M, hne'⟩
  | store p i x =>
    unfold step at hstep
    simp only at hstep
    split_ifs at hstep with hp
    cases hstep
    obtain ⟨o, c, hc, rfl⟩ := (O.mem p).1 hp.1
    have hroom := hp.2
    rw [payload_ptr H hc.1] at hroom
    have lc := H.low hc.1
    have hi : (BitVec.ofNat 64 (8 * i)).toNat = 8 * i := by
      rw [BitVec.toNat_ofNat]
      unfold LIMIT at lc
      omega
    refine ⟨cs, ?_, O, M, hne⟩
    simp only
    rw [ptr_add, hi]
    exact store_spec H hc (by omega) (by omega)
  | other m =>
    cases hstep
    exact ⟨cs, ⟨H.sized, H.tags, H.heapEnd, H.small, H.nodup, H.starts, H.list⟩, O, M, hne⟩

/-- a heap with no blocks -/
theorem empty_inv (mem : U64 → U64) (m : Machine) : HeapInv ⟨mem, 0, HEAP_START, m⟩ [] :=
  ⟨sized_nil, tagged_nil, rfl, Nat.zero_le _, List.nodup_nil, fun _ ho => absurd ho List.not_mem_nil, [], List.Perm.nil, rfl⟩

theorem init_tidy {mem : U64 → U64} {m : Machine} (hi : init mem m = .ok h) : Tidy ⟨h, []⟩ := by
  obtain ⟨cs, o, c, H, -, hc, -, -, hu, hm⟩ := growHeap_spec (empty_inv mem m) (by decide) hi
  refine ⟨cs, H, ⟨List.nodup_nil, fun p => ⟨fun hp => absurd hp List.not_mem_nil, ?_⟩⟩, hm List.IsChain.nil,
    List.ne_nil_of_mem hc.mem⟩
  rintro ⟨o, c, hc, -⟩
  exact absurd ((hu o c).1 hc).1 at_nil

/-- **Run.** -/
theorem reachable_tidy {s : St} (hr : Reachable s) : Tidy s := by
  obtain ⟨mem, m, h, es, hi, hes⟩ := hr
  exact run_inv step_tidy (init_tidy hi) hes

theorem reachable_sound {s : St} (hr : Reachable s) : Sound s := by
  obtain ⟨cs, H, O, -⟩ := reachable_tidy hr
  exact ⟨cs, H, O⟩

end Steps

/-! ## A first heap -/

section First

variable {h h' : Heap} {cs : List Cell} {b b' more : U64}

/-- the frames and the end stay -/
def Keeps (h h' : Heap) : Prop := h'.m = h.m ∧ h'.heapEnd = h.heapEnd

theorem unlink_keeps (hu : h.unlink b = .ok h') : Keeps h h' := by
  unfold unlink at hu
  split at hu
  · cases hu
  · cases hu
    exact ⟨rfl, rfl⟩
  · cases hu
    unfold removeBlockFromFreeList
    split_ifs
    · exact ⟨rfl, rfl⟩
    · exact ⟨rfl, rfl⟩

/-- a step that did not halt, and the rest -/
theorem bind_ok {α β : Type} {x : Except Halt α} {f : α → Except Halt β} {r : β} (hr : x >>= f = .ok r) :
    ∃ a, x = .ok a ∧ f a = .ok r := by
  cases x with
  | error e => cases hr
  | ok a => exact ⟨a, rfl, hr⟩

theorem mergeNext_keeps (hm : h.mergeNext b = .ok h') : Keeps h h' := by
  unfold mergeNext at hm
  simp only at hm
  split_ifs at hm
  · obtain ⟨h1, hu, hrest⟩ := bind_ok hm
    have hk := unlink_keeps hu
    cases hrest
    exact ⟨hk.1, hk.2⟩
  · cases hm
    exact ⟨rfl, rfl⟩

theorem mergePrev_keeps (hm : h.mergePrev b = .ok (b', h')) : Keeps h h' := by
  unfold mergePrev at hm
  simp only at hm
  split_ifs at hm
  · obtain ⟨h1, hu, hrest⟩ := bind_ok hm
    have hk := unlink_keeps hu
    cases hrest
    exact ⟨hk.1, hk.2⟩
  · cases hm
    exact ⟨rfl, rfl⟩

theorem coalesce_keeps (hc : h.coalesce b = .ok h') : Keeps h h' := by
  obtain ⟨h1, hnext, hrest⟩ := bind_ok hc
  obtain ⟨⟨b2, h2⟩, hprev, hlast⟩ := bind_ok hrest
  have k1 := mergeNext_keeps hnext
  have k2 := mergePrev_keeps hprev
  cases hlast
  exact ⟨k2.1.trans k1.1, k2.2.trans k1.2⟩

theorem growHeap_keeps {pages : U64} {m : Machine}
    (hm : (List.range pages.toNat).foldlM (growPage h.heapEnd) h.m = some m) (hg : h.growHeap pages = .ok h') :
    h'.m = m ∧ h'.heapEnd = h.heapEnd + pages * PAGE_SIZE := by
  unfold growHeap at hg
  simp only at hg
  split_ifs at hg
  rw [hm] at hg
  exact coalesce_keeps hg

/-- **A first heap.** On the boot machine `heap::init` returns with a free block of a mebibyte. -/
theorem boot_heap : ∃ h cs o c, init (fun _ => 0) bootMachine = .ok h ∧ HeapInv h cs ∧ At 0 cs o c ∧ c.free = true ∧
    2 ^ 20 ≤ c.size ∧ total cs = 2 ^ 20 ∧ used h.m 0 = true ∧ 1000000 ≤ freeCount h.m.pmm := by
  have h256 : (256 : U64).toNat = 256 := rfl
  have hz : used bootMachine 0 = true := by rw [boot_used]; rfl
  have hfree := boot_free_frames
  unfold MAX_FRAMES at hfree
  generalize hh : (⟨fun _ => 0, 0, HEAP_START, bootMachine⟩ : Heap) = h0
  have H0 : HeapInv h0 [] := hh ▸ empty_inv (fun _ => 0) bootMachine
  have hend0 : h0.heapEnd = HEAP_START := by rw [← hh]
  have hm0 : h0.m = bootMachine := by rw [← hh]
  obtain ⟨m, hm, hcost, hz'⟩ := growPages_isSome HEAP_START (List.range 256) hz (by rw [List.length_range]; omega)
  rw [List.length_range] at hcost
  rw [← h256, ← hend0, ← hm0] at hm
  obtain ⟨h, cs, o, c, hg, H, -, hc, hf, hle, -⟩ := growHeap_mapped H0 (by rw [h256]; decide)
    (by rw [h256, total_nil]; decide) hm
  obtain ⟨hkm, hke⟩ := growHeap_keeps hm hg
  rw [h256] at hle
  have hend : ptr (total cs) = ptr (2 ^ 20) := by
    rw [← H.heapEnd, hke, hend0]
    decide
  have htotal : total cs = 2 ^ 20 := by
    have hs := H.small
    exact ptr_inj (by unfold LIMIT; omega) (by decide) hend
  refine ⟨h, cs, o, c, ?_, H, hc, hf, by omega, htotal, by rw [hkm]; exact hz', by rw [hkm]; omega⟩
  unfold init
  rw [hh]
  exact hg

/-- a free block large enough for the total is enough -/
theorem kmalloc_some (size : U64) (H : HeapInv h cs) (hs : size ≠ 0)
    (hex : ∃ o c, At 0 cs o c ∧ c.free = true ∧ (totalSize size).toNat ≤ c.size) :
    ∃ p h', h.kmalloc size = .ok (p, h') ∧ p ≠ 0 := by
  have hb := totalSize_bounds size
  obtain ⟨h1, -, x, -, hal, -, hx, -⟩ := allocateBlock_some H rfl hb.1 hb.2 hex
  refine ⟨ptr x + SIZEOF_BLOCK, h1, ?_, ?_⟩
  · unfold kmalloc
    rw [if_neg hs, hal]
    simp only [bind, Except.bind, ne_eq, ptr_ne_zero (show x < LIMIT by omega), not_false_eq_true, if_true, pure,
      Except.pure]
  · rw [ptr_add_16]
    exact ptr_ne_zero (by omega)

end First

/-! ## Results -/

section Results

variable {h : Heap} {cs : List Cell} {c : Cell} {o : ℕ} {p : U64}

/-- a block in use starts at a multiple of 8 -/
theorem HeapInv.aligned (H : HeapInv h cs) (hc : At 0 cs o c) : (ptr (o + 16)).toNat % 8 = 0 := by
  have lc := H.low hc
  obtain ⟨pre, post, rfl, ho⟩ := hc.split
  have hdvd := (H.sized.left).dvd
  rw [Nat.zero_add] at ho
  rw [ptr_toNat (by omega)]
  omega

/-- **Live pointers.** Their payloads do not overlap. -/
theorem live_disjoint {s : St} {q : U64} (hr : Reachable s) (hp : p ∈ s.live) (hq : q ∈ s.live) (hne : p ≠ q) :
    p.toNat + s.heap.payload p ≤ q.toNat ∨ q.toNat + s.heap.payload q ≤ p.toNat := by
  obtain ⟨cs, H, O⟩ := reachable_sound hr
  obtain ⟨o, c, hc, rfl⟩ := (O.mem p).1 hp
  obtain ⟨x, d, hd, rfl⟩ := (O.mem q).1 hq
  have lc := H.low hc.1
  have ld := H.low hd.1
  rw [payload_ptr H hc.1, payload_ptr H hd.1, ptr_toNat (by omega), ptr_toNat (by omega)]
  rcases hc.1.apart hd.1 with ⟨rfl, -⟩ | hlt | hlt
  · exact absurd rfl hne
  · omega
  · omega

/-- **A block serves its request** if and only if the size with its metadata, rounded up, fits 64 bits. -/
theorem kmalloc_serves_iff (s : St) (size p : U64) (h' : Heap) (hr : Reachable s) (hs : 0 < size.toNat)
    (hk : s.heap.kmalloc size = .ok (p, h')) :
    (p.toNat % 8 = 0 ∧ size.toNat ≤ h'.payload p) ↔ size.toNat ≤ 2 ^ 64 - 40 := by
  obtain ⟨cs, H, -⟩ := reachable_sound hr
  have h0 : size ≠ 0 := by
    rintro rfl
    exact absurd hs (by decide)
  obtain ⟨cs', x, d, rfl, H', hx, -, hle, ht, -⟩ := kmalloc_spec H h0 hk
  have hd := (ht x d).2 (Or.inr ⟨rfl, rfl⟩)
  have ld := H'.low hd.1
  rw [payload_ptr H' hd.1]
  constructor
  · rintro ⟨-, hpay⟩
    unfold LIMIT at ld
    omega
  · intro hfit
    have hcov := (totalSize_covers size).2 hfit
    exact ⟨H'.aligned hd.1, by omega⟩

theorem kmalloc_serves_sample : ∃ h p h', init (fun _ => 0) bootMachine = .ok h ∧ h.kmalloc 100 = .ok (p, h') ∧
    p.toNat % 8 = 0 ∧ 100 ≤ h'.payload p := by
  obtain ⟨h, cs, o, c, hi, H, hc, hf, hle, -⟩ := boot_heap
  have ht : (totalSize 100).toNat = 136 := by decide
  obtain ⟨p, h', hk, -⟩ := kmalloc_some 100 H (by decide) ⟨o, c, hc, hf, by omega⟩
  exact ⟨h, p, h', hi, hk, (kmalloc_serves_iff ⟨h, []⟩ 100 p h' (reachable_init hi) (by decide) hk).2 (by decide)⟩

/-- a request of 2^64 - 1 bytes gets a block of the heap -/
theorem kmalloc_wraps : ∃ h p h', Reachable ⟨h, []⟩ ∧ h.kmalloc 0xFFFFFFFFFFFFFFFF = .ok (p, h') ∧ p ≠ 0 ∧
    ¬ (p.toNat % 8 = 0 ∧ (0xFFFFFFFFFFFFFFFF : U64).toNat ≤ h'.payload p) := by
  obtain ⟨h, cs, o, c, hi, H, hc, hf, hle, -⟩ := boot_heap
  have ht : (totalSize 0xFFFFFFFFFFFFFFFF).toNat = 40 := by decide
  obtain ⟨p, h', hk, hp⟩ := kmalloc_some 0xFFFFFFFFFFFFFFFF H (by decide) ⟨o, c, hc, hf, by omega⟩
  refine ⟨h, p, h', reachable_init hi, hk, hp, fun hserve => ?_⟩
  obtain ⟨cs', x, d, rfl, H', hx, -, -, htook, -⟩ := kmalloc_spec H (by decide) hk
  have hd := (htook x d).2 (Or.inr ⟨rfl, rfl⟩)
  have ld := H'.low hd.1
  have hsize : (0xFFFFFFFFFFFFFFFF : U64).toNat = 2 ^ 64 - 1 := by decide
  rw [payload_ptr H' hd.1, hsize] at hserve
  unfold LIMIT at ld
  omega

/-- **Growing satisfies the request.** -/
theorem grow_satisfies (s : St) (size : U64) (hr : Reachable s) (h1 : 1 ≤ size.toNat)
    (h2 : size.toNat ≤ 2 ^ 64 - 2 ^ 13) :
    (∀ h h', s.heap.allocateBlock size = .ok (0, h) → h.growHeap (pagesFor size) = .ok h' →
      ∃ p h3, h'.allocateBlock size = .ok (p, h3) ∧ p ≠ 0) ∧ s.heap.kmalloc size ≠ .error .afterGrowing := by
  obtain ⟨cs, H, -⟩ := reachable_sound hr
  have h0 : size ≠ 0 := by
    rintro rfl
    exact absurd h1 (by decide)
  have hgrown : ∀ h h', s.heap.allocateBlock size = .ok (0, h) → h.growHeap (pagesFor size) = .ok h' →
      ∃ p h3, h'.allocateBlock size = .ok (p, h3) ∧ p ≠ 0 := by
    intro h h' ha hg
    rcases allocateBlock_spec H size with hn | ⟨h1, -, x, -, hal, -, hx, -⟩
    · rw [hn] at ha
      cases ha
      exact allocateBlock_grown H h2 hg
    · rw [hal] at ha
      have hz : ptr x = 0 := by
        injection ha with ha
        exact congrArg Prod.fst ha
      exact absurd hz (ptr_ne_zero (by omega))
  refine ⟨hgrown, fun hk => ?_⟩
  unfold kmalloc at hk
  rw [if_neg h0] at hk
  rcases allocateBlock_spec H size with hn | ⟨h1, -, x, -, hal, -, hx, -⟩
  · simp only [hn, bind, Except.bind, ne_eq, not_true_eq_false, if_false] at hk
    rcases growHeap_cases H (pagesFor_pos size) with he | he | ⟨h2, -, -, -, hg, -⟩
    · rw [he] at hk
      cases hk
    · rw [he] at hk
      cases hk
    · obtain ⟨p, h3, hal, hp⟩ := hgrown _ _ hn hg
      simp only [hg, hal, if_neg hp, pure, Except.pure] at hk
      cases hk
  · simp only [hal, bind, Except.bind, ne_eq, ptr_ne_zero (show x < LIMIT by omega), not_false_eq_true, if_true, pure,
      Except.pure] at hk
    cases hk

/-- two mebibytes: the first search fails, and the growth makes room -/
theorem grow_satisfies_sample : ∃ h h' p h3, init (fun _ => 0) bootMachine = .ok h ∧
    h.allocateBlock 0x200000 = .ok (0, h) ∧ h.growHeap (pagesFor 0x200000) = .ok h' ∧
      h'.allocateBlock 0x200000 = .ok (p, h3) ∧ p ≠ 0 := by
  obtain ⟨h, cs, o, c, hi, H, -, -, -, htotal, hz, hfree⟩ := boot_heap
  have ht : (totalSize 0x200000).toNat = 0x200020 := by decide
  have hp : (pagesFor 0x200000).toNat = 513 := by decide
  have hnone : h.allocateBlock 0x200000 = .ok (0, h) := by
    refine allocateBlock_none H ?_
    rintro ⟨y, e, he, -, hle⟩
    have hb := he.bounds
    omega
  obtain ⟨m, hm, -⟩ := growPages_isSome h.heapEnd (List.range 513) hz (by rw [List.length_range]; omega)
  rw [← hp] at hm
  obtain ⟨h', -, -, -, hg, -⟩ := growHeap_mapped H (by rw [hp]; decide) (by rw [hp, htotal]; decide) hm
  obtain ⟨p, h3, hal, hne⟩ := (grow_satisfies ⟨h, []⟩ 0x200000 (reachable_init hi) (by decide) (by decide)).1 h h' hnone hg
  exact ⟨h, h', p, h3, hi, hnone, hg, hal, hne⟩

/-- **The second free is a no-op**: it reads the flag that the first one left. -/
theorem kfree_twice (s : St) (p : U64) (hr : Reachable s) (hp : p ∈ s.live) :
    ∃ h, s.heap.kfree p = .ok h ∧ h.kfree p = .ok h := by
  obtain ⟨cs, H, O⟩ := reachable_sound hr
  obtain ⟨o, c, hc, rfl⟩ := (O.mem p).1 hp
  have lc := H.low hc.1
  obtain ⟨h, cs', hk, H', -, hflag, -⟩ := kfree_spec H hc.1 hc.2
  have hblock : ptr (o + 16) - SIZEOF_BLOCK = ptr o := by rw [← ptr_add_16, BitVec.add_sub_cancel]
  have hfree : h.isFree (ptr o) = true := by rw [isFree_ptr (by omega), hflag]
  refine ⟨h, hk, ?_⟩
  unfold kfree
  rw [if_neg (ptr_ne_zero (by omega)), hblock]
  simp only
  rw [if_pos hfree]

/-- the bytes of tags, and of the links of free blocks -/
def Meta (cs : List Cell) (a : ℕ) : Prop := ∃ o c, At 0 cs o c ∧
  ((o ≤ a ∧ a < o + 16) ∨ (o + c.size - 16 ≤ a ∧ a < o + c.size) ∨ (c.free = true ∧ o + 16 ≤ a ∧ a < o + 24))

/-- byte a of the heap is between header and footer of the block of p -/
def InPayload (h : Heap) (p : U64) (a : ℕ) : Prop := p.toNat ≤ (ptr a).toNat ∧ (ptr a).toNat < p.toNat + h.payload p

/-- the blocks cs represent the heap -/
structure Represented (s : St) (cs : List Cell) : Prop where
  /-- they fill it, their tags agree, and the free ones are the list -/
  tiles : HeapInv s.heap cs
  merged : Merged cs
  owned : Owned cs s.live
  disjoint : ∀ p ∈ s.live, ∀ q ∈ s.live, p ≠ q → ∀ a < total cs, ¬ (InPayload s.heap p a ∧ InPayload s.heap q a)
  clear : ∀ p ∈ s.live, ∀ a < total cs, InPayload s.heap p a → ¬ Meta cs a
  single : s.live = [] → ∃ c, cs = [c] ∧ c.free = true
  /-- whatever the order in which the pointers are freed -/
  drained : ∀ l : List U64, l.Perm s.live →
    ∃ h c, (l.map Event.kfree).foldlM step s = some ⟨h, []⟩ ∧ HeapInv h [c] ∧ c.free = true

theorem inPayload_iff {a : ℕ} (H : HeapInv h cs) (hc : At 0 cs o c) (ha : a < total cs) :
    InPayload h (ptr (o + 16)) a ↔ o + 16 ≤ a ∧ a + 16 < o + c.size := by
  have lc := H.low hc
  have hs := H.small
  rw [InPayload, payload_ptr H hc, ptr_toNat (by omega), ptr_toNat (by unfold LIMIT; omega)]
  omega

/-- the payload of an allocated block is clear of all other bytes in use -/
theorem payload_clear {a x : ℕ} {d : Cell} (hc : Used cs o c) (hd : At 0 cs x d) (ha : o + 16 ≤ a)
    (ha' : a + 16 < o + c.size) (hx : x ≤ a) (hx' : a < x + d.size) : x = o ∧ d = c := by
  rcases hc.1.apart hd with ⟨rfl, rfl⟩ | hlt | hlt
  · exact ⟨rfl, rfl⟩
  · omega
  · omega

/-- with no pointer out, one free block is the heap -/
theorem Owned.single (O : Owned cs []) (M : Merged cs) (hne : cs ≠ []) : ∃ c, cs = [c] ∧ c.free = true := by
  have hfree : ∀ o c, At 0 cs o c → c.free = true := by
    intro o c hc
    by_contra hf
    have hm : ptr (o + 16) ∈ ([] : List U64) := (O.mem _).2 ⟨o, c, ⟨hc, Bool.eq_false_iff.2 hf⟩, rfl⟩
    exact absurd hm List.not_mem_nil
  rcases cs with - | ⟨c, - | ⟨d, cs⟩⟩
  · exact absurd rfl hne
  · exact ⟨c, rfl, hfree 0 c (Or.inl ⟨rfl, rfl⟩)⟩
  · have hc := hfree 0 c (Or.inl ⟨rfl, rfl⟩)
    have hd := hfree _ d (Or.inr (Or.inl ⟨rfl, rfl⟩))
    exact absurd ⟨hc, hd⟩ (List.isChain_cons_cons.1 M).1

/-- a live pointer can be freed -/
theorem step_kfree {s : St} (ht : Tidy s) (hp : p ∈ s.live) : ∃ h, step s (.kfree p) = some ⟨h, s.live.erase p⟩ := by
  obtain ⟨cs, H, O, -⟩ := ht
  obtain ⟨o, c, hc, rfl⟩ := (O.mem p).1 hp
  obtain ⟨h, -, hk, -⟩ := kfree_spec H hc.1 hc.2
  refine ⟨h, ?_⟩
  unfold step
  simp only
  rw [if_pos (Or.inr hp), hk]

theorem drain {s : St} {l : List U64} (ht : Tidy s) (hl : l.Perm s.live) :
    ∃ h, (l.map Event.kfree).foldlM step s = some ⟨h, []⟩ ∧ Tidy ⟨h, []⟩ := by
  induction l generalizing s with
  | nil =>
    obtain ⟨h, live⟩ := s
    obtain rfl : live = [] := hl.symm.eq_nil
    exact ⟨h, rfl, ht⟩
  | cons p l ih =>
    have hp : p ∈ s.live := hl.subset (List.mem_cons_self ..)
    obtain ⟨h1, h2⟩ := step_kfree ht hp
    obtain ⟨h, hrun, ht'⟩ := ih (step_tidy _ _ _ ht h2) (List.cons_perm_iff_perm_erase.1 hl).2
    refine ⟨h, ?_, ht'⟩
    rw [List.map_cons, List.foldlM_cons, h2]
    exact hrun

/-- **The representation.** In every reachable state. -/
theorem heap_represented (s : St) (hr : Reachable s) : ∃ cs, Represented s cs := by
  have ht := reachable_tidy hr
  obtain ⟨cs, H, O, M, hcs⟩ := id ht
  refine ⟨cs, H, M, O, fun p hp q hq hne a ha => ?_, fun p hp a ha hin => ?_, fun hl => ?_, fun l hl => ?_⟩
  · rintro ⟨hin, hin'⟩
    obtain ⟨o, c, hc, rfl⟩ := (O.mem p).1 hp
    obtain ⟨x, d, hd, rfl⟩ := (O.mem q).1 hq
    rw [inPayload_iff H hc.1 ha] at hin
    rw [inPayload_iff H hd.1 ha] at hin'
    exact hne (by rw [(payload_clear hc hd.1 hin.1 hin.2 (by omega) (by omega)).1])
  · obtain ⟨o, c, hc, rfl⟩ := (O.mem p).1 hp
    rw [inPayload_iff H hc.1 ha] at hin
    rintro ⟨x, d, hd, hmeta⟩
    have ld := (H.low hd).2
    obtain ⟨rfl, rfl⟩ := payload_clear hc hd hin.1 hin.2 (by omega) (by omega)
    rcases hmeta with hm | hm | ⟨hf, -⟩
    · omega
    · omega
    · rw [hc.2] at hf
      cases hf
  · exact (hl ▸ O).single M hcs
  · obtain ⟨h, hrun, cs', H', O', M', hcs'⟩ := drain ht hl
    obtain ⟨c, rfl, hf⟩ := O'.single M' hcs'
    exact ⟨h, c, hrun, H', hf⟩

/-- one pointer out of the first heap -/
theorem first_live : ∃ h p h1, init (fun _ => 0) bootMachine = .ok h ∧ h.kmalloc 100 = .ok (p, h1) ∧
    Reachable ⟨h1, [p]⟩ := by
  obtain ⟨h, cs, o, c, hi, H, hc, hf, hle, -⟩ := boot_heap
  have ht : (totalSize 100).toNat = 136 := by decide
  obtain ⟨p, h1, hk, hp⟩ := kmalloc_some 100 H (by decide) ⟨o, c, hc, hf, by omega⟩
  have hstep : step ⟨h, []⟩ (.kmalloc 100) = some ⟨h1, [p]⟩ := by
    unfold step
    simp only
    rw [hk]
    simp only [if_neg hp]
  exact ⟨h, p, h1, hi, hk, _, _, h, [.kmalloc 100], hi, run_one hstep⟩

theorem heap_represented_sample : ∃ h p h1 cs, init (fun _ => 0) bootMachine = .ok h ∧ h.kmalloc 100 = .ok (p, h1) ∧
    Represented ⟨h1, [p]⟩ cs := by
  obtain ⟨h, p, h1, hi, hk, hr⟩ := first_live
  obtain ⟨cs, hcs⟩ := heap_represented ⟨h1, [p]⟩ hr
  exact ⟨h, p, h1, cs, hi, hk, hcs⟩

theorem kfree_twice_sample : ∃ h p h1 h2, init (fun _ => 0) bootMachine = .ok h ∧ h.kmalloc 100 = .ok (p, h1) ∧
    h1.kfree p = .ok h2 ∧ h2.kfree p = .ok h2 := by
  obtain ⟨h, p, h1, hi, hk, hr⟩ := first_live
  obtain ⟨h2, hf1, hf2⟩ := kfree_twice ⟨h1, [p]⟩ p hr (List.mem_cons_self ..)
  exact ⟨h, p, h1, h2, hi, hk, hf1, hf2⟩

end Results

end Retux.Heap
