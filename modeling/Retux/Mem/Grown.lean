/-
Histories with a heap: boot and `heap::init`, then the heap's own calls between the operations on address spaces, under
whichever CR3 is loaded.

`Built` stops where the heap grows; here both go on. What an operation leaves alone is said of address spaces (`Unseen`):
their translations outside the heap's slot, and what their pages hold. What it takes from the allocator is said of the
frames in use outside some of the spaces (`Outside`).

- `Ready.grow`, `Ready.bounce`, `Ready.create`, `Ready.put`, `Ready.destroy`: one operation;
- `Ready.puts`: a loop that maps fresh pages; it leaks nothing if the pages are distinct and were not mapped;
- `Grown.ready`: every history has a layout, and a zone for the heap's tables.
-/
import Mathlib.Tactic
import Retux.Mem.Growth
import Retux.Mem.HeapRun

namespace Retux.Heap

open Retux.Word Retux.Vmm Retux.Pmm Retux.Tags

/-! ## What the heap's calls do to frames and tables -/

variable {h h' : Heap} {cs : List Cell} {b p size pages : U64} {s s' : St} {e : Event}

theorem splitBlock_keeps (h : Heap) (curr total : U64) : Keeps h (h.splitBlock curr total) := by
  unfold splitBlock
  simp only
  split_ifs
  · exact ⟨rfl, rfl⟩
  · exact ⟨rfl, rfl⟩

theorem allocateBlock_keeps (ha : h.allocateBlock size = .ok (b, h')) : Keeps h h' := by
  unfold allocateBlock at ha
  simp only at ha
  split at ha
  · cases ha
  · cases ha
    exact ⟨rfl, rfl⟩
  · next prev curr _ =>
    cases ha
    have hr : Keeps h (h.removeBlockFromFreeList b prev) := by
      unfold removeBlockFromFreeList
      split_ifs
      · exact ⟨rfl, rfl⟩
      · exact ⟨rfl, rfl⟩
    have hs := splitBlock_keeps (h.removeBlockFromFreeList b prev) b (totalSize size)
    exact ⟨hs.1.trans hr.1, hs.2.trans hr.2⟩

theorem kfree_keeps (hk : h.kfree p = .ok h') : Keeps h h' := by
  unfold kfree at hk
  simp only at hk
  split_ifs at hk
  · cases hk
    exact ⟨rfl, rfl⟩
  · cases hk
    exact ⟨rfl, rfl⟩
  · have hc := coalesce_keeps hk
    exact ⟨hc.1, hc.2⟩

/-- the pages of a growth, all in the heap's slot -/
def Pages (virt : U64) (m m' : Machine) : Prop :=
  ∃ l : List ℕ, (∀ j ∈ l, tableIdx (virt + BitVec.ofNat 64 j * 4096) 39 = HEAP_PML4_IDX) ∧
    l.foldlM (growPage virt) m = some m'

theorem Pages.refl (virt : U64) (m : Machine) : Pages virt m m := ⟨[], fun _ hj => absurd hj List.not_mem_nil, rfl⟩

theorem growHeap_fold (hg : h.growHeap pages = .ok h') :
    (List.range pages.toNat).foldlM (growPage h.heapEnd) h.m = some h'.m := by
  cases hm : (List.range pages.toNat).foldlM (growPage h.heapEnd) h.m with
  | none =>
    unfold growHeap at hg
    simp only at hg
    rw [hm] at hg
    split_ifs at hg
  | some m => rw [(growHeap_keeps hm hg).1]

theorem growHeap_pages (hlo : HEAP_START.toNat ≤ h.heapEnd.toNat) (hhi : h.heapEnd.toNat ≤ HEAP_MAX.toNat)
    (hg : h.growHeap pages = .ok h') : Pages h.heapEnd h.m h'.m := by
  have hm := growHeap_fold hg
  have hcount := growPages_freeCount hm
  have hle := freeCount_le h.m.pmm
  rw [List.length_range] at hcount
  exact ⟨_, fun j hj => heap_page hlo hhi (show pages.toNat ≤ MAX_FRAMES by omega) (List.mem_range.1 hj), hm⟩

/-- the pages of `heap::init` -/
theorem init_pages {mem : U64 → U64} {m : Machine} (hi : init mem m = .ok h) :
    (List.range 256).foldlM (growPage HEAP_START) m = some h.m := by
  have hm := growHeap_fold hi
  rwa [show (256 : U64).toNat = 256 from rfl] at hm

theorem HeapInv.bounds (H : HeapInv h cs) :
    HEAP_START.toNat ≤ h.heapEnd.toNat ∧ h.heapEnd.toNat ≤ HEAP_MAX.toNat := by
  have hs := H.small
  have h1 : HEAP_START.toNat = 0xFFFF800000000000 := by decide
  have h2 : HEAP_MAX.toNat = 0xFFFF8000FFFFFFFF := by decide
  rw [H.heapEnd, ptr_toNat (lt_of_le_of_lt hs (by decide))]
  omega

theorem kmalloc_pages (H : HeapInv h cs) (hk : h.kmalloc size = .ok (p, h')) : Pages h.heapEnd h.m h'.m := by
  unfold kmalloc at hk
  split_ifs at hk
  · cases hk
    exact Pages.refl _ _
  obtain ⟨⟨b, h1⟩, ha, hrest⟩ := bind_ok hk
  have k1 := allocateBlock_keeps ha
  simp only at hrest
  split_ifs at hrest
  · cases hrest
    rw [k1.1]
    exact Pages.refl _ _
  -- no block is large enough
  obtain ⟨h2, hg, hlast⟩ := bind_ok hrest
  obtain ⟨⟨b', h3⟩, ha', hend⟩ := bind_ok hlast
  have k3 := allocateBlock_keeps ha'
  have hb := H.bounds
  rw [← k1.2] at hb
  have hp := growHeap_pages hb.1 hb.2 hg
  rw [k1.1, k1.2] at hp
  simp only at hend
  split_ifs at hend
  cases hend
  rw [k3.1]
  exact hp

/-- a small block, from a heap that can grow -/
theorem kmalloc_room (H : HeapInv h cs) (hs : size ≠ 0) (hsmall : size.toNat ≤ 2 ^ 16) (hz : used h.m 0 = true)
    (hf : 100 ≤ freeCount h.m.pmm) (hend : h.heapEnd.toNat + 2 ^ 17 ≤ HEAP_MAX.toNat) :
    ∃ p h', h.kmalloc size = .ok (p, h') ∧ freeCount h.m.pmm ≤ freeCount h'.m.pmm + 100 ∧
      h'.heapEnd.toNat ≤ h.heapEnd.toNat + 2 ^ 17 := by
  have hpages : (pagesFor size).toNat ≤ 18 := by
    have hsum : size + SIZEOF_BLOCK + SIZEOF_BLOCK + PAGE_SIZE - 1 = size + 4127#64 := by
      unfold SIZEOF_BLOCK PAGE_SIZE
      bv_omega
    unfold pagesFor
    simp only [hsum]
    split_ifs
    · rw [BitVec.toNat_udiv, BitVec.toNat_add, show PAGE_SIZE.toNat = 4096 from rfl,
        show (4127#64).toNat = 4127 from rfl]
      omega
    · decide
  have hpos := pagesFor_pos size
  have hstep : ∀ {b h1}, b ≠ 0 → h.allocateBlock size = .ok (b, h1) → h.kmalloc size = .ok (b + SIZEOF_BLOCK, h1) := by
    intro b h1 hb ha
    unfold kmalloc
    rw [if_neg hs, ha]
    simp only [bind, Except.bind, ne_eq, hb, not_false_eq_true, if_true, pure, Except.pure]
  rcases allocateBlock_spec H size with ha | ⟨h1, -, x, -, ha, -, hx, -⟩
  · obtain ⟨m, hm, hcost, -⟩ := growPages_isSome h.heapEnd (List.range (pagesFor size).toNat) hz
      (by rw [List.length_range]; omega)
    rw [List.length_range] at hcost
    have htotal : total cs + (pagesFor size).toNat * 4096 ≤ 0xFFFFFFFF := by
      have h1 : HEAP_MAX.toNat = 0xFFFF8000FFFFFFFF := by decide
      have h2 := H.small
      have h3 := congrArg BitVec.toNat H.heapEnd
      rw [ptr_toNat (lt_of_le_of_lt h2 (by decide))] at h3
      omega
    obtain ⟨h2, -, -, -, hg, -⟩ := growHeap_mapped H hpos htotal hm
    obtain ⟨b, h3, ha3, hb⟩ := allocateBlock_grown H (by omega) hg
    have hk := growHeap_keeps hm hg
    have hk3 := allocateBlock_keeps ha3
    refine ⟨b + SIZEOF_BLOCK, h3, ?_, ?_, ?_⟩
    · unfold kmalloc
      rw [if_neg hs, ha]
      simp only [bind, Except.bind, ne_eq, not_true_eq_false, if_false, hg, ha3, hb, pure, Except.pure]
    · rw [hk3.1, hk.1]
      omega
    · have hmul : (pagesFor size * PAGE_SIZE).toNat = (pagesFor size).toNat * 4096 := by
        rw [BitVec.toNat_mul, show PAGE_SIZE.toNat = 4096 from rfl]
        omega
      rw [hk3.2, hk.2, BitVec.toNat_add, hmul]
      omega
  · have hk := allocateBlock_keeps ha
    refine ⟨_, h1, hstep (ptr_ne_zero (by omega)) ha, ?_, ?_⟩
    · rw [hk.1]
      omega
    · rw [hk.2]
      omega

theorem step_kfree_keeps (hs : step s (.kfree p) = some s') : s'.heap.m = s.heap.m := by
  unfold step at hs
  simp only at hs
  split_ifs at hs
  split at hs
  · cases hs
  · next h hk =>
    cases hs
    exact (kfree_keeps hk).1

theorem step_store_keeps {i : ℕ} {x : U64} (hs : step s (.store p i x) = some s') : s'.heap.m = s.heap.m := by
  unfold step at hs
  simp only at hs
  split_ifs at hs
  cases hs
  rfl

/-- **A step of the heap** leaves the machine alone, or grows the heap. -/
theorem step_pages (ht : Tidy s) (he : ∀ m, e ≠ .other m) (hs : step s e = some s') :
    Pages s.heap.heapEnd s.heap.m s'.heap.m := by
  obtain ⟨cs, H, -⟩ := ht
  cases e with
  | kmalloc size =>
    unfold step at hs
    simp only at hs
    split at hs
    · cases hs
    · next p h hk =>
      cases hs
      exact kmalloc_pages H hk
  | kfree p =>
    rw [step_kfree_keeps hs]
    exact Pages.refl _ _
  | store p i x =>
    rw [step_store_keeps hs]
    exact Pages.refl _ _
  | other m => exact absurd rfl (he m)

end Retux.Heap

namespace Retux.Vmm

open Retux.Word Retux.Pmm

/-! ## What stays -/

/-- the spaces rs have not changed: translations apart from the heap's slot, frames, and contents of pages -/
structure Unseen (rs : List ℕ) (m m' : Machine) : Prop where
  owned : ∀ r ∈ rs, ∀ f, Owned m' r f ↔ Owned m r f
  translate : ∀ r ∈ rs, ∀ v, tableIdx v 39 ≠ HEAP_PML4_IDX → translate m'.mem r v = translate m.mem r v
  data : ∀ r ∈ rs, ∀ v x, isPrivate v = true → Vmm.translate m.mem r v = some x →
    m'.mem (frameOf x.1) = m.mem (frameOf x.1)

/-- frames in use that are in none of the spaces os -/
def Outside (m : Machine) (os : List ℕ) (f : ℕ) : Prop := used m f = true ∧ ∀ r ∈ os, ¬ Owned m r f

/-- a layout and a zone for the spaces rs, of which one is loaded, or the kernel's own tables -/
def Ready (rs : List ℕ) (m : Machine) : Prop :=
  ∃ K H hz L X, History L m rs X ∧ HeapZone K H hz L m ∧ (getPml4 m = K ∨ getPml4 m ∈ rs)

section Unseen

variable {m m' m'' : Machine} {rs os : List ℕ} {X : Set ℕ} {L L' : Layout} {r : ℕ} {v : U64}

theorem private_slot (hv : isPrivate v = true) : tableIdx v 39 ≠ HEAP_PML4_IDX := by
  intro h
  unfold isPrivate at hv
  rw [h, if_neg (by decide)] at hv
  simp at hv

/-- the bitmap and the registers do not matter -/
theorem Unseen.of_mem (rs : List ℕ) (h : m'.mem = m.mem) : Unseen rs m m' := by
  refine ⟨fun _ _ _ => ?_, fun _ _ _ _ => ?_, fun _ _ _ _ _ _ => ?_⟩
  · unfold Owned
    rw [h]
  · rw [h]
  · rw [h]

theorem Unseen.trans (h : Unseen rs m m') (h' : Unseen rs m' m'') : Unseen rs m m'' := by
  refine ⟨fun r hr f => (h'.owned r hr f).trans (h.owned r hr f),
    fun r hr v hv => (h'.translate r hr v hv).trans (h.translate r hr v hv), fun r hr v x hv hx => ?_⟩
  have hx' := (h.translate r hr v (private_slot hv)).trans hx
  exact (h'.data r hr v x hv hx').trans (h.data r hr v x hv hx)

theorem Unseen.mono (h : Unseen rs m m') (hos : ∀ r ∈ os, r ∈ rs) : Unseen os m m' :=
  ⟨fun r hr => h.owned r (hos r hr), fun r hr => h.translate r (hos r hr), fun r hr => h.data r (hos r hr)⟩

/-- a page's frame, in the layout -/
theorem History.page (h : History L m rs X) (hr : r ∈ rs) (hv : isPrivate v = true) {x : U64 × U64}
    (hx : translate m.mem r v = some x) : L.own (frameOf x.1) = some (r, pathOf v) := by
  obtain ⟨e, hl, rfl⟩ := (translate_eq_some_iff h.inv ((h.roots r).1 hr) hv).1 hx
  rw [frameOf_leaf h.inv hl]
  exact hl.own h.inv

theorem History.outside (h : History L m rs X) (hos : ∀ r ∈ os, r ∈ rs) (f : ℕ) :
    Outside m os f ↔ used m f = true ∧ ∀ r ∈ os, ∀ p, L.own f ≠ some (r, p) := by
  refine and_congr_right fun _ => forall_congr' fun r => forall_congr' fun hr => ?_
  rw [owned_iff h.inv ((h.roots r).1 (hos r hr)), not_exists]

theorem outside_one (f : ℕ) : Outside m [r] f ↔ Rest m r f := by
  simp [Outside, Rest]

/-- ownership in other spaces -/
theorem Keeps.other_iff (k : Keeps r L m L' m') (h : Inv L m) (h' : Inv L' m') {r' f : ℕ} (hr : L.own r' = some (r', []))
    (hne : r' ≠ r) {p : List Idx} : L'.own f = some (r', p) ↔ L.own f = some (r', p) := by
  refine ⟨fun hf => ?_, fun hf => k.other hf hne⟩
  induction p generalizing f with
  | nil =>
    rw [h'.tree.root hf]
    exact hr
  | cons i p ih =>
    obtain ⟨t, ht, hc⟩ := h'.tree.up hf
    have ht0 := ih ht
    have hmem : m'.mem t i = m.mem t i := k.mem (Or.inr ⟨r', p, ht0, fun hh => absurd hh hne⟩)
    rw [hmem] at hc
    exact h.tree.down ht0 (h'.tree.priv hf) hc

/-- frames by their labels, when the labels of r's frames stay -/
theorem owned_congr (h : Inv L m) (h' : Inv L' m') {f : ℕ} (hr : L.own r = some (r, []))
    (ho : ∀ f p, L'.own f = some (r, p) ↔ L.own f = some (r, p)) : Owned m' r f ↔ Owned m r f := by
  rw [owned_iff h' ((ho r []).2 hr), owned_iff h hr]
  exact exists_congr fun p => ho f p

/-- an operation on r, seen from other spaces -/
theorem Keeps.unseen (k : Keeps r L m L' m') (h : History L m rs X) (h' : Inv L' m') (hos : ∀ r' ∈ os, r' ∈ rs)
    (hr : r ∉ os) : Unseen os m m' := by
  have hne : ∀ r' ∈ os, r' ≠ r := by
    rintro r' hr' rfl
    exact hr hr'
  refine ⟨fun r' hr' f => owned_congr h.inv h' ((h.roots r').1 (hos r' hr'))
      fun f p => k.other_iff h.inv h' ((h.roots r').1 (hos r' hr')) (hne r' hr'),
    fun r' hr' v _ => keeps_other h.inv k ((h.roots r').1 (hos r' hr')) (hne r' hr'), fun r' hr' v x hv hx => ?_⟩
  funext i
  exact k.mem (Or.inr ⟨r', _, h.page (hos r' hr') hv hx, fun hh => absurd hh (hne r' hr')⟩)

/-- frames in use stay as they are -/
theorem Stage.unseen (s : Stage m m') (h : History L m rs X) : Unseen rs m m' := by
  refine ⟨fun r hr f => owned_congr h.inv (s.inv h.inv) ((h.roots r).1 hr) fun _ _ => Iff.rfl, fun r hr v _ => ?_,
    fun r hr v x hv hx => s.mem (h.inv.own_used (h.page hr hv hx)).1⟩
  have hroot := (h.roots r).1 hr
  have hrow : ∀ {f p}, L.own f = some (r, p) → m'.mem f = m.mem f := fun hf => s.mem (h.inv.own_used hf).1
  exact translate_walk h.inv hroot (fun f k hf => s.mem (h.inv.kern.used hf).1) (Same.of_eq (by rw [hrow hroot]))
    (fun t ht => Same.of_eq (by rw [hrow ht])) (fun t ht => ⟨Same.of_eq (by rw [hrow ht]), fun _ => by rw [hrow ht]⟩)
    fun t ht => by rw [hrow ht]

end Unseen

/-! ## One operation -/

section Steps

variable {m m1 m' : Machine} {rs os : List ℕ} {X X' : Set ℕ} {L L' : Layout} {r K H : ℕ} {hz : ℕ → Option ℕ}
  {v fl a virt : U64}

/-- **Growing**, under the loaded CR3. -/
theorem Ready.grow {l : List ℕ} (h : Ready rs m)
    (hl : ∀ j ∈ l, tableIdx (virt + BitVec.ofNat 64 j * 4096) 39 = HEAP_PML4_IDX)
    (hg : l.foldlM (growPage virt) m = some m') :
    Ready rs m' ∧ Unseen rs m m' ∧ m'.cr3 = m.cr3 ∧ ∀ os, (∀ r ∈ os, r ∈ rs) → ∀ f,
      Outside m' os f ↔ Outside m os f ∨ (used m' f = true ∧ used m f = false) := by
  obtain ⟨K, H, hz, L, X, h, z, hload⟩ := h
  obtain ⟨hz', L', g⟩ := Growth.pages h.inv z (hload.imp id fun hr => (h.roots _).1 hr) hl hg
  have h' := g.history h
  refine ⟨⟨K, H, hz', L', _, h', g.zone, ?_⟩,
    ⟨fun r hr f => ?_, fun r hr v hv => ?_, fun r hr v x hv hx => ?_⟩, g.regs.1, fun os hos f => ?_⟩
  · rw [getPml4, g.regs.1]
    exact hload
  · exact owned_congr h.inv h'.inv ((h.roots r).1 hr) fun f p => by rw [g.own]
  · exact Growth.translate h.inv z g ((h.roots r).1 hr) hv
  · exact Growth.own_mem h.inv z g (h.page hr hv hx) (by simp [pathOf])
  · rw [h'.outside hos, h.outside hos, g.own]
    constructor
    · rintro ⟨hu', hno⟩
      cases hu : used m f with
      | true => exact Or.inl ⟨rfl, hno⟩
      | false => exact Or.inr ⟨hu', rfl⟩
    · rintro (⟨hu, hno⟩ | ⟨hu', hu⟩)
      · exact ⟨g.used f hu, hno⟩
      · refine ⟨hu', fun r _ p hp => ?_⟩
        rw [(h.inv.fresh hu).1] at hp
        cases hp

/-- a frame is taken, filled, and given back -/
theorem Ready.bounce (g : Idx → U64) (h : Ready rs m) (ha : m.allocFrame = some (a, m1)) :
    Ready rs ((m1.fill (frameOf a) g).freeFrame a) ∧ Unseen rs m ((m1.fill (frameOf a) g).freeFrame a) ∧
      ((m1.fill (frameOf a) g).freeFrame a).cr3 = m.cr3 ∧ ∀ os, (∀ r ∈ os, r ∈ rs) → ∀ f,
        Outside ((m1.fill (frameOf a) g).freeFrame a) os f ↔ Outside m os f := by
  obtain ⟨K, H, hz, L, X, h, z, hload⟩ := h
  have hst := (Stage.refl m).alloc ha
  obtain ⟨c, rfl, hlt, hfree, -, hu, -⟩ := alloc_spec ha
  rw [frameOf_addrOf hlt]
  have hstf := hst.fill hfree g
  generalize hm' : (m1.fill c g).freeFrame (addrOf c) = m'
  have hused : ∀ f, used m' f = true ↔ used m f = true := by
    intro f
    have hf : used m' f = (!decide (f = c) && used (m1.fill c g) f) := by
      rw [← hm']
      have := freeFrame_isUsed (m1.fill c g).pmm (addrOf c) (by rw [frameOf_addrOf hlt]; exact hlt) f
      rwa [frameOf_addrOf hlt] at this
    rw [hf, used_fill, hu]
    by_cases hfc : f = c
    · rw [hfc, hfree]
      simp
    · simp [hfc]
  have hmem : ∀ {f}, used m f = true → m'.mem f = m.mem f := fun hf => by
    rw [← hm']
    exact hstf.mem hf
  have hcr3 : m'.cr3 = m.cr3 := by
    rw [← hm']
    exact hstf.rest.1
  have hgk : m'.gKernelPml4 = m.gKernelPml4 := by
    rw [← hm']
    exact hstf.rest.2.1
  have h' : History L m' rs X := by
    refine h.congr hgk (fun f hf => hmem ?_) fun f hf => (hused f).2 hf
    rcases hf with hf | hf
    · obtain ⟨x, hx⟩ := Option.ne_none_iff_exists'.1 hf
      exact (h.inv.own_used (show _ = some (x.1, x.2) from hx)).1
    · obtain ⟨k, hk⟩ := Option.ne_none_iff_exists'.1 hf
      exact (h.inv.kern.used hk).1
  have z' : HeapZone K H hz L m' := by
    refine z.congr h.inv hgk fun f hf => hmem ?_
    obtain ⟨k, hk⟩ := Option.ne_none_iff_exists'.1 hf
    exact h.inv.levels.used hk
  refine ⟨⟨K, H, hz, L, X, h', z', by rw [getPml4, hcr3]; exact hload⟩, ?_, hcr3, fun os hos f => ?_⟩
  · refine ⟨fun r hr f => owned_congr h.inv h'.inv ((h.roots r).1 hr) fun _ _ => Iff.rfl, fun r hr v _ => ?_,
      fun r hr v x hv hx => hmem (h.inv.own_used (h.page hr hv hx)).1⟩
    have hroot := (h.roots r).1 hr
    have hrow : ∀ {f p}, L.own f = some (r, p) → m'.mem f = m.mem f := fun hf => hmem (h.inv.own_used hf).1
    exact translate_walk h.inv hroot (fun f k hf => hmem (h.inv.kern.used hf).1) (Same.of_eq (by rw [hrow hroot]))
      (fun t ht => Same.of_eq (by rw [hrow ht])) (fun t ht => ⟨Same.of_eq (by rw [hrow ht]), fun _ => by rw [hrow ht]⟩)
      fun t ht => by rw [hrow ht]
  · rw [h'.outside hos, h.outside hos, hused]

/-- another subsystem takes a frame and fills it -/
theorem Ready.alloc (g : Idx → U64) (h : Ready rs m) (ha : m.allocFrame = some (a, m1)) :
    Ready rs (m1.fill (frameOf a) g) ∧ Unseen rs m (m1.fill (frameOf a) g) := by
  obtain ⟨K, H, hz, L, X, h, z, hload⟩ := h
  obtain ⟨h', hst⟩ := h.alloc ha g
  refine ⟨⟨K, H, hz, L, _, h', z.congr h.inv hst.rest.2.1 fun f hf => hst.mem ?_, ?_⟩, hst.unseen h⟩
  · obtain ⟨k, hk⟩ := Option.ne_none_iff_exists'.1 hf
    exact h.inv.levels.used hk
  · rw [getPml4, hst.rest.1]
    exact hload

/-- `mov cr3` -/
theorem Ready.load (h : Ready rs m) (hr : r ∈ rs) :
    Ready rs { m with cr3 := addrOf r } ∧ getPml4 { m with cr3 := addrOf r } = r := by
  obtain ⟨K, H, hz, L, X, h, z, hload⟩ := h
  have hcr3 : getPml4 { m with cr3 := addrOf r } = r := kptr_addrOf (h.inv.own_used ((h.roots r).1 hr)).2.2
  refine ⟨⟨K, H, hz, L, X, h.congr rfl (fun _ _ => rfl) fun _ hu => hu, z.congr h.inv rfl fun _ _ => rfl, Or.inr ?_⟩,
    hcr3⟩
  rw [hcr3]
  exact hr

/-- back to the kernel's own tables -/
theorem Ready.loadKernel (h : Ready rs m) :
    Ready rs { m with cr3 := addrOf (frameOf m.gKernelPml4) } ∧
      getPml4 { m with cr3 := addrOf (frameOf m.gKernelPml4) } ∉ rs := by
  obtain ⟨K, H, hz, L, X, h, z, hload⟩ := h
  have hroot := h.inv.kern.root
  have hcr3 : getPml4 { m with cr3 := addrOf (frameOf m.gKernelPml4) } = frameOf m.gKernelPml4 :=
    kptr_addrOf (h.inv.kern.used hroot).2.2
  refine ⟨⟨K, H, hz, L, X, h.congr rfl (fun _ _ => rfl) fun _ hu => hu, z.congr h.inv rfl fun _ _ => rfl,
    Or.inl (hcr3.trans z.gk)⟩, fun hin => ?_⟩
  rw [hcr3, h.roots, h.inv.apart hroot] at hin
  cases hin

/-- **A new space**, with nothing mapped. -/
theorem Ready.create (h : Ready rs m) (hc : createAddressSpace m = some (a, m')) :
    ∃ r, a = addrOf r ∧ r < MAX_FRAMES ∧ r ∉ rs ∧ getPml4 m ≠ r ∧ Ready (r :: rs) m' ∧ Unseen rs m m' ∧
      m'.cr3 = m.cr3 ∧ (∀ f, Outside m' [r] f ↔ used m f = true) ∧ ∀ v, isPrivate v = true → translate m'.mem r v = none := by
  obtain ⟨K, H, hz, L, X, h, z, hload⟩ := h
  obtain ⟨L1, r, rfl, hlt, hfree, hi1, -, hst, hroot1, -, hnew1, hun, -⟩ := create_spec h.inv hc
  obtain ⟨L', h', hk, hnew⟩ := h.create hc
  have hunmapped := fun v => create_unmapped h.inv hc (v := v)
  have z' := HeapZone.create h.inv h'.inv z hc hk hnew
  rw [frameOf_addrOf hlt] at h' hunmapped
  have hnot : r ∉ rs := by
    intro hin
    rw [(h.inv.own_used ((h.roots r).1 hin)).1] at hfree
    cases hfree
  refine ⟨r, rfl, hlt, hnot, fun heq => ?_, ⟨K, H, hz, L', X, h', z', ?_⟩, hst.unseen h, hst.rest.1, fun f => ?_,
    hunmapped⟩
  · rcases hload with hl | hl
    · have hroot := (h.inv.kern.used h.inv.kern.root).1
      rw [z.gk, ← hl, heq, hfree] at hroot
      cases hroot
    · exact hnot (heq ▸ hl)
  · rw [getPml4, hst.rest.1]
    exact hload.imp id fun hm => List.mem_cons_of_mem _ hm
  · rw [outside_one, rest_iff hi1 hroot1]
    constructor
    · rintro ⟨hu, hno⟩
      rcases hun f hu with hold | ⟨p, hp⟩
      · exact hold
      · exact absurd hp (hno p)
    · intro hu
      refine ⟨hst.used hu, fun p hp => ?_⟩
      rcases hnew1 f r p hp with ho | ⟨-, hn, -⟩
      · rw [(h.inv.own_used (h.inv.tree.root_own ho)).1] at hfree
        cases hfree
      · rw [hu] at hn
        cases hn

/-- **A space gone** that is not loaded. -/
theorem Ready.destroy (h : Ready rs m) (hr : r ∈ rs) (hne : getPml4 m ≠ r) :
    Ready (rs.erase r) (destroyAddressSpace (addrOf r) m) ∧ Unseen (rs.erase r) m (destroyAddressSpace (addrOf r) m) ∧
      (destroyAddressSpace (addrOf r) m).cr3 = m.cr3 ∧
      ∀ f, used (destroyAddressSpace (addrOf r) m) f = true ↔ Outside m [r] f := by
  obtain ⟨K, H, hz, L, X, h, z, hload⟩ := h
  have hroot := (h.roots r).1 hr
  obtain ⟨h', hmem, hgk⟩ := h.destroy hr
  have hcr3 := (destroyAddressSpace_regs (addrOf r) m).1
  refine ⟨⟨K, H, hz, _, X, h', z.destroy h.inv hmem hgk, ?_⟩, Unseen.of_mem _ hmem, hcr3, fun f => ?_⟩
  · rw [getPml4, hcr3]
    exact hload.imp id fun hm => (List.mem_erase_of_ne hne).2 hm
  · rw [(destroy_spec h.inv hroot (addrOf_physMask (h.inv.own_used hroot).2.2)).2.2, outside_one, rest_iff h.inv hroot]

/-- an operation on the private part of r -/
theorem Ready.keep (h : History L m rs X) (z : HeapZone K H hz L m) (hload : getPml4 m = K ∨ getPml4 m ∈ rs)
    (h' : History L' m' rs X) (k : Keeps r L m L' m') (hc : m'.cr3 = m.cr3) : Ready rs m' := by
  refine ⟨K, H, hz, L', X, h', z.keep h h' k, ?_⟩
  rw [getPml4, hc]
  exact hload

/-! ### Fresh pages -/

/-- a fresh page is mapped at v, and perhaps filled -/
def Put (v fl : U64) (m m' : Machine) : Prop :=
  ∃ a m1, mapFresh m v fl = some (a, m1) ∧ (m' = m1 ∨ ∃ g, m' = m1.fill (frameOf a) g)

/-- **A fresh page** of the loaded space. -/
theorem Ready.put (h : Ready rs m) (hr : getPml4 m ∈ rs) (hv : isPrivate v = true) (hfl : LeafFlags fl)
    (hp : Put v fl m m') :
    Ready rs m' ∧ m'.cr3 = m.cr3 ∧ (∀ os, (∀ r ∈ os, r ∈ rs) → getPml4 m ∉ os → Unseen os m m') ∧
      (∀ f, Outside m' [getPml4 m] f ↔ Outside m [getPml4 m] f ∨ f ∈ backing m (getPml4 m) v) ∧
      ∀ w, isPrivate w = true → pathOf w ≠ pathOf v →
        translate m'.mem (getPml4 m) w = translate m.mem (getPml4 m) w := by
  obtain ⟨K, H, hz, L, X, h, z, hload⟩ := h
  obtain ⟨a, m1, hm, hfill⟩ := hp
  have hroot := (h.roots _).1 hr
  obtain ⟨L1, h1, k1⟩ := h.map hr hv hfl hm
  have hroot1 := (h1.roots _).1 hr
  have hcr3 := mapFresh_cr3 h.inv hroot hv hfl hm
  have hrest := rest_map h.inv hroot hv hfl hm
  have htr := mapFresh_translate h.inv hroot hv hfl hm (w := v) hv
  rw [if_pos rfl] at htr
  have hmap : ∀ w, isPrivate w = true → pathOf w ≠ pathOf v →
      translate m1.mem (getPml4 m) w = translate m.mem (getPml4 m) w := by
    intro w hw hne
    rw [mapFresh_translate h.inv hroot hv hfl hm hw, if_neg hne]
  rcases hfill with rfl | ⟨g, rfl⟩
  · refine ⟨Ready.keep h z hload h1 k1 hcr3, hcr3, fun os hos hn => k1.unseen h h1.inv hos hn, fun f => ?_, hmap⟩
    rw [outside_one, outside_one]
    exact hrest f
  -- the frame that is filled is the page's
  have ho : L1.own (frameOf a) = some (getPml4 m, pathOf v) := by
    obtain ⟨c, m0, L0, rfl, -, -, -, w, hoc, -⟩ := mapFresh_spec h.inv hroot hv hfl hm
    rw [frameOf_addrOf (w.inv.own_used hoc).2.2]
    exact (own_iff_frameAt h1.inv hroot1).2 ((own_iff_frameAt w.inv (w.keeps.tbl hroot (by simp))).1 hoc)
  have hleaf := (ownedLeaf_iff h1.inv hroot1).2 ⟨pathOf v, rfl, ho⟩
  obtain ⟨h2, k2⟩ := h1.write hr hleaf g
  have k := k1.trans k2
  refine ⟨Ready.keep h z hload h2 k hcr3, hcr3, fun os hos hn => k.unseen h h2.inv hos hn, fun f => ?_, fun w hw hne => ?_⟩
  · rw [outside_one, outside_one, ← hrest f, rest_iff h2.inv ((h2.roots _).1 hr), rest_iff h1.inv hroot1, used_fill]
  · rw [translate_fill_leaf h1.inv hroot1 ho rfl g w]
    exact hmap w hw hne

end Steps

end Retux.Vmm
