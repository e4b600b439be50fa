/-
Histories of address spaces.

`Built m rs X` says that machine m can be reached from boot by creating, loading, filling, editing, cloning and
destroying address spaces, in any order and any number; rs are the PML4 frames of the live ones, X the frames that
belong to none of them (taken before the first space, or by another allocation since). Pages are mapped at private
addresses only, as the loader, brk, mmap and the stack setup do.

`Built.inv` is the run lemma: every such machine has a layout that satisfies `Inv`. Ownership is then read off memory:
`Owned m r f` says that f is at a private position below r (`own_iff_frameAt`).
-/
import Mathlib.Tactic
import Retux.Mem.Create
import Retux.Mem.Destroy

namespace Retux.Vmm

open Retux.Word Retux.Pmm Retux.Forest Retux.Loop

/-! ## Ownership, read off memory -/

/-- the frame at a path below PML4 frame r -/
def frameAt (mem : ℕ → Idx → U64) (r : ℕ) : List Idx → Option ℕ
  | [] => some r
  | i :: p => (frameAt mem r p).bind fun t => child (mem t i)

/-- f is a table or a leaf of address space r -/
def Owned (m : Machine) (r f : ℕ) : Prop := ∃ p, Priv p = true ∧ frameAt m.mem r p = some f

/-- f is a leaf of address space r -/
def OwnedLeaf (m : Machine) (r f : ℕ) : Prop := ∃ p, p.length = 4 ∧ Priv p = true ∧ frameAt m.mem r p = some f

section Owned

variable {L : Layout} {m : Machine} {r f : ℕ}

theorem own_iff_frameAt (h : Inv L m) (hr : L.own r = some (r, [])) {p : List Idx} :
    L.own f = some (r, p) ↔ Priv p = true ∧ frameAt m.mem r p = some f := by
  induction p generalizing f with
  | nil =>
    constructor
    · intro hf; exact ⟨rfl, by rw [h.tree.root hf]; rfl⟩
    · rintro ⟨-, hf⟩
      cases hf
      exact hr
  | cons i p ih =>
    constructor
    · intro hf
      obtain ⟨t, ht, hc⟩ := h.tree.up hf
      refine ⟨h.tree.priv hf, ?_⟩
      rw [frameAt, (ih.1 ht).2]
      exact hc
    · rintro ⟨hp, hf⟩
      obtain ⟨t, ht, hc⟩ := Option.bind_eq_some_iff.1 hf
      exact h.tree.down (ih.2 ⟨Priv.tail hp, ht⟩) hp hc

theorem owned_iff (h : Inv L m) (hr : L.own r = some (r, [])) : Owned m r f ↔ ∃ p, L.own f = some (r, p) := by
  simp only [Owned, own_iff_frameAt h hr]

theorem ownedLeaf_iff (h : Inv L m) (hr : L.own r = some (r, [])) :
    OwnedLeaf m r f ↔ ∃ p, p.length = 4 ∧ L.own f = some (r, p) := by
  simp only [OwnedLeaf, own_iff_frameAt h hr]

end Owned

/-! ## Editing a page, as the system calls do -/

/-- flags a page may be mapped with -/
def LeafFlags (fl : U64) : Prop := Flags fl ∧ present fl = true ∧ huge fl = false

instance (fl : U64) : Decidable (LeafFlags fl) := inferInstanceAs (Decidable (_ ∧ _))

/-- `phys = alloc_frame(); map(va, phys, flags)` -/
def mapFresh (m : Machine) (va flags : U64) : Option (U64 × Machine) := do
  let (phys, m) ← m.allocFrame
  let m ← map m va phys flags
  return (phys, m)

/-- `phys = virt_to_phys(va); unmap(va); if (phys) free_frame(phys)` -/
def unmapAndFree (m : Machine) (va : U64) : Option Machine :=
  let phys := virtToPhys m va
  (unmap m va).map fun m => if phys = 0 then m else m.freeFrame phys

section Edit

variable {L : Layout} {m m' : Machine} {v fl : U64}

theorem addrOf_mask {c : ℕ} (hc : c < MAX_FRAMES) : addrOf c &&& ~~~0xFFF#64 = addrOf c := by
  have := (addrOf_add_offset hc 0).2
  simpa using this

/-- a fresh frame is mapped at the page -/
theorem mapFresh_spec (h : Inv L m) (hr : L.own (getPml4 m) = some (getPml4 m, [])) (hv : isPrivate v = true)
    (hfl : LeafFlags fl) {a : U64} (hm : mapFresh m v fl = some (a, m')) :
    ∃ c m1 L', a = addrOf c ∧ used m c = false ∧ m.allocFrame = some (a, m1) ∧ Inv L m1 ∧
      Remap (getPml4 m) (pathOf v) L m1 L' m' ∧ L'.own c = some (getPml4 m, pathOf v) ∧
      Leaf L' m' (getPml4 m) (pathOf v) (addrOf c ||| fl) := by
  unfold mapFresh at hm
  simp only [bind, Option.bind_eq_some_iff, pure, Option.some.injEq, Prod.mk.injEq] at hm
  obtain ⟨⟨a', m1⟩, ha, m2, hmap, rfl, rfl⟩ := hm
  have s1 : Stage m m1 := (Stage.refl m).alloc ha
  obtain ⟨c, rfl, hlt, hfree, hm1, hu, -⟩ := alloc_spec ha
  obtain ⟨hco, hck, hc0⟩ := h.fresh hfree
  have hpml4 : getPml4 m1 = getPml4 m := by rw [hm1]; rfl
  have huc : used m1 c = true := by rw [hu]; simp
  unfold map at hmap
  rw [hpml4] at hmap
  obtain ⟨L', w, ho, hl⟩ := mapInto_spec (s1.inv h) hr hv hfl.1 hfl.2.1 hfl.2.2 ⟨huc, Nat.pos_of_ne_zero hc0, hlt⟩ hck
    (Or.inl hco) (addrOf_mask hlt) hmap
  exact ⟨c, m1, L', rfl, hfree, ha, s1.inv h, w, ho, hl⟩

/-- the frame behind a mapped private page is its leaf -/
theorem frameOf_leaf (h : Inv L m) {r : ℕ} {q : List Idx} {e : U64} (hl : Leaf L m r q e) (v : U64) :
    frameOf (entryPhys e + (v &&& 0xFFF)) = entryToKptr e := by
  have hlt := (h.own_used (hl.own h)).2.2
  rw [entryPhys_eq hlt]; exact (addrOf_add_offset hlt v).1

/-- **What a fresh mapping changes.** The page translates to the new frame; every other private page is as before. -/
theorem mapFresh_translate (h : Inv L m) (hr : L.own (getPml4 m) = some (getPml4 m, [])) (hv : isPrivate v = true)
    (hfl : LeafFlags fl) {a : U64} (hm : mapFresh m v fl = some (a, m')) {w : U64} (hw : isPrivate w = true) :
    translate m'.mem (getPml4 m) w =
      if pathOf w = pathOf v then some (a + (w &&& 0xFFF), fl) else translate m.mem (getPml4 m) w := by
  obtain ⟨c, m1, L', rfl, hfree, ha, hi1, wr, hoc, hl⟩ := mapFresh_spec h hr hv hfl hm
  have hclt := (wr.inv.own_used hoc).2.2
  have hr' : L'.own (getPml4 m) = some (getPml4 m, []) := wr.keeps.tbl hr (by simp)
  have hmem : m1.mem = m.mem := by
    obtain ⟨-, -, -, -, hm1, -⟩ := alloc_spec ha
    rw [hm1]
  split_ifs with hp
  · refine (translate_eq_some_iff wr.inv hr' hw).2 ⟨_, by rw [hp]; exact hl, ?_⟩
    rw [entryPhys_eq (by rw [kptr_addr_or hclt hfl.1]; exact hclt), kptr_addr_or hclt hfl.1, leafFlags_addr_or hclt hfl.1]
  · rw [← hmem]
    refine Option.ext fun x => ?_
    show translate m'.mem _ w = some x ↔ translate m1.mem _ w = some x
    rw [translate_eq_some_iff wr.inv hr' hw, translate_eq_some_iff hi1 hr hw]
    refine exists_congr fun e => and_congr_left fun _ => wr.leaf fun hh => hp hh.2

/-- five free frames are enough for a fresh mapping -/
theorem mapFresh_isSome (v fl : U64) (hf : 5 ≤ freeCount m.pmm) :
    ∃ a m', mapFresh m v fl = some (a, m') := by
  obtain ⟨a, m1, ha⟩ := alloc_isSome (m := m) (by omega)
  obtain ⟨-, -, -, -, -, -, hc⟩ := alloc_spec ha
  obtain ⟨m2, hm⟩ : ∃ m2, mapInto m1 (getPml4 m1) v a fl = some m2 := mapInto_isSome (by omega)
  refine ⟨a, m2, ?_⟩
  unfold mapFresh map
  simp only [bind, ha, Option.bind_some, hm, pure]

theorem mapFresh_freeCount {a : U64} (hm : mapFresh m v fl = some (a, m')) :
    freeCount m.pmm ≤ freeCount m'.pmm + 5 := by
  unfold mapFresh map at hm
  simp only [bind, Option.bind_eq_some_iff, pure, Option.some.injEq, Prod.mk.injEq] at hm
  obtain ⟨⟨a', m1⟩, ha, m2, hmap, rfl, rfl⟩ := hm
  obtain ⟨-, -, -, -, -, -, hc⟩ := alloc_spec ha
  have hc2 : freeCount m1.pmm ≤ freeCount m2.pmm + 4 := (mapInto_freeCount hmap).2
  omega

/-- a fresh mapping leaves the loaded CR3 -/
theorem mapFresh_cr3 (h : Inv L m) (hr : L.own (getPml4 m) = some (getPml4 m, [])) (hv : isPrivate v = true)
    (hfl : LeafFlags fl) {a : U64} (hm : mapFresh m v fl = some (a, m')) : m'.cr3 = m.cr3 := by
  obtain ⟨c, m1, L', rfl, -, ha, -, wr, -, -⟩ := mapFresh_spec h hr hv hfl hm
  exact wr.rest.1.trans ((Stage.refl m).alloc ha).rest.1

/-- `virt_to_phys` of a mapped private page is its leaf frame -/
theorem virtToPhys_private (h : Inv L m) (hr : L.own (getPml4 m) = some (getPml4 m, [])) (hv : isPrivate v = true) :
    (virtToPhys m v = 0 ∧ ∀ f, L.own f ≠ some (getPml4 m, pathOf v)) ∨
      ∃ c, L.own c = some (getPml4 m, pathOf v) ∧ virtToPhys m v ≠ 0 ∧ frameOf (virtToPhys m v) = c := by
  rw [virtToPhys_eq]
  cases htr : translate m.mem (getPml4 m) v with
  | none =>
    refine Or.inl ⟨rfl, fun f hf => ?_⟩
    obtain ⟨e, hl, -⟩ := leaf_of_own h rfl hf
    have := (translate_eq_some_iff h hr hv).2 ⟨e, hl, rfl⟩
    rw [htr] at this; cases this
  | some x =>
    obtain ⟨e, hl, rfl⟩ := (translate_eq_some_iff h hr hv).1 htr
    have hc := hl.own h
    obtain ⟨-, hpos, hlt⟩ := h.own_used hc
    have hframe := frameOf_leaf h hl v
    refine Or.inr ⟨_, hc, fun h0 => ?_, hframe⟩
    have h0' : entryPhys e + (v &&& 0xFFF) = 0 := h0
    rw [h0'] at hframe
    have : (0 : ℕ) = entryToKptr e := hframe
    omega

/-- **Unmap and free.** The page's leaf, if it has one, is released; everything else stays. -/
theorem unmapAndFree_spec (h : Inv L m) (hr : L.own (getPml4 m) = some (getPml4 m, [])) (hv : isPrivate v = true) :
    ∃ L' m', unmapAndFree m v = some m' ∧ Inv L' m' ∧ Keeps (getPml4 m) L m L' m' ∧ m'.cr3 = m.cr3 ∧
      (∀ f, L'.own f = if L.own f = some (getPml4 m, pathOf v) then none else L.own f) ∧
      (∀ f, used m' f = true ↔ used m f = true ∧ L.own f ≠ some (getPml4 m, pathOf v)) ∧
      ((m'.freed = m.freed ∧ ∀ f, L.own f ≠ some (getPml4 m, pathOf v)) ∨
        ∃ c a, L.own c = some (getPml4 m, pathOf v) ∧ frameOf a = c ∧ m'.freed = a :: m.freed) := by
  obtain ⟨L', m1, hu, w, hpmm, hown⟩ := unmap_spec h hr hv
  have hused1 : ∀ f, used m1 f = used m f := fun f => by rw [used, hpmm]; rfl
  unfold unmapAndFree
  rw [hu]
  rcases virtToPhys_private h hr hv with ⟨h0, hno⟩ | ⟨c, hc, hne, hfr⟩
  · refine ⟨L', m1, by simp [h0], w.inv, w.keeps, w.rest.1, hown, fun f => ?_, Or.inl ⟨w.rest.2.2, hno⟩⟩
    rw [hused1]; exact ⟨fun hu => ⟨hu, hno f⟩, fun hh => hh.1⟩
  · have hlt := (h.own_used hc).2.2
    have husedc : ∀ f, used (m1.freeFrame (virtToPhys m v)) f = true ↔
        used m f = true ∧ L.own f ≠ some (getPml4 m, pathOf v) := by
      intro f
      have hfree := freeFrame_isUsed m1.pmm (virtToPhys m v) (by rw [hfr]; exact hlt) f
      have hfree' : used (m1.freeFrame (virtToPhys m v)) f = (!decide (f = c) && used m1 f) := by
        rw [hfr] at hfree; exact hfree
      rw [hfree', hused1, Bool.and_eq_true, Bool.not_eq_true', decide_eq_false_iff_not, and_comm]
      refine and_congr_right fun _ => ⟨fun hf ho => hf (h.tree.unique ho hc), ?_⟩
      rintro ho rfl; exact ho hc
    have hkeep : ∀ {f}, L'.own f ≠ none → L.own f ≠ some (getPml4 m, pathOf v) := by
      intro f hf ho
      rw [hown, if_pos ho] at hf; exact hf rfl
    refine ⟨L', m1.freeFrame (virtToPhys m v), by simp only [Option.map_some, if_neg hne], ?_, ?_, w.rest.1, hown, husedc,
      Or.inr ⟨c, virtToPhys m v, hc, hfr, by rw [← w.rest.2.2]; rfl⟩⟩
    · refine w.inv.congr rfl (fun _ _ => rfl) fun f hf hu => (husedc f).2 ⟨by rw [← hused1]; exact hu, fun ho => ?_⟩
      rcases hf with hf | hf | rfl
      · exact hkeep hf ho
      · rw [w.keeps.klv] at hf; exact hf (h.klv_none ho)
      · have := (h.own_used ho).2.1; omega
    · exact ⟨w.keeps.klv, w.keeps.other, w.keeps.tbl, w.keeps.mem, w.keeps.link, w.keeps.gk⟩

end Edit

/-! ## Histories -/

/-- the machine when the first address space is made: kernel tables in place, frame 0 never handed out -/
structure Booted (m : Machine) : Prop where
  kern : ∃ klv, Kern klv m
  zero : used m 0 = true

inductive Built : Machine → List ℕ → Set ℕ → Prop
  | boot {m} : Booted m → Built m [] {f | used m f = true}
  | create {m rs X a m'} : Built m rs X → createAddressSpace m = some (a, m') → Built m' (frameOf a :: rs) X
  | load {m rs X r} : Built m rs X → r ∈ rs → Built { m with cr3 := addrOf r } rs X
  | map {m rs X v fl a m'} : Built m rs X → getPml4 m ∈ rs → isPrivate v = true → LeafFlags fl →
      mapFresh m v fl = some (a, m') → Built m' rs X
  | write {m rs X r f} (g : Idx → U64) : Built m rs X → r ∈ rs → OwnedLeaf m r f → Built (m.fill f g) rs X
  | protect {m rs X v fl m'} : Built m rs X → getPml4 m ∈ rs → isPrivate v = true → LeafFlags fl →
      protect m v fl = some m' → Built m' rs X
  | unmap {m rs X v m'} : Built m rs X → getPml4 m ∈ rs → isPrivate v = true → unmapAndFree m v = some m' →
      Built m' rs X
  | clone {m rs X d s m'} : Built m rs X → d ∈ rs → s ∈ rs → s ≠ d →
      cloneAddressSpace (addrOf d) (addrOf s) m = some m' → Built m' rs X
  | destroy {m rs X r} : Built m rs X → r ∈ rs → Built (destroyAddressSpace (addrOf r) m) (rs.erase r) X
  /-- another subsystem takes a frame and fills it -/
  | alloc {m rs X a m'} (g : Idx → U64) : Built m rs X → m.allocFrame = some (a, m') →
      Built (m'.fill (frameOf a) g) rs (insert (frameOf a) X)

/-- a layout for a history -/
structure History (L : Layout) (m : Machine) (rs : List ℕ) (X : Set ℕ) : Prop where
  inv : Inv L m
  roots : ∀ r, r ∈ rs ↔ L.own r = some (r, [])
  nodup : rs.Nodup
  other : ∀ f ∈ X, used m f = true ∧ L.own f = none
  kern : ∀ f k, L.klv f = some k → f ∈ X

section History

variable {L L' : Layout} {m m' : Machine} {rs : List ℕ} {X : Set ℕ}

/-- an operation that labels fresh frames only and releases labelled ones only, with the same roots -/
theorem History.step (h : History L m rs X) (hi : Inv L' m') (hk : L'.klv = L.klv)
    (hroots : ∀ r, L'.own r = some (r, []) ↔ L.own r = some (r, []))
    (hnew : ∀ f x, L'.own f = some x → L.own f ≠ none ∨ used m f = false)
    (hused : ∀ f, L.own f = none → used m f = true → used m' f = true) : History L' m' rs X := by
  refine ⟨hi, fun r => (h.roots r).trans (hroots r).symm, h.nodup, fun f hf => ?_, fun f k hf => h.kern f k (hk ▸ hf)⟩
  obtain ⟨hu, ho⟩ := h.other f hf
  refine ⟨hused f ho hu, ?_⟩
  cases hx : L'.own f with
  | none => rfl
  | some x =>
    rcases hnew f x hx with h1 | h1
    · exact absurd ho h1
    · rw [hu] at h1; cases h1

/-- the same layout, with labelled frames and kernel tables untouched -/
theorem History.congr (h : History L m rs X) (hk : m'.gKernelPml4 = m.gKernelPml4)
    (hmem : ∀ f, L.own f ≠ none ∨ L.klv f ≠ none → m'.mem f = m.mem f)
    (hused : ∀ f, used m f = true → used m' f = true) : History L m' rs X :=
  h.step (h.inv.congr hk hmem fun f _ => hused f) rfl (fun _ => Iff.rfl) (fun f x hx => Or.inl (by rw [hx]; simp))
    fun f _ => hused f

/-- an edit of one page of r, after an allocation perhaps -/
theorem History.remap {m1 : Machine} (h : History L m rs X) {r : ℕ} {q : List Idx} (hr : L.own r = some (r, []))
    (hq : q ≠ []) (hm : ∀ f, used m f = true → used m1 f = true) (w : Remap r q L m1 L' m')
    (hc : ∀ c, L'.own c = some (r, q) → L.own c ≠ none ∨ used m c = false) : History L' m' rs X := by
  have hback : ∀ {f}, used m1 f = false → used m f = false := by
    intro f hf
    cases hu : used m f with
    | false => rfl
    | true => rw [hm f hu] at hf; cases hf
  refine h.step w.inv w.keeps.klv (fun r' => ⟨fun hr' => ?_, fun hr' => ?_⟩) (fun f x hx => ?_)
    fun f _ hu => w.used_mono f (hm f hu)
  · rcases w.own_new hr' with ho | ⟨rfl, hp | ⟨-, hu⟩⟩
    · exact ho
    · exact absurd hp.symm hq
    · exact hr
  · exact w.own_keep hr' fun hh => hq hh.2.symm
  · rcases w.own_new (show _ = some (x.1, x.2) from hx) with ho | ⟨hr', hp | ⟨-, hu⟩⟩
    · exact Or.inl (by rw [ho]; simp)
    · exact hc f (by rw [hx, ← hr', ← hp])
    · exact Or.inr (hback hu)

/-! ### Steps -/

variable {r f : ℕ} {v fl a : U64}

/-- what a leaf holds does not change how anything translates -/
theorem translate_fill_leaf (h : Inv L m) {r r' f : ℕ} {p : List Idx} (hr : L.own r = some (r, []))
    (hf : L.own f = some (r', p)) (hl : p.length = 4) (g : Idx → U64) (w : U64) :
    translate (m.fill f g).mem r w = translate m.mem r w := by
  have hne : ∀ {t r'' q}, L.own t = some (r'', q) → q.length < 4 → (m.fill f g).mem t = m.mem t := by
    intro t r'' q ht hlt
    rw [fill_mem, if_neg]
    rintro rfl
    rw [hf] at ht
    cases ht
    omega
  refine translate_walk h hr (fun t k hk => ?_) (Same.of_eq (by rw [hne hr (by simp)]))
    (fun t ht => Same.of_eq (by rw [hne ht (by simp)]))
    (fun t ht => ⟨Same.of_eq (by rw [hne ht (by simp)]), fun _ => by rw [hne ht (by simp)]⟩)
    (fun t ht => by rw [hne ht (by simp [ptPath])])
  rw [fill_mem, if_neg]
  rintro rfl
  rw [h.apart hk] at hf; cases hf

/-- what leaves the frames in use alone is invisible to the tables -/
theorem Stage.keeps (s : Stage m m') (h : Inv L m) (r : ℕ) : Keeps r L m L m' := by
  refine ⟨rfl, fun ho _ => ho, fun ho _ => ho, fun hg => ?_, fun ho _ _ => Same.of_eq ?_, s.rest.2.1⟩
  · rcases hg with ⟨k, hk⟩ | ⟨r', p, ho, -⟩
    · rw [s.mem (h.kern.used hk).1]
    · rw [s.mem (h.own_used ho).1]
  · rw [s.mem (h.own_used ho).1]

/-- so is what a leaf holds -/
theorem keeps_fill (h : Inv L m) {p : List Idx} (ho : L.own f = some (r, p)) (hp : p.length = 4) (g : Idx → U64) :
    Keeps r L m L (m.fill f g) := by
  refine ⟨rfl, fun ho _ => ho, fun ho _ => ho, fun {k i} hg => ?_, fun {k q i} hk hl _ => Same.of_eq ?_, rfl⟩
  · rw [fill_mem, if_neg]
    rintro rfl
    rcases hg with ⟨k', hk⟩ | ⟨r', q, ho', hq⟩
    · rw [h.apart hk] at ho
      cases ho
    · rw [ho] at ho'
      cases ho'
      have := (hq rfl).1
      omega
  · rw [fill_mem, if_neg]
    rintro rfl
    rw [ho] at hk
    cases hk
    omega

/-- nothing is owned at boot -/
theorem Booted.history (h : Booted m) :
    ∃ L, History L m [] {f | used m f = true} ∧ ∀ f, L.own f = none := by
  obtain ⟨klv, hk⟩ := h.kern
  refine ⟨⟨fun _ => none, klv⟩, ⟨?_, fun r => by simp, List.nodup_nil, fun f hf => ⟨hf, rfl⟩,
    fun f k hf => (hk.used hf).1⟩, fun _ => rfl⟩
  refine ⟨⟨fun hf => ?_, fun hf => ?_, fun hf => ?_, fun hf => ?_⟩, hk, fun _ => rfl, h.zero, fun hf => ?_, fun hf => ?_,
    fun hf => ?_, fun hf => ?_, fun hf => ?_, fun hf => ?_, fun hf => ?_⟩ <;> cases hf

theorem History.create (h : History L m rs X) (hc : createAddressSpace m = some (a, m')) :
    ∃ L', History L' m' (frameOf a :: rs) X ∧ L'.klv = L.klv ∧
      ∀ f r' p, L'.own f = some (r', p) → L.own f = some (r', p) ∨ r' = frameOf a := by
  obtain ⟨L', r, rfl, hlt, hfree, hi, hk, hst, hr, hold, hnew, -⟩ := create_spec h.inv hc
  rw [frameOf_addrOf hlt]
  refine ⟨L', ⟨hi, fun r' => ?_, List.nodup_cons.2 ⟨fun hmem => ?_, h.nodup⟩, fun f hf => ?_,
    fun f k hf => h.kern f k (hk ▸ hf)⟩, hk, fun f r' p ho => (hnew f r' p ho).imp id And.left⟩
  · rw [List.mem_cons, h.roots r']
    constructor
    · rintro (rfl | ho)
      · exact hr
      · exact hold _ _ ho
    · intro ho
      rcases hnew _ _ _ ho with ho | ⟨rfl, -⟩
      · exact Or.inr ho
      · exact Or.inl rfl
  · rw [(h.inv.own_used ((h.roots r).1 hmem)).1] at hfree; cases hfree
  · obtain ⟨hu, ho⟩ := h.other f hf
    refine ⟨hst.used hu, ?_⟩
    cases hx : L'.own f with
    | none => rfl
    | some x =>
      rcases hnew _ x.1 x.2 hx with h1 | ⟨-, h1, -⟩
      · rw [ho] at h1; cases h1
      · rw [hu] at h1; cases h1

theorem History.map (h : History L m rs X) (hr : getPml4 m ∈ rs) (hv : isPrivate v = true) (hfl : LeafFlags fl)
    (hm : mapFresh m v fl = some (a, m')) : ∃ L', History L' m' rs X ∧ Keeps (getPml4 m) L m L' m' := by
  have hroot := (h.roots _).1 hr
  obtain ⟨c, m1, L', rfl, hfree, ha, -, w, hoc, -⟩ := mapFresh_spec h.inv hroot hv hfl hm
  have hst := (Stage.refl _).alloc ha
  refine ⟨L', h.remap hroot (by simp [pathOf]) (fun f hf => hst.used hf) w fun c' hc' => Or.inr ?_,
    (hst.keeps h.inv _).trans w.keeps⟩
  rw [w.inv.tree.unique hc' hoc]; exact hfree

theorem History.write (h : History L m rs X) (hr : r ∈ rs) (hl : OwnedLeaf m r f) (g : Idx → U64) :
    History L (m.fill f g) rs X ∧ Keeps r L m L (m.fill f g) := by
  have hroot := (h.roots _).1 hr
  obtain ⟨p, hlen, ho⟩ := (ownedLeaf_iff h.inv hroot).1 hl
  exact ⟨h.step (h.inv.writeLeaf ho hlen g) rfl (fun _ => Iff.rfl) (fun f x hx => Or.inl (by rw [hx]; simp))
    fun _ _ hu => hu, keeps_fill h.inv ho hlen g⟩

theorem History.protect (h : History L m rs X) (hr : getPml4 m ∈ rs) (hv : isPrivate v = true) (hfl : LeafFlags fl)
    (hm : Vmm.protect m v fl = some m') : ∃ L', History L' m' rs X ∧ Keeps (getPml4 m) L m L' m' := by
  have hroot := (h.roots _).1 hr
  rcases protect_spec h.inv hroot hv hfl.1 hfl.2.1 hfl.2.2 hm with ⟨-, rfl⟩ | ⟨L', c, ho, w, hoc, -⟩
  · exact ⟨L, h, Keeps.refl _ _ _⟩
  · refine ⟨L', h.remap hroot (by simp [pathOf]) (fun _ hf => hf) w fun c' hc' => Or.inl ?_, w.keeps⟩
    rw [w.inv.tree.unique hc' hoc, ho]; simp

theorem History.unmap (h : History L m rs X) (hr : getPml4 m ∈ rs) (hv : isPrivate v = true)
    (hm : unmapAndFree m v = some m') : ∃ L', History L' m' rs X ∧ Keeps (getPml4 m) L m L' m' := by
  have hroot := (h.roots _).1 hr
  obtain ⟨L', m', he, hi, hk, -, hown, hused, -⟩ := unmapAndFree_spec h.inv hroot hv
  rw [hm] at he
  cases he
  refine ⟨L', h.step hi hk.klv (fun r' => ?_) (fun f x hx => ?_) fun f ho hu => (hused f).2 ⟨hu, by rw [ho]; simp⟩, hk⟩
  · rw [hown]
    split_ifs with hc
    · rw [hc]; simp [pathOf]
    · rfl
  · rw [hown] at hx
    split_ifs at hx
    exact Or.inl (by rw [hx]; simp)

theorem History.clone (h : History L m rs X) {d s : ℕ} (hd : d ∈ rs) (hs : s ∈ rs) (hne : s ≠ d)
    (hm : cloneAddressSpace (addrOf d) (addrOf s) m = some m') :
    ∃ L', History L' m' rs X ∧ Keeps d L m L' m' := by
  have hdr := (h.roots _).1 hd
  have hsr := (h.roots _).1 hs
  obtain ⟨L', w⟩ := (clone_spec h.inv hne hsr hdr (kptr_addrOf (h.inv.own_used hsr).2.2)
    (kptr_addrOf (h.inv.own_used hdr).2.2)).post hm
  refine ⟨L', h.step w.inv w.keeps.klv (fun r' => ⟨fun hr' => ?_, fun hr' => ?_⟩) (fun f x hx => ?_)
    fun f _ hu => w.used_mono f hu, w.keeps⟩
  · rcases w.new hr' with ho | ⟨rfl, -⟩
    · exact ho
    · exact hdr
  · by_cases hrd : r' = d
    · rw [hrd]; exact w.keeps.tbl hdr (by simp)
    · exact w.keeps.other hr' hrd
  · rcases w.new (r := x.1) (p := x.2) hx with ho | ⟨-, hu⟩
    · exact Or.inl (by rw [ho]; simp)
    · exact Or.inr hu

theorem History.destroy (h : History L m rs X) (hr : r ∈ rs) :
    History { L with own := without L.own r } (destroyAddressSpace (addrOf r) m) (rs.erase r) X ∧
      (destroyAddressSpace (addrOf r) m).mem = m.mem ∧
      (destroyAddressSpace (addrOf r) m).gKernelPml4 = m.gKernelPml4 := by
  have hroot := (h.roots _).1 hr
  obtain ⟨hi, hmem, hused⟩ := destroy_spec h.inv hroot (addrOf_physMask (h.inv.own_used hroot).2.2)
  refine ⟨⟨hi, fun r' => ?_, h.nodup.erase _, fun f hf => ?_, h.kern⟩, hmem, ?_⟩
  · rw [h.nodup.mem_erase_iff, h.roots r', without_some, and_comm]
  · obtain ⟨hu, ho⟩ := h.other f hf
    refine ⟨(hused f).2 ⟨hu, fun p hp => by rw [ho] at hp; cases hp⟩, ?_⟩
    simp [without, ho]
  · rw [destroy_eq h.inv hroot (addrOf_physMask (h.inv.own_used hroot).2.2)]
    exact (freeAll_rest _ _).2.1

theorem History.alloc (h : History L m rs X) (ha : m.allocFrame = some (a, m')) (g : Idx → U64) :
    History L (m'.fill (frameOf a) g) rs (insert (frameOf a) X) ∧ Stage m (m'.fill (frameOf a) g) := by
  have hst := (Stage.refl m).alloc ha
  obtain ⟨c, rfl, hlt, hfree, hm1, hu, -⟩ := alloc_spec ha
  obtain ⟨hco, hck, -⟩ := h.inv.fresh hfree
  rw [frameOf_addrOf hlt]
  refine ⟨⟨h.inv.alloc hfree hm1 hu g, h.roots, h.nodup, fun f hf => ?_, fun f k hf => Or.inr (h.kern f k hf)⟩,
    hst.fill hfree g⟩
  rcases hf with rfl | hf
  · refine ⟨?_, hco⟩
    rw [used_fill, hu]; simp
  · obtain ⟨huf, ho⟩ := h.other f hf
    refine ⟨?_, ho⟩
    rw [used_fill, hu, huf, Bool.or_true]

/-- **Every history has a layout.** -/
theorem Built.history (hb : Built m rs X) : ∃ L, History L m rs X := by
  induction hb with
  | boot h =>
    obtain ⟨L, h', -⟩ := h.history
    exact ⟨L, h'⟩
  | create _ hc ih =>
    obtain ⟨L, h⟩ := ih
    obtain ⟨L', h', -⟩ := h.create hc
    exact ⟨L', h'⟩
  | load _ _ ih =>
    obtain ⟨L, h⟩ := ih
    exact ⟨L, h.congr rfl (fun _ _ => rfl) fun _ hu => hu⟩
  | map _ hr hv hfl hm ih =>
    obtain ⟨L, h⟩ := ih
    obtain ⟨L', h', -⟩ := h.map hr hv hfl hm
    exact ⟨L', h'⟩
  | write g _ hr hl ih =>
    obtain ⟨L, h⟩ := ih
    exact ⟨L, (h.write hr hl g).1⟩
  | protect _ hr hv hfl hm ih =>
    obtain ⟨L, h⟩ := ih
    obtain ⟨L', h', -⟩ := h.protect hr hv hfl hm
    exact ⟨L', h'⟩
  | unmap _ hr hv hm ih =>
    obtain ⟨L, h⟩ := ih
    obtain ⟨L', h', -⟩ := h.unmap hr hv hm
    exact ⟨L', h'⟩
  | clone _ hd hs hne hm ih =>
    obtain ⟨L, h⟩ := ih
    obtain ⟨L', h', -⟩ := h.clone hd hs hne hm
    exact ⟨L', h'⟩
  | destroy _ hr ih =>
    obtain ⟨L, h⟩ := ih
    exact ⟨_, (h.destroy hr).1⟩
  | alloc g _ ha ih =>
    obtain ⟨L, h⟩ := ih
    exact ⟨L, (h.alloc ha g).1⟩

/-! ### Pages and their frames -/

variable {w : U64} {mem : ℕ → Idx → U64}

/-- a page is mapped as a whole -/
theorem translate_path_none (hp : pathOf w = pathOf v) (h : translate mem r v = none) : translate mem r w = none := by
  simp only [pathOf, List.cons.injEq, and_true] at hp
  obtain ⟨h12, h21, h30, h39⟩ := hp
  unfold Vmm.translate at h ⊢
  simp only [h12, h21, h30, h39]
  simp only at h
  split_ifs at h ⊢ <;> rfl

/-- the frame of a page is the same at all its addresses -/
theorem frame_of_path (hb : Built m rs X) (hr : r ∈ rs) (hv : isPrivate v = true) (hw : isPrivate w = true)
    (hp : pathOf w = pathOf v) {x y : U64 × U64} (hx : translate m.mem r w = some x)
    (hy : translate m.mem r v = some y) : frameOf x.1 = frameOf y.1 := by
  obtain ⟨L, h⟩ := hb.history
  have hroot := (h.roots r).1 hr
  obtain ⟨e, hl, rfl⟩ := (translate_eq_some_iff h.inv hroot hw).1 hx
  obtain ⟨e', hl', rfl⟩ := (translate_eq_some_iff h.inv hroot hv).1 hy
  rw [hp] at hl
  obtain rfl := hl.unique h.inv hl'
  rw [frameOf_leaf h.inv hl, frameOf_leaf h.inv hl]

/-- a mapped private page has a frame of its own, and it is allocated -/
theorem frame_own (hb : Built m rs X) (hr : r ∈ rs) (hv : isPrivate v = true)
    (ht : translate m.mem r v = some (a, fl)) : frameOf a < MAX_FRAMES ∧ used m (frameOf a) = true ∧
      ∀ r' ∈ rs, ∀ w x, isPrivate w = true → translate m.mem r' w = some x → frameOf x.1 = frameOf a →
        r' = r ∧ pathOf w = pathOf v := by
  obtain ⟨L, h⟩ := hb.history
  obtain ⟨e, hl, heq⟩ := (translate_eq_some_iff h.inv ((h.roots r).1 hr) hv).1 ht
  obtain ⟨rfl, rfl⟩ := Prod.mk.inj heq
  have ho := hl.own h.inv
  rw [frameOf_leaf h.inv hl]
  refine ⟨(h.inv.own_used ho).2.2, (h.inv.own_used ho).1, fun r' hr' w x hw hx hf => ?_⟩
  obtain ⟨e', hl', rfl⟩ := (translate_eq_some_iff h.inv ((h.roots r').1 hr') hw).1 hx
  have ho' := hl'.own h.inv
  rw [frameOf_leaf h.inv hl'] at hf
  rw [hf, ho] at ho'
  obtain ⟨h1, h2⟩ := Prod.mk.inj (Option.some.inj ho')
  exact ⟨h1.symm, h2.symm⟩

/-- an aligned page is mapped to the start of its frame -/
theorem frame_aligned (hb : Built m rs X) (hr : r ∈ rs) (hv : isPrivate v = true) (hal : v.toNat % 4096 = 0)
    (ht : translate m.mem r v = some (a, fl)) : a = addrOf (frameOf a) := by
  obtain ⟨L, h⟩ := hb.history
  obtain ⟨e, hl, heq⟩ := (translate_eq_some_iff h.inv ((h.roots r).1 hr) hv).1 ht
  obtain ⟨rfl, rfl⟩ := Prod.mk.inj heq
  have hlt := (h.inv.own_used (hl.own h.inv)).2.2
  rw [frameOf_leaf h.inv hl, aligned_offset hal, BitVec.add_zero]
  exact entryPhys_eq hlt

end History

end Retux.Vmm
