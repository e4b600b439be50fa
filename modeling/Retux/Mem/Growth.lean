/-
Heap growth under a history of address spaces.

`Built` has no growth: its kernel tables are never written. `grow_heap` writes them, under whichever CR3 is loaded: the
tables below the heap's PDPT, which hangs in one slot of every PML4. `HeapZone` labels them. No other table leads to one
of them, so a growth is invisible at every address outside the heap's slot, and it owns nothing of an address space.

- `Growth`: what any number of rounds of `grow_heap` leave, and `Growth.pages` that they do;
- `HeapZone.keep`, `HeapZone.create`, `HeapZone.destroy`: the private operations leave the zone alone;
- `Grown.zoned`: so every history with growth has a layout and a zone.
-/
import Mathlib.Tactic
import Retux.Mem.Lifetime
import Retux.Mem.Zones

namespace Retux.Vmm

open Retux.Word Retux.Pmm Retux.Forest

/-! ## Editing a kernel table -/

section Kernel

variable {klv : ℕ → Option ℕ} {m : Machine} {t c k : ℕ} {i : Idx} {e : U64}

/-- a present entry above the page tables -/
theorem Kern.link (h : Kern klv m) (ht : klv t = some (k + 1)) (hi : t = frameOf m.gKernelPml4 → i ≠ 0)
    (hp : present e = true) (hg : k < 2 → huge e = false) (hc : klv (entryToKptr e) = some k) :
    Kern klv (m.store t i e) := by
  have hrow : ∀ {f j}, klv f ≠ some (k + 1) → (m.store t i e).mem f j = m.mem f j := fun hf =>
    store_of_ne fun hh => hf (hh.1 ▸ ht)
  have hnew : ∀ {f j}, klv f = some (k + 1) → (m.store t i e).mem f j = e ∨ (m.store t i e).mem f j = m.mem f j := by
    intro f j _
    by_cases hh : f = t ∧ j = i
    · obtain ⟨rfl, rfl⟩ := hh
      exact Or.inl (store_self ..)
    · exact Or.inr (store_of_ne hh)
  have hpdpt : ∀ {f j}, present (m.mem f j) = true → present ((m.store t i e).mem f j) = true := by
    intro f j hf
    by_cases hh : f = t ∧ j = i
    · obtain ⟨rfl, rfl⟩ := hh
      rw [store_self]
      exact hp
    · rw [store_of_ne hh]
      exact hf
  have hroot : (m.store t i e).mem (frameOf m.gKernelPml4) 0 = m.mem (frameOf m.gKernelPml4) 0 :=
    store_of_ne fun hh => hi hh.1.symm hh.2.symm
  refine ⟨h.root, h.used, fun {f j} hf he => ?_, fun {f j} hf he => ?_, fun {f j} hf he => ?_, fun {f j} hf he => ?_,
    fun {f j} hf he => ?_, ?_, fun j hj => ?_⟩
  · by_cases hk : k = 2
    · subst hk
      rcases hnew (f := f) (j := j) hf with heq | heq
      · rw [heq]
        exact hc
      · rw [heq] at he ⊢
        exact h.pml4 hf he
    · rw [hrow (by rw [hf]; simp; omega)] at he ⊢
      exact h.pml4 hf he
  · by_cases hk : k = 1
    · subst hk
      rcases hnew (f := f) (j := j) hf with heq | heq
      · rw [heq]
        exact ⟨hg (by omega), hc⟩
      · rw [heq] at he ⊢
        exact h.pdpt hf he
    · rw [hrow (by rw [hf]; simp; omega)] at he ⊢
      exact h.pdpt hf he
  · by_cases hk : k = 0
    · subst hk
      rcases hnew (f := f) (j := j) hf with heq | heq
      · rw [heq]
        exact Or.inr ⟨hg (by omega), hc⟩
      · rw [heq] at he ⊢
        exact h.pd hf he
    · rw [hrow (by rw [hf]; simp; omega)] at he ⊢
      exact h.pd hf he
  · rw [hrow (by rw [hf]; simp)] at he ⊢
    exact h.pt_user hf he
  · rw [hrow (by rw [hf]; simp)] at he ⊢
    exact h.pt_zero hf he
  · show present ((m.store t i e).mem (frameOf m.gKernelPml4) 0) = true
    rw [hroot]
    exact h.slot0
  · show present ((m.store t i e).mem (entryToKptr ((m.store t i e).mem (frameOf m.gKernelPml4) 0)) j) = true
    rw [hroot]
    exact hpdpt (h.slot0_pd j hj)

/-- a present page-table entry that is not the user's -/
theorem Kern.page (h : Kern klv m) (ht : klv t = some 0) (hp : present e = true) (hu : user e = false) :
    Kern klv (m.store t i e) := by
  have hrow : ∀ {f k}, klv f = some (k + 1) → (m.store t i e).mem f = m.mem f := by
    intro f k hf
    refine store_row ?_
    rintro rfl
    rw [ht] at hf
    cases hf
  have hroot := hrow (k := 2) h.root
  refine ⟨h.root, h.used, fun hf he => ?_, fun hf he => ?_, fun hf he => ?_, fun {f j} hf he => ?_, fun {f j} hf he => ?_,
    ?_, fun j hj => ?_⟩
  · rw [hrow hf] at he ⊢
    exact h.pml4 hf he
  · rw [hrow hf] at he ⊢
    exact h.pdpt hf he
  · rw [hrow hf] at he ⊢
    exact h.pd hf he
  · by_cases hh : f = t ∧ j = i
    · obtain ⟨rfl, rfl⟩ := hh
      rw [store_self]
      exact hu
    · rw [store_of_ne hh] at he ⊢
      exact h.pt_user hf he
  · by_cases hh : f = t ∧ j = i
    · obtain ⟨rfl, rfl⟩ := hh
      rw [store_self, hp] at he
      cases he
    · rw [store_of_ne hh] at he ⊢
      exact h.pt_zero hf he
  · show present ((m.store t i e).mem (frameOf m.gKernelPml4) 0) = true
    rw [hroot]
    exact h.slot0
  · show present ((m.store t i e).mem (entryToKptr ((m.store t i e).mem (frameOf m.gKernelPml4) 0)) j) = true
    rw [hroot, hrow (h.pml4 h.root h.slot0)]
    exact h.slot0_pd j hj

/-- an empty table, before anything points at it -/
theorem Kern.label (h : Kern klv m) (hc : klv c = none) (hu : Vmm.used m c = true ∧ 0 < c ∧ c < MAX_FRAMES)
    (hz : ∀ j, m.mem c j = 0) (k : ℕ) : Kern (Function.update klv c (some k)) m := by
  have hold : ∀ {f x}, klv f = some x → Function.update klv c (some k) f = some x := by
    intro f x hf
    rw [Function.update_of_ne]
    · exact hf
    · rintro rfl
      rw [hc] at hf
      cases hf
  have hcase : ∀ {f x j}, Function.update klv c (some k) f = some x → present (m.mem f j) = true → klv f = some x := by
    intro f x j hf he
    by_cases hfc : f = c
    · subst hfc
      rw [hz] at he
      cases he
    · rwa [Function.update_of_ne hfc] at hf
  refine ⟨hold h.root, fun {f x} hf => ?_, fun hf he => hold (h.pml4 (hcase hf he) he), fun hf he => ?_, fun hf he => ?_,
    fun hf he => h.pt_user (hcase hf he) he, fun {f j} hf he => ?_, h.slot0, h.slot0_pd⟩
  · by_cases hfc : f = c
    · subst hfc
      exact hu
    · rw [Function.update_of_ne hfc] at hf
      exact h.used hf
  · obtain ⟨hg, hl⟩ := h.pdpt (hcase hf he) he
    exact ⟨hg, hold hl⟩
  · rcases h.pd (hcase hf he) he with hg | ⟨hg, hl⟩
    · exact Or.inl hg
    · exact Or.inr ⟨hg, hold hl⟩
  · by_cases hfc : f = c
    · subst hfc
      exact hz j
    · rw [Function.update_of_ne hfc] at hf
      exact h.pt_zero hf he

end Kernel

/-- kernel tables may change under the spaces, as long as the borrowed entries lead where they did -/
theorem Inv.kernel {L : Layout} {m m' : Machine} {klv : ℕ → Option ℕ} (h : Inv L m) (hk : Kern klv m')
    (hmono : ∀ {f k}, L.klv f = some k → klv f = some k) (hown : ∀ {f k}, klv f = some k → L.own f = none)
    (hused : ∀ f, used m f = true → used m' f = true)
    (hmem : ∀ {f r p i}, L.own f = some (r, p) → ¬ (p = [] ∧ i = HEAP_PML4_IDX) → m'.mem f i = m.mem f i)
    (hslot : ∀ {f r}, L.own f = some (r, []) → Same (m.mem f HEAP_PML4_IDX) (m'.mem f HEAP_PML4_IDX)) :
    Inv ⟨L.own, klv⟩ m' := by
  have hpriv : ∀ {f r p i}, L.own f = some (r, p) → Priv (i :: p) = true → m'.mem f i = m.mem f i := by
    intro f r p i hf hp
    refine hmem hf ?_
    rintro ⟨rfl, rfl⟩
    cases hp
  have hdeep : ∀ {f r p i}, L.own f = some (r, p) → p ≠ [] → m'.mem f i = m.mem f i := fun hf hp =>
    hmem hf fun hh => hp hh.1
  have h0 : ∀ {f r}, L.own f = some (r, []) → m'.mem f 0 = m.mem f 0 := fun hf =>
    hmem hf fun hh => absurd hh.2 (by decide)
  refine ⟨⟨h.tree.priv, h.tree.root, fun {c r i p} hc => ?_, fun {f r p i c} hf hp hc => ?_⟩, hk, hown, hused 0 h.zero,
    fun {f x} hf => ?_, fun {f r p i} hf hp he => ?_, fun {f r} hf => ?_, fun {f r i} hf hi => ?_, fun {f r i} hf hi => ?_,
    fun {f r i} hf hp he => ?_, fun {f r i3 i2} hf hp he => ?_⟩
  · obtain ⟨f, hf, hchild⟩ := h.tree.up hc
    exact ⟨f, hf, by rw [hpriv hf (h.tree.priv hc)]; exact hchild⟩
  · rw [hpriv hf hp] at hc
    exact h.tree.down hf hp hc
  · obtain ⟨h1, h2, h3⟩ := h.own_used hf
    exact ⟨hused f h1, h2, h3⟩
  · rw [hpriv hf hp] at he ⊢
    exact h.own_huge hf hp he
  · rw [h0 hf]
    exact h.slot0 hf
  · rw [hdeep hf (by simp)]
    exact h.slot0_pd hf hi
  · rw [hdeep hf (by simp)]
    exact h.slot0_end hf hi
  · by_cases hi : i = HEAP_PML4_IDX
    · subst hi
      have hs := hslot hf
      rw [hs.1] at he
      rw [(hs.2 he).1]
      exact hmono (h.shr_pml4 hf hp he)
    · rw [hmem hf fun hh => hi hh.2] at he ⊢
      exact hmono (h.shr_pml4 hf hp he)
  · rw [hdeep hf (by simp)] at he ⊢
    rcases h.shr_pd hf hp he with hg | ⟨hg, hl⟩
    · exact Or.inl hg
    · exact Or.inr ⟨hg, hmono hl⟩

/-! ## The heap's tables -/

/-- the tables below the heap's PDPT H: 2 = PDPT, 0 = PT. K is the kernel's PML4 -/
structure HeapZone (K H : ℕ) (hz : ℕ → Option ℕ) (L : Layout) (m : Machine) : Prop where
  gk : frameOf m.gKernelPml4 = K
  top : hz H = some 2
  klv : ∀ {f k}, hz f = some k → L.klv f = some k ∧ k ≤ 2
  slot : ∀ {f}, f = K ∨ L.own f = some (f, []) → child (m.mem f HEAP_PML4_IDX) = some H
  link : ∀ {f k i}, hz f = some (k + 1) → present (m.mem f i) = true →
    huge (m.mem f i) = false ∧ hz (entryToKptr (m.mem f i)) = some k
  /-- no other table leads to them -/
  apart : ∀ {f k i}, level L f = some (k + 1) → k ≤ 2 → hz f = none → ¬ (k = 2 ∧ i = HEAP_PML4_IDX) →
    present (m.mem f i) = true → (k = 0 → huge (m.mem f i) = false) → hz (entryToKptr (m.mem f i)) = none

/-- the heap's slot of a PML4 -/
def HeapSlot (L : Layout) (f : ℕ) (i : Idx) : Prop := level L f = some 3 ∧ i = HEAP_PML4_IDX

/-- what growing the heap does to tables, spaces and registers -/
structure Growth (K H : ℕ) (hz : ℕ → Option ℕ) (L : Layout) (m : Machine) (hz' : ℕ → Option ℕ) (L' : Layout)
    (m' : Machine) : Prop where
  inv : Inv L' m'
  zone : HeapZone K H hz' L' m'
  own : L'.own = L.own
  klv : ∀ {f k}, L.klv f = some k → L'.klv f = some k
  /-- a new table was a free frame -/
  fresh : ∀ {f k}, L'.klv f = some k → L.klv f = some k ∨ used m f = false
  grow : ∀ {f k}, hz f = some k → hz' f = some k
  new : ∀ {f k}, hz' f = some k → hz f = some k ∨ used m f = false
  mem : ∀ {f i}, used m f = true → hz f = none → ¬ HeapSlot L f i → m'.mem f i = m.mem f i
  used : ∀ f, Vmm.used m f = true → Vmm.used m' f = true
  regs : Regs m m'

section Growth

variable {K H t c k : ℕ} {hz hz' hz'' : ℕ → Option ℕ} {L L' L'' : Layout} {m m' m'' : Machine} {i : Idx} {e fl v : U64}

theorem Growth.refl (h : Inv L m) (z : HeapZone K H hz L m) : Growth K H hz L m hz L m :=
  ⟨h, z, rfl, fun hf => hf, fun hf => Or.inl hf, fun hf => hf, fun hf => Or.inl hf, fun _ _ _ => rfl, fun _ hu => hu,
    Regs.refl m⟩

/-- levels of frames in use stay -/
theorem Growth.same_level (g : Growth K H hz L m hz' L' m') {f : ℕ} (hf : Vmm.used m f = true) :
    level L' f = level L f := by
  have hk : L'.klv f = L.klv f := by
    cases hx : L'.klv f with
    | none =>
      cases hy : L.klv f with
      | none => rfl
      | some k =>
        rw [g.klv hy] at hx
        cases hx
    | some k =>
      rcases g.fresh hx with hy | hu
      · exact hy.symm
      · rw [hf] at hu
        cases hu
  rw [level, level, hk, g.own]

theorem Growth.trans (g1 : Growth K H hz L m hz' L' m') (g2 : Growth K H hz' L' m' hz'' L'' m'') :
    Growth K H hz L m hz'' L'' m'' := by
  have hfree : ∀ {f}, Vmm.used m' f = false → Vmm.used m f = false := by
    intro f hf
    cases hu : Vmm.used m f with
    | false => rfl
    | true =>
      rw [g1.used f hu] at hf
      cases hf
  refine ⟨g2.inv, g2.zone, g2.own.trans g1.own, fun hf => g2.klv (g1.klv hf), fun hf => ?_, fun hf => g2.grow (g1.grow hf),
    fun hf => ?_, fun {f i} hu hn hs => ?_, fun f hu => g2.used f (g1.used f hu), g1.regs.trans g2.regs⟩
  · rcases g2.fresh hf with hf | hu
    · exact g1.fresh hf
    · exact Or.inr (hfree hu)
  · rcases g2.new hf with hf | hu
    · exact g1.new hf
    · exact Or.inr (hfree hu)
  · have hn' : hz' f = none := by
      cases hx : hz' f with
      | none => rfl
      | some k =>
        rcases g1.new hx with hy | hf
        · rw [hn] at hy
          cases hy
        · rw [hu] at hf
          cases hf
    have hs' : ¬ HeapSlot L' f i := fun hh => hs ⟨by rw [← g1.same_level hu]; exact hh.1, hh.2⟩
    rw [g2.mem (g1.used f hu) hn' hs', g1.mem hu hn hs]

/-! ### One edit -/

/-- the heap's tables are nobody's, and no PML4 -/
theorem HeapZone.not_slot (h : Inv L m) (z : HeapZone K H hz L m) (ht : t = K ∨ L.own t = some (t, [])) :
    hz t = none := by
  cases hx : hz t with
  | none => rfl
  | some k =>
    obtain ⟨hk, hle⟩ := z.klv hx
    rcases ht with rfl | ho
    · have hroot := h.kern.root
      rw [z.gk, hk] at hroot
      cases hroot
      omega
    · rw [h.klv_none ho] at hk
      cases hk

theorem slot_level (h : Inv L m) (z : HeapZone K H hz L m) (ht : t = K ∨ L.own t = some (t, [])) :
    level L t = some 3 := by
  rcases ht with rfl | ho
  · refine level_kernel ?_
    rw [← z.gk]
    exact h.kern.root
  · exact level_own h ho (by simp)

/-- the zone reads tables only -/
theorem HeapZone.congr (h : Inv L m) (z : HeapZone K H hz L m) (hg : m'.gKernelPml4 = m.gKernelPml4)
    (hm : ∀ f, level L f ≠ none → m'.mem f = m.mem f) : HeapZone K H hz L m' := by
  have hzone : ∀ {f k}, hz f = some k → m'.mem f = m.mem f := fun hf =>
    hm _ (by rw [level_kernel (z.klv hf).1]; simp)
  refine ⟨by rw [hg]; exact z.gk, z.top, z.klv, fun {f} hf => ?_, fun {f k i} hf he => ?_,
    fun {f k i} hf hk hn hs he hh => ?_⟩
  · rw [hm f (by rw [slot_level h z hf]; simp)]
    exact z.slot hf
  · rw [hzone hf] at he ⊢
    exact z.link hf he
  · rw [hm f (by rw [hf]; simp)] at he hh ⊢
    exact z.apart hf hk hn hs he hh

theorem Growth.alloc {a : U64} (h : Inv L m) (z : HeapZone K H hz L m) (ha : m.allocFrame = some (a, m')) :
    Growth K H hz L m hz L m' := by
  have hst := (Stage.refl m).alloc ha
  obtain ⟨f, -, -, -, hm, -⟩ := alloc_spec ha
  have hmem : m'.mem = m.mem := by rw [hm]
  exact ⟨hst.inv h, z.congr h hst.rest.2.1 fun _ _ => by rw [hmem], rfl, fun hf => hf, fun hf => Or.inl hf, fun hf => hf,
    fun hf => Or.inl hf, fun _ _ _ => by rw [hmem], fun _ hu => hst.used hu, hst.rest.1, hst.rest.2.1⟩

/-- a store to a table of the heap, or to the heap's slot -/
theorem Growth.store (h : Inv L m) (z : HeapZone K H hz L m)
    (ht : hz t ≠ none ∨ (t = K ∨ L.own t = some (t, [])) ∧ i = HEAP_PML4_IDX) (hk : Kern L.klv (m.store t i e))
    (hlink : ∀ k, hz t = some (k + 1) → present e = true → huge e = false ∧ hz (entryToKptr e) = some k)
    (hsame : hz t = none → Same (m.mem t i) e) : Growth K H hz L m hz L (m.store t i e) := by
  have hne : ∀ {f j}, hz f = none → ¬ ((f = K ∨ L.own f = some (f, [])) ∧ j = HEAP_PML4_IDX) →
      (m.store t i e).mem f j = m.mem f j := by
    intro f j hn hs
    refine store_of_ne ?_
    rintro ⟨rfl, rfl⟩
    rcases ht with ht | ht
    · exact ht hn
    · exact hs ht
  have hown : ∀ {f x}, L.own f = some x → hz f = none := by
    intro f x hf
    cases hx : hz f with
    | none => rfl
    | some k =>
      rw [h.apart (z.klv hx).1] at hf
      cases hf
  have hslot : ∀ {f}, f = K ∨ L.own f = some (f, []) →
      Same (m.mem f HEAP_PML4_IDX) ((m.store t i e).mem f HEAP_PML4_IDX) := by
    intro f hf
    by_cases hh : f = t ∧ HEAP_PML4_IDX = i
    · obtain ⟨rfl, rfl⟩ := hh
      rw [store_self]
      exact hsame (z.not_slot h hf)
    · exact Same.of_eq (store_of_ne hh)
  refine ⟨h.kernel hk (fun hf => hf) (fun hf => h.apart hf) (fun _ hu => hu) (fun {f r p j} hf hs => ?_) (fun {f r} hf => ?_),
    ⟨z.gk, z.top, z.klv, fun {f} hf => ?_, fun {f k j} hf he => ?_, fun {f k j} hf hk' hn hs he hh => ?_⟩, rfl, fun hf => hf,
    fun hf => Or.inl hf, fun hf => hf, fun hf => Or.inl hf, fun {f j} _ hn hs => ?_, fun _ hu => hu, rfl, rfl⟩
  · refine hne (hown hf) ?_
    rintro ⟨rfl | ho, hj⟩
    · have hroot := h.kern.root
      rw [z.gk] at hroot
      rw [h.apart hroot] at hf
      cases hf
    · rw [hf] at ho
      cases ho
      exact hs ⟨rfl, hj⟩
  · obtain rfl := h.tree.root hf
    exact hslot (Or.inr hf)
  · obtain ⟨hp, hc⟩ := child_some.1 (z.slot hf)
    have hs := hslot hf
    exact child_some.2 ⟨hs.1.trans hp, ((hs.2 hp).1).trans hc⟩
  · by_cases hh : f = t ∧ j = i
    · obtain ⟨rfl, rfl⟩ := hh
      rw [store_self] at he ⊢
      exact hlink k hf he
    · rw [store_of_ne hh] at he ⊢
      exact z.link hf he
  · have hold : (m.store t i e).mem f j = m.mem f j := by
      refine hne hn ?_
      rintro ⟨hf', rfl⟩
      rw [slot_level h z hf'] at hf
      cases hf
      exact hs ⟨rfl, rfl⟩
    rw [hold] at he hh ⊢
    exact z.apart hf hk' hn hs he hh
  · refine hne hn ?_
    rintro ⟨hf', rfl⟩
    exact hs ⟨slot_level h z hf', rfl⟩

/-- a link that is there is widened -/
theorem Growth.widen (h : Inv L m) (z : HeapZone K H hz L m)
    (ht : hz t = some (k + 1) ∨ (t = K ∨ L.own t = some (t, [])) ∧ i = HEAP_PML4_IDX) (hp : present (m.mem t i) = true) :
    Growth K H hz L m hz L (m.store t i (m.mem t i ||| (fl &&& (USER ||| WRITABLE)))) := by
  have hw := widen_same (m.mem t i) fl
  have hp' := hw.1.trans hp
  obtain ⟨hk, hh⟩ := hw.2 hp
  rcases ht with ht | ⟨ht, rfl⟩
  · obtain ⟨hg, hl⟩ := z.link ht hp
    obtain ⟨hkt, hle⟩ := z.klv ht
    refine Growth.store h z (Or.inl (by rw [ht]; simp)) ?_ (fun k' hk' _ => ?_) fun hn => ?_
    · refine h.kern.link hkt (fun hroot => ?_) hp' (fun _ => hh.trans hg) (by rw [hk]; exact (z.klv hl).1)
      have := z.not_slot h (Or.inl (hroot.trans z.gk))
      rw [ht] at this
      cases this
    · rw [ht] at hk'
      cases hk'
      rw [hk]
      exact ⟨hh.trans hg, hl⟩
    · rw [ht] at hn
      cases hn
  · have hc := (child_some.1 (z.slot ht)).2
    have hn := z.not_slot h ht
    refine Growth.store h z (Or.inr ⟨ht, rfl⟩) ?_ (fun k' hk' _ => ?_) fun _ => hw
    · rcases ht with rfl | ho
      · have hroot : L.klv t = some 3 := by
          rw [← z.gk]
          exact h.kern.root
        exact h.kern.link hroot (fun _ => by decide) hp' (fun hlt => absurd hlt (by decide))
          (by rw [hk, hc]; exact (z.klv z.top).1)
      · exact h.kern_store ho
    · rw [hn] at hk'
      cases hk'

/-- a label for an empty frame nobody has -/
theorem Inv.label (h : Inv L m) (ho : L.own c = none) (hc : L.klv c = none)
    (hu : Vmm.used m c = true ∧ 0 < c ∧ c < MAX_FRAMES) (h0 : ∀ j, m.mem c j = 0) (k : ℕ) :
    Inv ⟨L.own, Function.update L.klv c (some k)⟩ m := by
  refine h.kernel (h.kern.label hc hu h0 k) (fun {f x} hf => ?_) (fun {f x} hf => ?_) (fun _ hf => hf) (fun _ _ => rfl)
    fun _ => Same.refl _
  · rw [Function.update_of_ne]
    · exact hf
    · rintro rfl
      rw [hc] at hf
      cases hf
  · by_cases hfc : f = c
    · rw [hfc]
      exact ho
    · rw [Function.update_of_ne hfc] at hf
      exact h.apart hf

theorem level_update {f : ℕ} (hf : f ≠ c) : level ⟨L.own, Function.update L.klv c (some k)⟩ f = level L f := by
  unfold level
  simp only [Function.update_of_ne hf]

/-- what an entry above the page tables points at is one level down -/
theorem Inv.child_level (h : Inv L m) {f : ℕ} (hf : level L f = some (k + 1)) (hk : k ≤ 2)
    (he : present (m.mem f i) = true) (hh : k = 0 → huge (m.mem f i) = false) :
    level L (entryToKptr (m.mem f i)) = some k := by
  match k, hk with
  | 0, _ => exact h.levels.pd hf he (hh rfl)
  | 1, _ => exact (h.levels.pdpt hf he).2
  | 2, _ => exact h.levels.pml4 hf he

theorem HeapZone.label (h : Inv L m) (z : HeapZone K H hz L m) (hc : level L c = none) (h0 : ∀ j, m.mem c j = 0)
    (hk : k ≤ 2) :
    HeapZone K H (Function.update hz c (some k)) ⟨L.own, Function.update L.klv c (some k)⟩ m := by
  have hne : ∀ {f x}, hz f = some x → f ≠ c := by
    rintro f x hf rfl
    rw [level_kernel (z.klv hf).1] at hc
    cases hc
  refine ⟨z.gk, ?_, fun {f x} hf => ?_, fun hf => z.slot hf, fun {f x i} hf he => ?_,
    fun {f x i} hf hx hn hs he hh => ?_⟩
  · rw [Function.update_of_ne (hne z.top)]
    exact z.top
  · by_cases hfc : f = c
    · rw [hfc, Function.update_self] at hf
      cases hf
      exact ⟨by rw [hfc]; exact Function.update_self .., hk⟩
    · rw [Function.update_of_ne hfc] at hf
      exact ⟨(Function.update_of_ne hfc _ _).trans (z.klv hf).1, (z.klv hf).2⟩
  · by_cases hfc : f = c
    · rw [hfc, h0] at he
      cases he
    · rw [Function.update_of_ne hfc] at hf
      obtain ⟨hg, hl⟩ := z.link hf he
      rw [Function.update_of_ne (hne hl)]
      exact ⟨hg, hl⟩
  · have hfc : f ≠ c := by
      rintro rfl
      rw [Function.update_self] at hn
      cases hn
    rw [level_update hfc] at hf
    rw [Function.update_of_ne hfc] at hn
    -- nothing points at c
    have hcl := h.child_level hf hx he hh
    rw [Function.update_of_ne]
    · exact z.apart hf hx hn hs he hh
    · intro heq
      rw [heq, hc] at hcl
      cases hcl

/-- a new empty table of the heap -/
theorem Growth.table {a : U64} (h : Inv L m) (z : HeapZone K H hz L m) (ha : m.allocFrame = some (a, m')) (hk : k ≤ 2) :
    Growth K H hz L m (Function.update hz (frameOf a) (some k))
      ⟨L.own, Function.update L.klv (frameOf a) (some k)⟩ (m'.fill (frameOf a) fun _ => 0) := by
  have hst := (Stage.refl m).alloc ha
  obtain ⟨c, rfl, hlt, hfree, -, hu, -⟩ := alloc_spec ha
  rw [frameOf_addrOf hlt]
  obtain ⟨hco, hck, hc0⟩ := h.fresh hfree
  have hstf := hst.fill hfree fun _ => 0
  have hzero : ∀ j, (m'.fill c fun _ => 0).mem c j = 0 := fun j => by rw [fill_mem, if_pos rfl]
  have huc : Vmm.used (m'.fill c fun _ => 0) c = true := by
    rw [used_fill, hu]
    simp
  have hlev : level L c = none := by
    unfold level
    simp only [hck, hco]
  have hfresh : ∀ {α : Type} {g : ℕ → Option α} {f y x}, Function.update g c (some y) f = some x →
      g f = some x ∨ Vmm.used m f = false := by
    intro α g f y x hf
    by_cases hfc : f = c
    · exact Or.inr (hfc ▸ hfree)
    · rw [Function.update_of_ne hfc] at hf
      exact Or.inl hf
  have hkeep : ∀ {f x}, L.klv f = some x → f ≠ c := by
    rintro f x hf rfl
    rw [hck] at hf
    cases hf
  have z1 : HeapZone K H hz L (m'.fill c fun _ => 0) := by
    refine z.congr h hstf.rest.2.1 fun f hf => hstf.mem ?_
    obtain ⟨x, hx⟩ := Option.ne_none_iff_exists'.1 hf
    exact h.levels.used hx
  refine ⟨(hstf.inv h).label hco hck ⟨huc, Nat.pos_of_ne_zero hc0, hlt⟩ hzero k, z1.label (hstf.inv h) hlev hzero hk, rfl,
    fun hf => ?_, fun hf => hfresh hf, fun hf => ?_, fun hf => hfresh hf, fun hf _ _ => by rw [hstf.mem hf],
    fun _ hf => hstf.used hf, hstf.rest.1, hstf.rest.2.1⟩
  · exact (Function.update_of_ne (hkeep hf) _ _).trans hf
  · rw [Function.update_of_ne (hkeep (z.klv hf).1)]
    exact hf

/-- a table of the heap, one level down -/
theorem Growth.ensure (h : Inv L m) (z : HeapZone K H hz L m) (ht : hz t = some (k + 1)) (hfl : Flags fl)
    (hh : huge fl = false) (he : ensureTable m t i fl = some (c, m')) :
    ∃ hz' L', Growth K H hz L m hz' L' m' ∧ hz' c = some k := by
  obtain ⟨hkt, hle⟩ := z.klv ht
  by_cases h0 : present (m.mem t i) = true
  · rw [ensureTable_present h0] at he
    cases he
    exact ⟨hz, L, Growth.widen h z (Or.inl ht) h0, (z.link ht h0).2⟩
  unfold ensureTable at he
  rw [if_pos ((absent_iff _).2 (by simpa using h0))] at he
  obtain ⟨⟨a, m1⟩, ha, hres⟩ := Option.map_eq_some_iff.1 he
  have g := Growth.table h z ha (show k ≤ 2 by omega)
  obtain ⟨f, rfl, hlt, hfree, -⟩ := alloc_spec ha
  rw [frameOf_addrOf hlt] at g
  simp only [frameOf_addrOf hlt, store_self, kptr_table hlt hfl, Prod.mk.injEq] at hres
  obtain ⟨rfl, rfl⟩ := hres
  have hself : Function.update hz f (some k) f = some k := Function.update_self ..
  have hent : entryToKptr (addrOf f ||| fl ||| PRESENT) = f := kptr_table hlt hfl
  have hht : huge (addrOf f ||| fl ||| PRESENT) = false := huge_table hlt hh
  have ht' := g.grow ht
  refine ⟨_, _, g.trans (Growth.store g.inv g.zone (Or.inl (by rw [ht']; simp)) ?_ (fun k' hk' _ => ?_) fun hn => ?_), hself⟩
  · refine g.inv.kern.link (g.zone.klv ht').1 (fun hroot => ?_) (present_table _) (fun _ => hht)
      (by rw [hent]; exact (g.zone.klv hself).1)
    have := g.zone.not_slot g.inv (Or.inl (hroot.trans g.zone.gk))
    rw [ht'] at this
    cases this
  · rw [ht'] at hk'
    cases hk'
    rw [hent]
    exact ⟨hht, hself⟩
  · rw [ht'] at hn
    cases hn

/-- a page of the heap -/
theorem Growth.leaf (h : Inv L m) (z : HeapZone K H hz L m) (ht : hz t = some 0) (hp : present e = true)
    (hu : user e = false) : Growth K H hz L m hz L (m.store t i e) := by
  refine Growth.store h z (Or.inl (by rw [ht]; simp)) (h.kern.page (z.klv ht).1 hp hu) (fun k hk _ => ?_) fun hn => ?_
  · rw [ht] at hk
    cases hk
  · rw [ht] at hn
    cases hn

/-- the rest of `map`, from the heap's PDPT on -/
theorem Growth.below {w x : U64} {pd pt pdpt : ℕ} {m1 m2 m3 : Machine} {j2 j1 j : Idx} (h : Inv L m)
    (z : HeapZone K H hz L m) (hpdpt : hz pdpt = some 2) (hfl : Flags w) (hh : huge w = false)
    (e2 : ensureTable m pdpt j2 w = some (pd, m1)) (hs : splitIfHuge m1 pd j1 = some m2)
    (e4 : ensureTable m2 pd j1 w = some (pt, m3)) (hp : present x = true) (hu : user x = false) :
    ∃ hz' L', Growth K H hz L m hz' L' (m3.store pt j x) := by
  obtain ⟨hz2, L2, g2, hpd⟩ := Growth.ensure h z hpdpt hfl hh e2
  -- the PD entry is no 2 MiB page
  have hsplit : splitIfHuge m1 pd j1 = some m1 := by
    unfold splitIfHuge
    rw [if_neg]
    rw [isHuge_eq, Bool.and_eq_true]
    rintro ⟨hp2, hg2⟩
    rw [(g2.zone.link hpd hp2).1] at hg2
    cases hg2
  rw [hsplit] at hs
  cases hs
  obtain ⟨hz4, L4, g4, hpt⟩ := Growth.ensure g2.inv g2.zone hpd hfl hh e4
  exact ⟨hz4, L4, (g2.trans g4).trans (Growth.leaf g4.inv g4.zone hpt hp hu)⟩

/-- what `grow_heap` puts into a page table -/
theorem heap_leaf (phys : U64) : present ((phys &&& ~~~0xFFF#64) ||| KERNEL_RW) = true ∧
    user ((phys &&& ~~~0xFFF#64) ||| KERNEL_RW) = false := by
  constructor
  · rw [present_or]
    simp [present, KERNEL_RW, PRESENT, WRITABLE, NO_EXECUTE]
  · unfold user
    rw [BitVec.getLsbD_or, BitVec.getLsbD_and]
    simp [KERNEL_RW, PRESENT, WRITABLE, NO_EXECUTE]

/-- **Map at a heap address**, under any PML4. -/
theorem Growth.map {phys : U64} (h : Inv L m) (z : HeapZone K H hz L m) (ht : t = K ∨ L.own t = some (t, []))
    (hv : tableIdx v 39 = HEAP_PML4_IDX) (hm : mapInto m t v phys KERNEL_RW = some m') :
    ∃ hz' L', Growth K H hz L m hz' L' m' := by
  have hw := intermediate_flags KERNEL_RW
  unfold mapInto at hm
  simp only [bind, Option.bind_eq_some_iff, pure, Option.some.injEq] at hm
  generalize (if KERNEL_RW &&& USER ≠ 0 then PRESENT ||| WRITABLE ||| USER else PRESENT ||| WRITABLE) = w at hm hw
  obtain ⟨hfl, hh⟩ := hw
  obtain ⟨⟨pdpt, m1⟩, e1, ⟨pd, m2⟩, e2, m3, hs, ⟨pt, m4⟩, e4, rfl⟩ := hm
  obtain ⟨hp, hc⟩ := child_some.1 (z.slot ht)
  rw [hv, ensureTable_present hp] at e1
  cases e1
  have g1 : Growth K H hz L m hz L (m.store t HEAP_PML4_IDX (m.mem t HEAP_PML4_IDX ||| (w &&& (USER ||| WRITABLE)))) :=
    Growth.widen (k := 0) h z (Or.inr ⟨ht, rfl⟩) hp
  obtain ⟨hz', L', g2⟩ := Growth.below g1.inv g1.zone (by rw [hc]; exact z.top) hfl hh e2 hs e4 (heap_leaf phys).1
    (heap_leaf phys).2
  exact ⟨hz', L', g1.trans g2⟩

/-! ### Rounds of `grow_heap` -/

theorem Growth.page {virt : U64} {j : ℕ} (h : Inv L m) (z : HeapZone K H hz L m)
    (ht : getPml4 m = K ∨ L.own (getPml4 m) = some (getPml4 m, []))
    (hv : tableIdx (virt + BitVec.ofNat 64 j * 4096) 39 = HEAP_PML4_IDX) (hg : growPage virt m j = some m') :
    ∃ hz' L', Growth K H hz L m hz' L' m' := by
  obtain ⟨a, m1, ha, hm⟩ := growPage_some hg
  have g1 := Growth.alloc h z ha
  have hcr3 : getPml4 m1 = getPml4 m := by rw [getPml4, g1.regs.1]; rfl
  rw [hcr3] at hm
  obtain ⟨hz', L', g2⟩ := Growth.map g1.inv g1.zone ht hv hm
  exact ⟨hz', L', g1.trans g2⟩

/-- **Growth.** -/
theorem Growth.pages {virt : U64} {l : List ℕ} (h : Inv L m) (z : HeapZone K H hz L m)
    (ht : getPml4 m = K ∨ L.own (getPml4 m) = some (getPml4 m, []))
    (hl : ∀ j ∈ l, tableIdx (virt + BitVec.ofNat 64 j * 4096) 39 = HEAP_PML4_IDX)
    (hg : l.foldlM (growPage virt) m = some m') : ∃ hz' L', Growth K H hz L m hz' L' m' := by
  induction l generalizing m hz L with
  | nil =>
    cases hg
    exact ⟨hz, L, Growth.refl h z⟩
  | cons j l ih =>
    rw [List.foldlM_cons] at hg
    obtain ⟨m1, h1, h2⟩ := Option.bind_eq_some_iff.1 hg
    obtain ⟨hz1, L1, g1⟩ := Growth.page h z ht (hl j (List.mem_cons_self ..)) h1
    have hcr3 : getPml4 m1 = getPml4 m := by rw [getPml4, g1.regs.1]; rfl
    obtain ⟨hz2, L2, g2⟩ := ih g1.inv g1.zone (by rw [hcr3, g1.own]; exact ht)
      (fun i hi => hl i (List.mem_cons_of_mem _ hi)) h2
    exact ⟨hz2, L2, g1.trans g2⟩

/-! ### The first page -/

/-- no page of a space yet -/
theorem Inv.bare (h : Inv L m) (ho : ∀ f, L.own f = none) : History L m [] {f | Vmm.used m f = true} :=
  ⟨h, fun r => by simp [ho], List.nodup_nil, fun f hf => ⟨hf, ho f⟩, fun _ _ hk => (h.kern.used hk).1⟩

/-- the heap's PDPT, below the boot PML4 -/
theorem HeapZone.first {w : U64} (h : Inv L m) (ho : ∀ f, L.own f = none)
    (h0 : present (m.mem (frameOf m.gKernelPml4) HEAP_PML4_IDX) = false) (hfl : Flags w)
    (he : ensureTable m (frameOf m.gKernelPml4) HEAP_PML4_IDX w = some (c, m')) :
    ∃ L', Inv L' m' ∧ (∀ f, L'.own f = none) ∧
      HeapZone (frameOf m.gKernelPml4) c (Function.update (fun _ => none) c (some 2)) L' m' := by
  unfold ensureTable at he
  rw [if_pos ((absent_iff _).2 h0)] at he
  obtain ⟨⟨a, m1⟩, ha, hres⟩ := Option.map_eq_some_iff.1 he
  have hst := (Stage.refl m).alloc ha
  obtain ⟨f, rfl, hlt, hfree, hm, hu, -⟩ := alloc_spec ha
  have hkf : entryToKptr (addrOf f ||| w ||| PRESENT) = f := kptr_table hlt hfl
  simp only [frameOf_addrOf hlt, store_self, hkf, Prod.mk.injEq] at hres
  obtain ⟨rfl, rfl⟩ := hres
  have hstf := hst.fill hfree fun _ => 0
  obtain ⟨-, hck, hc0⟩ := h.fresh hfree
  have hroot := h.kern.root
  have hzero : ∀ j, (m1.fill f fun _ => 0).mem f j = 0 := fun j => by rw [fill_mem, if_pos rfl]
  have huf : Vmm.used (m1.fill f fun _ => 0) f = true := by
    rw [used_fill, hu]
    simp
  have hi := (hstf.inv h).label (ho f) hck ⟨huf, Nat.pos_of_ne_zero hc0, hlt⟩ hzero 2
  have hne : frameOf m.gKernelPml4 ≠ f := by
    intro heq
    rw [heq, hck] at hroot
    cases hroot
  have hgk : (m1.fill f fun _ => 0).gKernelPml4 = m.gKernelPml4 := hstf.rest.2.1
  have hcase : ∀ {g x}, Function.update (fun _ => none) f (some 2) g = some x → g = f ∧ x = 2 := by
    intro g x hg
    by_cases hgf : g = f
    · rw [hgf, Function.update_self] at hg
      cases hg
      exact ⟨hgf, rfl⟩
    · rw [Function.update_of_ne hgf] at hg
      cases hg
  have hk : Kern (Function.update L.klv f (some 2))
      ((m1.fill f fun _ => 0).store (frameOf m.gKernelPml4) HEAP_PML4_IDX (addrOf f ||| w ||| PRESENT)) := by
    refine hi.kern.link ((Function.update_of_ne hne _ _).trans hroot) (fun _ => by decide) (present_table _)
      (fun hlt => absurd hlt (by decide)) ?_
    rw [hkf]
    exact Function.update_self ..
  refine ⟨⟨L.own, Function.update L.klv f (some 2)⟩, hi.kernel hk (fun hf => hf) (fun _ => ho _) (fun _ hf => hf)
    (fun hf => ?_) (fun hf => ?_), ho, ⟨congrArg frameOf hgk, Function.update_self .., fun hg => ?_, fun hg => ?_,
    fun {g k i} hg hp => ?_, fun {g k i} hg hle hn hs hp hhg => ?_⟩⟩
  · rw [ho] at hf
    cases hf
  · rw [ho] at hf
    cases hf
  · obtain ⟨rfl, rfl⟩ := hcase hg
    exact ⟨Function.update_self .., le_rfl⟩
  · rcases hg with rfl | hg
    · rw [store_self]
      exact child_some.2 ⟨present_table _, hkf⟩
    · rw [ho] at hg
      cases hg
  · obtain ⟨rfl, -⟩ := hcase hg
    rw [store_row hne.symm, hzero] at hp
    cases hp
  · have hgf : g ≠ f := by
      rintro rfl
      rw [Function.update_self] at hn
      cases hn
    rw [level_update hgf] at hg
    have hrow : ((m1.fill f fun _ => 0).store (frameOf m.gKernelPml4) HEAP_PML4_IDX (addrOf f ||| w ||| PRESENT)).mem g i =
        m.mem g i := by
      rw [store_of_ne, hstf.mem (h.levels.used hg)]
      rintro ⟨rfl, rfl⟩
      rw [level_kernel hroot] at hg
      cases hg
      exact hs ⟨rfl, rfl⟩
    rw [hrow] at hp hhg ⊢
    have hl := h.child_level hg hle hp hhg
    refine Function.update_of_ne ?_ _ _
    intro heq
    rw [heq, level, hck, ho] at hl
    cases hl

/-- **After `heap::init`.** -/
theorem heap_zoned {m' : Machine} (hb : Booted m) (hcr3 : getPml4 m = frameOf m.gKernelPml4)
    (h0 : present (m.mem (frameOf m.gKernelPml4) HEAP_PML4_IDX) = false)
    (hg : (List.range 256).foldlM (growPage HEAP_START) m = some m') :
    ∃ H hz L, History L m' [] {f | Vmm.used m' f = true} ∧ HeapZone (frameOf m.gKernelPml4) H hz L m' ∧
      getPml4 m' = frameOf m.gKernelPml4 := by
  obtain ⟨L, h, ho⟩ := hb.history
  have hrange : List.range 256 = 0 :: (List.range 255).map Nat.succ := List.range_succ_eq_map
  rw [hrange, List.foldlM_cons] at hg
  obtain ⟨m1, hfirst, hrest⟩ := Option.bind_eq_some_iff.1 hg
  -- the heap's slot is empty when the first page is mapped
  obtain ⟨a, m2, ha, hmap⟩ := growPage_some hfirst
  have hst := (Stage.refl m).alloc ha
  have hgk : m2.gKernelPml4 = m.gKernelPml4 := hst.rest.2.1
  have hroot : getPml4 m2 = frameOf m2.gKernelPml4 := by
    rw [getPml4, hst.rest.1, hgk]
    exact hcr3
  have hslot : tableIdx (HEAP_START + BitVec.ofNat 64 0 * 4096) 39 = HEAP_PML4_IDX := by decide
  obtain ⟨hfl, hh⟩ := intermediate_flags KERNEL_RW
  unfold mapInto at hmap
  simp only [bind, Option.bind_eq_some_iff, pure, Option.some.injEq] at hmap
  obtain ⟨⟨pdpt, m3⟩, e1, ⟨pd, m4⟩, e2, m5, hs, ⟨pt, m6⟩, e4, rfl⟩ := hmap
  rw [hroot, hslot] at e1
  have hempty : present (m2.mem (frameOf m2.gKernelPml4) HEAP_PML4_IDX) = false := by
    rw [hgk, hst.mem (h.inv.kern.used h.inv.kern.root).1]
    exact h0
  obtain ⟨L1, hi1, ho1, z1⟩ := HeapZone.first (hst.inv h.inv) ho hempty hfl e1
  rw [hgk] at z1
  obtain ⟨hz2, L2, g2⟩ := Growth.below hi1 z1 z1.top hfl hh e2 hs e4 (heap_leaf a).1 (heap_leaf a).2
  -- the rest of the pages
  have hact : getPml4 (m6.store pt (tableIdx (HEAP_START + BitVec.ofNat 64 0 * 4096) 12)
      ((a &&& ~~~0xFFF#64) ||| KERNEL_RW)) = frameOf m.gKernelPml4 := by
    rw [getPml4, (growPage_regs hfirst).1]
    exact hcr3
  have hslots : ∀ i ∈ (List.range 255).map Nat.succ,
      tableIdx (HEAP_START + BitVec.ofNat 64 i * 4096) 39 = HEAP_PML4_IDX := by
    intro i hi
    obtain ⟨j, hj, rfl⟩ := List.mem_map.1 hi
    rw [List.mem_range] at hj
    exact heap_page le_rfl (by decide) (show 256 ≤ MAX_FRAMES by decide) (by omega)
  obtain ⟨hz', L', g⟩ := Growth.pages g2.inv g2.zone (Or.inl hact) hslots hrest
  refine ⟨pdpt, hz', L', g.inv.bare fun f => by rw [g.own, g2.own]; exact ho1 f, g.zone, ?_⟩
  rw [getPml4, g.regs.1]
  exact hact

/-! ### What a growth leaves alone -/

theorem HeapZone.own_none (h : Inv L m) (z : HeapZone K H hz L m) {f : ℕ} {x : ℕ × List Idx} (hf : L.own f = some x) :
    hz f = none := by
  cases hx : hz f with
  | none => rfl
  | some k =>
    rw [h.apart (z.klv hx).1] at hf
    cases hf

/-- a frame of an address space, its PML4 apart -/
theorem Growth.own_mem (h : Inv L m) (z : HeapZone K H hz L m) (g : Growth K H hz L m hz' L' m') {f r : ℕ}
    {p : List Idx} (hf : L.own f = some (r, p)) (hp : p ≠ []) : m'.mem f = m.mem f := by
  funext i
  refine g.mem (h.own_used hf).1 (z.own_none h hf) ?_
  rintro ⟨hl, -⟩
  rcases level_cases hl with hk | ⟨r', p', ho, -, hlen⟩
  · rw [h.apart hk] at hf
    cases hf
  · rw [hf] at ho
    cases ho
    exact hp (List.eq_nil_of_length_eq_zero (by omega))

/-- **Growth is invisible** outside the heap's slot. -/
theorem Growth.translate {R : ℕ} (h : Inv L m) (z : HeapZone K H hz L m) (g : Growth K H hz L m hz' L' m')
    (hR : L.own R = some (R, [])) (hv : tableIdx v 39 ≠ HEAP_PML4_IDX) :
    translate m'.mem R v = translate m.mem R v := by
  have hmem : ∀ {f k i}, level L f = some k → hz f = none → ¬ (k = 3 ∧ i = HEAP_PML4_IDX) →
      m'.mem f i = m.mem f i := by
    intro f k i hf hn hs
    refine g.mem (h.levels.used hf) hn ?_
    rintro ⟨hl, hi⟩
    rw [hf] at hl
    exact hs ⟨Option.some.inj hl, hi⟩
  have hroot := slot_level h z (Or.inr hR)
  have ht3 : ∀ t3, child (m.mem R (tableIdx v 39)) = some t3 → level L t3 = some 2 ∧ hz t3 = none := by
    intro t3 hc
    obtain ⟨p4, rfl⟩ := child_some.1 hc
    exact ⟨h.levels.pml4 hroot p4, z.apart hroot (by decide) (z.own_none h hR) (fun hh => hv hh.2) p4 fun hk => by cases hk⟩
  have ht2 : ∀ t3 t2, child (m.mem R (tableIdx v 39)) = some t3 → child (m.mem t3 (tableIdx v 30)) = some t2 →
      level L t2 = some 1 ∧ hz t2 = none := by
    intro t3 t2 hc3 hc2
    obtain ⟨l3, z3⟩ := ht3 t3 hc3
    obtain ⟨p3, rfl⟩ := child_some.1 hc2
    exact ⟨(h.levels.pdpt l3 p3).2, z.apart l3 (by decide) z3 (fun hh => by cases hh.1) p3 fun hk => by cases hk⟩
  refine translate_congr (Same.of_eq (hmem hroot (z.own_none h hR) fun hh => hv hh.2)) (fun t3 hc => ?_)
    (fun t3 t2 hc3 hc2 _ => ?_) (fun t3 t2 t1 hc3 hc2 _ hc1 hg => ?_)
  · obtain ⟨l3, z3⟩ := ht3 t3 hc
    have he := hmem (i := tableIdx v 30) l3 z3 fun hh => by cases hh.1
    exact ⟨Same.of_eq he, fun _ _ => he⟩
  · obtain ⟨l2, z2⟩ := ht2 t3 t2 hc3 hc2
    have he := hmem (i := tableIdx v 21) l2 z2 fun hh => by cases hh.1
    exact ⟨Same.of_eq he, fun _ _ => he⟩
  · obtain ⟨l2, z2⟩ := ht2 t3 t2 hc3 hc2
    obtain ⟨p2, rfl⟩ := child_some.1 hc1
    exact hmem (h.levels.pd l2 p2 hg) (z.apart l2 (by decide) z2 (fun hh => by cases hh.1) p2 fun _ => hg)
      fun hh => by cases hh.1

/-- a history goes on, with the new frames among those of no space -/
theorem Growth.history {rs : List ℕ} {X : Set ℕ} (h : History L m rs X) (g : Growth K H hz L m hz' L' m') :
    History L' m' rs (X ∪ {f | Vmm.used m' f = true ∧ Vmm.used m f = false}) := by
  refine ⟨g.inv, fun r => by rw [g.own]; exact h.roots r, h.nodup, fun f hf => ?_, fun f k hk => ?_⟩
  · rw [g.own]
    rcases hf with hf | ⟨hu, hn⟩
    · exact ⟨g.used f (h.other f hf).1, (h.other f hf).2⟩
    · exact ⟨hu, (h.inv.fresh hn).1⟩
  · rcases g.fresh hk with hk' | hu
    · exact Or.inl (h.kern f k hk')
    · exact Or.inr ⟨(g.inv.kern.used hk).1, hu⟩

end Growth

/-! ## The other operations -/

section Zone

variable {K H r : ℕ} {hz : ℕ → Option ℕ} {L L' : Layout} {m m' : Machine} {rs : List ℕ} {X X' : Set ℕ}

/-- a private entry leads to no table of the heap -/
theorem Inv.private_child (h : Inv L m) (hk : ∀ {f k}, hz f = some k → L.klv f = some k ∧ k ≤ 2) {f : ℕ} {p : List Idx}
    {i : Idx} (hf : L.own f = some (r, p)) (hp : Priv (i :: p) = true) (he : present (m.mem f i) = true) :
    hz (entryToKptr (m.mem f i)) = none := by
  have ho := h.down hf hp he
  cases hx : hz (entryToKptr (m.mem f i)) with
  | none => rfl
  | some k =>
    rw [h.apart (hk hx).1] at ho
    cases ho

/-- the tables of slot 0 are there from the start -/
theorem slot0_old (h : Inv L m) (h' : Inv L' m') {f R : ℕ} {i3 : Idx} (hR : L.own R = some (R, []))
    (hkeep : ∀ {f p}, L.own f = some (R, p) → p.length < 4 → L'.own f = some (R, p))
    (hf : L'.own f = some (R, [i3, 0])) : L.own f = some (R, [i3, 0]) := by
  have hp := h'.tree.priv hf
  have hi3 : i3.val < 4 := by
    simpa [shape, Priv] using hp
  have h1 := h.down hR (by decide) (h.slot0 hR)
  have h2 := h.down h1 hp (h.slot0_pd h1 hi3)
  rw [h'.tree.unique hf (hkeep h2 (by simp))]
  exact h2

/-- an operation on one space's private part -/
theorem HeapZone.keep (h : History L m rs X) (h' : History L' m' rs X') (z : HeapZone K H hz L m)
    (k : Keeps r L m L' m') : HeapZone K H hz L' m' := by
  have hroot : ∀ {f}, L'.own f = some (f, []) → L.own f = some (f, []) := fun hf =>
    (h.roots _).1 ((h'.roots _).2 hf)
  have hkeep : ∀ {R f p}, L.own f = some (R, p) → p.length < 4 → L'.own f = some (R, p) := by
    intro R f p hf hl
    by_cases hRr : R = r
    · subst hRr
      exact k.tbl hf hl
    · exact k.other hf hRr
  have hshared : ∀ {f R p i}, L.own f = some (R, p) → p.length < 4 → Priv (i :: p) = false → m'.mem f i = m.mem f i :=
    fun hf hl hp => k.mem (Or.inr ⟨_, _, hf, fun _ => ⟨hl, hp⟩⟩)
  have hklv : ∀ {f x}, hz f = some x → L'.klv f = some x ∧ x ≤ 2 := fun hf => by
    rw [k.klv]
    exact z.klv hf
  refine ⟨by rw [k.gk]; exact z.gk, z.top, hklv, fun {f} hf => ?_, fun {f x i} hf he => ?_,
    fun {f x i} hf hx hn hs he hh => ?_⟩
  · rcases hf with rfl | hf
    · have hK : L.klv f = some 3 := by
        rw [← z.gk]
        exact h.inv.kern.root
      rw [k.kernel hK]
      exact z.slot (Or.inl rfl)
    · have hf' := hroot hf
      rw [hshared hf' (by simp) (by decide)]
      exact z.slot (Or.inr hf')
  · rw [k.kernel (z.klv hf).1] at he ⊢
    exact z.link hf he
  · rcases level_cases hf with hkf | ⟨R, p, ho, hl, hlen⟩
    · rw [k.klv] at hkf
      rw [k.kernel hkf] at he hh ⊢
      exact z.apart (level_kernel hkf) hx hn hs he hh
    cases hp : Priv (i :: p) with
    | true => exact h'.inv.private_child hklv ho hp he
    | false =>
      match p, hl with
      | [], _ =>
        obtain rfl := h'.inv.tree.root ho
        have hf' := hroot ho
        rw [hshared hf' (by simp) hp] at he hh ⊢
        exact z.apart (by rw [hlen]; exact level_own h.inv hf' (by simp)) hx hn hs he hh
      | [i4], _ =>
        obtain rfl := slot0_of_not_priv (q := []) (by simp) (h'.inv.tree.priv ho) hp
        rw [h'.inv.slot0_end ho (by simpa [Priv] using hp)] at he
        cases he
      | [i3, i4], _ =>
        obtain rfl := slot0_of_not_priv (q := [i3]) (by simp) (h'.inv.tree.priv ho) hp
        have hf' := slot0_old h.inv h'.inv (hroot (h'.inv.tree.root_own ho)) hkeep ho
        rw [hshared hf' (by simp) hp] at he hh ⊢
        exact z.apart (by rw [hlen]; exact level_own h.inv hf' (by simp)) hx hn hs he hh
      | [_, i3, i4], _ =>
        have hlen3 : x + 1 = 0 := hlen
        cases hlen3

/-- a new space borrows what the kernel's PML4 has, and of the low 4 GiB what the kernel's PDs have -/
theorem HeapZone.create {a : U64} (h : Inv L m) (h' : Inv L' m') (z : HeapZone K H hz L m)
    (hc : createAddressSpace m = some (a, m')) (hk : L'.klv = L.klv)
    (hnew : ∀ f R p, L'.own f = some (R, p) → L.own f = some (R, p) ∨ R = frameOf a) : HeapZone K H hz L' m' := by
  obtain ⟨r, t, d, rfl, n⟩ := create_rows h.kern.lowMap hc
  have w := n.rounds
  rw [frameOf_addrOf n.lt.1] at hnew
  have hold : ∀ {f}, used m f = true → m'.mem f = m.mem f := fun hf => w.stage.mem hf
  have hklv : ∀ {f x}, hz f = some x → L'.klv f = some x ∧ x ≤ 2 := fun hf => by
    rw [hk]
    exact z.klv hf
  have hK : L.klv K = some 3 := by
    rw [← z.gk]
    exact h.kern.root
  have hslots : ∀ {j : Idx}, j = HEAP_PML4_IDX ∨ j = PHYSMAP_PML4_IDX → m'.mem r j = m.mem K j := by
    intro j hj
    have hj0 : j ≠ 0 := by rcases hj with rfl | rfl <;> decide
    rw [n.pml4, if_neg hj0, if_pos hj, z.gk]
  have hlink : ∀ {c : ℕ}, c < MAX_FRAMES → child (addrOf c ||| (PRESENT ||| WRITABLE ||| USER)) = some c := fun hc =>
    child_some.2 ⟨by rw [present_addr_or hc]; decide, kptr_addr_or hc (by decide)⟩
  refine ⟨by rw [w.stage.rest.2.1]; exact z.gk, z.top, hklv, fun {f} hf => ?_, fun {f x i} hf he => ?_,
    fun {f x i} hf hx hn hs he hh => ?_⟩
  · rcases hf with rfl | hf
    · rw [hold (h.kern.used hK).1]
      exact z.slot (Or.inl rfl)
    · rcases hnew _ _ _ hf with ho | rfl
      · rw [hold (h.own_used ho).1]
        exact z.slot (Or.inr ho)
      · rw [hslots (Or.inl rfl)]
        exact z.slot (Or.inl rfl)
  · rw [hold (h.kern.used (z.klv hf).1).1] at he ⊢
    exact z.link hf he
  rcases level_cases hf with hkf | ⟨R, p, ho, hl, hlen⟩
  · rw [hk] at hkf
    rw [hold (h.kern.used hkf).1] at he hh ⊢
    exact z.apart (level_kernel hkf) hx hn hs he hh
  cases hp : Priv (i :: p) with
  | true => exact h'.private_child hklv ho hp he
  | false =>
    rcases hnew _ _ _ ho with ho' | rfl
    · rw [hold (h.own_used ho').1] at he hh ⊢
      exact z.apart (by rw [hlen]; exact level_own h ho' hl) hx hn hs he hh
    match p, hl with
    | [], _ =>
      -- the physmap's slot
      obtain rfl := h'.tree.root ho
      have h2 : x = 2 := by simpa using hlen
      have hi : i = PHYSMAP_PML4_IDX := by
        by_contra hi
        have hne : ¬ i = HEAP_PML4_IDX := fun hh => hs ⟨h2, hh⟩
        simp only [Priv, hne, hi, ne_eq, not_false_eq_true, decide_true, Bool.and_self] at hp
        cases hp
      rw [hslots (Or.inr hi)] at he hh ⊢
      refine z.apart (k := x) (by rw [level_kernel hK, h2]) hx (z.not_slot h (Or.inl rfl)) hs he hh
    | [i4], _ =>
      obtain rfl := slot0_of_not_priv (q := []) (by simp) (h'.tree.priv ho) hp
      rw [h'.slot0_end ho (by simpa [Priv] using hp)] at he
      cases he
    | [i3, i4], _ =>
      -- a PD of the low 4 GiB
      obtain rfl := slot0_of_not_priv (q := [i3]) (by simp) (h'.tree.priv ho) hp
      have hi3 : i3.val < 4 := by simpa [shape, Priv] using h'.tree.priv ho
      obtain ⟨t', ht', hct⟩ := h'.tree.up ho
      obtain ⟨r', hr', hcr⟩ := h'.tree.up ht'
      obtain rfl := h'.tree.root hr'
      have htt : t' = t := by
        have hcr' : child (m'.mem r' 0) = some t' := hcr
        rw [n.pml4, if_pos rfl, hlink n.lt.2] at hcr'
        exact (Option.some.inj hcr').symm
      have hfd : f = d i3 := by
        have hct' : child (m'.mem t' i3) = some f := hct
        rw [htt, w.pdpt, if_pos hi3, hlink (w.fresh i3 hi3).2.2.2] at hct'
        exact (Option.some.inj hct').symm
      have hrow : m'.mem f i = m.mem (kernelPd m i3) i := by
        rw [hfd, w.pd i3 hi3] at he ⊢
        unfold borrowedPd at he ⊢
        split_ifs at he ⊢ with hb
        · rfl
        · cases he
      have h0 : x = 0 := by simpa using hlen
      -- the kernel's own way to it does not touch the heap
      have hzt : hz (kernelPdpt m) = none := z.apart (f := K) (i := 0) (level_kernel hK) (by decide)
        (z.not_slot h (Or.inl rfl)) (fun hh => absurd hh.2 (by decide)) (by rw [← z.gk]; exact h.kern.slot0)
        (fun hh => by cases hh) |> fun hh => by rw [← z.gk] at hh; exact hh
      have hzd : hz (kernelPd m i3) = none := z.apart (f := kernelPdpt m) (i := i3)
        (level_kernel (h.kern.pml4 h.kern.root h.kern.slot0)) (by decide) hzt (fun hh => by cases hh.1)
        (h.kern.slot0_pd i3 hi3) fun hh => by cases hh
      rw [hrow] at he hh ⊢
      exact z.apart (k := x) (by rw [h0]; exact level_kernel (h.kern.pd_level hi3)) hx hzd hs he hh
    | [_, i3, i4], _ =>
      have hlen3 : x + 1 = 0 := hlen
      cases hlen3

/-- the tables of a space that is gone -/
theorem HeapZone.destroy (h : Inv L m) (z : HeapZone K H hz L m) (hmem : m'.mem = m.mem)
    (hg : m'.gKernelPml4 = m.gKernelPml4) : HeapZone K H hz { L with own := without L.own r } m' := by
  have hold : ∀ {f x}, without L.own r f = some x → L.own f = some x := fun hf => (without_some.1 hf).1
  refine ⟨by rw [hg]; exact z.gk, z.top, z.klv, fun {f} hf => ?_, fun {f x i} hf he => ?_,
    fun {f x i} hf hx hn hs he hh => ?_⟩
  · rw [hmem]
    exact z.slot (hf.imp id fun ho => hold ho)
  · rw [hmem] at he ⊢
    exact z.link hf he
  · rw [hmem] at he hh ⊢
    refine z.apart ?_ hx hn hs he hh
    rcases level_cases hf with hkf | ⟨R, p, ho, hl, hlen⟩
    · exact level_kernel hkf
    · rw [hlen]
      exact level_own h (hold ho) hl

end Zone

end Retux.Vmm
