/-
The life of an address space, from create through clone to destroy, in terms of what the processor and the frame
allocator see: translations, contents of frames, and the bitmap. Layouts do not appear in the statements.

- `clone_exact`: fork's copy. A private page is mapped in the copy exactly when it is in the source, with the same
  flags and contents, in frames of its own; nothing else that is in use is written; and it returns if there are frames.
- `destroy_conserves`: teardown. `destroy_address_space` frees the frames the space owns, each once, and nothing of
  anybody else. After a life of maps, protects, unmaps and clones the allocator is back to where it was before creation,
  except for frames that a later map displaced: `vmm::map` overwrites an entry without freeing what it pointed at.
-/
import Mathlib.Tactic
import Retux.Mem.Boot

namespace Retux.Vmm

open Retux.Word Retux.Pmm Retux.Forest Retux.Loop

/-! ## The copy -/

/-- number of private pages that are mapped under r -/
def mappedPages (m : Machine) (r : ℕ) : ℕ :=
  ((Finset.range (2 ^ 36)).filter fun k => isPrivate (BitVec.ofNat 64 (k * 4096)) = true ∧
    (translate m.mem r (BitVec.ofNat 64 (k * 4096))).isSome = true).card

section Copy

variable {L L' : Layout} {m m' : Machine} {rs : List ℕ} {X : Set ℕ} {s d : ℕ}

/-- the address of a page number -/
theorem ofNat_vpn (i1 i2 i3 i4 : Idx) : BitVec.ofNat 64 (vpn [i1, i2, i3, i4] * 4096) = mkVirt i4 i3 i2 i1 := by
  have := i1.isLt; have := i2.isLt; have := i3.isLt; have := i4.isLt
  apply BitVec.eq_of_toNat_eq
  rw [mkVirt_toNat, BitVec.toNat_ofNat]
  simp only [vpn]
  omega

theorem leafCount_le_mapped (h : Inv L m) (hs : L.own s = some (s, [])) :
    leafCount L m s (512 ^ 4) ≤ mappedPages m s := by
  classical
  refine Finset.card_le_card fun k hk => ?_
  simp only [Finset.mem_filter, Finset.mem_range] at hk ⊢
  obtain ⟨hlt, q, e, rfl, hl⟩ := hk
  refine ⟨by norm_num at hlt ⊢; exact hlt, ?_⟩
  match q, hl.length, hl with
  | [i1, i2, i3, i4], _, hl =>
    rw [ofNat_vpn]
    have hp : isPrivate (mkVirt i4 i3 i2 i1) = true := by
      rw [← priv_iff_isPrivate, pathOf_mkVirt]; exact hl.priv h
    refine ⟨hp, ?_⟩
    rw [(translate_eq_some_iff h hs hp).2 ⟨e, by rw [pathOf_mkVirt]; exact hl, rfl⟩]
    rfl

theorem leafFlags_and (e : U64) : leafFlags e &&& CLONE_MASK = e &&& CLONE_MASK := by
  unfold leafFlags
  rw [BitVec.and_assoc, show ~~~PHYS_MASK &&& CLONE_MASK = CLONE_MASK by decide]

/-- what the copy of a page looks like -/
theorem Cloned.translate (w : Cloned s d L m (512 ^ 4) L' m') (h : Inv L m) (hs : L.own s = some (s, []))
    (hd : L.own d = some (d, [])) (hfresh : ∀ v, isPrivate v = true → Vmm.translate m.mem d v = none) {v : U64}
    (hv : isPrivate v = true) :
    (Vmm.translate m.mem s v = none → Vmm.translate m'.mem d v = none) ∧
      ∀ ps fs, Vmm.translate m.mem s v = some (ps, fs) → ∃ pd, Vmm.translate m'.mem d v = some (pd, fs &&& CLONE_MASK) ∧
        m'.mem (frameOf pd) = m.mem (frameOf ps) ∧ used m (frameOf pd) = false := by
  have hd' : L'.own d = some (d, []) := w.keeps.tbl hd (by simp)
  have hlt : vpn (pathOf v) < 512 ^ 4 := by
    have h1 := (tableIdx v 12).isLt; have h2 := (tableIdx v 21).isLt
    have h3 := (tableIdx v 30).isLt; have h4 := (tableIdx v 39).isLt
    simp only [pathOf, vpn]; omega
  constructor
  · intro hn
    cases hx : Vmm.translate m'.mem d v with
    | none => rfl
    | some x =>
      obtain ⟨e, hl, -⟩ := (translate_eq_some_iff w.inv hd' hv).1 hx
      have hold := (w.todo (q := pathOf v) (fun _ e0 hl0 => by
        have := (translate_eq_some_iff h hs hv).2 ⟨e0, hl0, rfl⟩
        rw [hn] at this; cases this) e).1 hl
      have := (translate_eq_some_iff h hd hv).2 ⟨e, hold, rfl⟩
      rw [hfresh v hv] at this; cases this
  · intro ps fs hx
    obtain ⟨e0, hl0, heq⟩ := (translate_eq_some_iff h hs hv).1 hx
    cases heq
    obtain ⟨e, hl, hcp⟩ := w.done hlt hl0
    refine ⟨entryPhys e + (v &&& 0xFFF), (translate_eq_some_iff w.inv hd' hv).2 ⟨e, hl, ?_⟩, ?_⟩
    · rw [leafFlags_and, hcp.flags]
    · rw [frameOf_leaf w.inv hl v, frameOf_leaf h hl0 v]
      exact ⟨hcp.data, hcp.fresh⟩

/-- **Fork's copy is deep, exact and isolated.** s is any address space of any history, d one with nothing mapped. -/
theorem clone_exact (hb : Built m rs X) (hs : s ∈ rs) (hd : d ∈ rs) (hsd : s ≠ d)
    (hfresh : ∀ v, isPrivate v = true → translate m.mem d v = none) :
    (5 * mappedPages m s ≤ freeCount m.pmm → ∃ m', cloneAddressSpace (addrOf d) (addrOf s) m = some m') ∧
    ∀ m', cloneAddressSpace (addrOf d) (addrOf s) m = some m' →
      -- the same pages, with the same flags and contents
      (∀ v, isPrivate v = true → (translate m.mem s v = none → translate m'.mem d v = none) ∧
        ∀ ps fs, translate m.mem s v = some (ps, fs) → ∃ pd, translate m'.mem d v = some (pd, fs &&& CLONE_MASK) ∧
          m'.mem (frameOf pd) = m.mem (frameOf ps) ∧ used m (frameOf pd) = false) ∧
      -- in frames of their own: new ones, each at one place, and none of the source's
      (∀ f, Owned m' d f → (Owned m d f ∨ used m f = false) ∧ ∀ r ∈ rs, r ≠ d → ¬ Owned m' r f) ∧
      (∀ p q f, Priv p = true → Priv q = true → frameAt m'.mem d p = some f → frameAt m'.mem d q = some f → p = q) ∧
      -- and nothing else: all other memory in use, all other spaces, the kernel's and the shared translations
      (∀ f, used m f = true → ¬ Owned m d f → m'.mem f = m.mem f) ∧
      (∀ r ∈ rs, r ≠ d → ∀ f, Owned m' r f ↔ Owned m r f) ∧
      (∀ r ∈ rs, r ≠ d → ∀ v, translate m'.mem r v = translate m.mem r v) ∧
      (∀ v, translate m'.mem (frameOf m.gKernelPml4) v = translate m.mem (frameOf m.gKernelPml4) v) ∧
      (∀ v, isPrivate v = false → translate m'.mem d v = translate m.mem d v) := by
  obtain ⟨L, h⟩ := hb.history
  have hsr := (h.roots s).1 hs
  have hdr := (h.roots d).1 hd
  have hclone := clone_spec h.inv hsd hsr hdr (kptr_addrOf (h.inv.own_used hsr).2.2)
    (kptr_addrOf (h.inv.own_used hdr).2.2)
  refine ⟨fun henough => hclone.returns ?_, fun m' hm => ?_⟩
  · have := leafCount_le_mapped h.inv hsr
    unfold Enough
    omega
  obtain ⟨L', w⟩ := hclone.post hm
  have hroot' : ∀ r ∈ rs, L'.own r = some (r, []) := by
    intro r hr
    by_cases hrd : r = d
    · rw [hrd]; exact w.keeps.tbl hdr (by simp)
    · exact w.keeps.other ((h.roots r).1 hr) hrd
  have hown : ∀ r ∈ rs, r ≠ d → ∀ f p, L'.own f = some (r, p) ↔ L.own f = some (r, p) := by
    intro r hr hrd f p
    refine ⟨fun hf => ?_, fun hf => w.keeps.other hf hrd⟩
    rcases w.new hf with ho | ⟨hh, -⟩
    · exact ho
    · exact absurd hh hrd
  refine ⟨fun v hv => w.translate h.inv hsr hdr hfresh hv, fun f hf => ⟨?_, fun r hr hrd hf' => ?_⟩,
    fun p q f hp hq hfp hfq => ?_, fun f hu hno => ?_, fun r hr hrd f => ?_, fun r hr hrd v => ?_, fun v => ?_,
    fun v hv => ?_⟩
  · obtain ⟨p, hp⟩ := (owned_iff w.inv (hroot' d hd)).1 hf
    rcases w.new hp with ho | ⟨-, hu⟩
    · exact Or.inl ((owned_iff h.inv hdr).2 ⟨p, ho⟩)
    · exact Or.inr hu
  · obtain ⟨p, hp⟩ := (owned_iff w.inv (hroot' d hd)).1 hf
    obtain ⟨q, hq⟩ := (owned_iff w.inv (hroot' r hr)).1 hf'
    rw [hp] at hq
    cases hq
    exact hrd rfl
  · have h1 := (own_iff_frameAt w.inv (hroot' d hd)).2 ⟨hp, hfp⟩
    have h2 := (own_iff_frameAt w.inv (hroot' d hd)).2 ⟨hq, hfq⟩
    rw [h1] at h2
    cases h2; rfl
  · cases ho : L.own f with
    | some x =>
      funext i
      refine w.keeps.mem (Or.inr ⟨x.1, x.2, ho, fun hx => ?_⟩)
      exact absurd ((owned_iff h.inv hdr).2 ⟨x.2, by rw [ho, ← hx]⟩) hno
    | none =>
      cases hk : L.klv f with
      | some k => exact w.keeps.kernel hk
      | none => exact w.data hu hk fun r p hp => by rw [ho] at hp; cases hp
  · rw [owned_iff w.inv (hroot' r hr), owned_iff h.inv ((h.roots r).1 hr)]
    simp only [hown r hr hrd f]
  · exact keeps_other h.inv w.keeps ((h.roots r).1 hr) hrd
  · exact keeps_kernel h.inv w.keeps
  · exact keeps_shared h.inv w.keeps hdr hv

end Copy

/-- one page mapped makes one page to copy -/
theorem mappedPages_one {L : Layout} {m m' : Machine} (h : Inv L m) (hr : L.own (getPml4 m) = some (getPml4 m, []))
    {v fl a : U64} (hv : isPrivate v = true) (hfl : LeafFlags fl) (hm : mapFresh m v fl = some (a, m'))
    (hnone : ∀ w, isPrivate w = true → translate m.mem (getPml4 m) w = none) : mappedPages m' (getPml4 m) ≤ 1 := by
  unfold mappedPages
  refine Finset.card_le_one.2 fun k hk k' hk' => ?_
  simp only [Finset.mem_filter, Finset.mem_range] at hk hk'
  have hpath : ∀ {k}, isPrivate (BitVec.ofNat 64 (k * 4096)) = true →
      (translate m'.mem (getPml4 m) (BitVec.ofNat 64 (k * 4096))).isSome = true →
      pathOf (BitVec.ofNat 64 (k * 4096)) = pathOf v := by
    intro k hp hs
    rw [mapFresh_translate h hr hv hfl hm hp] at hs
    by_contra hne
    rw [if_neg hne, hnone _ hp] at hs; cases hs
  have hnum : ∀ {k}, k < 2 ^ 36 → vpn (pathOf (BitVec.ofNat 64 (k * 4096))) = k := by
    intro k hk
    simp only [pathOf, vpn, tableIdx, BitVec.toNat_ofNat]
    omega
  rw [← hnum hk.1, ← hnum hk'.1, hpath hk.2.1 hk.2.2, hpath hk'.2.1 hk'.2.2]

/-- a space with one page, copied into a new one -/
theorem clone_exact_one_page : ∃ m rs X s d m', Built m rs X ∧ s ∈ rs ∧ d ∈ rs ∧ s ≠ d ∧
    cloneAddressSpace (addrOf d) (addrOf s) m = some m' ∧ (translate m.mem s sampleVirt).isSome = true ∧
    ∃ pd, translate m'.mem d sampleVirt = some (pd, sampleFlags) ∧ used m (frameOf pd) = false := by
  obtain ⟨s, m1, -, -, hb1, hcr, hfree1, hnone⟩ := boot_space
  obtain ⟨L1, h1⟩ := hb1.history
  have hroot := (h1.roots s).1 (by simp)
  rw [← hcr] at hroot
  -- one page in s
  obtain ⟨a, m2, hm2⟩ := mapFresh_isSome (m := { m1 with cr3 := addrOf s }) sampleVirt
    sampleFlags (by show 5 ≤ freeCount m1.pmm; omega)
  have hcost2 := mapFresh_freeCount hm2
  change freeCount m1.pmm ≤ _ at hcost2
  have hb2 := hb1.map (by rw [hcr]; simp) sample_private sample_flags hm2
  have hone := mappedPages_one h1.inv hroot sample_private sample_flags hm2 (by rw [hcr]; exact hnone)
  have htr := mapFresh_translate h1.inv hroot sample_private sample_flags hm2 sample_private
  rw [if_pos rfl] at htr
  rw [hcr] at hone htr
  -- a new d
  obtain ⟨b, m3, hm3, hcost3⟩ := create_isSome (m := m2) (by omega)
  obtain ⟨L2, h2⟩ := hb2.history
  obtain ⟨L3, d, rfl, hdlt, hdfree, hi3, -, hst, hd3, -⟩ := create_spec h2.inv hm3
  have hb3 := hb2.create hm3
  have hun := fun v => create_unmapped h2.inv hm3 (v := v)
  rw [frameOf_addrOf hdlt] at hb3 hun
  have hsd : s ≠ d := by
    rintro rfl
    rw [(h2.inv.own_used ((h2.roots s).1 (by simp))).1] at hdfree; cases hdfree
  have hmem : ∀ v, translate m3.mem s v = translate m2.mem s v := by
    intro v
    exact translate_walk h2.inv ((h2.roots s).1 (by simp)) (fun f k hk => hst.mem (h2.inv.kern.used hk).1)
      (Same.of_eq (by rw [hst.mem (h2.inv.own_used ((h2.roots s).1 (by simp))).1]))
      (fun t ht => Same.of_eq (by rw [hst.mem (h2.inv.own_used ht).1]))
      (fun t ht => ⟨Same.of_eq (by rw [hst.mem (h2.inv.own_used ht).1]), fun _ => by rw [hst.mem (h2.inv.own_used ht).1]⟩)
      (fun t ht => by rw [hst.mem (h2.inv.own_used ht).1])
  have hcount : mappedPages m3 s = mappedPages m2 s := by
    unfold mappedPages; simp only [hmem]
  obtain ⟨hret, hpost⟩ := clone_exact hb3 (by simp) (by simp) hsd hun
  obtain ⟨m4, hm4⟩ := hret (by rw [hcount]; omega)
  refine ⟨m3, _, _, s, d, m4, hb3, by simp, by simp, hsd, hm4, by rw [hmem, htr]; rfl, ?_⟩
  obtain ⟨pd, hpd, -, hfr⟩ := ((hpost m4 hm4).1 sampleVirt sample_private).2 _ _ ((hmem _).trans htr)
  exact ⟨pd, hpd, hfr⟩

/-! ## Teardown -/

/-- the frame behind an address, if there is one -/
def backing (m : Machine) (r : ℕ) (v : U64) : Set ℕ := {f | ∃ x, translate m.mem r v = some x ∧ f = frameOf x.1}

/-- a life of address space r that starts at m1: what is done to it and to nothing else, with the frames displaced on
the way. rs are the other spaces, which can be sources of a clone -/
inductive Life (r : ℕ) (rs : List ℕ) (m1 : Machine) : Machine → Set ℕ → Prop
  | start : Life r rs m1 m1 ∅
  | load {m D r'} : Life r rs m1 m D → r' ∈ r :: rs → Life r rs m1 { m with cr3 := addrOf r' } D
  | map {m D v fl a m'} : Life r rs m1 m D → getPml4 m = r → isPrivate v = true → LeafFlags fl →
      mapFresh m v fl = some (a, m') → Life r rs m1 m' (D ∪ backing m r v)
  | write {m D f} (g : Idx → U64) : Life r rs m1 m D → OwnedLeaf m r f → Life r rs m1 (m.fill f g) D
  | protect {m D v fl m'} : Life r rs m1 m D → getPml4 m = r → isPrivate v = true → LeafFlags fl →
      protect m v fl = some m' → Life r rs m1 m' D
  | unmap {m D v m'} : Life r rs m1 m D → getPml4 m = r → isPrivate v = true → unmapAndFree m v = some m' →
      Life r rs m1 m' D
  | clone {m D s m'} : Life r rs m1 m D → s ∈ rs → cloneAddressSpace (addrOf r) (addrOf s) m = some m' →
      Life r rs m1 m' (D ∪ {f | ∃ v, isPrivate v = true ∧ (translate m.mem s v).isSome = true ∧ f ∈ backing m r v})

section Teardown

variable {L : Layout} {m m0 m1 : Machine} {rs : List ℕ} {X D : Set ℕ} {r : ℕ}

/-- a life is a history -/
theorem Life.built (h : Life r rs m1 m D) (hr : r ∉ rs) (hb : Built m1 (r :: rs) X) : Built m (r :: rs) X := by
  induction h with
  | start => exact hb
  | load _ hr' ih => exact ih.load hr'
  | map _ hr hv hfl hm ih => exact ih.map (by simp [hr]) hv hfl hm
  | write g _ hl ih => exact ih.write g (by simp) hl
  | protect _ hr hv hfl hm ih => exact ih.protect (by simp [hr]) hv hfl hm
  | unmap _ hr hv hm ih => exact ih.unmap (by simp [hr]) hv hm
  | clone _ hs hm ih =>
    refine ih.clone (by simp) (by simp [hs]) ?_ hm
    rintro rfl
    exact hr hs

/-- frames in use that are not r's -/
def Rest (m : Machine) (r f : ℕ) : Prop := used m f = true ∧ ¬ Owned m r f

theorem rest_iff (h : Inv L m) (hr : L.own r = some (r, [])) {f : ℕ} :
    Rest m r f ↔ used m f = true ∧ ∀ p, L.own f ≠ some (r, p) := by
  unfold Rest
  rw [owned_iff h hr, not_exists]

/-- the frame behind a private page is the one that owns its position -/
theorem backing_iff (h : Inv L m) (hr : L.own r = some (r, [])) {v : U64} (hv : isPrivate v = true) {f : ℕ} :
    f ∈ backing m r v ↔ L.own f = some (r, pathOf v) := by
  constructor
  · rintro ⟨x, hx, rfl⟩
    obtain ⟨e, hl, rfl⟩ := (translate_eq_some_iff h hr hv).1 hx
    rw [frameOf_leaf h hl v]; exact hl.own h
  · intro hf
    obtain ⟨e, hl, rfl⟩ := leaf_of_own h rfl hf
    exact ⟨_, (translate_eq_some_iff h hr hv).2 ⟨e, hl, rfl⟩, (frameOf_leaf h hl v).symm⟩

/-- mapping adds to the rest what it displaces -/
theorem rest_map (h : Inv L m) (hr : L.own (getPml4 m) = some (getPml4 m, [])) {v fl a : U64} {m' : Machine}
    (hv : isPrivate v = true) (hfl : LeafFlags fl) (hm : mapFresh m v fl = some (a, m')) (f : ℕ) :
    Rest m' (getPml4 m) f ↔ Rest m (getPml4 m) f ∨ f ∈ backing m (getPml4 m) v := by
  obtain ⟨c, m1, L', rfl, hfree, ha, hi1, w, hoc, -⟩ := mapFresh_spec h hr hv hfl hm
  obtain ⟨c', hcc, hlt, -, -, hu, -⟩ := alloc_spec ha
  have hcc' : c' = c := by
    have hclt := (w.inv.own_used hoc).2.2
    rw [← frameOf_addrOf hlt, ← hcc, frameOf_addrOf hclt]
  subst hcc'
  have hco := (h.fresh hfree).1
  rw [rest_iff w.inv (w.keeps.tbl hr (by simp)), rest_iff h hr, backing_iff h hr hv]
  constructor
  · rintro ⟨hu', hno⟩
    -- not a new table and not the new leaf, so in use before
    have hum : used m f = true := by
      rcases w.used_new f hu' with h1 | h1
      · rw [hu, Bool.or_eq_true, decide_eq_true_eq] at h1
        rcases h1 with rfl | h1
        · exact absurd hoc (hno _)
        · exact h1
      · obtain ⟨x, hx⟩ := Option.ne_none_iff_exists'.1 h1
        rcases w.own_new (show _ = some (x.1, x.2) from hx) with ho | ⟨hrr, -⟩
        · exact (h.own_used ho).1
        · exact absurd (by rw [hx, ← hrr]) (hno x.2)
    by_cases hq : L.own f = some (getPml4 m, pathOf v)
    · exact Or.inr hq
    · refine Or.inl ⟨hum, fun p hp => hno p (w.own_keep hp fun hh => hq (hh.2 ▸ hp))⟩
  · rintro (⟨hum, hno⟩ | hq)
    · refine ⟨w.used_mono f (by rw [hu, hum, Bool.or_true]), fun p hp => ?_⟩
      rcases w.own_new hp with ho | ⟨-, rfl | ⟨-, hn⟩⟩
      · exact hno p ho
      · have : f = c' := w.inv.tree.unique hp hoc
        rw [this, hfree] at hum; cases hum
      · rw [hu, hum, Bool.or_true] at hn; cases hn
    · have hum := (h.own_used hq).1
      refine ⟨w.used_mono f (by rw [hu, hum, Bool.or_true]), fun p hp => ?_⟩
      -- the displaced frame has no label left
      rcases w.own_new hp with ho | ⟨-, rfl | ⟨-, hn⟩⟩
      · rw [hq] at ho
        cases ho
        have : f = c' := w.inv.tree.unique hp hoc
        rw [this, hco] at hq; cases hq
      · have : f = c' := w.inv.tree.unique hp hoc
        rw [this, hco] at hq; cases hq
      · rw [hu, hum, Bool.or_true] at hn; cases hn

theorem rest_protect (h : Inv L m) (hr : L.own (getPml4 m) = some (getPml4 m, [])) {v fl : U64} {m' : Machine}
    (hv : isPrivate v = true) (hfl : LeafFlags fl) (hm : protect m v fl = some m') (f : ℕ) :
    Rest m' (getPml4 m) f ↔ Rest m (getPml4 m) f := by
  rcases protect_spec h hr hv hfl.1 hfl.2.1 hfl.2.2 hm with ⟨-, rfl⟩ | ⟨L', c, ho, w, hoc, -⟩
  · rfl
  rw [rest_iff w.inv (w.keeps.tbl hr (by simp)), rest_iff h hr]
  constructor
  · rintro ⟨hu', hno⟩
    refine ⟨?_, fun p hp => ?_⟩
    · rcases w.used_new f hu' with h1 | h1
      · exact h1
      · obtain ⟨x, hx⟩ := Option.ne_none_iff_exists'.1 h1
        rcases w.own_new (show _ = some (x.1, x.2) from hx) with ho | ⟨hrr, -⟩
        · exact (h.own_used ho).1
        · exact absurd (by rw [hx, ← hrr]) (hno x.2)
    · by_cases hq : p = pathOf v
      · subst hq
        rw [h.tree.unique hp ho] at hno
        exact hno _ hoc
      · exact hno p (w.own_keep hp fun hh => hq hh.2)
  · rintro ⟨hum, hno⟩
    refine ⟨w.used_mono f hum, fun p hp => ?_⟩
    rcases w.own_new hp with ho' | ⟨-, rfl | ⟨-, hn⟩⟩
    · exact hno p ho'
    · rw [w.inv.tree.unique hp hoc] at hno
      exact hno _ ho
    · rw [hum] at hn; cases hn

theorem rest_unmap (h : Inv L m) (hr : L.own (getPml4 m) = some (getPml4 m, [])) {v : U64} {m' : Machine}
    (hv : isPrivate v = true) (hm : unmapAndFree m v = some m') (f : ℕ) :
    Rest m' (getPml4 m) f ↔ Rest m (getPml4 m) f := by
  obtain ⟨L', m2, he, hi, hk, -, hown, hused, -⟩ := unmapAndFree_spec h hr hv
  rw [hm] at he
  cases he
  rw [rest_iff hi (hk.tbl hr (by simp)), rest_iff h hr, hused, hown]
  constructor
  · rintro ⟨⟨hu, hne⟩, hno⟩
    rw [if_neg hne] at hno
    exact ⟨hu, hno⟩
  · rintro ⟨hu, hno⟩
    exact ⟨⟨hu, hno _⟩, by rw [if_neg (hno _)]; exact hno⟩

/-- cloning adds to the rest what it displaces -/
theorem rest_clone (h : Inv L m) (hr : L.own r = some (r, [])) {s : ℕ} (hs : L.own s = some (s, [])) (hsr : s ≠ r)
    {m' : Machine} (hm : cloneAddressSpace (addrOf r) (addrOf s) m = some m') (f : ℕ) :
    Rest m' r f ↔ Rest m r f ∨
      ∃ v, isPrivate v = true ∧ (translate m.mem s v).isSome = true ∧ f ∈ backing m r v := by
  obtain ⟨L', w⟩ := (clone_spec h hsr hs hr (kptr_addrOf (h.own_used hs).2.2) (kptr_addrOf (h.own_used hr).2.2)).post hm
  rw [rest_iff w.inv (w.keeps.tbl hr (by simp)), rest_iff h hr]
  constructor
  · rintro ⟨hu', hno⟩
    have hum : used m f = true := (w.used_new f hu').resolve_right fun ⟨p, hp⟩ => hno p hp
    by_cases hown : ∃ p, L.own f = some (r, p)
    · -- r lost this frame to a page of s
      obtain ⟨p, hp⟩ := hown
      have hlost : ∃ e0, Leaf L m s p e0 := by
        by_contra hn
        exact hno p (w.keep hp fun _ e0 hl => hn ⟨e0, hl⟩)
      obtain ⟨e0, hl⟩ := hlost
      match p, hl.length, hl, hp with
      | [i1, i2, i3, i4], _, hl, hp =>
        have hv : isPrivate (mkVirt i4 i3 i2 i1) = true := by
          rw [← priv_iff_isPrivate, pathOf_mkVirt]; exact hl.priv h
        refine Or.inr ⟨mkVirt i4 i3 i2 i1, hv, ?_, (backing_iff h hr hv).2 (by rw [pathOf_mkVirt]; exact hp)⟩
        rw [(translate_eq_some_iff h hs hv).2 ⟨e0, by rw [pathOf_mkVirt]; exact hl, rfl⟩]
        rfl
    · exact Or.inl ⟨hum, fun p hp => hown ⟨p, hp⟩⟩
  · rintro (⟨hum, hno⟩ | ⟨v, hv, hsome, hf⟩)
    · refine ⟨w.used_mono f hum, fun p hp => ?_⟩
      rcases w.new hp with ho | ⟨-, hn⟩
      · exact hno p ho
      · rw [hum] at hn; cases hn
    · have hq := (backing_iff h hr hv).1 hf
      have hum := (h.own_used hq).1
      refine ⟨w.used_mono f hum, fun p hp => ?_⟩
      rcases w.new hp with ho | ⟨-, hn⟩
      · -- the page is now the copy's, whose frame was free
        rw [hq] at ho
        cases ho
        obtain ⟨x, hx⟩ := Option.isSome_iff_exists.1 hsome
        obtain ⟨e0, hl0, -⟩ := (translate_eq_some_iff h hs hv).1 hx
        obtain ⟨e, hl, hcp⟩ := w.done (by
          have h1 := (tableIdx v 12).isLt; have h2 := (tableIdx v 21).isLt
          have h3 := (tableIdx v 30).isLt; have h4 := (tableIdx v 39).isLt
          simp only [pathOf, vpn]; omega) hl0
        have hfe := w.inv.tree.unique hp (hl.own w.inv)
        have := hcp.fresh
        rw [← hfe, hum] at this; cases this
      · rw [hum] at hn; cases hn

/-- **Conservation over a life.** What is in use and not r's is what was in use before r, and what was displaced. -/
theorem Life.rest (hl : Life r rs m1 m D) (hr : r ∉ rs) (hb : Built m1 (r :: rs) X)
    (h1 : ∀ f, Rest m1 r f ↔ used m0 f = true) (f : ℕ) : Rest m r f ↔ used m0 f = true ∨ f ∈ D := by
  induction hl with
  | start => rw [h1]; simp
  | load _ _ ih => exact ih
  | @map m D v fl a m' hl hcr hv hfl hm ih =>
    obtain ⟨L, h⟩ := (hl.built hr hb).history
    subst hcr
    rw [rest_map h.inv ((h.roots _).1 (by simp)) hv hfl hm, ih, Set.mem_union, or_assoc]
  | @write m D f' g hl hleaf ih =>
    obtain ⟨L, h⟩ := (hl.built hr hb).history
    have hroot := (h.roots r).1 (by simp)
    obtain ⟨p, hlen, ho⟩ := (ownedLeaf_iff h.inv hroot).1 hleaf
    rw [rest_iff (h.inv.writeLeaf ho hlen g) hroot, used_fill, ← rest_iff h.inv hroot, ih]
  | @protect m D v fl m' hl hcr hv hfl hm ih =>
    obtain ⟨L, h⟩ := (hl.built hr hb).history
    subst hcr
    rw [rest_protect h.inv ((h.roots _).1 (by simp)) hv hfl hm, ih]
  | @unmap m D v m' hl hcr hv hm ih =>
    obtain ⟨L, h⟩ := (hl.built hr hb).history
    subst hcr
    rw [rest_unmap h.inv ((h.roots _).1 (by simp)) hv hm, ih]
  | @clone m D s m' hl hs hm ih =>
    obtain ⟨L, h⟩ := (hl.built hr hb).history
    have hsr : s ≠ r := by rintro rfl; exact hr hs
    rw [rest_clone h.inv ((h.roots r).1 (by simp)) ((h.roots s).1 (by simp [hs])) hsr hm, ih, Set.mem_union, or_assoc]
    rfl

/-- teardown leaves the rest -/
theorem destroy_rest (hb : Built m rs X) (hr : r ∈ rs) (f : ℕ) :
    used (destroyAddressSpace (addrOf r) m) f = true ↔ Rest m r f := by
  obtain ⟨L, h⟩ := hb.history
  have hroot := (h.roots r).1 hr
  rw [(destroy_spec h.inv hroot (addrOf_physMask (h.inv.own_used hroot).2.2)).2.2, rest_iff h.inv hroot]

/-- after creation the rest is what was in use before -/
theorem create_rest (hb : Built m0 rs X) (hc : createAddressSpace m0 = some (addrOf r, m1)) (hlt : r < MAX_FRAMES) :
    Built m1 (r :: rs) X ∧ r ∉ rs ∧ ∀ f, Rest m1 r f ↔ used m0 f = true := by
  obtain ⟨L0, h0⟩ := hb.history
  obtain ⟨L1, r1, hr1, hlt1, hfree, hi1, -, hst, hroot1, hold, hnew, hun, -⟩ := create_spec h0.inv hc
  have hrr : r1 = r := by rw [← frameOf_addrOf hlt1, ← hr1, frameOf_addrOf hlt]
  subst hrr
  have hb1 := hb.create hc
  rw [frameOf_addrOf hlt1] at hb1
  refine ⟨hb1, fun hin => ?_, fun f => ?_⟩
  · rw [(h0.inv.own_used ((h0.roots r1).1 hin)).1] at hfree; cases hfree
  · rw [rest_iff hi1 hroot1]
    constructor
    · rintro ⟨hu, hno⟩
      exact (hun f hu).resolve_right fun ⟨p, hp⟩ => hno p hp
    · intro hu
      refine ⟨hst.used hu, fun p hp => ?_⟩
      rcases hnew f r1 p hp with ho | ⟨-, hn, -⟩
      · have := h0.inv.tree.root_own ho
        rw [(h0.inv.own_used this).1] at hfree; cases hfree
      · rw [hu] at hn; cases hn

/-- the allocator after a life and its end -/
theorem life_used (hb : Built m0 rs X) (hc : createAddressSpace m0 = some (addrOf r, m1)) (hlt : r < MAX_FRAMES)
    (hlife : Life r rs m1 m D) (f : ℕ) :
    used (destroyAddressSpace (addrOf r) m) f = true ↔ used m0 f = true ∨ f ∈ D := by
  obtain ⟨hb1, hnotin, h1⟩ := create_rest hb hc hlt
  rw [destroy_rest (hlife.built hnotin hb1) (by simp)]
  exact hlife.rest hnotin hb1 h1 f

/-- **Teardown conserves frames.** In any history, destroying r frees the frames r owns, each once, and nothing of
anybody else; and after a life of r alone, the frames in use are those from before its creation and the displaced. -/
theorem destroy_conserves (hb : Built m rs X) (hr : r ∈ rs) :
    (∃ l : List ℕ, l.Nodup ∧ (∀ f, f ∈ l ↔ Owned m r f) ∧
      (destroyAddressSpace (addrOf r) m).freed = (l.map addrOf).reverse ++ m.freed ∧
      (destroyAddressSpace (addrOf r) m).mem = m.mem ∧
      (∀ f, used (destroyAddressSpace (addrOf r) m) f = true ↔ used m f = true ∧ f ∉ l) ∧
      ∀ f ∈ l, used m f = true ∧ f ∉ X ∧ ∀ r' ∈ rs, r' ≠ r → ¬ Owned m r' f) ∧
    ∀ {m0 m1 rs0 X0 D}, Built m0 rs0 X0 → createAddressSpace m0 = some (addrOf r, m1) → Life r rs0 m1 m D →
      ∀ f, used (destroyAddressSpace (addrOf r) m) f = true ↔ used m0 f = true ∨ f ∈ D := by
  obtain ⟨L, h⟩ := hb.history
  have hroot := (h.roots r).1 hr
  have hlt := (h.inv.own_used hroot).2.2
  have hmask := addrOf_physMask hlt
  have hown : ∀ f, f ∈ frames m.mem 4 r [] ↔ Owned m r f := fun f => by
    rw [mem_frames h.inv hroot, owned_iff h.inv hroot]
  refine ⟨⟨frames m.mem 4 r [], frames_nodup h.inv hroot, hown, ?_, (destroy_spec h.inv hroot hmask).2.1, fun f => ?_,
    fun f hf => ?_⟩, fun hb0 hc hlife => life_used hb0 hc hlt hlife⟩
  · rw [destroy_eq h.inv hroot hmask]; exact (freeAll_rest _ _).2.2
  · rw [destroy_rest hb hr, Rest, hown]
  · obtain ⟨p, hp⟩ := (mem_frames h.inv hroot).1 hf
    refine ⟨(h.inv.own_used hp).1, fun hX => ?_, fun r' hr' hne ho => ?_⟩
    · rw [(h.other f hX).2] at hp; cases hp
    · obtain ⟨p', hp'⟩ := (owned_iff h.inv ((h.roots r').1 hr')).1 ho
      rw [hp] at hp'
      cases hp'
      exact hne rfl

end Teardown

/-- a life of one page ends where it began -/
theorem destroy_conserves_one_page : ∃ m r, Built m [r] {f | used bootMachine f = true} ∧
    (translate m.mem r sampleVirt).isSome = true ∧
    ∀ f, used (destroyAddressSpace (addrOf r) m) f = true ↔ used bootMachine f = true := by
  obtain ⟨r, m1, hc, -, hb1, hcr, hfree1, hnone⟩ := boot_space
  obtain ⟨L1, h1⟩ := hb1.history
  have hroot := (h1.roots r).1 (by simp)
  rw [← hcr] at hroot
  obtain ⟨a, m2, hm2⟩ := mapFresh_isSome (m := { m1 with cr3 := addrOf r }) sampleVirt
    sampleFlags (by show 5 ≤ freeCount m1.pmm; omega)
  have hb2 := hb1.map (by rw [hcr]; simp) sample_private sample_flags hm2
  have htr := mapFresh_translate h1.inv hroot sample_private sample_flags hm2 sample_private
  rw [if_pos rfl, hcr] at htr
  have hlife : Life r [] m1 m2 (∅ ∪ backing { m1 with cr3 := addrOf r } r sampleVirt) :=
    (Life.start.load (by simp)).map hcr sample_private sample_flags hm2
  refine ⟨m2, r, hb2, by rw [htr]; rfl, fun f => ?_⟩
  rw [(destroy_conserves hb2 (by simp)).2 (Built.boot bootMachine_booted) hc hlife f]
  constructor
  · rintro (hu | hf | ⟨x, hx, -⟩)
    · exact hu
    · cases hf
    · rw [hnone sampleVirt sample_private] at hx; cases hx
  · exact Or.inl

/-- the page mapped twice: the first frame is never freed -/
theorem remap_leaks : ¬ ∀ (m0 m1 m : Machine) (rs : List ℕ) (X D : Set ℕ) (a : U64), Built m0 rs X →
    createAddressSpace m0 = some (a, m1) → Life (frameOf a) rs m1 m D →
    ∀ f, used (destroyAddressSpace a m) f = true ↔ used m0 f = true := by
  intro hclaim
  obtain ⟨r, m1, hc, hlt, hb1, hcr, hfree1, hnone⟩ := boot_space
  obtain ⟨L1, h1⟩ := hb1.history
  have hroot := (h1.roots r).1 (by simp)
  rw [← hcr] at hroot
  obtain ⟨a, m2, hm2⟩ := mapFresh_isSome (m := { m1 with cr3 := addrOf r }) sampleVirt
    sampleFlags (by show 5 ≤ freeCount m1.pmm; omega)
  have hcost2 := mapFresh_freeCount hm2
  change freeCount m1.pmm ≤ _ at hcost2
  have hb2 := hb1.map (by rw [hcr]; simp) sample_private sample_flags hm2
  have hcr2 : getPml4 m2 = r := by
    rw [← hcr]; unfold getPml4; rw [mapFresh_cr3 h1.inv hroot sample_private sample_flags hm2]
  have htr := mapFresh_translate h1.inv hroot sample_private sample_flags hm2 sample_private
  rw [if_pos rfl, hcr] at htr
  obtain ⟨c, m1', L2', rfl, hcfree, -, -, w2, hoc, -⟩ := mapFresh_spec h1.inv hroot sample_private sample_flags hm2
  obtain ⟨b, m3, hm3⟩ := mapFresh_isSome (m := m2) sampleVirt sampleFlags (by omega)
  have hlife : Life r [] m1 m3 _ :=
    ((Life.start.load (by simp)).map hcr sample_private sample_flags hm2).map hcr2 sample_private sample_flags hm3
  -- the first frame is behind the page when the second arrives
  have hclt : c < MAX_FRAMES := (w2.inv.own_used hoc).2.2
  have hmem := (life_used (Built.boot bootMachine_booted) hc hlt hlife c).2
    (Or.inr (Or.inr ⟨_, htr, (addrOf_add_offset hclt sampleVirt).1.symm⟩))
  have hboot := (hclaim bootMachine m1 m3 [] _ _ (addrOf r) (Built.boot bootMachine_booted) hc
    (by rw [frameOf_addrOf hlt]; exact hlife) c).1 hmem
  have hused1 := (((create_rest (Built.boot bootMachine_booted) hc hlt).2.2 c).2 hboot).1
  have : used m1 c = false := hcfree
  rw [hused1] at this; cases this

end Retux.Vmm
