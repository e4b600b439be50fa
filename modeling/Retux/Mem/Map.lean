/-
Mapping, protecting and unmapping one private page.

`Grow r` is what `ensure_table` does on the way down address space r: fresh empty tables below absent entries, wider
flags on present ones, nothing else. `Remap r q` is what the whole of `map_into` or `unmap` does to page q: every other
page of every space keeps its entry, its frame and the frame's contents.

Results:
- `mapInto_spec`: mapping frame c at a private page never splits a huge page, and makes c that page's leaf;
- `protect_spec`, `unmap_spec`: the same for the two other editors of a leaf;
- `mapInto_isSome`, `mapInto_freeCount`: four free frames are enough, and no more than four are taken.
-/
import Mathlib.Tactic
import Retux.Mem.Translate

namespace Retux.Vmm

open Retux.Word Retux.Pmm Retux.Forest

/-! ## Allocation -/

theorem alloc_spec {m m' : Machine} {a : U64} (h : m.allocFrame = some (a, m')) :
    ∃ f, a = addrOf f ∧ f < MAX_FRAMES ∧ used m f = false ∧ m' = { m with pmm := m'.pmm } ∧
      (∀ g, used m' g = (decide (g = f) || used m g)) ∧ freeCount m.pmm = freeCount m'.pmm + 1 := by
  obtain ⟨⟨a', p'⟩, hp, he⟩ := Option.map_eq_some_iff.1 h
  cases he
  obtain ⟨f, rfl, hlt, hfree, hbits⟩ := allocFrame_spec hp
  exact ⟨f, rfl, hlt, hfree, rfl, hbits, allocFrame_freeCount hp⟩

theorem alloc_isSome {m : Machine} (h : 0 < freeCount m.pmm) : ∃ a m', m.allocFrame = some (a, m') := by
  obtain ⟨a, p', hp⟩ := allocFrame_isSome h
  exact ⟨a, { m with pmm := p' }, by rw [Machine.allocFrame, hp]; rfl⟩

theorem fill_mem (m : Machine) (t : ℕ) (g : Idx → U64) (f : ℕ) :
    (m.fill t g).mem f = if f = t then g else m.mem f := Function.update_apply ..

@[simp] theorem used_fill (m : Machine) (t : ℕ) (g : Idx → U64) (f : ℕ) : used (m.fill t g) f = used m f := rfl

/-- the contents of a leaf are the task's business -/
theorem Inv.writeLeaf {L : Layout} {m : Machine} {r f : ℕ} {p : List Idx} (h : Inv L m) (hf : L.own f = some (r, p))
    (hl : p.length = 4) (g : Idx → U64) : Inv L (m.fill f g) := by
  have hne : ∀ {t r' p'}, L.own t = some (r', p') → p'.length < 4 → (m.fill f g).mem t = m.mem t := by
    intro t r' p' ht hlt
    rw [fill_mem, if_neg]
    rintro rfl
    rw [hf] at ht
    cases ht
    omega
  have hpriv : ∀ {i : Idx} {p' : List Idx}, Priv (i :: p') = true → p'.length < 4 := by
    intro i p' hp
    have := Priv.length_le hp
    simp only [List.length_cons] at this; omega
  constructor
  · refine ⟨h.tree.priv, h.tree.root, fun hc => ?_, fun ht hp hc => ?_⟩
    · obtain ⟨t, ht, hch⟩ := h.tree.up hc
      exact ⟨t, ht, by rw [hne ht (hpriv (h.tree.priv hc))]; exact hch⟩
    · rw [hne ht (hpriv hp)] at hc; exact h.tree.down ht hp hc
  · refine h.kern.congr rfl (fun k l hk => ?_) fun _ _ _ hu => hu
    rw [fill_mem, if_neg]
    rintro rfl
    rw [h.apart hk] at hf; cases hf
  · exact h.apart
  · exact h.zero
  · exact h.own_used
  · intro t r' p' i ht hp he
    rw [hne ht (hpriv hp)] at he ⊢; exact h.own_huge ht hp he
  · intro t r' ht
    rw [hne ht (by simp)]; exact h.slot0 ht
  · intro t r' i ht hi
    rw [hne ht (by simp)]; exact h.slot0_pd ht hi
  · intro t r' i ht hi
    rw [hne ht (by simp)]; exact h.slot0_end ht hi
  · intro t r' i ht hp he
    rw [hne ht (by simp)] at he ⊢; exact h.shr_pml4 ht hp he
  · intro t r' i3 i2 ht hp he
    rw [hne ht (by simp)] at he ⊢; exact h.shr_pd ht hp he

/-- taking a frame and filling it is invisible to every address space -/
theorem Inv.alloc {L : Layout} {m m1 : Machine} {f : ℕ} (h : Inv L m) (hf : used m f = false)
    (hm : m1 = { m with pmm := m1.pmm }) (hu : ∀ g, used m1 g = (decide (g = f) || used m g)) (g : Idx → U64) :
    Inv L (m1.fill f g) := by
  obtain ⟨h1, h2, -⟩ := h.fresh hf
  refine h.congr (by rw [hm]; rfl) (fun k hk => ?_) (fun k _ hk => ?_)
  · have hne : k ≠ f := by
      rintro rfl
      rcases hk with hk | hk
      · exact hk h1
      · exact hk h2
    rw [fill_mem, if_neg hne, hm]
  · show used m1 k = true
    rw [hu, hk, Bool.or_true]

/-! ## Growing tables -/

structure Grow (r : ℕ) (L : Layout) (m : Machine) (L' : Layout) (m' : Machine) : Prop where
  inv : Inv L' m'
  klv : L'.klv = L.klv
  /-- a label is old, or a fresh table's -/
  own : ∀ f, L'.own f = L.own f ∨ used m f = false ∧ used m' f = true ∧
    ∃ p, L'.own f = some (r, p) ∧ p.length < 4 ∧ (p.length = 3 → ∀ i, m'.mem f i = 0)
  used_mono : ∀ f, used m f = true → used m' f = true
  used_new : ∀ f, used m' f = true → used m f = true ∨ L'.own f ≠ none
  mem : ∀ f i, m'.mem f i = m.mem f i ∨ used m f = false ∨
    ∃ p, L.own f = some (r, p) ∧ p.length < 3 ∧ Priv (i :: p) = true
  link : ∀ {f p i}, L.own f = some (r, p) → present (m.mem f i) = true → Same (m.mem f i) (m'.mem f i)
  rest : m'.cr3 = m.cr3 ∧ m'.gKernelPml4 = m.gKernelPml4 ∧ m'.freed = m.freed

section Grow

variable {L L' L'' : Layout} {m m' m'' : Machine} {r t : ℕ} {p : List Idx} {i : Idx} {fl : U64}

theorem Grow.refl (h : Inv L m) : Grow r L m L m :=
  ⟨h, rfl, fun _ => Or.inl rfl, fun _ hu => hu, fun _ hu => Or.inl hu, fun _ _ => Or.inl rfl, fun _ _ => Same.refl _,
    rfl, rfl, rfl⟩

/-- labels stay -/
theorem Grow.own_some (g : Grow r L m L' m') (h : Inv L m) {f : ℕ} {x : ℕ × List Idx} (hf : L.own f = some x) :
    L'.own f = some x := by
  rcases g.own f with ho | ⟨hu, -⟩
  · rw [ho, hf]
  · rw [(h.fresh hu).1] at hf; cases hf

/-- page tables and everything that is no table of r keep their contents -/
theorem Grow.row (g : Grow r L m L' m') {f : ℕ} (hu : used m f = true)
    (hf : ∀ p, L.own f = some (r, p) → 3 ≤ p.length) : m'.mem f = m.mem f := by
  funext i
  rcases g.mem f i with he | hn | ⟨p, ho, hl, -⟩
  · exact he
  · rw [hu] at hn; cases hn
  · have := hf p ho; omega

theorem Grow.trans (h : Inv L m) (g1 : Grow r L m L' m') (g2 : Grow r L' m' L'' m'') : Grow r L m L'' m'' := by
  refine ⟨g2.inv, g2.klv.trans g1.klv, fun f => ?_, fun f hu => g2.used_mono f (g1.used_mono f hu), fun f hu => ?_,
    fun f i => ?_, fun {f p i} hf hp => ?_, g2.rest.1.trans g1.rest.1, g2.rest.2.1.trans g1.rest.2.1,
    g2.rest.2.2.trans g1.rest.2.2⟩
  · rcases g2.own f with ho | ⟨hu, hu', hp⟩
    · rcases g1.own f with ho1 | ⟨hn, hn', p, hp, hl, hz⟩
      · exact Or.inl (ho.trans ho1)
      · refine Or.inr ⟨hn, g2.used_mono f hn', p, ho.trans hp, hl, fun h3 i => ?_⟩
        have hrow := g2.row hn' (f := f) fun p' hp' => by rw [hp] at hp'; cases hp'; omega
        rw [hrow, hz h3]
    · refine Or.inr ⟨?_, hu', hp⟩
      cases hum : used m f with
      | false => rfl
      | true => rw [g1.used_mono f hum] at hu; cases hu
  · rcases g2.used_new f hu with h2 | h2
    · rcases g1.used_new f h2 with h1 | h1
      · exact Or.inl h1
      · obtain ⟨x, hx⟩ := Option.ne_none_iff_exists'.1 h1
        exact Or.inr (by rw [g2.own_some g1.inv hx]; simp)
    · exact Or.inr h2
  · rcases g2.mem f i with he | hn | ⟨p, ho, hl, hp⟩
    · rw [he]; exact g1.mem f i
    · refine Or.inr (Or.inl ?_)
      cases hum : used m f with
      | false => rfl
      | true => rw [g1.used_mono f hum] at hn; cases hn
    · rcases g1.own f with ho1 | ⟨hn, -⟩
      · exact Or.inr (Or.inr ⟨p, ho1 ▸ ho, hl, hp⟩)
      · exact Or.inr (Or.inl hn)
  · have s1 := g1.link hf hp
    have s2 := g2.link (g1.own_some h hf) (s1.1.trans hp)
    exact ⟨s2.1.trans s1.1, fun _ => ⟨(s2.2 (s1.1.trans hp)).1.trans (s1.2 hp).1,
      (s2.2 (s1.1.trans hp)).2.trans (s1.2 hp).2⟩⟩

theorem Grow.keeps (h : Inv L m) (g : Grow r L m L' m') : Keeps r L m L' m' := by
  refine ⟨g.klv, fun hf _ => g.own_some h hf, fun hf _ => g.own_some h hf, fun {f i} hg => ?_,
    fun hf _ hp => g.link hf hp, g.rest.2.1⟩
  rcases g.mem f i with he | hn | ⟨p, ho, hl, hp⟩
  · exact he
  · rcases hg with ⟨k, hk⟩ | ⟨r', p, ho, -⟩
    · rw [(h.fresh hn).2.1] at hk; cases hk
    · rw [(h.fresh hn).1] at ho; cases ho
  · rcases hg with ⟨k, hk⟩ | ⟨r', p', ho', hr'⟩
    · rw [h.apart hk] at ho; cases ho
    · rw [ho] at ho'
      cases ho'
      rw [(hr' rfl).2] at hp; cases hp

/-- no leaf is touched -/
theorem Grow.leaf (h : Inv L m) (g : Grow r L m L' m') {r' : ℕ} {q : List Idx} {e : U64} :
    Leaf L' m' r' q e ↔ Leaf L m r' q e := by
  constructor
  · rintro ⟨t, i, p, rfl, hlen, ht, rfl, he⟩
    rcases g.own t with ho | ⟨-, -, p', hp', -, hz⟩
    · have ht0 : L.own t = some (r', p) := ho ▸ ht
      have hrow := g.row (h.own_used ht0).1 fun p' hp' => by rw [ht0] at hp'; cases hp'; omega
      exact ⟨t, i, p, rfl, hlen, ht0, by rw [hrow], he⟩
    · rw [ht] at hp'
      cases hp'
      rw [hz hlen] at he; cases he
  · rintro ⟨t, i, p, rfl, hlen, ht, rfl, he⟩
    have hrow := g.row (h.own_used ht).1 fun p' hp' => by rw [ht] at hp'; cases hp'; omega
    exact ⟨t, i, p, rfl, hlen, g.own_some h ht, by rw [hrow], he⟩

/-- one level down: the table below a private entry exists afterwards -/
theorem ensureTable_spec (h : Inv L m) (ht : L.own t = some (r, p)) (hl : p.length < 3) (hp : Priv (i :: p) = true)
    (hfl : Flags fl) (hh : huge fl = false) {c : ℕ} (he : ensureTable m t i fl = some (c, m')) :
    ∃ L', Grow r L m L' m' ∧ L'.own c = some (r, i :: p) := by
  unfold ensureTable at he
  split_ifs at he with h0
  · -- a fresh table
    rw [absent_iff] at h0
    obtain ⟨⟨a, m1⟩, ha, hres⟩ := Option.map_eq_some_iff.1 he
    obtain ⟨f, rfl, hlt, hfree, hm1, hused, -⟩ := alloc_spec ha
    simp only [frameOf_addrOf hlt] at hres
    obtain ⟨hof, hkf, hf0⟩ := h.fresh hfree
    have hi := h.alloc hfree hm1 hused fun _ => 0
    have hft : t ≠ f := by rintro rfl; rw [ht] at hof; cases hof
    have hmt : (m1.fill f fun _ => 0).mem t = m.mem t := by rw [fill_mem, if_neg hft, hm1]
    have hpr : present (addrOf f ||| fl ||| PRESENT) = true := present_table _
    have hhu : huge (addrOf f ||| fl ||| PRESENT) = false := huge_table hlt hh
    have hk : entryToKptr (addrOf f ||| fl ||| PRESENT) = f := kptr_table hlt hfl
    have huf : used (m1.fill f fun _ => 0) f = true := by
      show used m1 f = true
      rw [hused]; simp
    have hlink := hi.link ht hp (by rw [hmt]; exact h0) hof hkf ⟨huf, Nat.pos_of_ne_zero hf0, hlt⟩
      (fun _ j => by rw [fill_mem, if_pos rfl]) hpr hk hhu
    simp only [store_self, hk, Prod.mk.injEq] at hres
    obtain ⟨rfl, rfl⟩ := hres
    refine ⟨_, ⟨hlink, rfl, fun k => ?_, fun k hu => ?_, fun k hu => ?_, fun k j => ?_, fun {k q j} hk' hpk => ?_, ?_⟩,
      Function.update_self ..⟩
    · by_cases hkf' : k = f
      · subst hkf'
        refine Or.inr ⟨hfree, huf, i :: p, Function.update_self .., by simp; omega, fun _ j => ?_⟩
        rw [store_of_ne fun hh => hft hh.1.symm, fill_mem, if_pos rfl]
      · exact Or.inl (Function.update_of_ne hkf' _ _)
    · show used m1 k = true
      rw [hused, hu, Bool.or_true]
    · have hu' : used m1 k = true := hu
      rw [hused, Bool.or_eq_true, decide_eq_true_eq] at hu'
      rcases hu' with rfl | hu'
      · exact Or.inr (by show Function.update L.own k _ k ≠ none; simp)
      · exact Or.inl hu'
    · by_cases hkt : k = t ∧ j = i
      · obtain ⟨rfl, rfl⟩ := hkt
        exact Or.inr (Or.inr ⟨p, ht, hl, hp⟩)
      · rw [store_of_ne hkt]
        by_cases hkf' : k = f
        · subst hkf'; exact Or.inr (Or.inl hfree)
        · rw [fill_mem, if_neg hkf', hm1]; exact Or.inl rfl
    · have hkf' : k ≠ f := by rintro rfl; rw [hof] at hk'; cases hk'
      refine Same.of_eq ?_
      rw [store_of_ne, fill_mem, if_neg hkf', hm1]
      rintro ⟨rfl, rfl⟩
      rw [h0] at hpk; cases hpk
    · rw [hm1]; exact ⟨rfl, rfl, rfl⟩
  · -- a present one, widened
    have h1 : present (m.mem t i) = true := by rw [absent_iff] at h0; simpa using h0
    cases he
    have hsame : Same (m.mem t i) (m.mem t i ||| (fl &&& (USER ||| WRITABLE))) :=
      ⟨present_widen _ _, fun _ => ⟨kptr_widen _ _, huge_widen _ _⟩⟩
    refine ⟨L, ⟨h.relink ht hp h1 (hsame.1.trans h1) (kptr_widen _ _) ?_, rfl, fun _ => Or.inl rfl, fun _ hu => hu,
      fun _ hu => Or.inl hu, fun k j => ?_, fun {k q j} hk hpk => ?_, rfl, rfl, rfl⟩, ?_⟩
    · rw [huge_widen]; exact h.own_huge ht hp h1
    · by_cases hkt : k = t ∧ j = i
      · obtain ⟨rfl, rfl⟩ := hkt
        exact Or.inr (Or.inr ⟨p, ht, hl, hp⟩)
      · exact Or.inl (store_of_ne hkt)
    · by_cases hkt : k = t ∧ j = i
      · obtain ⟨rfl, rfl⟩ := hkt
        rw [store_self]; exact hsame
      · exact Same.of_eq (store_of_ne hkt)
    · rw [store_self, kptr_widen]; exact h.down ht hp h1

theorem ensureTable_isSome (t : ℕ) (i : Idx) (fl : U64) (hf : 0 < freeCount m.pmm) : ∃ c m', ensureTable m t i fl = some (c, m') := by
  unfold ensureTable
  split_ifs
  · obtain ⟨a, m1, ha⟩ := alloc_isSome hf
    exact ⟨_, _, by rw [ha]; rfl⟩
  · exact ⟨_, _, rfl⟩

theorem splitIfHuge_isSome (pd : ℕ) (i : Idx) (hf : 0 < freeCount m.pmm) :
    ∃ m', splitIfHuge m pd i = some m' := by
  unfold splitIfHuge
  split_ifs
  · obtain ⟨a, m1, ha⟩ := alloc_isSome hf
    exact ⟨_, by unfold splitHugePage; rw [ha]; rfl⟩
  · exact ⟨_, rfl⟩

theorem splitIfHuge_freeCount {pd : ℕ} (hs : splitIfHuge m pd i = some m') :
    freeCount m'.pmm ≤ freeCount m.pmm ∧ freeCount m.pmm ≤ freeCount m'.pmm + 1 := by
  unfold splitIfHuge at hs
  split_ifs at hs
  · obtain ⟨⟨a, m1⟩, ha, hres⟩ := Option.map_eq_some_iff.1 hs
    obtain ⟨f, -, -, -, -, -, hc⟩ := alloc_spec ha
    cases hres
    exact ⟨by rw [hc]; exact Nat.le_succ _, hc.le⟩
  · cases hs; exact ⟨le_rfl, Nat.le_succ _⟩

theorem ensureTable_freeCount {c : ℕ} (he : ensureTable m t i fl = some (c, m')) :
    freeCount m'.pmm ≤ freeCount m.pmm ∧ freeCount m.pmm ≤ freeCount m'.pmm + 1 := by
  unfold ensureTable at he
  split_ifs at he
  · obtain ⟨⟨a, m1⟩, ha, hres⟩ := Option.map_eq_some_iff.1 he
    obtain ⟨f, -, -, -, -, -, hc⟩ := alloc_spec ha
    cases hres
    exact ⟨by rw [hc]; exact Nat.le_succ _, hc.le⟩
  · cases he; exact ⟨le_rfl, Nat.le_succ _⟩

/-- nothing is released -/
theorem splitIfHuge_used {pd f : ℕ} (hs : splitIfHuge m pd i = some m') (hf : used m f = true) : used m' f = true := by
  unfold splitIfHuge at hs
  split_ifs at hs
  · obtain ⟨⟨a, m1⟩, ha, hres⟩ := Option.map_eq_some_iff.1 hs
    obtain ⟨g, -, -, -, -, hu, -⟩ := alloc_spec ha
    cases hres
    show used m1 f = true
    rw [hu, hf, Bool.or_true]
  · cases hs; exact hf

theorem ensureTable_used {c f : ℕ} (he : ensureTable m t i fl = some (c, m')) (hf : used m f = true) :
    used m' f = true := by
  unfold ensureTable at he
  split_ifs at he
  · obtain ⟨⟨a, m1⟩, ha, hres⟩ := Option.map_eq_some_iff.1 he
    obtain ⟨g, -, -, -, -, hu, -⟩ := alloc_spec ha
    cases hres
    show used m1 f = true
    rw [hu, hf, Bool.or_true]
  · cases he; exact hf

end Grow

/-! ## Editing one page -/

structure Remap (r : ℕ) (q : List Idx) (L : Layout) (m : Machine) (L' : Layout) (m' : Machine) : Prop where
  inv : Inv L' m'
  keeps : Keeps r L m L' m'
  leaf : ∀ {r' q' e}, ¬ (r' = r ∧ q' = q) → (Leaf L' m' r' q' e ↔ Leaf L m r' q' e)
  own_keep : ∀ {f r' p}, L.own f = some (r', p) → ¬ (r' = r ∧ p = q) → L'.own f = some (r', p)
  own_new : ∀ {f r' p}, L'.own f = some (r', p) →
    L.own f = some (r', p) ∨ r' = r ∧ (p = q ∨ p.length < 4 ∧ used m f = false)
  used_mono : ∀ f, used m f = true → used m' f = true
  used_new : ∀ f, used m' f = true → used m f = true ∨ L'.own f ≠ none
  /-- frames that hold data keep it -/
  data : ∀ {f}, used m f = true → L.klv f = none → (∀ r' p, L.own f = some (r', p) → p.length = 4) →
    m'.mem f = m.mem f
  rest : m'.cr3 = m.cr3 ∧ m'.gKernelPml4 = m.gKernelPml4 ∧ m'.freed = m.freed

section Remap

variable {L L' L'' : Layout} {m m' m'' : Machine} {r t c : ℕ} {p q : List Idx} {i : Idx} {e fl v phys : U64}

theorem Grow.remap (h : Inv L m) (g : Grow r L m L' m') (w : Remap r q L' m' L'' m'') : Remap r q L m L'' m'' := by
  refine ⟨w.inv, (g.keeps h).trans w.keeps, fun hne => (w.leaf hne).trans (g.leaf h),
    fun hf hne => w.own_keep (g.own_some h hf) hne, fun {f r' p} hf => ?_,
    fun f hu => w.used_mono f (g.used_mono f hu), fun f hu => ?_, fun {f} hu hk hf => ?_,
    w.rest.1.trans g.rest.1, w.rest.2.1.trans g.rest.2.1, w.rest.2.2.trans g.rest.2.2⟩
  · rcases w.own_new hf with ho | ⟨hr, hq | ⟨hl, hn⟩⟩
    · rcases g.own f with ho' | ⟨hn, -, p', hp', hl, -⟩
      · exact Or.inl (ho' ▸ ho)
      · rw [ho] at hp'
        cases hp'
        exact Or.inr ⟨rfl, Or.inr ⟨hl, hn⟩⟩
    · exact Or.inr ⟨hr, Or.inl hq⟩
    · refine Or.inr ⟨hr, Or.inr ⟨hl, ?_⟩⟩
      cases hum : used m f with
      | false => rfl
      | true => rw [g.used_mono f hum] at hn; cases hn
  · rcases w.used_new f hu with h2 | h2
    · rcases g.used_new f h2 with h1 | h1
      · exact Or.inl h1
      · -- a fresh table is labelled, and the edit of page q does not take the label
        rcases g.own f with ho | ⟨-, -, p', hp', hl, -⟩
        · obtain ⟨x, hx⟩ := Option.ne_none_iff_exists'.1 h1
          exact Or.inl (h.own_used (ho ▸ hx)).1
        · exact Or.inr (by rw [w.keeps.tbl hp' hl]; simp)
    · exact Or.inr h2
  · have hrow := g.row hu fun p hp => by have := hf _ p hp; omega
    rw [← hrow]
    refine w.data (g.used_mono f hu) (by rw [g.klv]; exact hk) fun r' p hp => ?_
    rcases g.own f with ho | ⟨hn, -⟩
    · exact hf r' p (ho ▸ hp)
    · rw [hu] at hn; cases hn

/-- an edit of one leaf entry, given the layout it leads to -/
theorem Remap.ofStore {own' : ℕ → Option (ℕ × List Idx)} (h : Inv L m) (ht : L.own t = some (r, p))
    (hl : p.length = 3) (hi : Inv { L with own := own' } (m.store t i e))
    (hown : ∀ f, own' f = L.own f ∨
      (L.own f = none ∨ L.own f = some (r, i :: p)) ∧ (own' f = none ∨ own' f = some (r, i :: p))) :
    Remap r (i :: p) L m { L with own := own' } (m.store t i e) := by
  have hp : Priv (i :: p) = true := by
    match p, hl, h.tree.priv ht with
    | [_, _, _], _, hp => exact hp
  have hkeep : ∀ {f r' p'}, L.own f = some (r', p') → ¬ (r' = r ∧ p' = i :: p) → own' f = some (r', p') := by
    intro f r' p' hf hne
    rcases hown f with ho | ⟨ho | ho, -⟩
    · rw [ho, hf]
    · rw [ho] at hf; cases hf
    · rw [ho] at hf; cases hf; exact absurd ⟨rfl, rfl⟩ hne
  have hnew : ∀ {f r' p'}, own' f = some (r', p') → L.own f = some (r', p') ∨ r' = r ∧ p' = i :: p := by
    intro f r' p' hf
    rcases hown f with ho | ⟨-, ho | ho⟩
    · exact Or.inl (ho ▸ hf)
    · rw [ho] at hf; cases hf
    · rw [ho] at hf; cases hf; exact Or.inr ⟨rfl, rfl⟩
  have hne4 : ∀ {p' : List Idx}, p'.length < 4 → ¬ p' = i :: p := by
    rintro p' hlt rfl; simp [hl] at hlt
  refine ⟨hi, ⟨rfl, fun hf hr => hkeep hf fun hh => hr hh.1, fun hf hlt => hkeep hf fun hh => hne4 hlt hh.2,
    fun {f j} hg => store_of_ne ?_, fun {f p' j} hf hlt _ => Same.of_eq (store_of_ne ?_), rfl⟩, fun hne => ⟨?_, ?_⟩, hkeep,
    fun hf => ?_, fun _ hu => hu, fun _ hu => Or.inl hu, fun {f} _ _ hf => store_row ?_, rfl, rfl, rfl⟩
  · rintro ⟨rfl, rfl⟩
    rcases hg with ⟨k, hk⟩ | ⟨r', p', ho, hr'⟩
    · rw [h.apart hk] at ht; cases ht
    · rw [ht] at ho
      cases ho
      rw [(hr' rfl).2] at hp; cases hp
  · rintro ⟨rfl, rfl⟩
    rw [ht] at hf
    cases hf
    omega
  · rintro ⟨t', i', p', rfl, hlen, ht', he, hpr⟩
    have hold : L.own t' = some (_, p') := (hnew ht').resolve_right fun hh => hne4 (by omega) hh.2
    refine ⟨t', i', p', rfl, hlen, hold, ?_, hpr⟩
    rw [← he, store_of_ne]
    rintro ⟨rfl, rfl⟩
    rw [ht] at hold
    cases hold
    exact hne ⟨rfl, rfl⟩
  · rintro ⟨t', i', p', rfl, hlen, ht', he, hpr⟩
    refine ⟨t', i', p', rfl, hlen, hkeep ht' fun hh => hne4 (by omega) hh.2, ?_, hpr⟩
    rw [← he, store_of_ne]
    rintro ⟨rfl, rfl⟩
    rw [ht] at ht'
    cases ht'
    exact hne ⟨rfl, rfl⟩
  · rcases hnew hf with ho | ⟨hr, hq⟩
    · exact Or.inl ho
    · exact Or.inr ⟨hr, Or.inl hq⟩
  · rintro rfl
    have := hf _ _ ht
    omega

theorem store_store (m : Machine) (t : ℕ) (i : Idx) (e e' : U64) : (m.store t i e).store t i e' = m.store t i e' := by
  simp [Machine.store]

/-- put frame c into page `i :: p`: an unowned frame, or the one that is there -/
theorem leafStore_spec (h : Inv L m) (ht : L.own t = some (r, p)) (hl : p.length = 3)
    (hc : used m c = true ∧ 0 < c ∧ c < MAX_FRAMES) (hck : L.klv c = none)
    (hco : L.own c = none ∨ L.own c = some (r, i :: p)) (he : present e = true) (hh : huge e = false)
    (hek : entryToKptr e = c) :
    ∃ L', Remap r (i :: p) L m L' (m.store t i e) ∧ L'.own c = some (r, i :: p) ∧
      Leaf L' (m.store t i e) r (i :: p) e := by
  have hp : Priv (i :: p) = true := by
    match p, hl, h.tree.priv ht with
    | [_, _, _], _, hp => exact hp
  -- once the invariant holds for a layout that differs at page `i :: p` only, the rest follows
  have hdone : ∀ own', Inv { L with own := own' } (m.store t i e) → own' c = some (r, i :: p) →
      (∀ f, own' f = L.own f ∨
        (L.own f = none ∨ L.own f = some (r, i :: p)) ∧ (own' f = none ∨ own' f = some (r, i :: p))) →
      ∃ L', Remap r (i :: p) L m L' (m.store t i e) ∧ L'.own c = some (r, i :: p) ∧
        Leaf L' (m.store t i e) r (i :: p) e := by
    intro own' hi hoc hown
    have w := Remap.ofStore h ht hl hi hown
    exact ⟨_, w, hoc, t, i, p, rfl, hl, w.keeps.tbl ht (by omega), store_self .., he⟩
  cases hpr : present (m.mem t i) with
  | false =>
    have hco' : L.own c = none := by
      rcases hco with hco | hco
      · exact hco
      · have := child_some.1 (h.tree.child_of_own ht hco)
        rw [hpr] at this; cases this.1
    refine hdone _ (h.link ht hp hpr hco' hck hc (fun hlt => by omega) he hek hh) (Function.update_self ..) fun f => ?_
    by_cases hf : f = c
    · subst hf; exact Or.inr ⟨Or.inl hco', Or.inr (Function.update_self ..)⟩
    · exact Or.inl (Function.update_of_ne hf _ _)
  | true =>
    have hold := h.down ht hp hpr
    rcases hco with hco | hco
    · -- another frame: it takes the place of the old one, which nobody owns any more
      have hne : c ≠ entryToKptr (m.mem t i) := by rintro rfl; rw [hold] at hco; cases hco
      have hu := h.unlink ht hl hp hpr
      have htc : t ≠ entryToKptr (m.mem t i) := by
        intro hh
        rw [← hh, ht] at hold
        simp at hold
      have hln := hu.link (e := e) (c := c) (by rw [← ht]; exact Function.update_of_ne htc _ _) hp
        (by rw [store_self]; rfl) (by rw [← hco]; exact Function.update_of_ne hne _ _) hck hc (fun hlt => by omega) he hek hh
      rw [store_store] at hln
      refine hdone _ hln (Function.update_self ..) fun f => ?_
      by_cases hf : f = c
      · subst hf; exact Or.inr ⟨Or.inl hco, Or.inr (Function.update_self ..)⟩
      · simp only [Function.update_of_ne hf]
        by_cases hfo : f = entryToKptr (m.mem t i)
        · subst hfo; exact Or.inr ⟨Or.inr hold, Or.inl (Function.update_self ..)⟩
        · exact Or.inl (Function.update_of_ne hfo _ _)
    · have hcc := (child_some.1 (h.tree.child_of_own ht hco)).2
      exact hdone L.own (h.relink ht hp hpr he (hek.trans hcc.symm) hh) hco fun f => Or.inl rfl

/-- below a private PD entry nothing is split -/
theorem Inv.splitIfHuge_eq (h : Inv L m) {pd : ℕ} (hpd : L.own pd = some (r, p)) (hp : Priv (i :: p) = true) :
    splitIfHuge m pd i = some m := by
  unfold splitIfHuge
  rw [isHuge_eq]
  cases hpr : present (m.mem pd i) with
  | false => rfl
  | true => rw [h.own_huge hpd hp hpr]; rfl

/-- **Mapping a private page.** The walk creates the missing tables and splits nothing; then frame c is the page's
leaf, with the flags asked for. -/
theorem mapInto_spec (h : Inv L m) (hr : L.own r = some (r, [])) (hv : isPrivate v = true) (hfl : Flags fl)
    (hp : present fl = true) (hh : huge fl = false) (hc : used m c = true ∧ 0 < c ∧ c < MAX_FRAMES)
    (hck : L.klv c = none) (hco : L.own c = none ∨ L.own c = some (r, pathOf v))
    (hphys : phys &&& ~~~0xFFF#64 = addrOf c) (hm : mapInto m r v phys fl = some m') :
    ∃ L', Remap r (pathOf v) L m L' m' ∧ L'.own c = some (r, pathOf v) ∧
      Leaf L' m' r (pathOf v) (addrOf c ||| fl) := by
  have hint : Flags (if fl &&& USER ≠ 0 then PRESENT ||| WRITABLE ||| USER else PRESENT ||| WRITABLE) ∧
      huge (if fl &&& USER ≠ 0 then PRESENT ||| WRITABLE ||| USER else PRESENT ||| WRITABLE) = false := by
    split_ifs <;> decide
  unfold mapInto at hm
  simp only [bind, Option.bind_eq_some_iff, pure, Option.some.injEq, hphys] at hm
  obtain ⟨⟨pdpt, m1⟩, h1, ⟨pd, m2⟩, h2, m3, h3, ⟨pt, m4⟩, h4, rfl⟩ := hm
  obtain ⟨L1, g1, o1⟩ := ensureTable_spec h hr (by simp) (priv_slot hv) hint.1 hint.2 h1
  obtain ⟨L2, g2, o2⟩ := ensureTable_spec g1.inv o1 (by simp) (priv_pdptPath hv) hint.1 hint.2 h2
  rw [g2.inv.splitIfHuge_eq o2 (priv_pdPath hv)] at h3
  cases h3
  obtain ⟨L4, g4, o4⟩ := ensureTable_spec g2.inv o2 (by simp) (priv_pdPath hv) hint.1 hint.2 h4
  have g := (g1.trans h g2).trans h g4
  have hco4 : L4.own c = none ∨ L4.own c = some (r, pathOf v) := by
    rcases g.own c with ho | ⟨hn, -⟩
    · rw [ho]; exact hco
    · rw [hc.1] at hn; cases hn
  obtain ⟨L', w, ho, hleaf⟩ := leafStore_spec g.inv o4 (by simp) ⟨g.used_mono c hc.1, hc.2⟩
    (by rw [g.klv]; exact hck) hco4 (e := addrOf c ||| fl) (by rw [present_addr_or hc.2.2]; exact hp)
    (by rw [huge_addr_or hc.2.2]; exact hh) (kptr_addr_or hc.2.2 hfl)
  exact ⟨L', g.remap h w, ho, hleaf⟩

/-- **Frames for a mapping.** Four free frames are enough for any `map_into`, and it takes no more. -/
theorem mapInto_freeCount {pml4 : ℕ} (hm : mapInto m pml4 v phys fl = some m') :
    freeCount m'.pmm ≤ freeCount m.pmm ∧ freeCount m.pmm ≤ freeCount m'.pmm + 4 := by
  unfold mapInto at hm
  simp only [bind, Option.bind_eq_some_iff, pure, Option.some.injEq] at hm
  obtain ⟨⟨pdpt, m1⟩, h1, ⟨pd, m2⟩, h2, m3, h3, ⟨pt, m4⟩, h4, rfl⟩ := hm
  have c1 := ensureTable_freeCount h1
  have c2 := ensureTable_freeCount h2
  have c3 := splitIfHuge_freeCount h3
  have c4 := ensureTable_freeCount h4
  show freeCount m4.pmm ≤ freeCount m.pmm ∧ freeCount m.pmm ≤ freeCount m4.pmm + 4
  simp only at c2 c3 c4
  omega

theorem mapInto_used {pml4 f : ℕ} (hm : mapInto m pml4 v phys fl = some m') (hf : used m f = true) :
    used m' f = true := by
  unfold mapInto at hm
  simp only [bind, Option.bind_eq_some_iff, pure, Option.some.injEq] at hm
  obtain ⟨⟨pdpt, m1⟩, h1, ⟨pd, m2⟩, h2, m3, h3, ⟨pt, m4⟩, h4, rfl⟩ := hm
  show used m4 f = true
  exact ensureTable_used h4 (splitIfHuge_used h3 (ensureTable_used h2 (ensureTable_used h1 hf)))

theorem mapInto_isSome {pml4 : ℕ} (hf : 4 ≤ freeCount m.pmm) : ∃ m', mapInto m pml4 v phys fl = some m' := by
  unfold mapInto
  simp only [bind]
  obtain ⟨pdpt, m1, h1⟩ := ensureTable_isSome (m := m) pml4 (tableIdx v 39)
    (if fl &&& USER ≠ 0 then PRESENT ||| WRITABLE ||| USER else PRESENT ||| WRITABLE) (by omega)
  have c1 := ensureTable_freeCount h1
  rw [h1, Option.bind_some]
  obtain ⟨pd, m2, h2⟩ := ensureTable_isSome (m := m1) pdpt (tableIdx v 30)
    (if fl &&& USER ≠ 0 then PRESENT ||| WRITABLE ||| USER else PRESENT ||| WRITABLE) (by omega)
  have c2 := ensureTable_freeCount h2
  simp only [h2, Option.bind_some]
  obtain ⟨m3, h3⟩ := splitIfHuge_isSome (m := m2) pd (tableIdx v 21) (by omega)
  have c3 := splitIfHuge_freeCount h3
  rw [h3, Option.bind_some]
  obtain ⟨pt, m4, h4⟩ := ensureTable_isSome (m := m3) pd (tableIdx v 21)
    (if fl &&& USER ≠ 0 then PRESENT ||| WRITABLE ||| USER else PRESENT ||| WRITABLE) (by omega)
  exact ⟨_, by rw [h4]; rfl⟩

/-! ## The other two editors -/

/-- a private page's table, found by the walk from the loaded CR3 -/
theorem unmap_absent (h : Inv L m) (hr : L.own (getPml4 m) = some (getPml4 m, [])) (hv : isPrivate v = true)
    (hn : ∀ t, L.own t = some (getPml4 m, ptPath v) → False) : unmap m v = some m := by
  unfold unmap
  simp only [absent_iff]
  split_ifs with p4 p3
  · rfl
  · rfl
  have h3 := h.down hr (priv_slot hv) (Bool.eq_true_of_not_eq_false p4)
  have h2 := h.down h3 (priv_pdptPath hv) (Bool.eq_true_of_not_eq_false p3)
  simp only [bind, h.splitIfHuge_eq h2 (priv_pdPath hv), Option.bind_some]
  split_ifs with p2
  · rfl
  · exact (hn _ (h.down h2 (priv_pdPath hv) (Bool.eq_true_of_not_eq_false p2))).elim

theorem unmap_present (h : Inv L m) (hv : isPrivate v = true) (ht : L.own t = some (getPml4 m, ptPath v)) :
    unmap m v = some (m.store t (tableIdx v 12) 0) := by
  obtain ⟨t3, t2, -, h2, hc4, hc3, hc2, -, -⟩ := h.walk_to_pt hv ht
  obtain ⟨p4, rfl⟩ := child_some.1 hc4
  obtain ⟨p3, rfl⟩ := child_some.1 hc3
  obtain ⟨p2, rfl⟩ := child_some.1 hc2
  unfold unmap
  simp only [absent_iff, p4, p3, Bool.true_eq_false, if_false, bind, h.splitIfHuge_eq h2 (priv_pdPath hv),
    Option.bind_some, p2]

/-- **Unmapping a private page.** The page loses its entry, and its frame is nobody's. -/
theorem unmap_spec (h : Inv L m) (hr : L.own (getPml4 m) = some (getPml4 m, [])) (hv : isPrivate v = true) :
    ∃ L' m', unmap m v = some m' ∧ Remap (getPml4 m) (pathOf v) L m L' m' ∧ m'.pmm = m.pmm ∧
      ∀ f, L'.own f = if L.own f = some (getPml4 m, pathOf v) then none else L.own f := by
  by_cases hpt : ∃ t, L.own t = some (getPml4 m, ptPath v)
  · obtain ⟨t, ht⟩ := hpt
    rw [unmap_present h hv ht]
    have hp := priv_ptPath hv
    cases hpr : present (m.mem t (tableIdx v 12)) with
    | true =>
      have hc : L.own (entryToKptr (m.mem t (tableIdx v 12))) = some (getPml4 m, pathOf v) := h.down ht hp hpr
      refine ⟨_, _, rfl, Remap.ofStore h ht rfl (h.unlink ht rfl hp hpr) fun f => ?_, rfl, fun f => ?_⟩
      · by_cases hf : f = entryToKptr (m.mem t (tableIdx v 12))
        · subst hf; exact Or.inr ⟨Or.inr hc, Or.inl (Function.update_self ..)⟩
        · exact Or.inl (Function.update_of_ne hf _ _)
      · by_cases hf : f = entryToKptr (m.mem t (tableIdx v 12))
        · subst hf
          rw [if_pos hc]; exact Function.update_self ..
        · rw [if_neg fun hh => hf (h.tree.unique hh hc)]; exact Function.update_of_ne hf _ _
    | false =>
      have hi : Inv { L with own := L.own } (m.store t (tableIdx v 12) 0) := by
        refine h.store ht hp (h.tree.relink ?_) (fun he => by cases he) (fun hl => by simp [ptPath] at hl)
          fun f => Or.inl rfl
        show child 0 = child _
        rw [child_none.2 hpr]; rfl
      refine ⟨_, _, rfl, Remap.ofStore h ht rfl hi fun f => Or.inl rfl, rfl, fun f => ?_⟩
      rw [if_neg]
      intro hf
      have := (child_some.1 (h.tree.child_of_own ht hf)).1
      rw [hpr] at this; cases this
  · have hn : ∀ t, L.own t = some (getPml4 m, ptPath v) → False := fun t ht => hpt ⟨t, ht⟩
    refine ⟨L, m, unmap_absent h hr hv hn, ⟨h, Keeps.refl _ _ _, fun _ => Iff.rfl, fun hf _ => hf, fun hf => Or.inl hf,
      fun _ hu => hu, fun _ hu => Or.inl hu, fun _ _ _ => rfl, rfl, rfl, rfl⟩, rfl, fun f => ?_⟩
    rw [if_neg]
    intro hf
    obtain ⟨t, ht, -⟩ := h.tree.up hf
    exact hpt ⟨t, ht⟩

/-- **Protecting a private page.** An unmapped page stays so; a mapped one keeps its frame and gets the new flags. -/
theorem protect_spec (h : Inv L m) (hr : L.own (getPml4 m) = some (getPml4 m, [])) (hv : isPrivate v = true)
    (hfl : Flags fl) (hp : present fl = true) (hh : huge fl = false) (hm : protect m v fl = some m') :
    (translate m.mem (getPml4 m) v = none ∧ m' = m) ∨
    ∃ L' c, L.own c = some (getPml4 m, pathOf v) ∧ Remap (getPml4 m) (pathOf v) L m L' m' ∧
      L'.own c = some (getPml4 m, pathOf v) ∧ Leaf L' m' (getPml4 m) (pathOf v) (addrOf c ||| fl) := by
  unfold protect at hm
  rw [virtToPhys_eq] at hm
  cases htr : translate m.mem (getPml4 m) v with
  | none =>
    rw [htr] at hm
    simp only [Option.map_none, Option.getD_none, if_true, Option.some.injEq] at hm
    exact Or.inl ⟨rfl, hm.symm⟩
  | some x =>
    refine Or.inr ?_
    obtain ⟨e, hleaf, rfl⟩ := (translate_eq_some_iff h hr hv).1 htr
    have hc := hleaf.own h
    obtain ⟨hu, hpos, hlt⟩ := h.own_used hc
    obtain ⟨hframe, hmask⟩ := addrOf_add_offset hlt v
    rw [htr, entryPhys_eq hlt] at hm
    simp only [Option.map_some, Option.getD_some] at hm
    rw [if_neg] at hm
    · obtain ⟨L', w, ho, hl⟩ := mapInto_spec h hr hv hfl hp hh ⟨hu, hpos, hlt⟩
        (h.klv_none hc) (Or.inr hc) hmask hm
      exact ⟨L', _, hc, w, ho, hl⟩
    · intro h0
      rw [h0] at hframe
      have : (0 : ℕ) = entryToKptr e := hframe
      omega

end Remap

end Retux.Vmm
