/-
Creating an address space.

`create_address_space` builds a PML4 that borrows the heap and physmap slots, a slot-0 PDPT, and four PDs that borrow
the kernel's low 4 GiB except for the private window. The six frames are built while no address space owns them
(`Stage`), and are labelled together once the last entry is in place (`Inv.addSpace`).

Result: `create_spec`. The new space owns six fresh frames and no leaf; nothing that was in use is written.
-/
import Mathlib.Tactic
import Retux.Mem.Map

namespace Retux.Vmm

open Retux.Word Retux.Pmm Retux.Forest

/-! ## Writing frames nobody owns -/

/-- only frames that were free in m are written, and none is released -/
structure Stage (m m' : Machine) : Prop where
  mem : ∀ {f}, used m f = true → m'.mem f = m.mem f
  used : ∀ {f}, used m f = true → used m' f = true
  rest : m'.cr3 = m.cr3 ∧ m'.gKernelPml4 = m.gKernelPml4 ∧ m'.freed = m.freed

section Stage

variable {L : Layout} {m m' m'' : Machine}

theorem Stage.refl (m : Machine) : Stage m m := ⟨fun _ => rfl, fun h => h, rfl, rfl, rfl⟩

theorem Stage.trans (s1 : Stage m m') (s2 : Stage m' m'') : Stage m m'' :=
  ⟨fun hu => (s2.mem (s1.used hu)).trans (s1.mem hu), fun hu => s2.used (s1.used hu), s2.rest.1.trans s1.rest.1,
    s2.rest.2.1.trans s1.rest.2.1, s2.rest.2.2.trans s1.rest.2.2⟩

/-- a write to a frame that was free at the start -/
theorem Stage.fill (s : Stage m m') {f : ℕ} (hf : Vmm.used m f = false) (g : Idx → U64) : Stage m (m'.fill f g) := by
  refine ⟨fun {k} hk => ?_, fun hk => s.used hk, s.rest⟩
  rw [fill_mem, if_neg, s.mem hk]
  rintro rfl
  rw [hf] at hk; cases hk

theorem Stage.store (s : Stage m m') {f : ℕ} (hf : Vmm.used m f = false) (i : Idx) (e : U64) :
    Stage m (m'.store f i e) := by
  refine ⟨fun {k} hk => ?_, fun hk => s.used hk, s.rest⟩
  rw [store_row, s.mem hk]
  rintro rfl
  rw [hf] at hk; cases hk

theorem Stage.alloc {a : U64} (s : Stage m m') (ha : m'.allocFrame = some (a, m'')) : Stage m m'' := by
  obtain ⟨f, -, -, -, hm, hu, -⟩ := alloc_spec ha
  refine s.trans ⟨fun _ => by rw [hm], fun hk => by rw [hu, hk, Bool.or_true], ?_⟩
  rw [hm]; exact ⟨rfl, rfl, rfl⟩

/-- a frame that is free now was free at the start -/
theorem Stage.free (s : Stage m m') {f : ℕ} (hf : Vmm.used m' f = false) : Vmm.used m f = false := by
  cases hu : Vmm.used m f with
  | false => rfl
  | true => rw [s.used hu] at hf; cases hf

/-- address spaces do not see it -/
theorem Stage.inv (s : Stage m m') (h : Inv L m) : Inv L m' := by
  refine h.congr s.rest.2.1 (fun f hf => s.mem ?_) (fun f _ hu => s.used hu)
  rcases hf with hf | hf
  · obtain ⟨x, hx⟩ := Option.ne_none_iff_exists'.1 hf
    exact (h.own_used hx).1
  · obtain ⟨x, hx⟩ := Option.ne_none_iff_exists'.1 hf
    exact (h.kern.used hx).1

end Stage

/-! ## Labelling a finished space -/

/-- contents of the PD that covers GiB `pdptIdx` -/
def borrowedPd (kernelPd : Idx → U64) (pdptIdx pdIdx : Idx) : U64 :=
  if ¬ (RESERVED_LOW ≤ virt2mb pdptIdx pdIdx ∧ virt2mb pdptIdx pdIdx < RESERVED_HIGH) ∧
    kernelPd pdIdx &&& PRESENT ≠ 0 then kernelPd pdIdx else 0

/-- a walk through a borrowed PD is the kernel's walk -/
theorem translate_borrowed {mem mem' : ℕ → Idx → U64} {r t d K T D : ℕ} {v : U64} (h4 : tableIdx v 39 = 0)
    (hres : ¬ (RESERVED_LOW ≤ virt2mb (tableIdx v 30) (tableIdx v 21) ∧
      virt2mb (tableIdx v 30) (tableIdx v 21) < RESERVED_HIGH))
    (c4 : child (mem' r 0) = some t) (c3 : child (mem' t (tableIdx v 30)) = some d)
    (g3 : huge (mem' t (tableIdx v 30)) = false)
    (e2 : mem' d (tableIdx v 21) = borrowedPd (mem D) (tableIdx v 30) (tableIdx v 21))
    (k4 : child (mem K 0) = some T) (k3 : child (mem T (tableIdx v 30)) = some D)
    (w3 : huge (mem T (tableIdx v 30)) = false)
    (hpt : present (mem D (tableIdx v 21)) = true → huge (mem D (tableIdx v 21)) = false →
      mem' (entryToKptr (mem D (tableIdx v 21))) = mem (entryToKptr (mem D (tableIdx v 21)))) :
    translate mem' r v = translate mem K v := by
  obtain ⟨p4, rfl⟩ := child_some.1 c4
  obtain ⟨p3, rfl⟩ := child_some.1 c3
  obtain ⟨q4, rfl⟩ := child_some.1 k4
  obtain ⟨q3, rfl⟩ := child_some.1 k3
  cases hp : present (mem (entryToKptr (mem (entryToKptr (mem K 0)) (tableIdx v 30))) (tableIdx v 21)) with
  | false =>
    rw [borrowedPd, if_neg fun hh => hh.2 ((absent_iff _).2 hp)] at e2
    unfold translate
    simp only [h4, p4, p3, g3, e2, q4, q3, w3, hp, present_zero, Bool.true_eq_false, Bool.false_eq_true, if_false,
      if_true]
  | true =>
    have hne : ¬ mem (entryToKptr (mem (entryToKptr (mem K 0)) (tableIdx v 30))) (tableIdx v 21) &&& PRESENT = 0 := by
      rw [absent_iff, hp]
      decide
    rw [borrowedPd, if_pos ⟨hres, hne⟩] at e2
    cases hg : huge (mem (entryToKptr (mem (entryToKptr (mem K 0)) (tableIdx v 30))) (tableIdx v 21)) with
    | true =>
      unfold translate
      simp only [h4, p4, p3, g3, e2, q4, q3, w3, hp, hg, Bool.true_eq_false, Bool.false_eq_true, if_false, if_true]
    | false =>
      unfold translate
      simp only [h4, p4, p3, g3, e2, q4, q3, w3, hp, hg, hpt hp hg, Bool.true_eq_false, Bool.false_eq_true, if_false]

/-- the frames of a new space and what is in them: PML4 r, slot-0 PDPT t, PDs `d i` -/
structure Built0 (L : Layout) (m : Machine) (r t : ℕ) (d : Idx → ℕ) : Prop where
  free : ∀ f, (f = r ∨ f = t ∨ ∃ i : Idx, i.val < 4 ∧ f = d i) →
    L.own f = none ∧ L.klv f = none ∧ used m f = true ∧ 0 < f ∧ f < MAX_FRAMES
  ne : r ≠ t ∧ (∀ i : Idx, i.val < 4 → d i ≠ r ∧ d i ≠ t)
  inj : ∀ i j : Idx, i.val < 4 → j.val < 4 → d i = d j → i = j
  pml4 : ∀ j, m.mem r j = if j = 0 then addrOf t ||| (PRESENT ||| WRITABLE ||| USER) else
    if j = HEAP_PML4_IDX ∨ j = PHYSMAP_PML4_IDX then m.mem (frameOf m.gKernelPml4) j else 0
  pdpt : ∀ j : Idx, m.mem t j = if j.val < 4 then addrOf (d j) ||| (PRESENT ||| WRITABLE ||| USER) else 0
  pd : ∀ i : Idx, i.val < 4 → ∃ k, L.klv k = some 1 ∧ m.mem (d i) = borrowedPd (m.mem k) i

/-- the labels of the new space -/
noncomputable def addOwn (L : Layout) (r t : ℕ) (d : Idx → ℕ) (f : ℕ) : Option (ℕ × List Idx) :=
  open Classical in
  if f = r then some (r, []) else if f = t then some (r, [0]) else
    if h : ∃ i : Idx, i.val < 4 ∧ f = d i then some (r, [h.choose, 0]) else L.own f

section AddSpace

variable {L : Layout} {m : Machine} {r t : ℕ} {d : Idx → ℕ}

theorem addOwn_r : addOwn L r t d r = some (r, []) := by simp [addOwn]

theorem addOwn_t (h : Built0 L m r t d) : addOwn L r t d t = some (r, [0]) := by simp [addOwn, Ne.symm h.ne.1]

theorem addOwn_d (h : Built0 L m r t d) {i : Idx} (hi : i.val < 4) : addOwn L r t d (d i) = some (r, [i, 0]) := by
  have hex : ∃ j : Idx, j.val < 4 ∧ d i = d j := ⟨i, hi, rfl⟩
  have hch := hex.choose_spec
  unfold addOwn
  rw [if_neg (h.ne.2 i hi).1, if_neg (h.ne.2 i hi).2, dif_pos hex, ← h.inj i _ hi hch.1 hch.2]

/-- a label is one of the six new ones, or old -/
theorem addOwn_cases (h : Built0 L m r t d) {f r' : ℕ} {p : List Idx} (hf : addOwn L r t d f = some (r', p)) :
    (f = r ∧ r' = r ∧ p = []) ∨ (f = t ∧ r' = r ∧ p = [0]) ∨ (∃ i : Idx, i.val < 4 ∧ f = d i ∧ r' = r ∧ p = [i, 0]) ∨
      L.own f = some (r', p) := by
  by_cases hr : f = r
  · subst hr
    rw [addOwn_r] at hf
    cases hf
    exact Or.inl ⟨rfl, rfl, rfl⟩
  by_cases ht : f = t
  · subst ht
    rw [addOwn_t h] at hf
    cases hf
    exact Or.inr (Or.inl ⟨rfl, rfl, rfl⟩)
  by_cases hd : ∃ i : Idx, i.val < 4 ∧ f = d i
  · obtain ⟨i, hi, rfl⟩ := hd
    rw [addOwn_d h hi] at hf
    cases hf
    exact Or.inr (Or.inr (Or.inl ⟨i, hi, rfl, rfl, rfl⟩))
  · refine Or.inr (Or.inr (Or.inr ?_))
    rwa [addOwn, if_neg hr, if_neg ht, dif_neg hd] at hf

theorem addOwn_old (h : Built0 L m r t d) {f : ℕ} {x : ℕ × List Idx} (hf : L.own f = some x) :
    addOwn L r t d f = some x := by
  have hne : ¬ (f = r ∨ f = t ∨ ∃ i : Idx, i.val < 4 ∧ f = d i) := fun hh => by
    rw [(h.free f hh).1] at hf; cases hf
  simp only [not_or] at hne
  rw [addOwn, if_neg hne.1, if_neg hne.2.1, dif_neg hne.2.2, hf]

theorem child_user_entry {c : ℕ} (hc : c < MAX_FRAMES) :
    child (addrOf c ||| (PRESENT ||| WRITABLE ||| USER)) = some c :=
  child_some.2 ⟨by rw [present_addr_or hc]; rfl, kptr_addr_or hc (by decide)⟩

theorem Built0.child_pml4 (h : Built0 L m r t d) : child (m.mem r 0) = some t := by
  rw [h.pml4 0, if_pos rfl]
  exact child_user_entry (h.free t (Or.inr (Or.inl rfl))).2.2.2.2

theorem Built0.child_pdpt (h : Built0 L m r t d) {i : Idx} (hi : i.val < 4) : child (m.mem t i) = some (d i) := by
  rw [h.pdpt i, if_pos hi]
  exact child_user_entry (h.free _ (Or.inr (Or.inr ⟨i, hi, rfl⟩))).2.2.2.2

/-- a private slot of the new PML4 other than 0 is empty -/
theorem Built0.pml4_empty (h : Built0 L m r t d) {j : Idx} (hj : Priv [j] = true) (hj0 : j ≠ 0) : m.mem r j = 0 := by
  simp only [Priv, Bool.and_eq_true, decide_eq_true_eq] at hj
  rw [h.pml4 j, if_neg hj0, if_neg (not_or.2 hj)]

/-- the window of the new PD is empty -/
theorem Built0.pd_window (h : Built0 L m r t d) {i j : Idx} (hi : i.val < 4) (hj : Priv [j, i, 0] = true) :
    m.mem (d i) j = 0 := by
  obtain ⟨k, -, hk⟩ := h.pd i hi
  have hres : i = 0 ∧ 1 ≤ j.val ∧ j.val < 8 := by
    simpa [Priv, and_assoc] using hj
  rw [hk, borrowedPd, if_neg]
  exact fun hh => hh.1 ((reserved_iff i j).2 hres)

/-- a present entry of the new PD is the kernel's -/
theorem Built0.pd_borrowed (h : Built0 L m r t d) (hk : Kern L.klv m) {i j : Idx} (hi : i.val < 4)
    (he : present (m.mem (d i) j) = true) : huge (m.mem (d i) j) = true ∧ user (m.mem (d i) j) = false ∨
      huge (m.mem (d i) j) = false ∧ L.klv (entryToKptr (m.mem (d i) j)) = some 0 := by
  obtain ⟨k, hlv, hpd⟩ := h.pd i hi
  rw [hpd] at he ⊢
  unfold borrowedPd at he ⊢
  split_ifs at he ⊢ with hc
  · exact hk.pd hlv he
  · cases he

theorem Inv.addSpace (hi : Inv L m) (h : Built0 L m r t d) : Inv { L with own := addOwn L r t d } m := by
  have hnp : ∀ {i j : Idx}, i.val < 4 → Priv [j, i, 0] = true → ∀ c, child (m.mem (d i) j) = some c → False := by
    intro i j hi4 hp c hc
    rw [h.pd_window hi4 hp] at hc; cases hc
  constructor
  · refine ⟨fun hf => ?_, fun hf => ?_, fun hc => ?_, fun hf hp hc => ?_⟩
    · rcases addOwn_cases h hf with ⟨-, -, rfl⟩ | ⟨-, -, rfl⟩ | ⟨i, hi4, -, -, rfl⟩ | ho
      · rfl
      · decide
      · show Priv [i, 0] = true
        simpa [Priv] using hi4
      · exact hi.tree.priv ho
    · rcases addOwn_cases h hf with ⟨rfl, rfl, -⟩ | ⟨-, -, hp⟩ | ⟨i, -, -, -, hp⟩ | ho
      · rfl
      · cases hp
      · cases hp
      · exact hi.tree.root ho
    · rcases addOwn_cases h hc with ⟨-, -, hp⟩ | ⟨rfl, rfl, hp⟩ | ⟨i, hi4, rfl, rfl, hp⟩ | ho
      · cases hp
      · cases hp
        exact ⟨_, addOwn_r, h.child_pml4⟩
      · cases hp
        exact ⟨_, addOwn_t h, h.child_pdpt hi4⟩
      · obtain ⟨f, hf, hch⟩ := hi.tree.up ho
        exact ⟨f, addOwn_old h hf, hch⟩
    · rename_i f r' p i c
      rcases addOwn_cases h hf with ⟨rfl, rfl, rfl⟩ | ⟨rfl, rfl, rfl⟩ | ⟨i', hi4, rfl, rfl, rfl⟩ | ho
      · by_cases h0 : i = 0
        · subst h0
          have hc' : child (m.mem _ 0) = some c := hc
          rw [h.child_pml4] at hc'
          cases hc'
          exact addOwn_t h
        · have hc' : child (m.mem _ i) = some c := hc
          rw [h.pml4_empty hp h0] at hc'; cases hc'
      · have hi4 : i.val < 4 := by simpa [shape, Priv] using hp
        have hc' : child (m.mem _ i) = some c := hc
        rw [h.child_pdpt hi4] at hc'
        cases hc'
        exact addOwn_d h hi4
      · exact (hnp hi4 hp c hc).elim
      · exact addOwn_old h (hi.tree.down ho hp hc)
  · exact hi.kern
  · intro f k hk
    cases ho : addOwn L r t d f with
    | none => exact ho
    | some x =>
      exfalso
      have hk' : L.klv f = some k := hk
      rcases addOwn_cases h (show _ = some (x.1, x.2) from ho) with ⟨hf, -⟩ | ⟨hf, -⟩ | ⟨i, hi4, hf, -⟩ | ho'
      · rw [(h.free f (Or.inl hf)).2.1] at hk'; cases hk'
      · rw [(h.free f (Or.inr (Or.inl hf))).2.1] at hk'; cases hk'
      · rw [(h.free f (Or.inr (Or.inr ⟨i, hi4, hf⟩))).2.1] at hk'; cases hk'
      · rw [hi.apart hk'] at ho'; cases ho'
  · exact hi.zero
  · intro f x hf
    rcases addOwn_cases h (show _ = some (x.1, x.2) from hf) with ⟨hf, -⟩ | ⟨hf, -⟩ | ⟨i, hi4, hf, -⟩ | ho
    · exact (h.free f (Or.inl hf)).2.2
    · exact (h.free f (Or.inr (Or.inl hf))).2.2
    · exact (h.free f (Or.inr (Or.inr ⟨i, hi4, hf⟩))).2.2
    · exact hi.own_used ho
  · intro f r' p i hf hp he
    rcases addOwn_cases h hf with ⟨rfl, rfl, rfl⟩ | ⟨rfl, rfl, rfl⟩ | ⟨i', hi4, rfl, rfl, rfl⟩ | ho
    · by_cases h0 : i = 0
      · subst h0
        rw [h.pml4 0, if_pos rfl, huge_addr_or (h.free t (Or.inr (Or.inl rfl))).2.2.2.2]; rfl
      · rw [h.pml4_empty hp h0] at he; cases he
    · have hi4 : i.val < 4 := by simpa [Priv] using hp
      rw [h.pdpt i, if_pos hi4, huge_addr_or (h.free _ (Or.inr (Or.inr ⟨i, hi4, rfl⟩))).2.2.2.2]; rfl
    · rw [h.pd_window hi4 hp] at he; cases he
    · exact hi.own_huge ho hp he
  · intro f r' hf
    rcases addOwn_cases h hf with ⟨rfl, -, -⟩ | ⟨-, -, hp⟩ | ⟨i, -, -, -, hp⟩ | ho
    · exact (child_some.1 h.child_pml4).1
    · cases hp
    · cases hp
    · exact hi.slot0 ho
  · intro f r' i hf hi4
    rcases addOwn_cases h hf with ⟨-, -, hp⟩ | ⟨rfl, -, -⟩ | ⟨i, -, -, -, hp⟩ | ho
    · cases hp
    · exact (child_some.1 (h.child_pdpt hi4)).1
    · cases hp
    · exact hi.slot0_pd ho hi4
  · intro f r' i hf hi4
    rcases addOwn_cases h hf with ⟨-, -, hp⟩ | ⟨rfl, -, -⟩ | ⟨i, -, -, -, hp⟩ | ho
    · cases hp
    · rw [h.pdpt i, if_neg (Nat.not_lt.2 hi4)]
    · cases hp
    · exact hi.slot0_end ho hi4
  · intro f r' i hf hp he
    rcases addOwn_cases h hf with ⟨rfl, -, -⟩ | ⟨-, -, hp'⟩ | ⟨i, -, -, -, hp'⟩ | ho
    · have h0 : i ≠ 0 := by rintro rfl; simp [Priv] at hp
      have hs : i = HEAP_PML4_IDX ∨ i = PHYSMAP_PML4_IDX := by
        simpa only [Priv, Bool.and_eq_false_iff, decide_eq_false_iff_not, not_not] using hp
      rw [h.pml4 i, if_neg h0, if_pos hs] at he ⊢
      exact hi.kern.pml4 hi.kern.root he
    · cases hp'
    · cases hp'
    · exact hi.shr_pml4 ho hp he
  · intro f r' i3 i2 hf hp he
    rcases addOwn_cases h hf with ⟨-, -, hp'⟩ | ⟨-, -, hp'⟩ | ⟨i, hi4, rfl, -, hp'⟩ | ho
    · cases hp'
    · cases hp'
    · cases hp'
      exact h.pd_borrowed hi.kern hi4 he
    · exact hi.shr_pd ho hp he

end AddSpace

/-! ## The loop over the low 4 GiB -/

section Create

variable {L : Layout} {m m' : Machine} {r t : ℕ}

/-- the kernel's PDPT of slot 0, and the PDs below it -/
def kernelPdpt (m : Machine) : ℕ := entryToKptr (m.mem (frameOf m.gKernelPml4) 0)

def kernelPd (m : Machine) (i : Idx) : ℕ := entryToKptr (m.mem (kernelPdpt m) i)

/-- the kernel's map of the low 4 GiB, as the copy loop reads it -/
structure LowMap (m : Machine) : Prop where
  root : used m (frameOf m.gKernelPml4) = true
  slot0 : present (m.mem (frameOf m.gKernelPml4) 0) = true
  pdpt : used m (kernelPdpt m) = true
  slot0_pd : ∀ i : Idx, i.val < 4 → present (m.mem (kernelPdpt m) i) = true
  pd : ∀ i : Idx, i.val < 4 → used m (kernelPd m i) = true

theorem Kern.pd_level {klv : ℕ → Option ℕ} (h : Kern klv m) {i : Idx} (hi : i.val < 4) :
    klv (kernelPd m i) = some 1 := (h.pdpt (h.pml4 h.root h.slot0) (h.slot0_pd i hi)).2

theorem Kern.lowMap {klv : ℕ → Option ℕ} (h : Kern klv m) : LowMap m :=
  ⟨(h.used h.root).1, h.slot0, (h.used (h.pml4 h.root h.slot0)).1, h.slot0_pd, fun _ hi => (h.used (h.pd_level hi)).1⟩

/-- after n rounds: n PDs, filled and hung into the PDPT t -/
structure Rounds (m : Machine) (r t n : ℕ) (d : Idx → ℕ) (m' : Machine) : Prop where
  stage : Stage m m'
  used : ∀ f, used m' f = true ↔ used m f = true ∨ f = r ∨ f = t ∨ ∃ i : Idx, i.val < n ∧ f = d i
  fresh : ∀ i : Idx, i.val < n → Vmm.used m (d i) = false ∧ d i ≠ r ∧ d i ≠ t ∧ d i < MAX_FRAMES
  inj : ∀ i j : Idx, i.val < n → j.val < n → d i = d j → i = j
  pdpt : ∀ j : Idx, m'.mem t j = if j.val < n then addrOf (d j) ||| (PRESENT ||| WRITABLE ||| USER) else 0
  pd : ∀ i : Idx, i.val < n → m'.mem (d i) = borrowedPd (m.mem (kernelPd m i)) i

theorem createPd_spec (h : LowMap m) {n : ℕ} {d : Idx → ℕ} {m1 m2 : Machine} {i : Idx} (hi : i.val = n) (hn : n < 4)
    (hrt : r ≠ t) (ht : Vmm.used m t = false) (w : Rounds m r t n d m1)
    (hc : createPd t (kernelPdpt m) m1 i = some m2) : ∃ d', Rounds m r t (n + 1) d' m2 ∧ m2.mem r = m1.mem r := by
  have hrow : m1.mem (kernelPdpt m) = m.mem (kernelPdpt m) := w.stage.mem h.pdpt
  unfold createPd at hc
  rw [hrow, if_neg (by rw [absent_iff, h.slot0_pd i (by omega)]; simp)] at hc
  obtain ⟨⟨a, m1'⟩, ha, hres⟩ := Option.map_eq_some_iff.1 hc
  obtain ⟨f, rfl, hlt, hfree, hm, hu, -⟩ := alloc_spec ha
  simp only [frameOf_addrOf hlt] at hres
  have hkmem : m1'.mem (entryToKptr (m.mem (kernelPdpt m) i)) = m.mem (kernelPd m i) := by
    rw [hm]; exact w.stage.mem (h.pd i (by omega))
  have hnot : ¬ (Vmm.used m f = true ∨ f = r ∨ f = t ∨ ∃ j : Idx, j.val < n ∧ f = d j) := fun hh => by
    rw [(w.used f).2 hh] at hfree; cases hfree
  simp only [not_or, not_exists, not_and] at hnot
  obtain ⟨hfm, hfr, hft, hfd⟩ := hnot
  rw [hkmem] at hres
  subst hres
  have hdi : ∀ j : Idx, j.val < n → Function.update d i f j = d j := fun j hj =>
    Function.update_of_ne (fun hji => by rw [hji] at hj; omega) _ _
  have hlast : ∀ j : Idx, j.val < n + 1 → j.val < n ∨ j = i := fun j hj => by
    by_cases hj' : j.val < n
    · exact Or.inl hj'
    · exact Or.inr (Fin.ext (by omega))
  refine ⟨Function.update d i f, ⟨?_, fun k => ?_, fun j hj => ?_, fun j j' hj hj' hjj => ?_, fun j => ?_, fun j hj => ?_⟩,
    ?_⟩
  · exact (((w.stage.alloc ha).fill (by simpa using hfm) _).store ht _ _)
  · show Vmm.used m1' k = true ↔ _
    rw [hu, Bool.or_eq_true, decide_eq_true_eq, w.used k]
    constructor
    · rintro (rfl | hk | hk | hk | ⟨j, hj, rfl⟩)
      · exact Or.inr (Or.inr (Or.inr ⟨i, by omega, by rw [Function.update_self]⟩))
      · exact Or.inl hk
      · exact Or.inr (Or.inl hk)
      · exact Or.inr (Or.inr (Or.inl hk))
      · exact Or.inr (Or.inr (Or.inr ⟨j, by omega, (hdi j hj).symm⟩))
    · rintro (hk | hk | hk | ⟨j, hj, rfl⟩)
      · exact Or.inr (Or.inl hk)
      · exact Or.inr (Or.inr (Or.inl hk))
      · exact Or.inr (Or.inr (Or.inr (Or.inl hk)))
      · rcases hlast j hj with hj' | rfl
        · rw [hdi j hj']
          exact Or.inr (Or.inr (Or.inr (Or.inr ⟨j, hj', rfl⟩)))
        · rw [Function.update_self]; exact Or.inl rfl
  · rcases hlast j hj with hj' | rfl
    · rw [hdi j hj']; exact w.fresh j hj'
    · rw [Function.update_self]; exact ⟨by simpa using hfm, hfr, hft, hlt⟩
  · rcases hlast j hj with h1 | rfl <;> rcases hlast j' hj' with h2 | h2
    · rw [hdi j h1, hdi j' h2] at hjj; exact w.inj j j' h1 h2 hjj
    · subst h2
      rw [hdi j h1, Function.update_self] at hjj
      exact (hfd j h1 hjj.symm).elim
    · rw [hdi j' h2, Function.update_self] at hjj
      exact (hfd j' h2 hjj).elim
    · exact h2.symm
  · by_cases hji : j = i
    · subst hji
      rw [store_self, if_pos (by omega), Function.update_self, BitVec.or_assoc, BitVec.or_assoc, BitVec.or_assoc]
    · rw [store_of_ne fun hh => hji hh.2, fill_mem, if_neg (Ne.symm hft), hm, Function.update_of_ne hji]
      show m1.mem t j = _
      rw [w.pdpt j]
      have hne : j.val ≠ n := fun hh => hji (Fin.ext (by omega))
      by_cases hj : j.val < n
      · rw [if_pos hj, if_pos (by omega)]
      · rw [if_neg hj, if_neg (by omega)]
  · rcases hlast j hj with hj' | rfl
    · rw [hdi j hj', store_row (w.fresh j hj').2.2.1, fill_mem, if_neg (fun hh => hfd j hj' hh.symm), hm]
      exact w.pd j hj'
    · rw [Function.update_self, store_row hft, fill_mem, if_pos rfl]
      rfl
  · rw [store_row hrt, fill_mem, if_neg (Ne.symm hfr), hm]

theorem createLow_spec (h : LowMap m) (hrt : r ≠ t) (ht : Vmm.used m t = false) {m1 m2 : Machine} {d : Idx → ℕ}
    (w : Rounds m r t 0 d m1) (hc : createLow t (frameOf m.gKernelPml4) m1 = some m2) :
    ∃ d', Rounds m r t 4 d' m2 ∧ m2.mem r = m1.mem r := by
  have hrow := w.stage.mem h.root
  unfold createLow at hc
  rw [hrow, if_neg (by rw [absent_iff, h.slot0]; simp)] at hc
  simp only [List.foldlM_cons, List.foldlM_nil, bind, Option.bind_eq_some_iff, pure, Option.some.injEq] at hc
  obtain ⟨ma, ha, mb, hb, mc, hc, md, hd, rfl⟩ := hc
  obtain ⟨da, wa, ra⟩ := createPd_spec h rfl (by decide) hrt ht w ha
  obtain ⟨db, wb, rb⟩ := createPd_spec h rfl (by decide) hrt ht wa hb
  obtain ⟨dc, wc, rc⟩ := createPd_spec h rfl (by decide) hrt ht wb hc
  obtain ⟨dd, wd, rd⟩ := createPd_spec h rfl (by decide) hrt ht wc hd
  exact ⟨dd, wd, rd.trans (rc.trans (rb.trans ra))⟩

/-- the PML4 after its two stores -/
theorem pml4_slots (m1 : Machine) {k : ℕ} {g : Idx → U64} (hk : k ≠ r) (hg : ∀ j, m1.mem k j = g j)
    (hz : ∀ j, m1.mem r j = 0) (j : Idx) :
    ((m1.store r HEAP_PML4_IDX (m1.mem k HEAP_PML4_IDX)).store r PHYSMAP_PML4_IDX
      ((m1.store r HEAP_PML4_IDX (m1.mem k HEAP_PML4_IDX)).mem k PHYSMAP_PML4_IDX)).mem r j =
      if j = HEAP_PML4_IDX ∨ j = PHYSMAP_PML4_IDX then g j else 0 := by
  rw [store_row hk]
  by_cases h2 : j = PHYSMAP_PML4_IDX
  · subst h2; rw [store_self, if_pos (Or.inr rfl), hg]
  · rw [store_of_ne fun hh => h2 hh.2]
    by_cases h1 : j = HEAP_PML4_IDX
    · subst h1; rw [store_self, if_pos (Or.inl rfl), hg]
    · rw [store_of_ne fun hh => h1 hh.2, hz, if_neg (not_or.2 ⟨h1, h2⟩)]

/-- a new space: PML4 r, slot-0 PDPT t, PDs `d i`, in fresh frames -/
structure NewSpace (m : Machine) (r t : ℕ) (d : Idx → ℕ) (m' : Machine) : Prop where
  rounds : Rounds m r t 4 d m'
  free : Vmm.used m r = false ∧ Vmm.used m t = false
  lt : r < MAX_FRAMES ∧ t < MAX_FRAMES
  ne : r ≠ t
  pml4 : ∀ j, m'.mem r j = if j = 0 then addrOf t ||| (PRESENT ||| WRITABLE ||| USER) else
    if j = HEAP_PML4_IDX ∨ j = PHYSMAP_PML4_IDX then m.mem (frameOf m.gKernelPml4) j else 0

/-- **What `create_address_space` writes.** -/
theorem create_rows {a : U64} (h : LowMap m) (hc : createAddressSpace m = some (a, m')) :
    ∃ r t d, a = addrOf r ∧ NewSpace m r t d m' := by
  unfold createAddressSpace at hc
  simp only [bind, Option.bind_eq_some_iff, pure] at hc
  obtain ⟨⟨a0, m1⟩, ha0, ⟨a1, m2⟩, ha1, m3, hlow, hres⟩ := hc
  obtain ⟨r, rfl, hrlt, hrf, hm1, hu1, -⟩ := alloc_spec ha0
  simp only [frameOf_addrOf hrlt] at ha1 hlow hres
  have hkr : frameOf m.gKernelPml4 ≠ r := by
    rintro rfl
    rw [h.root] at hrf; cases hrf
  have hgk : (m1.fill r fun _ => 0).gKernelPml4 = m.gKernelPml4 := by rw [hm1]; rfl
  rw [hgk] at ha1 hlow
  -- the PML4 with its two borrowed slots
  have sB := ((((Stage.refl m).alloc ha0).fill hrf fun _ => 0).store hrf HEAP_PML4_IDX
    ((m1.fill r fun _ => 0).mem (frameOf m.gKernelPml4) HEAP_PML4_IDX)).store hrf PHYSMAP_PML4_IDX
    (((m1.fill r fun _ => 0).store r HEAP_PML4_IDX
      ((m1.fill r fun _ => 0).mem (frameOf m.gKernelPml4) HEAP_PML4_IDX)).mem (frameOf m.gKernelPml4) PHYSMAP_PML4_IDX)
  have hkm : ∀ j, (m1.fill r fun _ => 0).mem (frameOf m.gKernelPml4) j = m.mem (frameOf m.gKernelPml4) j := by
    intro j; rw [fill_mem, if_neg hkr, hm1]
  have hBr := pml4_slots (m1.fill r fun _ => 0) hkr hkm (by intro j; rw [fill_mem, if_pos rfl])
  generalize hB : Machine.store _ r PHYSMAP_PML4_IDX _ = mB at ha1 sB hBr
  have hBu : ∀ f, used mB f = (decide (f = r) || used m f) := by intro f; rw [← hB]; exact hu1 f
  clear hB
  obtain ⟨t, rfl, htlt, htf, hm2, hu2, -⟩ := alloc_spec ha1
  simp only [frameOf_addrOf htlt] at hlow hres
  have htm := sB.free htf
  have hrt : r ≠ t := by
    rintro rfl
    rw [hBu] at htf; simp at htf
  have w0 : Rounds m r t 0 (fun _ => 0) (m2.fill t fun _ => 0) := by
    refine ⟨(sB.alloc ha1).fill htm _, fun f => ?_, fun _ hi => by omega, fun _ _ hi => by omega, fun j => ?_,
      fun _ hi => by omega⟩
    · show used m2 f = true ↔ _
      rw [hu2, hBu]
      simp only [Bool.or_eq_true, decide_eq_true_eq, Nat.not_lt_zero, false_and, exists_false, or_false]
      tauto
    · rw [fill_mem, if_pos rfl]; simp
  have hr2 : (m2.fill t fun _ => 0).mem r = mB.mem r := by rw [fill_mem, if_neg hrt, hm2]
  obtain ⟨d, w, hr3⟩ := createLow_spec h hrt htm w0 hlow
  cases hres
  have hmr : ∀ j, (m3.store r 0 (addrOf t ||| PRESENT ||| WRITABLE ||| USER)).mem r j =
      if j = 0 then addrOf t ||| (PRESENT ||| WRITABLE ||| USER) else
        if j = HEAP_PML4_IDX ∨ j = PHYSMAP_PML4_IDX then m.mem (frameOf m.gKernelPml4) j else 0 := by
    intro j
    by_cases hj : j = 0
    · subst hj; rw [store_self, if_pos rfl, BitVec.or_assoc, BitVec.or_assoc, BitVec.or_assoc]
    · rw [store_of_ne fun hh => hj hh.2, hr3, hr2, if_neg hj, hBr]
  refine ⟨r, t, d, rfl, ⟨w.stage.store hrf _ _, w.used, w.fresh, w.inj, fun j => ?_, fun i hi => ?_⟩, ⟨hrf, htm⟩,
    ⟨hrlt, htlt⟩, hrt, hmr⟩
  · rw [store_row (Ne.symm hrt)]
    exact w.pdpt j
  · rw [store_row (w.fresh i hi).2.1]
    exact w.pd i hi

/-- **A new address space.** It owns six fresh frames and maps nothing private; everything in use is untouched. -/
theorem create_spec {a : U64} (h : Inv L m) (hc : createAddressSpace m = some (a, m')) :
    ∃ L' r, a = addrOf r ∧ r < MAX_FRAMES ∧ used m r = false ∧ Inv L' m' ∧ L'.klv = L.klv ∧ Stage m m' ∧
      L'.own r = some (r, []) ∧ (∀ f x, L.own f = some x → L'.own f = some x) ∧
      (∀ f r' p, L'.own f = some (r', p) → L.own f = some (r', p) ∨ r' = r ∧ used m f = false ∧ p.length < 3) ∧
      (∀ f, used m' f = true → used m f = true ∨ ∃ p, L'.own f = some (r, p)) ∧
      (∀ j, j = HEAP_PML4_IDX ∨ j = PHYSMAP_PML4_IDX → m'.mem r j = m.mem (frameOf m.gKernelPml4) j) := by
  obtain ⟨r, t, d, rfl, n⟩ := create_rows h.kern.lowMap hc
  have w := n.rounds
  have sF := w.stage
  have hb : Built0 L m' r t d := by
    refine ⟨fun f hf => ?_, ⟨n.ne, fun i hi => ⟨(w.fresh i hi).2.1, (w.fresh i hi).2.2.1⟩⟩, w.inj, fun j => ?_, w.pdpt,
      fun i hi => ?_⟩
    · have hfree : used m f = false ∧ f < MAX_FRAMES := by
        rcases hf with rfl | rfl | ⟨i, hi, rfl⟩
        · exact ⟨n.free.1, n.lt.1⟩
        · exact ⟨n.free.2, n.lt.2⟩
        · exact ⟨(w.fresh i hi).1, (w.fresh i hi).2.2.2⟩
      obtain ⟨h1, h2, h3⟩ := h.fresh hfree.1
      exact ⟨h1, h2, (w.used f).2 (Or.inr hf), Nat.pos_of_ne_zero h3, hfree.2⟩
    · rw [n.pml4, sF.rest.2.1, sF.mem (h.kern.used h.kern.root).1]
    · have hk := h.kern.pd_level hi
      exact ⟨_, hk, by rw [w.pd i hi, sF.mem (h.kern.used hk).1]⟩
  refine ⟨_, r, rfl, n.lt.1, n.free.1, (sF.inv h).addSpace hb, rfl, sF, addOwn_r, fun f x hf => addOwn_old hb hf,
    fun f r' p hf => ?_, fun f hu => ?_, fun j hj => ?_⟩
  · rcases addOwn_cases hb hf with ⟨rfl, hr', rfl⟩ | ⟨rfl, hr', rfl⟩ | ⟨i, hi, rfl, hr', rfl⟩ | ho
    · exact Or.inr ⟨hr', n.free.1, by simp⟩
    · exact Or.inr ⟨hr', n.free.2, by simp⟩
    · exact Or.inr ⟨hr', (w.fresh i hi).1, by simp⟩
    · exact Or.inl ho
  · rcases (w.used f).1 hu with hu | rfl | rfl | ⟨i, hi, rfl⟩
    · exact Or.inl hu
    · exact Or.inr ⟨_, addOwn_r⟩
    · exact Or.inr ⟨_, addOwn_t hb⟩
    · exact Or.inr ⟨_, addOwn_d hb hi⟩
  · have hj0 : j ≠ 0 := by rcases hj with rfl | rfl <;> decide
    rw [n.pml4, if_neg hj0, if_pos hj]

/-- nothing private is mapped in a new space -/
theorem create_unmapped {a : U64} (h : Inv L m) (hc : createAddressSpace m = some (a, m')) {v : U64}
    (hv : isPrivate v = true) : translate m'.mem (frameOf a) v = none := by
  obtain ⟨L', r, rfl, hlt, hfree, hi, -, -, hr, -, hnew, -⟩ := create_spec h hc
  rw [frameOf_addrOf hlt]
  cases hx : translate m'.mem r v with
  | none => rfl
  | some x =>
    obtain ⟨e, hl, -⟩ := (translate_eq_some_iff hi hr hv).1 hx
    rcases hnew _ _ _ (hl.own hi) with ho | ⟨-, -, hlen⟩
    · rw [(h.own_used (h.tree.root_own ho)).1] at hfree; cases hfree
    · simp [pathOf] at hlen

theorem createPd_isSome {k : ℕ} {i : Idx} (hf : 0 < freeCount m.pmm) :
    ∃ m', createPd t k m i = some m' ∧ freeCount m.pmm ≤ freeCount m'.pmm + 1 := by
  unfold createPd
  split_ifs
  · exact ⟨m, rfl, by omega⟩
  · obtain ⟨a, m1, ha⟩ := alloc_isSome hf
    obtain ⟨-, -, -, -, -, -, hc⟩ := alloc_spec ha
    rw [ha]
    exact ⟨_, rfl, hc.le⟩

theorem createLow_isSome {k : ℕ} (hf : 4 ≤ freeCount m.pmm) :
    ∃ m', createLow t k m = some m' ∧ freeCount m.pmm ≤ freeCount m'.pmm + 4 := by
  unfold createLow
  split_ifs
  · exact ⟨m, rfl, by omega⟩
  · obtain ⟨ma, ha, ca⟩ := createPd_isSome (m := m) (t := t) (k := entryToKptr (m.mem k 0)) (i := 0) (by omega)
    obtain ⟨mb, hb, cb⟩ := createPd_isSome (m := ma) (t := t) (k := entryToKptr (m.mem k 0)) (i := 1) (by omega)
    obtain ⟨mc, hc, cc⟩ := createPd_isSome (m := mb) (t := t) (k := entryToKptr (m.mem k 0)) (i := 2) (by omega)
    obtain ⟨md, hd, cd⟩ := createPd_isSome (m := mc) (t := t) (k := entryToKptr (m.mem k 0)) (i := 3) (by omega)
    refine ⟨md, ?_, by omega⟩
    simp only [List.foldlM_cons, List.foldlM_nil, bind, ha, hb, hc, hd, Option.bind_some, pure]

/-- **Frames for a new space.** Six free frames are enough, and no more are taken. -/
theorem create_isSome (hf : 6 ≤ freeCount m.pmm) :
    ∃ a m', createAddressSpace m = some (a, m') ∧ freeCount m.pmm ≤ freeCount m'.pmm + 6 := by
  obtain ⟨a0, m1, h0⟩ := alloc_isSome (m := m) (by omega)
  obtain ⟨-, -, -, -, -, -, c0⟩ := alloc_spec h0
  unfold createAddressSpace
  simp only [bind, h0, Option.bind_some]
  generalize hB : Machine.store (Machine.store _ _ HEAP_PML4_IDX _) _ PHYSMAP_PML4_IDX _ = mB
  have hpB : mB.pmm = m1.pmm := by rw [← hB]; rfl
  obtain ⟨a1, m2, h1⟩ := alloc_isSome (m := mB) (by rw [hpB]; omega)
  obtain ⟨-, -, -, -, -, -, c1⟩ := alloc_spec h1
  rw [hpB] at c1
  rw [h1, Option.bind_some]
  simp only
  obtain ⟨m3, h3, c3⟩ := createLow_isSome (m := m2.fill (frameOf a1) fun _ => 0) (t := frameOf a1)
    (k := frameOf (m1.fill (frameOf a0) fun _ => 0).gKernelPml4) (by show 4 ≤ freeCount m2.pmm; omega)
  rw [h3]
  refine ⟨_, _, rfl, ?_⟩
  have c3' : freeCount m2.pmm ≤ freeCount m3.pmm + 4 := c3
  show freeCount m.pmm ≤ freeCount m3.pmm + 6
  omega

end Create

end Retux.Vmm
