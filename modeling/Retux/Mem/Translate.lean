/-
What the processor sees: the translation of an address under a PML4, and what edits leave of it.

`translate` is the hardware walk: physical address and leaf flags, or none. `virt_to_phys` is its first half, with 0
for none (`virtToPhys_eq`). Private addresses are read off the layout (`translate_mapped`, `translate_unmapped`).

`Keeps r` is what every operation on address space r's private part guarantees: kernel tables, the other address
spaces, and r's own borrowed entries are not written, and r's tables stay linked where they are. It composes
(`Keeps.trans`), and gives isolation: shared addresses translate as before in every space (`keeps_shared`), and
every address does in every other space (`keeps_other`).
-/
import Mathlib.Tactic
import Retux.Mem.Space

namespace Retux.Vmm

open Retux.Word Retux.Pmm Retux.Forest

/-! ## The walk -/

/-- the bits of a leaf entry other than the address -/
def leafFlags (e : U64) : U64 := e &&& ~~~PHYS_MASK

/-- an entry built from a frame and flags gives both back -/
theorem leafFlags_addr_or {c : ℕ} {fl : U64} (hc : c < MAX_FRAMES) (hfl : Flags fl) :
    leafFlags (addrOf c ||| fl) = fl := by
  apply BitVec.eq_of_getLsbD_eq
  intro i hi
  rw [leafFlags, BitVec.getLsbD_and, BitVec.getLsbD_not, PHYS_MASK, frameMask_bit]
  by_cases hb : 12 ≤ i ∧ i < 52
  · have hz := congrArg (fun n => n.testBit (i - 12)) ((kptr_eq fl).symm.trans hfl)
    rw [show (4096 : ℕ) = 2 ^ 12 from rfl] at hz
    simp only [Nat.testBit_mod_two_pow, Nat.testBit_div_two_pow, Nat.zero_testBit, show i - 12 < 40 by omega,
      decide_true, Bool.true_and, show i - 12 + 12 = i by omega, BitVec.testBit_toNat] at hz
    simp [hb, hz]
  · rw [bit_addr_or hc (by omega)]
    simp [hb, hi]

/-- physical address and leaf flags of an address under PML4 frame `root` -/
def translate (mem : ℕ → Idx → U64) (root : ℕ) (virt : U64) : Option (U64 × U64) :=
  let e4 := mem root (tableIdx virt 39)
  if present e4 = false then none else
  let e3 := mem (entryToKptr e4) (tableIdx virt 30)
  if present e3 = false then none else
  if huge e3 then some ((entryPhys e3 &&& 0x000FFFFFC0000000) + (virt &&& 0x3FFFFFFF), leafFlags e3) else
  let e2 := mem (entryToKptr e3) (tableIdx virt 21)
  if present e2 = false then none else
  if huge e2 then some ((entryPhys e2 &&& 0x000FFFFFFFE00000) + (virt &&& 0x1FFFFF), leafFlags e2) else
  let e1 := mem (entryToKptr e2) (tableIdx virt 12)
  if present e1 = false then none else some (entryPhys e1 + (virt &&& 0xFFF), leafFlags e1)

theorem virtToPhys_eq (m : Machine) (virt : U64) :
    virtToPhys m virt = ((translate m.mem (getPml4 m) virt).map Prod.fst).getD 0 := by
  unfold virtToPhys translate
  simp only [absent_iff, huge_iff]
  split_ifs <;> rfl

/-- two entries that lead the walk the same way -/
def Same (e e' : U64) : Prop :=
  present e' = present e ∧ (present e = true → entryToKptr e' = entryToKptr e ∧ huge e' = huge e)

theorem Same.refl (e : U64) : Same e e := ⟨rfl, fun _ => ⟨rfl, rfl⟩⟩

theorem Same.of_eq {e e' : U64} (h : e' = e) : Same e e' := h ▸ Same.refl e

theorem translate_congr {mem mem' : ℕ → Idx → U64} {root : ℕ} {v : U64}
    (h4 : Same (mem root (tableIdx v 39)) (mem' root (tableIdx v 39)))
    (h3 : ∀ t3, child (mem root (tableIdx v 39)) = some t3 → Same (mem t3 (tableIdx v 30)) (mem' t3 (tableIdx v 30)) ∧
      (present (mem t3 (tableIdx v 30)) = true → huge (mem t3 (tableIdx v 30)) = true →
        mem' t3 (tableIdx v 30) = mem t3 (tableIdx v 30)))
    (h2 : ∀ t3 t2, child (mem root (tableIdx v 39)) = some t3 → child (mem t3 (tableIdx v 30)) = some t2 →
      huge (mem t3 (tableIdx v 30)) = false → Same (mem t2 (tableIdx v 21)) (mem' t2 (tableIdx v 21)) ∧
        (present (mem t2 (tableIdx v 21)) = true → huge (mem t2 (tableIdx v 21)) = true →
          mem' t2 (tableIdx v 21) = mem t2 (tableIdx v 21)))
    (h1 : ∀ t3 t2 t1, child (mem root (tableIdx v 39)) = some t3 → child (mem t3 (tableIdx v 30)) = some t2 →
      huge (mem t3 (tableIdx v 30)) = false → child (mem t2 (tableIdx v 21)) = some t1 →
      huge (mem t2 (tableIdx v 21)) = false → mem' t1 (tableIdx v 12) = mem t1 (tableIdx v 12)) :
    translate mem' root v = translate mem root v := by
  unfold translate
  simp only [h4.1]
  by_cases p4 : present (mem root (tableIdx v 39)) = false
  · simp only [p4, if_true]
  have p4' : present (mem root (tableIdx v 39)) = true := by simpa using p4
  rw [if_neg p4, if_neg p4, (h4.2 p4').1]
  obtain ⟨s3, heq3⟩ := h3 _ (child_some.2 ⟨p4', rfl⟩)
  rw [s3.1]
  by_cases p3 : present (mem (entryToKptr (mem root (tableIdx v 39))) (tableIdx v 30)) = false
  · simp only [p3, if_true]
  have p3' : present (mem (entryToKptr (mem root (tableIdx v 39))) (tableIdx v 30)) = true := by simpa using p3
  rw [if_neg p3, if_neg p3, (s3.2 p3').2]
  by_cases g3 : huge (mem (entryToKptr (mem root (tableIdx v 39))) (tableIdx v 30)) = true
  · rw [if_pos g3, if_pos g3, heq3 p3' g3]
  have g3' : huge (mem (entryToKptr (mem root (tableIdx v 39))) (tableIdx v 30)) = false := by simpa using g3
  rw [if_neg g3, if_neg g3, (s3.2 p3').1]
  obtain ⟨s2, heq2⟩ := h2 _ _ (child_some.2 ⟨p4', rfl⟩) (child_some.2 ⟨p3', rfl⟩) g3'
  rw [s2.1]
  by_cases p2 : present (mem (entryToKptr (mem (entryToKptr (mem root (tableIdx v 39))) (tableIdx v 30)))
      (tableIdx v 21)) = false
  · simp only [p2, if_true]
  have p2' : present (mem (entryToKptr (mem (entryToKptr (mem root (tableIdx v 39))) (tableIdx v 30)))
      (tableIdx v 21)) = true := by simpa using p2
  rw [if_neg p2, if_neg p2, (s2.2 p2').2]
  by_cases g2 : huge (mem (entryToKptr (mem (entryToKptr (mem root (tableIdx v 39))) (tableIdx v 30)))
      (tableIdx v 21)) = true
  · rw [if_pos g2, if_pos g2, heq2 p2' g2]
  have g2' : huge (mem (entryToKptr (mem (entryToKptr (mem root (tableIdx v 39))) (tableIdx v 30)))
      (tableIdx v 21)) = false := by simpa using g2
  rw [if_neg g2, if_neg g2, (s2.2 p2').1,
    h1 _ _ _ (child_some.2 ⟨p4', rfl⟩) (child_some.2 ⟨p3', rfl⟩) g3' (child_some.2 ⟨p2', rfl⟩) g2']

/-! ## Private addresses -/

section Private

variable {L : Layout} {m : Machine} {r : ℕ} {v : U64}

/-- path of the page table of an address -/
def ptPath (v : U64) : List Idx := [tableIdx v 21, tableIdx v 30, tableIdx v 39]

theorem priv_ptPath (hv : isPrivate v = true) : Priv (tableIdx v 12 :: ptPath v) = true := by
  rw [← hv, ← priv_iff_isPrivate]; rfl

theorem priv_pdPath (hv : isPrivate v = true) : Priv (tableIdx v 21 :: [tableIdx v 30, tableIdx v 39]) = true :=
  Priv.tail (priv_ptPath hv)

theorem priv_pdptPath (hv : isPrivate v = true) : Priv (tableIdx v 30 :: [tableIdx v 39]) = true :=
  Priv.tail (priv_pdPath hv)

theorem priv_slot (hv : isPrivate v = true) : Priv (tableIdx v 39 :: []) = true := Priv.tail (priv_pdptPath hv)

/-- the walk to the page table of a private address -/
theorem Inv.walk_to_pt (h : Inv L m) (hv : isPrivate v = true) {t : ℕ} (ht : L.own t = some (r, ptPath v)) :
    ∃ t3 t2, L.own t3 = some (r, [tableIdx v 39]) ∧ L.own t2 = some (r, [tableIdx v 30, tableIdx v 39]) ∧
      child (m.mem r (tableIdx v 39)) = some t3 ∧ child (m.mem t3 (tableIdx v 30)) = some t2 ∧
      child (m.mem t2 (tableIdx v 21)) = some t ∧ huge (m.mem t3 (tableIdx v 30)) = false ∧
      huge (m.mem t2 (tableIdx v 21)) = false := by
  obtain ⟨t2, ht2, hc2⟩ := h.tree.up ht
  obtain ⟨t3, ht3, hc3⟩ := h.tree.up ht2
  obtain ⟨t4, ht4, hc4⟩ := h.tree.up ht3
  have hr := h.tree.root ht4
  subst hr
  exact ⟨t3, t2, ht3, ht2, hc4, hc3, hc2, h.own_huge ht3 (priv_pdptPath hv) (child_some.1 hc3).1,
    h.own_huge ht2 (priv_pdPath hv) (child_some.1 hc2).1⟩

/-- a private page with a present entry in its page table is mapped to that entry's frame -/
theorem translate_mapped (h : Inv L m) (hv : isPrivate v = true) {t : ℕ} (ht : L.own t = some (r, ptPath v))
    (he : present (m.mem t (tableIdx v 12)) = true) :
    translate m.mem r v = some (entryPhys (m.mem t (tableIdx v 12)) + (v &&& 0xFFF),
      leafFlags (m.mem t (tableIdx v 12))) := by
  obtain ⟨t3, t2, -, -, hc4, hc3, hc2, hg3, hg2⟩ := h.walk_to_pt hv ht
  obtain ⟨p4, rfl⟩ := child_some.1 hc4
  obtain ⟨p3, rfl⟩ := child_some.1 hc3
  obtain ⟨p2, rfl⟩ := child_some.1 hc2
  unfold translate
  simp only [p4, p3, p2, hg3, hg2, he, Bool.true_eq_false, Bool.false_eq_true, if_false]

/-- a private page without one is not mapped -/
theorem translate_unmapped (h : Inv L m) (hr : L.own r = some (r, [])) (hv : isPrivate v = true)
    (he : ∀ t, L.own t = some (r, ptPath v) → present (m.mem t (tableIdx v 12)) = false) :
    translate m.mem r v = none := by
  unfold translate
  by_cases p4 : present (m.mem r (tableIdx v 39)) = false
  · simp only [p4, if_true]
  rw [if_neg p4]
  have h3 := h.down hr (priv_slot hv) (by simpa using p4)
  by_cases p3 : present (m.mem (entryToKptr (m.mem r (tableIdx v 39))) (tableIdx v 30)) = false
  · simp only [p3, if_true]
  rw [if_neg p3]
  have p3' := Bool.eq_true_of_not_eq_false p3
  have h2 := h.down h3 (priv_pdptPath hv) p3'
  rw [h.own_huge h3 (priv_pdptPath hv) p3', if_neg Bool.false_ne_true]
  simp only
  split_ifs with p2 g2 p1
  · rfl
  · have p2' := Bool.eq_true_of_not_eq_false p2
    rw [h.own_huge h2 (priv_pdPath hv) p2'] at g2; cases g2
  · rfl
  · exact absurd (he _ (h.down h2 (priv_pdPath hv) (Bool.eq_true_of_not_eq_false p2))) p1

theorem translate_isSome_iff (h : Inv L m) (hr : L.own r = some (r, [])) (hv : isPrivate v = true) :
    (translate m.mem r v).isSome = true ↔
      ∃ t, L.own t = some (r, ptPath v) ∧ present (m.mem t (tableIdx v 12)) = true := by
  constructor
  · intro hs
    by_contra hn
    push Not at hn
    have hnone := translate_unmapped h hr hv fun t ht => by simpa using hn t ht
    rw [hnone] at hs; cases hs
  · rintro ⟨t, ht, he⟩
    rw [translate_mapped h hv ht he]; rfl

/-! ## Leaves -/

/-- page q of address space r has the present entry e -/
def Leaf (L : Layout) (m : Machine) (r : ℕ) (q : List Idx) (e : U64) : Prop :=
  ∃ t i p, q = i :: p ∧ p.length = 3 ∧ L.own t = some (r, p) ∧ m.mem t i = e ∧ present e = true

/-- a leaf's frame belongs to its page -/
theorem Leaf.own (h : Inv L m) {q : List Idx} {e : U64} (hl : Leaf L m r q e) :
    L.own (entryToKptr e) = some (r, q) := by
  obtain ⟨t, i, p, rfl, hlen, ht, rfl, he⟩ := hl
  refine h.down ht ?_ he
  match p, hlen, h.tree.priv ht with
  | [_, _, _], _, hp => exact hp

/-- a page has one entry at most -/
theorem Leaf.unique (h : Inv L m) {q : List Idx} {e e' : U64} (h1 : Leaf L m r q e) (h2 : Leaf L m r q e') :
    e = e' := by
  obtain ⟨t, i, p, rfl, -, ht, rfl, -⟩ := h1
  obtain ⟨t', i', p', heq, -, ht', rfl, -⟩ := h2
  cases heq
  rw [h.tree.unique ht ht']

/-- a frame at a page is there through an entry -/
theorem leaf_of_own (h : Inv L m) {c : ℕ} {i : Idx} {p : List Idx} (hp : p.length = 3)
    (hc : L.own c = some (r, i :: p)) : ∃ e, Leaf L m r (i :: p) e ∧ entryToKptr e = c := by
  obtain ⟨t, ht, hchild⟩ := h.tree.up hc
  obtain ⟨he, hk⟩ := child_some.1 hchild
  exact ⟨_, ⟨t, i, p, rfl, hp, ht, rfl, he⟩, hk⟩

/-- **Translation is the leaf map.** At private addresses the hardware walk and the leaves agree. -/
theorem translate_eq_some_iff (h : Inv L m) (hr : L.own r = some (r, [])) (hv : isPrivate v = true) {x : U64 × U64} :
    translate m.mem r v = some x ↔
      ∃ e, Leaf L m r (pathOf v) e ∧ x = (entryPhys e + (v &&& 0xFFF), leafFlags e) := by
  constructor
  · intro hx
    have hs : (translate m.mem r v).isSome = true := by rw [hx]; rfl
    obtain ⟨t, ht, he⟩ := (translate_isSome_iff h hr hv).1 hs
    refine ⟨_, ⟨t, _, _, rfl, rfl, ht, rfl, he⟩, ?_⟩
    rw [translate_mapped h hv ht he] at hx
    exact (Option.some.inj hx).symm
  · rintro ⟨e, ⟨t, i, p, heq, -, ht, rfl, he⟩, rfl⟩
    cases heq
    exact translate_mapped h hv ht he

end Private

/-! ## What an operation on one address space keeps -/

/-- entries an operation on address space r must not write -/
def Guarded (r : ℕ) (L : Layout) (f : ℕ) (i : Idx) : Prop :=
  (∃ k, L.klv f = some k) ∨ ∃ r' p, L.own f = some (r', p) ∧ (r' = r → p.length < 4 ∧ Priv (i :: p) = false)

structure Keeps (r : ℕ) (L : Layout) (m : Machine) (L' : Layout) (m' : Machine) : Prop where
  klv : L'.klv = L.klv
  other : ∀ {f r' p}, L.own f = some (r', p) → r' ≠ r → L'.own f = some (r', p)
  tbl : ∀ {f p}, L.own f = some (r, p) → p.length < 4 → L'.own f = some (r, p)
  mem : ∀ {f i}, Guarded r L f i → m'.mem f i = m.mem f i
  link : ∀ {f p i}, L.own f = some (r, p) → p.length < 3 → present (m.mem f i) = true → Same (m.mem f i) (m'.mem f i)
  gk : m'.gKernelPml4 = m.gKernelPml4

theorem Keeps.refl (r : ℕ) (L : Layout) (m : Machine) : Keeps r L m L m :=
  ⟨rfl, fun h _ => h, fun h _ => h, fun _ => rfl, fun _ _ _ => Same.refl _, rfl⟩

theorem Keeps.guarded {r : ℕ} {L L' : Layout} {m m' : Machine} (h : Keeps r L m L' m') {f : ℕ} {i : Idx}
    (hg : Guarded r L f i) : Guarded r L' f i := by
  rcases hg with ⟨k, hk⟩ | ⟨r', p, ho, hr⟩
  · exact Or.inl ⟨k, by rw [h.klv, hk]⟩
  · by_cases hrr : r' = r
    · subst hrr; exact Or.inr ⟨r', p, h.tbl ho (hr rfl).1, hr⟩
    · exact Or.inr ⟨r', p, h.other ho hrr, hr⟩

theorem Keeps.trans {r : ℕ} {L L' L'' : Layout} {m m' m'' : Machine} (h1 : Keeps r L m L' m')
    (h2 : Keeps r L' m' L'' m'') : Keeps r L m L'' m'' := by
  refine ⟨h2.klv.trans h1.klv, fun h hr => h2.other (h1.other h hr) hr, fun h hl => h2.tbl (h1.tbl h hl) hl,
    fun hg => (h2.mem (h1.guarded hg)).trans (h1.mem hg), fun h hl hp => ?_, h2.gk.trans h1.gk⟩
  have s1 := h1.link h hl hp
  have s2 := h2.link (h1.tbl h (by omega)) hl (s1.1.trans hp)
  exact ⟨s2.1.trans s1.1, fun hp => ⟨((s2.2 (s1.1.trans hp)).1).trans (s1.2 hp).1,
    ((s2.2 (s1.1.trans hp)).2).trans (s1.2 hp).2⟩⟩

/-- kernel tables are not written -/
theorem Keeps.kernel {r : ℕ} {L L' : Layout} {m m' : Machine} (h : Keeps r L m L' m') {f k : ℕ}
    (hf : L.klv f = some k) : m'.mem f = m.mem f := by
  funext i; exact h.mem (Or.inl ⟨k, hf⟩)

section Isolation

variable {r R : ℕ} {L L' : Layout} {m m' : Machine} {mem' : ℕ → Idx → U64} {v : U64}

/-- a walk below a kernel PDPT reads kernel tables only -/
theorem Kern.walk {klv : ℕ → Option ℕ} (h : Kern klv m) (hk : ∀ f k, klv f = some k → mem' f = m.mem f)
    (h4 : Same (m.mem R (tableIdx v 39)) (mem' R (tableIdx v 39)))
    (ht3 : ∀ t3, child (m.mem R (tableIdx v 39)) = some t3 → klv t3 = some 2) :
    translate mem' R v = translate m.mem R v := by
  have ht2 : ∀ t3 t2, child (m.mem R (tableIdx v 39)) = some t3 → child (m.mem t3 (tableIdx v 30)) = some t2 →
      klv t2 = some 1 := by
    intro t3 t2 hc3 hc2
    obtain ⟨p3, rfl⟩ := child_some.1 hc2
    exact (h.pdpt (ht3 t3 hc3) p3).2
  refine translate_congr h4 (fun t3 hc => ?_) (fun t3 t2 hc3 hc2 _ => ?_) (fun t3 t2 t1 hc3 hc2 _ hc1 hg => ?_)
  · rw [hk _ _ (ht3 t3 hc)]; exact ⟨Same.refl _, fun _ _ => rfl⟩
  · rw [hk _ _ (ht2 t3 t2 hc3 hc2)]; exact ⟨Same.refl _, fun _ _ => rfl⟩
  · obtain ⟨p2, rfl⟩ := child_some.1 hc1
    rcases h.pd (ht2 t3 t2 hc3 hc2) p2 with ⟨hh, -⟩ | ⟨-, ht1⟩
    · rw [hg] at hh; cases hh
    · rw [hk _ _ ht1]

/-- the walk of the kernel's PML4 -/
theorem Kern.translate {klv : ℕ → Option ℕ} (h : Kern klv m) (hk : ∀ f k, klv f = some k → mem' f = m.mem f) :
    Vmm.translate mem' (frameOf m.gKernelPml4) v = Vmm.translate m.mem (frameOf m.gKernelPml4) v := by
  refine h.walk hk (Same.of_eq (by rw [hk _ _ h.root])) fun t3 hc => ?_
  obtain ⟨p4, rfl⟩ := child_some.1 hc
  exact h.pml4 h.root p4

/-- **The walk of an address space.** The translation of v under R depends on four entries: R's own tables on the way,
and kernel tables where the walk leaves them. -/
theorem translate_walk (hi : Inv L m) (hR : L.own R = some (R, [])) (hk : ∀ f k, L.klv f = some k → mem' f = m.mem f)
    (h4 : Same (m.mem R (tableIdx v 39)) (mem' R (tableIdx v 39)))
    (h3 : ∀ t, L.own t = some (R, [tableIdx v 39]) → Same (m.mem t (tableIdx v 30)) (mem' t (tableIdx v 30)))
    (h2 : ∀ t, L.own t = some (R, [tableIdx v 30, tableIdx v 39]) →
      Same (m.mem t (tableIdx v 21)) (mem' t (tableIdx v 21)) ∧
        (Priv (ptPath v) = false → mem' t (tableIdx v 21) = m.mem t (tableIdx v 21)))
    (h1 : ∀ t, L.own t = some (R, ptPath v) → mem' t (tableIdx v 12) = m.mem t (tableIdx v 12)) :
    translate mem' R v = translate m.mem R v := by
  by_cases hs : Priv [tableIdx v 39] = true
  swap
  · -- the heap or physmap slot
    refine hi.kern.walk hk h4 fun t3 hc => ?_
    obtain ⟨p4, rfl⟩ := child_some.1 hc
    exact hi.shr_pml4 hR (by simpa using hs) p4
  -- below a private slot the PDPT is R's own; so is the PD it points at
  have ho3 : ∀ t3, child (m.mem R (tableIdx v 39)) = some t3 → L.own t3 = some (R, [tableIdx v 39]) :=
    fun t3 hc => hi.tree.down hR hs hc
  have hpriv : ∀ {q}, Priv (q ++ [tableIdx v 39]) = false → q.length ≤ 2 → q ≠ [] → tableIdx v 39 = 0 := by
    intro q hq hl hne
    by_contra h0
    match q, hl, hne with
    | [_], _, _ => simp only [List.cons_append, List.nil_append, Priv, h0, if_false] at hq hs; rw [hq] at hs; cases hs
    | [_, _], _, _ => simp only [List.cons_append, List.nil_append, Priv, h0, if_false] at hq hs; rw [hq] at hs; cases hs
  have ho2 : ∀ t3 t2, child (m.mem R (tableIdx v 39)) = some t3 → child (m.mem t3 (tableIdx v 30)) = some t2 →
      L.own t2 = some (R, [tableIdx v 30, tableIdx v 39]) ∧ Priv [tableIdx v 30, tableIdx v 39] = true := by
    intro t3 t2 hc3 hc2
    by_cases hp : Priv [tableIdx v 30, tableIdx v 39] = true
    · exact ⟨hi.tree.down (ho3 t3 hc3) hp hc2, hp⟩
    · have h0 := hpriv (q := [tableIdx v 30]) (by simpa using hp) (by simp) (by simp)
      have h3' := ho3 t3 hc3
      rw [h0] at hp h3'
      rw [hi.slot0_end h3' (by simpa [Priv] using hp)] at hc2; cases hc2
  refine translate_congr h4 (fun t3 hc => ⟨h3 t3 (ho3 t3 hc), fun p3 hg => ?_⟩)
    (fun t3 t2 hc3 hc2 _ => ⟨(h2 t2 (ho2 t3 t2 hc3 hc2).1).1, fun p2 hg => ?_⟩)
    (fun t3 t2 t1 hc3 hc2 _ hc1 hg => ?_)
  · have hp := (ho2 t3 _ hc (child_some.2 ⟨p3, rfl⟩)).2
    rw [hi.own_huge (ho3 t3 hc) hp p3] at hg; cases hg
  · -- a huge PD entry is a borrowed one
    refine (h2 t2 (ho2 t3 t2 hc3 hc2).1).2 ?_
    cases hq : Priv (ptPath v) with
    | false => rfl
    | true => rw [hi.own_huge (ho2 t3 t2 hc3 hc2).1 hq p2] at hg; cases hg
  · have h2' := (ho2 t3 t2 hc3 hc2).1
    cases hq : Priv (ptPath v) with
    | true => exact h1 t1 (hi.tree.down h2' hq hc1)
    | false =>
      have h0 := hpriv (q := [tableIdx v 21, tableIdx v 30]) hq (by simp) (by simp)
      unfold ptPath at hq
      rw [h0] at h2' hq
      obtain ⟨p2, rfl⟩ := child_some.1 hc1
      rcases hi.shr_pd h2' hq p2 with ⟨hh, -⟩ | ⟨-, ht1⟩
      · rw [hg] at hh; cases hh
      · rw [hk _ _ ht1]

/-- **Isolation between spaces.** An operation on address space r leaves every translation of every other address
space alone. -/
theorem keeps_other (hi : Inv L m) (h : Keeps r L m L' m') (hR : L.own R = some (R, [])) (hne : R ≠ r) :
    translate m'.mem R v = translate m.mem R v := by
  have hrow : ∀ {f p}, L.own f = some (R, p) → ∀ i, m'.mem f i = m.mem f i := fun hf i =>
    h.mem (Or.inr ⟨R, _, hf, fun hh => absurd hh hne⟩)
  exact translate_walk hi hR (fun f k hf => h.kernel hf) (Same.of_eq (hrow hR _))
    (fun t ht => Same.of_eq (hrow ht _)) (fun t ht => ⟨Same.of_eq (hrow ht _), fun _ => hrow ht _⟩)
    (fun t ht => hrow ht _)

/-- the kernel's own translations stay -/
theorem keeps_kernel (hi : Inv L m) (h : Keeps r L m L' m') :
    translate m'.mem (frameOf m.gKernelPml4) v = translate m.mem (frameOf m.gKernelPml4) v :=
  hi.kern.translate fun _ _ hf => h.kernel hf

/-- **Isolation from the kernel.** An operation on address space r leaves the translation of every shared address of r
itself alone. -/
theorem keeps_shared (hi : Inv L m) (h : Keeps r L m L' m') (hr : L.own r = some (r, [])) (hv : isPrivate v = false) :
    translate m'.mem r v = translate m.mem r v := by
  have hnp : Priv (ptPath v) = false := by
    rw [← hv, ← priv_iff_isPrivate]; rfl
  have hguard : ∀ {t p i}, L.own t = some (r, p) → p.length < 4 → Priv (i :: p) = false →
      m'.mem t i = m.mem t i := fun ht hl hp => h.mem (Or.inr ⟨r, _, ht, fun _ => ⟨hl, hp⟩⟩)
  refine translate_walk hi hr (fun f k hf => h.kernel hf) ?_ (fun t ht => ?_) (fun t ht => ?_) (fun t ht => ?_)
  · cases hs : Priv [tableIdx v 39] with
    | false => exact Same.of_eq (hguard hr (by simp) hs)
    | true =>
      -- a private slot with a shared address is slot 0
      have h0 : tableIdx v 39 = 0 := by
        by_contra h0
        simp only [ptPath, Priv, h0, if_false] at hnp hs
        rw [hnp] at hs; cases hs
      rw [h0]
      exact h.link hr (by simp) (hi.slot0 hr)
  · cases hp : Priv [tableIdx v 30, tableIdx v 39] with
    | false => exact Same.of_eq (hguard ht (by simp) hp)
    | true =>
      have h0 : tableIdx v 39 = 0 := by
        by_contra h0
        simp only [ptPath, Priv, h0, if_false] at hnp hp
        rw [hnp] at hp; cases hp
      rw [h0] at ht hp
      exact h.link ht (by simp) (hi.slot0_pd ht (by simpa [Priv] using hp))
  · have := hguard ht (by simp) hnp
    exact ⟨Same.of_eq this, fun _ => this⟩
  · have := hi.tree.priv ht
    rw [show shape.priv (ptPath v) = Priv (ptPath v) from rfl, hnp] at this; cases this

end Isolation

end Retux.Vmm
