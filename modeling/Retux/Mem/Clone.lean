/-
Cloning an address space.

`clone_address_space` walks the private part of the source in the order of page numbers (`vpn`): slot 0's window first,
then the other slots, level by level. `Cloned n` is the invariant of all four loops: the pages below number n are
copied, the others are as they were. A leaf advances n by one (`cloneLeaf_spec`); an absent table or a skipped slot
advances n over a range without source pages (`Cloned.skip`).

Result: `clone_spec`. Every private page of the source is copied to a fresh frame with its contents and flags, nothing
but the destination is written, and the clone returns if there are five free frames for each page.
-/
import Mathlib.Tactic
import Retux.Lib.Loop
import Retux.Mem.Map

namespace Retux.Vmm

open Retux.Word Retux.Pmm Retux.Forest Retux.Loop

/-! ## Page numbers -/

/-- number of a page among its likes: a virtual page number for paths of four indices -/
def vpn : List Idx → ℕ
  | [] => 0
  | i :: p => i.val + 512 * vpn p

theorem vpn_inj {p q : List Idx} (hl : p.length = q.length) (h : vpn p = vpn q) : p = q := by
  induction p generalizing q with
  | nil => exact (List.length_eq_zero_iff.1 hl.symm).symm
  | cons i p ih =>
    match q, hl with
    | j :: q, hl =>
      have hi := i.isLt
      have hj := j.isLt
      simp only [vpn] at h
      have hp : vpn p = vpn q := by omega
      have hij : i = j := Fin.ext (by omega)
      rw [hij, ih (by simpa using hl) hp]

/-- the pages below a table are the numbers from 512^k times the table's -/
theorem vpn_drop (q : List Idx) (k : ℕ) (hk : k ≤ q.length) : vpn (q.drop k) = vpn q / 512 ^ k := by
  induction k generalizing q with
  | zero => simp
  | succ k ih =>
    match q, hk with
    | i :: q, hk =>
      have hi := i.isLt
      rw [List.drop_succ_cons, ih q (by simpa using hk), vpn, pow_succ', ← Nat.div_div_eq_div_mul]
      congr 1
      omega

/-- a page in the range of a table is below it -/
theorem drop_of_vpn {q p : List Idx} {k : ℕ} (hl : q.length = p.length + k) (h1 : 512 ^ k * vpn p ≤ vpn q)
    (h2 : vpn q < 512 ^ k * (vpn p + 1)) : q.drop k = p := by
  apply vpn_inj (by simp; omega)
  rw [vpn_drop q k (by omega)]
  exact Nat.div_eq_of_lt_le (by rw [Nat.mul_comm]; exact h1) (by rw [Nat.mul_comm]; exact h2)

/-! ## The invariant -/

def CLONE_MASK : U64 := PRESENT ||| WRITABLE ||| USER ||| NO_EXECUTE

/-- entry e in m is a copy of entry e0 in m0: the same four flags, a fresh frame with the same contents -/
structure Copy (m0 : Machine) (e0 : U64) (m : Machine) (e : U64) : Prop where
  flags : leafFlags e = e0 &&& CLONE_MASK
  data : m.mem (entryToKptr e) = m0.mem (entryToKptr e0)
  fresh : used m0 (entryToKptr e) = false

/-- pages of address space s below number n -/
noncomputable def leafCount (L : Layout) (m : Machine) (s n : ℕ) : ℕ :=
  open Classical in ((Finset.range n).filter fun k => ∃ q e, vpn q = k ∧ Leaf L m s q e).card

structure Cloned (s d : ℕ) (L0 : Layout) (m0 : Machine) (n : ℕ) (L : Layout) (m : Machine) : Prop where
  inv : Inv L m
  keeps : Keeps d L0 m0 L m
  new : ∀ {f r p}, L.own f = some (r, p) → L0.own f = some (r, p) ∨ r = d ∧ used m0 f = false
  used_mono : ∀ f, used m0 f = true → used m f = true
  used_new : ∀ f, used m f = true → used m0 f = true ∨ ∃ p, L.own f = some (d, p)
  done : ∀ {q e0}, vpn q < n → Leaf L0 m0 s q e0 → ∃ e, Leaf L m d q e ∧ Copy m0 e0 m e
  todo : ∀ {q}, (vpn q < n → ∀ e0, ¬ Leaf L0 m0 s q e0) → ∀ e, Leaf L m d q e ↔ Leaf L0 m0 d q e
  keep : ∀ {f q}, L0.own f = some (d, q) → (vpn q < n → ∀ e0, ¬ Leaf L0 m0 s q e0) → L.own f = some (d, q)
  data : ∀ {f}, used m0 f = true → L0.klv f = none → (∀ r p, L0.own f = some (r, p) → p.length = 4) →
    m.mem f = m0.mem f
  rest : m.cr3 = m0.cr3 ∧ m.gKernelPml4 = m0.gKernelPml4 ∧ m.freed = m0.freed
  cost : freeCount m0.pmm ≤ freeCount m.pmm + 5 * leafCount L0 m0 s n

section Clone

variable {L0 L : Layout} {m0 m : Machine} {s d n : ℕ}

theorem Leaf.length {r : ℕ} {q : List Idx} {e : U64} (h : Leaf L m r q e) : q.length = 4 := by
  obtain ⟨_, _, _, rfl, hl, -⟩ := h
  simp [hl]

/-- a page is private -/
theorem Leaf.priv (h : Inv L m) {r : ℕ} {q : List Idx} {e : U64} (hl : Leaf L m r q e) : Priv q = true :=
  h.tree.priv (hl.own h)

theorem leafCount_mono (L0 : Layout) (m0 : Machine) (s : ℕ) {k : ℕ} (h : n ≤ k) : leafCount L0 m0 s n ≤ leafCount L0 m0 s k := by
  classical
  exact Finset.card_le_card (Finset.filter_subset_filter _ (Finset.range_mono h))

theorem leafCount_succ {q : List Idx} {e : U64} (hq : vpn q = n) (hl : Leaf L0 m0 s q e) :
    leafCount L0 m0 s (n + 1) = leafCount L0 m0 s n + 1 := by
  classical
  unfold leafCount
  rw [Finset.range_add_one, Finset.filter_insert, if_pos ⟨q, e, hq, hl⟩, Finset.card_insert_of_notMem (by simp)]

theorem Cloned.start (h : Inv L0 m0) : Cloned s d L0 m0 0 L0 m0 :=
  ⟨h, Keeps.refl _ _ _, fun hf => Or.inl hf, fun _ hu => hu, fun _ hu => Or.inl hu, fun hn => by omega,
    fun _ _ => Iff.rfl, fun hf _ => hf, fun _ _ _ => rfl, ⟨rfl, rfl, rfl⟩, by omega⟩

/-- over a range without source pages -/
theorem Cloned.skip {k : ℕ} (w : Cloned s d L0 m0 n L m) (hk : n ≤ k)
    (hno : ∀ q e, n ≤ vpn q → vpn q < k → ¬ Leaf L0 m0 s q e) : Cloned s d L0 m0 k L m := by
  have hback : ∀ {q}, (vpn q < k → ∀ e0, ¬ Leaf L0 m0 s q e0) → vpn q < n → ∀ e0, ¬ Leaf L0 m0 s q e0 :=
    fun hq hn => hq (by omega)
  refine ⟨w.inv, w.keeps, w.new, w.used_mono, w.used_new, fun {q e0} hq hl => ?_, fun hq => w.todo (hback hq),
    fun hf hq => w.keep hf (hback hq), w.data, w.rest, ?_⟩
  · by_cases hn : vpn q < n
    · exact w.done hn hl
    · exact (hno q e0 (by omega) hq hl).elim
  · have := leafCount_mono L0 m0 s hk
    have := w.cost
    omega

/-- the source's tables are read as they were at the start -/
theorem Cloned.source (w : Cloned s d L0 m0 n L m) (hsd : s ≠ d) {t : ℕ} {p : List Idx} (ht : L0.own t = some (s, p)) :
    m.mem t = m0.mem t := by
  funext i
  exact w.keeps.mem (Or.inr ⟨s, p, ht, fun hh => absurd hh hsd⟩)

/-! ## One leaf -/

theorem pathOf_mkVirt (i4 i3 i2 i1 : Idx) : pathOf (mkVirt i4 i3 i2 i1) = [i1, i2, i3, i4] := by
  simp [pathOf]

theorem clone_flags (e0 : U64) : Flags (e0 &&& CLONE_MASK) ∧ huge (e0 &&& CLONE_MASK) = false ∧
    present (e0 &&& CLONE_MASK) = present e0 := by
  refine ⟨?_, ?_, ?_⟩
  · rw [BitVec.and_comm]; exact Flags.and e0 (by decide)
  · show (e0 &&& CLONE_MASK).getLsbD 7 = false
    rw [BitVec.getLsbD_and, show CLONE_MASK.getLsbD 7 = false by decide, Bool.and_false]
  · show (e0 &&& CLONE_MASK).getLsbD 0 = e0.getLsbD 0
    rw [BitVec.getLsbD_and, show CLONE_MASK.getLsbD 0 = true by decide, Bool.and_true]

theorem cloneLeaf_spec (h0 : Inv L0 m0) (hsd : s ≠ d) (hd : L0.own d = some (d, [])) {i4 i3 i2 i1 : Idx} {e0 : U64}
    (hl : Leaf L0 m0 s [i1, i2, i3, i4] e0) (hn : vpn [i1, i2, i3, i4] = n) (w : Cloned s d L0 m0 n L m)
    {m' : Machine} (hc : cloneLeaf d (mkVirt i4 i3 i2 i1) e0 m = some m') : ∃ L', Cloned s d L0 m0 (n + 1) L' m' := by
  unfold cloneLeaf at hc
  simp only [bind, Option.bind_eq_some_iff] at hc
  obtain ⟨⟨a, m1⟩, ha, hmap⟩ := hc
  obtain ⟨c, rfl, hlt, hfree, hm1, hu1, hcost1⟩ := alloc_spec ha
  simp only [frameOf_addrOf hlt] at hmap
  obtain ⟨hco, hck, hc0⟩ := w.inv.fresh hfree
  have hpres : present e0 = true := by obtain ⟨_, _, _, -, -, -, -, he⟩ := hl; exact he
  have hpriv : isPrivate (mkVirt i4 i3 i2 i1) = true := by
    rw [← priv_iff_isPrivate, pathOf_mkVirt]; exact hl.priv h0
  -- the copy, in a frame that no space owns yet
  have hcopy : m1.mem (entryToKptr e0) = m0.mem (entryToKptr e0) := by
    rw [hm1]; exact w.source hsd (hl.own h0)
  rw [hcopy] at hmap
  generalize hm2 : m1.fill c (m0.mem (entryToKptr e0)) = m2 at hmap
  have hi2 : Inv L m2 := hm2 ▸ w.inv.alloc hfree hm1 hu1 _
  have hu2 : ∀ g, used m2 g = (decide (g = c) || used m g) := by rw [← hm2]; exact hu1
  have hmem2 : ∀ {f}, f ≠ c → m2.mem f = m.mem f := by
    intro f hf; rw [← hm2, fill_mem, if_neg hf, hm1]
  have hleaf2 : ∀ {r q e}, Leaf L m2 r q e ↔ Leaf L m r q e := by
    intro r q e
    have hne : ∀ {t p}, L.own t = some (r, p) → t ≠ c := by rintro t p ht rfl; rw [hco] at ht; cases ht
    constructor
    · rintro ⟨t, i, p, hq, hp, ht, he, hpr⟩
      exact ⟨t, i, p, hq, hp, ht, by rw [← he, hmem2 (hne ht)], hpr⟩
    · rintro ⟨t, i, p, hq, hp, ht, he, hpr⟩
      exact ⟨t, i, p, hq, hp, ht, by rw [← he, hmem2 (hne ht)], hpr⟩
  have huc : used m2 c = true := by rw [hu2]; simp
  obtain ⟨hf1, hf2, hf3⟩ := clone_flags e0
  have hmask : addrOf c &&& ~~~0xFFF#64 = addrOf c := by
    have := (addrOf_add_offset hlt 0).2
    simpa using this
  obtain ⟨L', wr, hoc, hlc⟩ := mapInto_spec hi2 (w.keeps.tbl hd (by simp)) hpriv hf1 (hf3.trans hpres) hf2
    ⟨huc, Nat.pos_of_ne_zero hc0, hlt⟩ hck (Or.inl hco) hmask hmap
  rw [pathOf_mkVirt] at wr hoc hlc
  have hk2 : Keeps d L m L m2 := by
    refine ⟨rfl, fun hf _ => hf, fun hf _ => hf, fun {f i} hg => ?_, fun {f p i} hf _ _ => ?_, by rw [← hm2, hm1]; rfl⟩
    · rw [hmem2]
      rintro rfl
      rcases hg with ⟨k, hk⟩ | ⟨r', p, ho, -⟩
      · rw [hck] at hk; cases hk
      · rw [hco] at ho; cases ho
    · rw [hmem2]
      · exact Same.refl _
      · rintro rfl; rw [hco] at hf; cases hf
  -- what was copied before is still there
  have hold : ∀ {q e e0'}, q ≠ [i1, i2, i3, i4] → Leaf L m d q e → Copy m0 e0' m e → Leaf L' m' d q e ∧ Copy m0 e0' m' e := by
    intro q e e0' hq hle hcp
    refine ⟨(wr.leaf fun hh => hq hh.2).2 (hleaf2.2 hle), hcp.flags, ?_, hcp.fresh⟩
    have hown := hle.own w.inv
    have hne : entryToKptr e ≠ c := by intro hh; rw [hh, hco] at hown; cases hown
    rw [wr.data (by rw [hu2, (w.inv.own_used hown).1, Bool.or_true]) (w.inv.klv_none hown), hmem2 hne]
    · exact hcp.data
    · intro r' p hp
      rw [hown] at hp
      cases hp
      exact hle.length
  refine ⟨L', wr.inv, (w.keeps.trans hk2).trans wr.keeps, fun {f r p} hf => ?_, fun f hu => ?_, fun f hu => ?_,
    fun {q e} hq hle => ?_, fun {q} hq e => ?_, fun {f q} hf hq => ?_, fun {f} hu hk hf => ?_, ?_, ?_⟩
  · rcases wr.own_new hf with ho | ⟨rfl, rfl | ⟨-, hn2⟩⟩
    · exact w.new ho
    · refine Or.inr ⟨rfl, ?_⟩
      have : f = c := wr.inv.tree.unique hf hoc
      subst this
      cases hum : used m0 f with
      | false => rfl
      | true => rw [w.used_mono f hum] at hfree; cases hfree
    · refine Or.inr ⟨rfl, ?_⟩
      cases hum : used m0 f with
      | false => rfl
      | true => rw [hu2, w.used_mono f hum, Bool.or_true] at hn2; cases hn2
  · exact wr.used_mono f (by rw [hu2, w.used_mono f hu, Bool.or_true])
  · have hlab : ∀ {x}, L'.own f = some x → used m0 f = true ∨ ∃ p, L'.own f = some (d, p) := by
      intro x hx
      rcases wr.own_new (show _ = some (x.1, x.2) from hx) with ho | ⟨hd', -⟩
      · rcases w.new ho with ho0 | ⟨hd', -⟩
        · exact Or.inl (h0.own_used ho0).1
        · exact Or.inr ⟨x.2, by rw [hx, ← hd']⟩
      · exact Or.inr ⟨x.2, by rw [hx, ← hd']⟩
    rcases wr.used_new f hu with hu2' | hne
    · rw [hu2, Bool.or_eq_true, decide_eq_true_eq] at hu2'
      rcases hu2' with rfl | hum
      · exact Or.inr ⟨_, hoc⟩
      · rcases w.used_new f hum with h1 | ⟨p, hp⟩
        · exact Or.inl h1
        · by_cases hpq : p = [i1, i2, i3, i4]
          · -- the frame this copy displaces was a page of the destination before the clone
            subst hpq
            obtain ⟨e, hle, rfl⟩ := leaf_of_own w.inv (by simp) hp
            have hle0 := (w.todo (fun hlt => by omega) e).1 hle
            exact Or.inl (h0.own_used (hle0.own h0)).1
          · exact Or.inr ⟨p, wr.own_keep hp fun hh => hpq hh.2⟩
    · obtain ⟨x, hx⟩ := Option.ne_none_iff_exists'.1 hne
      exact hlab hx
  · by_cases hqq : q = [i1, i2, i3, i4]
    · subst hqq
      obtain rfl := hl.unique h0 hle
      refine ⟨_, hlc, leafFlags_addr_or hlt hf1, ?_, ?_⟩
      · rw [kptr_addr_or hlt hf1, wr.data huc hck (fun r' p hp => by rw [hco] at hp; cases hp), ← hm2, fill_mem,
          if_pos rfl]
      · rw [kptr_addr_or hlt hf1]
        cases hum : used m0 c with
        | false => rfl
        | true => rw [w.used_mono c hum] at hfree; cases hfree
    · have hne : vpn q ≠ n := fun hh => hqq (vpn_inj (by rw [hle.length]; rfl) (hh.trans hn.symm))
      obtain ⟨e', hle', hcp⟩ := w.done (by omega) hle
      exact ⟨e', hold hqq hle' hcp⟩
  · have hqq : q ≠ [i1, i2, i3, i4] := by
      rintro rfl; exact hq (by omega) _ hl
    exact (wr.leaf fun hh => hqq hh.2).trans (hleaf2.trans (w.todo (fun hlt => hq (by omega)) e))
  · have hqq : q ≠ [i1, i2, i3, i4] := by
      rintro rfl; exact hq (by omega) _ hl
    exact wr.own_keep (w.keep hf fun hlt => hq (by omega)) fun hh => hqq hh.2
  · have hum := w.used_mono f hu
    have hne : f ≠ c := by rintro rfl; rw [hum] at hfree; cases hfree
    rw [wr.data (by rw [hu2, hum, Bool.or_true]) (by rw [w.keeps.klv]; exact hk), hmem2 hne, w.data hu hk hf]
    intro r p hp
    rcases w.new hp with ho | ⟨-, hno⟩
    · exact hf r p ho
    · rw [hu] at hno; cases hno
  · rw [wr.rest.1, wr.rest.2.1, wr.rest.2.2, ← hm2, hm1]
    exact w.rest
  · have hc4 := mapInto_freeCount hmap
    have hp2 : m2.pmm = m1.pmm := by rw [← hm2]; rfl
    have hcost := w.cost
    rw [hp2] at hc4
    rw [leafCount_succ hn hl]
    omega

/-- five free frames are enough for a leaf -/
theorem cloneLeaf_isSome {virt e0 : U64} (hf : 5 ≤ freeCount m.pmm) : ∃ m', cloneLeaf d virt e0 m = some m' := by
  unfold cloneLeaf
  simp only [bind]
  obtain ⟨a, m1, ha⟩ := alloc_isSome (m := m) (by omega)
  obtain ⟨-, -, -, -, -, -, hc⟩ := alloc_spec ha
  rw [ha, Option.bind_some]
  exact mapInto_isSome (by show 4 ≤ freeCount m1.pmm; omega)

/-! ## The loops -/

/-- enough frames for the pages of s -/
def Enough (L0 : Layout) (m0 : Machine) (s : ℕ) : Prop := 5 * leafCount L0 m0 s (512 ^ 4) ≤ freeCount m0.pmm

/-- a table below an absent entry has no pages -/
theorem no_leaf_below (h0 : Inv L0 m0) {t : ℕ} {i : Idx} {p q : List Idx} {e : U64} {k : ℕ}
    (ht : L0.own t = some (s, p)) (ha : present (m0.mem t i) = false) (hl : Leaf L0 m0 s q e) (hq : q.drop k = i :: p) :
    False := by
  obtain ⟨c, hc⟩ := h0.tree.ancestor (hl.own h0) (List.drop_suffix k q)
  rw [hq] at hc
  have := (child_some.1 (h0.tree.child_of_own ht hc)).1
  rw [ha] at this; cases this

/-- advance over the pages below table `i :: p`: none has a number there -/
theorem Cloned.skipTable (w : Cloned s d L0 m0 n L m) {p : List Idx} {k : ℕ} (hk : p.length + k = 4)
    (hn : n = 512 ^ k * vpn p) (hno : ∀ q e, Leaf L0 m0 s q e → q.drop k = p → False) :
    Cloned s d L0 m0 (512 ^ k * (vpn p + 1)) L m := by
  refine w.skip (by rw [hn]; exact Nat.mul_le_mul_left _ (Nat.le_succ _)) fun q e h1 h2 hl => ?_
  refine hno q e hl (drop_of_vpn (by rw [hl.length]; omega) (by rw [← hn]; exact h1) h2)

theorem clonePt_spec (h0 : Inv L0 m0) (hsd : s ≠ d) (hd : L0.own d = some (d, [])) {t : ℕ} {i4 i3 i2 : Idx}
    (ht : L0.own t = some (s, [i2, i3, i4])) (w : Cloned s d L0 m0 (512 * vpn [i2, i3, i4]) L m) :
    Runs (Enough L0 m0 s) (clonePt d t i4 i3 i2 m)
      fun m' => ∃ L', Cloned s d L0 m0 (512 * (vpn [i2, i3, i4] + 1)) L' m' := by
  unfold clonePt
  refine (Runs.foldlM_finRange (P := fun k m' => ∃ L', Cloned s d L0 m0 (512 * vpn [i2, i3, i4] + k) L' m')
    ⟨L, w⟩ fun i1 m1 ⟨L1, w1⟩ => ?_).mono fun m' ⟨L', w'⟩ => ⟨L', by rw [Nat.mul_add]; exact w'⟩
  have hnum : vpn [i1, i2, i3, i4] = 512 * vpn [i2, i3, i4] + i1 := by
    simp only [vpn]; omega
  have hrow := w1.source hsd ht
  rw [hrow]
  split_ifs with habs
  · -- an unmapped page
    rw [absent_iff] at habs
    refine Runs.pure ⟨L1, ?_⟩
    have := w1.skipTable (p := [i1, i2, i3, i4]) (k := 0) rfl (by rw [hnum]; simp) fun q e hl hq =>
      no_leaf_below h0 ht habs hl hq
    rw [hnum] at this
    simpa [Nat.add_assoc] using this
  · have hpr : present (m0.mem t i1) = true := by rw [absent_iff] at habs; exact Bool.eq_true_of_not_eq_false habs
    have hl : Leaf L0 m0 s [i1, i2, i3, i4] (m0.mem t i1) := ⟨t, i1, _, rfl, rfl, ht, rfl, hpr⟩
    refine ⟨fun hc => ?_, fun hB => cloneLeaf_isSome ?_⟩
    · exact cloneLeaf_spec h0 hsd hd hl hnum w1 hc
    · -- this page is not paid for yet
      have hlt : vpn [i1, i2, i3, i4] + 1 ≤ 512 ^ 4 := by
        have := i1.isLt; have := i2.isLt; have := i3.isLt; have := i4.isLt
        simp only [vpn]; omega
      have h1 := leafCount_succ hnum hl
      have h2 := leafCount_mono L0 m0 s hlt
      rw [hnum] at h2
      have h3 := w1.cost
      unfold Enough at hB
      omega

/-- below a slot other than 0 everything is private if the slot is -/
theorem priv_below {i4 : Idx} (h0 : i4 ≠ 0) (hs : Priv [i4] = true) (i3 i2 : Idx) :
    Priv [i3, i4] = true ∧ Priv [i2, i3, i4] = true := by
  constructor
  · rw [Priv, if_neg h0]; exact hs
  · rw [Priv, if_neg h0]; exact hs

theorem clonePd_spec (h0 : Inv L0 m0) (hsd : s ≠ d) (hd : L0.own d = some (d, [])) {t : ℕ} {i4 i3 : Idx}
    (hi0 : i4 ≠ 0) (hi4 : Priv [i4] = true) (ht : L0.own t = some (s, [i3, i4]))
    (w : Cloned s d L0 m0 (512 ^ 2 * vpn [i3, i4]) L m) :
    Runs (Enough L0 m0 s) (clonePd d t i4 i3 m)
      fun m' => ∃ L', Cloned s d L0 m0 (512 ^ 2 * (vpn [i3, i4] + 1)) L' m' := by
  unfold clonePd
  refine (Runs.foldlM_finRange (P := fun k m' => ∃ L', Cloned s d L0 m0 (512 * (512 * vpn [i3, i4] + k)) L' m')
    ⟨L, by rw [pow_two, Nat.mul_assoc] at w; exact w⟩ fun i2 m1 ⟨L1, w1⟩ => ?_).mono
      fun m' ⟨L', w'⟩ => ⟨L', by rw [pow_two, Nat.mul_assoc, Nat.mul_add 512 (vpn [i3, i4])]; exact w'⟩
  have hnum : vpn [i2, i3, i4] = 512 * vpn [i3, i4] + i2 := by
    simp only [vpn]; omega
  rw [← hnum] at w1
  rw [w1.source hsd ht, ← Nat.add_assoc, ← hnum]
  split_ifs with habs
  · rw [absent_iff] at habs
    refine Runs.pure ⟨L1, ?_⟩
    have := w1.skipTable (p := [i2, i3, i4]) (k := 1) rfl (by simp) fun q e hl hq => no_leaf_below h0 ht habs hl hq
    simpa using this
  · have hpr : present (m0.mem t i2) = true := by rw [absent_iff] at habs; exact Bool.eq_true_of_not_eq_false habs
    exact clonePt_spec h0 hsd hd (h0.down ht (priv_below hi0 hi4 i3 i2).2 hpr) w1

theorem clonePdpt_spec (h0 : Inv L0 m0) (hsd : s ≠ d) (hd : L0.own d = some (d, [])) {t : ℕ} {i4 : Idx}
    (hi0 : i4 ≠ 0) (hi4 : Priv [i4] = true) (ht : L0.own t = some (s, [i4]))
    (w : Cloned s d L0 m0 (512 ^ 3 * vpn [i4]) L m) :
    Runs (Enough L0 m0 s) (clonePdpt d t i4 m)
      fun m' => ∃ L', Cloned s d L0 m0 (512 ^ 3 * (vpn [i4] + 1)) L' m' := by
  unfold clonePdpt
  refine (Runs.foldlM_finRange (P := fun k m' => ∃ L', Cloned s d L0 m0 (512 ^ 2 * (512 * vpn [i4] + k)) L' m')
    ⟨L, by rw [pow_succ, Nat.mul_assoc] at w; exact w⟩ fun i3 m1 ⟨L1, w1⟩ => ?_).mono
      fun m' ⟨L', w'⟩ => ⟨L', by rw [pow_succ, Nat.mul_assoc, Nat.mul_add 512 (vpn [i4])]; exact w'⟩
  have hnum : vpn [i3, i4] = 512 * vpn [i4] + i3 := by
    simp only [vpn]; omega
  rw [← hnum] at w1
  rw [w1.source hsd ht, ← Nat.add_assoc, ← hnum]
  split_ifs with habs
  · rw [absent_iff] at habs
    exact Runs.pure ⟨L1, w1.skipTable (p := [i3, i4]) (k := 2) rfl rfl fun q e hl hq =>
      no_leaf_below h0 ht habs hl hq⟩
  · have hpr : present (m0.mem t i3) = true := by rw [absent_iff] at habs; exact Bool.eq_true_of_not_eq_false habs
    exact clonePd_spec h0 hsd hd hi0 hi4 (h0.down ht (priv_below hi0 hi4 i3 0).1 hpr) w1

/-- a private page of slot 0 lies in the window -/
theorem slot0_window {i1 i2 i3 : Idx} (h : Priv [i1, i2, i3, 0] = true) : i3 = 0 ∧ 1 ≤ i2.val ∧ i2.val < 8 := by
  simpa [Priv, and_assoc] using h

/-- the window test of the slot-0 loops on indices -/
theorem outside_window_iff (i2 : Idx) :
    (virt2mb 0 i2 < RESERVED_LOW ∨ RESERVED_HIGH ≤ virt2mb 0 i2) ↔ ¬ (1 ≤ i2.val ∧ i2.val < 8) := by
  have := reserved_iff 0 i2
  simp only [true_and] at this
  rw [← this, not_and_or, BitVec.not_le, BitVec.not_lt]

theorem cloneSlot0_spec (h0 : Inv L0 m0) (hsd : s ≠ d) (hs : L0.own s = some (s, [])) (hd : L0.own d = some (d, [])) :
    Runs (Enough L0 m0 s) (cloneSlot0 d s m0) fun m' => ∃ L', Cloned s d L0 m0 (512 ^ 3) L' m' := by
  have hp0 := h0.slot0 hs
  have ht := h0.down hs (by decide) hp0
  have hp1 := h0.slot0_pd ht (i := 0) (by decide)
  have hpd := h0.down ht (by decide) hp1
  unfold cloneSlot0
  rw [if_neg (by rw [absent_iff, hp0]; simp)]
  simp only
  rw [if_neg (by rw [absent_iff, hp1]; simp)]
  -- what is left of slot 0 after its first PD is not private
  have htail : ∀ {L' m'}, Cloned s d L0 m0 (512 ^ 2) L' m' → Cloned s d L0 m0 (512 ^ 3) L' m' := by
    intro L' m' w
    refine w.skip (by norm_num) fun q e h1 h2 hl => ?_
    match q, hl.length, hl.priv h0 with
    | [i1, i2, i3, i4], _, hp =>
      have b1 := i1.isLt; have b2 := i2.isLt; have b3 := i3.isLt
      simp only [vpn] at h1 h2
      norm_num at h1 h2
      have h4 : i4 = 0 := Fin.ext (by simp only [Fin.val_zero]; omega)
      subst h4
      obtain ⟨rfl, -⟩ := slot0_window hp
      simp only [Fin.val_zero] at h1
      omega
  refine (Runs.foldlM_finRange (P := fun k m' => ∃ L', Cloned s d L0 m0 (512 * k) L' m')
    ⟨L0, Cloned.start h0⟩ fun i2 m1 ⟨L1, w1⟩ => ?_).mono fun m' ⟨L', w'⟩ => ⟨L', htail (by norm_num at w' ⊢; exact w')⟩
  have hnum : vpn [i2, 0, 0] = i2.val := by simp [vpn]
  rw [w1.source hsd hpd]
  rw [← hnum] at w1
  rw [← hnum]
  split_ifs with hout habs
  · rw [outside_window_iff] at hout
    refine Runs.pure ⟨L1, ?_⟩
    have := w1.skipTable (p := [i2, 0, 0]) (k := 1) rfl (by simp) fun q e hl hq => ?_
    · simpa using this
    · match q, hl.length, hl.priv h0, hq with
      | [i1, j2, j3, j4], _, hp, hq =>
        simp only [List.drop_succ_cons, List.drop_zero, List.cons.injEq, and_true] at hq
        obtain ⟨rfl, rfl, rfl⟩ := hq
        exact hout (slot0_window hp).2
  · rw [absent_iff] at habs
    refine Runs.pure ⟨L1, ?_⟩
    have := w1.skipTable (p := [i2, 0, 0]) (k := 1) rfl (by simp) fun q e hl hq => no_leaf_below h0 hpd habs hl hq
    simpa using this
  · rw [absent_iff] at habs
    have hpr := Bool.eq_true_of_not_eq_false habs
    have hwin : Priv [i2, 0, 0] = true := by
      rw [outside_window_iff, not_not] at hout
      simpa [Priv] using hout
    exact clonePt_spec h0 hsd hd (h0.down hpd hwin hpr) w1

theorem skippedSlot_iff (i4 : Idx) : skippedSlot i4 = false ↔ i4 ≠ 0 ∧ Priv [i4] = true := by
  simp only [skippedSlot, Priv, Bool.or_eq_false_iff, Bool.and_eq_true, decide_eq_false_iff_not, decide_eq_true_eq,
    and_assoc, ne_eq]

/-- **The clone.** All private pages of s are copied into d. -/
theorem clone_spec (h0 : Inv L0 m0) (hsd : s ≠ d) (hs : L0.own s = some (s, [])) (hd : L0.own d = some (d, []))
    {dstCr3 srcCr3 : U64} (hsrc : entryToKptr srcCr3 = s) (hdst : entryToKptr dstCr3 = d) :
    Runs (Enough L0 m0 s) (cloneAddressSpace dstCr3 srcCr3 m0)
      fun m' => ∃ L', Cloned s d L0 m0 (512 ^ 4) L' m' := by
  unfold cloneAddressSpace
  rw [hsrc, hdst]
  refine Runs.bind (cloneSlot0_spec h0 hsd hs hd) fun m1 ⟨L1, w1⟩ => ?_
  refine (Runs.foldlM_finRange (P := fun k m' => ∃ L', Cloned s d L0 m0 (512 ^ 3 * max k 1) L' m')
    ⟨L1, w1⟩ fun i4 m2 ⟨L2, w2⟩ => ?_).mono fun m' ⟨L', w'⟩ => ⟨L', by norm_num at w' ⊢; exact w'⟩
  have hnum : vpn [i4] = i4.val := by simp [vpn]
  rw [w2.source hsd hs]
  by_cases h0' : i4 = 0
  · subst h0'
    rw [if_pos (by decide)]
    exact Runs.pure ⟨L2, w2⟩
  have hpos : 1 ≤ i4.val := Nat.one_le_iff_ne_zero.2 fun hh => h0' (Fin.ext hh)
  rw [max_eq_left hpos, ← hnum] at w2
  rw [max_eq_left (by omega), ← hnum]
  split_ifs with hskip habs
  · refine Runs.pure ⟨L2, w2.skipTable (p := [i4]) (k := 3) rfl rfl fun q e hl hq => ?_⟩
    match q, hl.length, hl.priv h0, hq with
    | [i1, i2, i3, j4], _, hp, hq =>
      simp only [List.drop_succ_cons, List.drop_zero, List.cons.injEq, and_true] at hq
      subst hq
      rw [(skippedSlot_iff j4).2 ⟨h0', Priv.tail (Priv.tail (Priv.tail hp))⟩] at hskip
      cases hskip
  · rw [absent_iff] at habs
    exact Runs.pure ⟨L2, w2.skipTable (p := [i4]) (k := 3) rfl rfl fun q e hl hq => no_leaf_below h0 hs habs hl hq⟩
  · have hpr : present (m0.mem s i4) = true := by rw [absent_iff] at habs; exact Bool.eq_true_of_not_eq_false habs
    obtain ⟨hi0, hi4⟩ := (skippedSlot_iff i4).1 (by simpa using hskip)
    exact clonePdpt_spec h0 hsd hd hi0 hi4 (h0.down hs hi4 hpr) w2

end Clone

end Retux.Vmm
