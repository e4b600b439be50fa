/-
Levels: what is left of the tables' shape when an edit goes through a shared entry.

`Inv` says whose each table is, and the editors keep it at private addresses. At a shared address they do not: `unmap`
and `protect` split a 2 MiB kernel page or write a kernel page table. What they still keep is that every table stays at
one level of the walk (`Levels`). `Soft P` is what such an edit does to the tables: links stay, huge PD entries may be
split, and a page-table entry is left alone or satisfies P. So a page with a page table and an entry in P keeps both
(`Soft.settled`), whatever is edited afterwards.

- `Inv.levels`: the invariant gives the levels;
- `unmap_soft`, `protect_soft`: the two editors at any address.
-/
import Mathlib.Tactic
import Retux.Mem.Map

namespace Retux.Vmm

open Retux.Word Retux.Pmm Retux.Forest

/-! ## Levels -/

structure Levels (lv : ℕ → Option ℕ) (m : Machine) : Prop where
  used : ∀ {f k}, lv f = some k → used m f = true
  pml4 : ∀ {f i}, lv f = some 3 → present (m.mem f i) = true → lv (entryToKptr (m.mem f i)) = some 2
  pdpt : ∀ {f i}, lv f = some 2 → present (m.mem f i) = true →
    huge (m.mem f i) = false ∧ lv (entryToKptr (m.mem f i)) = some 1
  pd : ∀ {f i}, lv f = some 1 → present (m.mem f i) = true → huge (m.mem f i) = false →
    lv (entryToKptr (m.mem f i)) = some 0

/-- kernel tables as labelled, private tables by their depth; leaves have no level -/
def level (L : Layout) (f : ℕ) : Option ℕ :=
  match L.klv f, L.own f with
  | some k, _ => some k
  | none, some (_, p) => if p.length < 4 then some (3 - p.length) else none
  | none, none => none

section Level

variable {L : Layout} {m : Machine} {r f k : ℕ} {p : List Idx}

theorem level_kernel (h : L.klv f = some k) : level L f = some k := by simp [level, h]

theorem level_own (hi : Inv L m) (h : L.own f = some (r, p)) (hl : p.length < 4) : level L f = some (3 - p.length) := by
  simp [level, hi.klv_none h, h, hl]

theorem level_cases (h : level L f = some k) :
    L.klv f = some k ∨ ∃ r p, L.own f = some (r, p) ∧ p.length < 4 ∧ k = 3 - p.length := by
  unfold level at h
  split at h
  · rename_i hk
    exact Or.inl (hk.trans h)
  · rename_i r p _ ho
    split_ifs at h with hl
    exact Or.inr ⟨_, _, ho, hl, (Option.some.inj h).symm⟩
  · cases h

/-- a private table whose entry is not private is in slot 0 -/
theorem slot0_of_not_priv {i i4 : Idx} {q : List Idx} (hq : q.length ≤ 1) (hp : Priv (q ++ [i4]) = true)
    (hn : Priv (i :: (q ++ [i4])) = false) : i4 = 0 := by
  by_contra h0
  match q, hq with
  | [], _ =>
    simp only [List.nil_append, Priv, h0, if_false] at hp hn
    rw [hp] at hn; cases hn
  | [_], _ =>
    simp only [List.cons_append, List.nil_append, Priv, h0, if_false] at hp hn
    rw [hp] at hn; cases hn

theorem Inv.levels (h : Inv L m) : Levels (level L) m := by
  refine ⟨fun hf => ?_, fun {f i} hf he => ?_, fun {f i} hf he => ?_, fun {f i} hf he hg => ?_⟩
  · rcases level_cases hf with hk | ⟨r, p, ho, -⟩
    · exact (h.kern.used hk).1
    · exact (h.own_used ho).1
  · rcases level_cases hf with hk | ⟨r, p, ho, hl, hlen⟩
    · exact level_kernel (h.kern.pml4 hk he)
    · cases p with
      | nil =>
        cases hp : Priv [i] with
        | true => exact level_own h (h.down ho hp he) (by simp)
        | false => exact level_kernel (h.shr_pml4 ho hp he)
      | cons i4 p =>
        rw [List.length_cons] at hlen
        omega
  · rcases level_cases hf with hk | ⟨r, p, ho, hl, hlen⟩
    · exact ⟨(h.kern.pdpt hk he).1, level_kernel (h.kern.pdpt hk he).2⟩
    · obtain ⟨i4, rfl⟩ : ∃ i4, p = [i4] := List.length_eq_one_iff.1 (by omega)
      cases hp : Priv [i, i4] with
      | true => exact ⟨h.own_huge ho hp he, level_own h (h.down ho hp he) (by simp)⟩
      | false =>
        have h0 := slot0_of_not_priv (q := []) (by simp) (h.tree.priv ho) hp
        subst h0
        rw [h.slot0_end ho (by simpa [Priv] using hp)] at he; cases he
  · rcases level_cases hf with hk | ⟨r, p, ho, hl, hlen⟩
    · rcases h.kern.pd hk he with ⟨hh, -⟩ | ⟨-, hk0⟩
      · rw [hg] at hh; cases hh
      · exact level_kernel hk0
    · obtain ⟨i3, i4, rfl⟩ : ∃ i3 i4, p = [i3, i4] := List.length_eq_two.1 (by omega)
      cases hp : Priv [i, i3, i4] with
      | true => exact level_own h (h.down ho hp he) (by simp)
      | false =>
        have h0 := slot0_of_not_priv (q := [i3]) (by simp) (h.tree.priv ho) hp
        subst h0
        rcases h.shr_pd ho hp he with ⟨hh, -⟩ | ⟨-, hk0⟩
        · rw [hg] at hh; cases hh
        · exact level_kernel hk0

end Level

/-! ## The way to a page table -/

/-- the PD of an address -/
def toPd (mem : ℕ → Idx → U64) (r : ℕ) (v : U64) : Option ℕ :=
  (child (mem r (tableIdx v 39))).bind fun t3 => child (mem t3 (tableIdx v 30))

/-- the page table of an address, where the PD entry is not a 2 MiB page -/
def toPt (mem : ℕ → Idx → U64) (r : ℕ) (v : U64) : Option ℕ :=
  (toPd mem r v).bind fun t2 => if huge (mem t2 (tableIdx v 21)) then none else child (mem t2 (tableIdx v 21))

section Way

variable {lv : ℕ → Option ℕ} {m : Machine} {r t : ℕ} {v : U64}

theorem toPd_some : toPd m.mem r v = some t ↔
    ∃ t3, child (m.mem r (tableIdx v 39)) = some t3 ∧ child (m.mem t3 (tableIdx v 30)) = some t := by
  simp only [toPd, Option.bind_eq_some_iff]

theorem toPt_some : toPt m.mem r v = some t ↔
    ∃ t2, toPd m.mem r v = some t2 ∧ huge (m.mem t2 (tableIdx v 21)) = false ∧
      child (m.mem t2 (tableIdx v 21)) = some t := by
  simp only [toPt, Option.bind_eq_some_iff]
  refine exists_congr fun t2 => and_congr_right fun _ => ?_
  cases huge (m.mem t2 (tableIdx v 21)) <;> simp

theorem Levels.pd_level (h : Levels lv m) (hr : lv r = some 3) (ht : toPd m.mem r v = some t) : lv t = some 1 := by
  obtain ⟨t3, hc3, hc2⟩ := toPd_some.1 ht
  obtain ⟨p4, rfl⟩ := child_some.1 hc3
  obtain ⟨p3, rfl⟩ := child_some.1 hc2
  exact (h.pdpt (h.pml4 hr p4) p3).2

theorem Levels.pt_level (h : Levels lv m) (hr : lv r = some 3) (ht : toPt m.mem r v = some t) : lv t = some 0 := by
  obtain ⟨t2, ht2, hg, hc⟩ := toPt_some.1 ht
  obtain ⟨p2, rfl⟩ := child_some.1 hc
  exact h.pd (h.pd_level hr ht2) p2 hg

/-- the walk stops before the PD -/
theorem translate_no_pd (ht : toPd m.mem r v = none) : translate m.mem r v = none := by
  unfold translate
  by_cases p4 : present (m.mem r (tableIdx v 39)) = false
  · simp only [p4, if_true]
  by_cases p3 : present (m.mem (entryToKptr (m.mem r (tableIdx v 39))) (tableIdx v 30)) = false
  · simp only [p3, if_true, ite_self]
  have hpd := toPd_some.2 ⟨_, child_some.2 ⟨Bool.eq_true_of_not_eq_false p4, rfl⟩,
    child_some.2 ⟨Bool.eq_true_of_not_eq_false p3, rfl⟩⟩
  rw [hpd] at ht; cases ht

/-- the walk from the PD on -/
theorem Levels.translate_pd (h : Levels lv m) (hr : lv r = some 3) (ht : toPd m.mem r v = some t) :
    translate m.mem r v =
      if present (m.mem t (tableIdx v 21)) = false then none else
      if huge (m.mem t (tableIdx v 21)) then
        some ((entryPhys (m.mem t (tableIdx v 21)) &&& 0x000FFFFFFFE00000) + (v &&& 0x1FFFFF),
          leafFlags (m.mem t (tableIdx v 21))) else
      if present (m.mem (entryToKptr (m.mem t (tableIdx v 21))) (tableIdx v 12)) = false then none else
        some (entryPhys (m.mem (entryToKptr (m.mem t (tableIdx v 21))) (tableIdx v 12)) + (v &&& 0xFFF),
          leafFlags (m.mem (entryToKptr (m.mem t (tableIdx v 21))) (tableIdx v 12))) := by
  obtain ⟨t3, hc3, hc2⟩ := toPd_some.1 ht
  obtain ⟨p4, rfl⟩ := child_some.1 hc3
  obtain ⟨p3, rfl⟩ := child_some.1 hc2
  have g3 := (h.pdpt (h.pml4 hr p4) p3).1
  unfold translate
  simp only [p4, p3, g3, Bool.true_eq_false, Bool.false_eq_true, if_false]

/-- the walk from the page table on -/
theorem Levels.translate_pt (h : Levels lv m) (hr : lv r = some 3) (ht : toPt m.mem r v = some t) :
    translate m.mem r v = if present (m.mem t (tableIdx v 12)) = false then none else
      some (entryPhys (m.mem t (tableIdx v 12)) + (v &&& 0xFFF), leafFlags (m.mem t (tableIdx v 12))) := by
  obtain ⟨t2, ht2, hg, hc⟩ := toPt_some.1 ht
  obtain ⟨p2, rfl⟩ := child_some.1 hc
  rw [h.translate_pd hr ht2, if_neg (by simp [p2]), if_neg (by simp [hg])]

/-- a mapped address has a PD with a present entry -/
theorem Levels.pd_of_mapped (h : Levels lv m) (hr : lv r = some 3) (hv : translate m.mem r v ≠ none) :
    ∃ t, toPd m.mem r v = some t ∧ present (m.mem t (tableIdx v 21)) = true := by
  cases ht : toPd m.mem r v with
  | none => exact absurd (translate_no_pd ht) hv
  | some t =>
    refine ⟨t, rfl, ?_⟩
    cases hp : present (m.mem t (tableIdx v 21)) with
    | true => rfl
    | false => exact absurd (by rw [h.translate_pd hr ht, if_pos hp]) hv

theorem unmap_eq (m : Machine) (v : U64) : unmap m v = match toPd m.mem (getPml4 m) v with
    | none => some m
    | some t => (splitIfHuge m t (tableIdx v 21)).bind fun m1 =>
        if present (m1.mem t (tableIdx v 21)) = false then some m1
        else some (m1.store (entryToKptr (m1.mem t (tableIdx v 21))) (tableIdx v 12) 0) := by
  unfold unmap toPd
  simp only [absent_iff, child]
  cases p4 : present (m.mem (getPml4 m) (tableIdx v 39)) with
  | false => simp
  | true =>
    cases p3 : present (m.mem (entryToKptr (m.mem (getPml4 m) (tableIdx v 39))) (tableIdx v 30)) with
    | false => simp [p3]
    | true => simp [p3]

end Way

/-! ## Edits that keep the levels -/

structure Soft (P : U64 → Prop) (lv : ℕ → Option ℕ) (m : Machine) (lv' : ℕ → Option ℕ) (m' : Machine) : Prop where
  levels : Levels lv' m'
  mono : ∀ {f k}, lv f = some k → lv' f = some k
  /-- a new table was a free frame -/
  fresh : ∀ {f k}, lv' f = some k → lv f = some k ∨ used m f = false
  link : ∀ {f k i}, lv f = some k → k ≠ 0 → present (m.mem f i) = true → (k = 1 → huge (m.mem f i) = false) →
    Same (m.mem f i) (m'.mem f i)
  stay : ∀ {f k i}, lv f = some k → k ≠ 0 → present (m.mem f i) = true → present (m'.mem f i) = true
  leaf : ∀ {f i}, lv f = some 0 → m'.mem f i = m.mem f i ∨ P (m'.mem f i)
  used_mono : ∀ f, used m f = true → used m' f = true
  cr3 : m'.cr3 = m.cr3
  freed : m'.freed = m.freed

section Soft

variable {P : U64 → Prop} {lv lv' lv'' : ℕ → Option ℕ} {m m' m'' : Machine} {r t : ℕ} {v fl : U64} {i : Idx}

theorem Soft.refl (h : Levels lv m) : Soft P lv m lv m :=
  ⟨h, fun hf => hf, fun hf => Or.inl hf, fun _ _ _ _ => Same.refl _, fun _ _ hp => hp, fun _ => Or.inl rfl,
    fun _ hu => hu, rfl, rfl⟩

theorem Soft.trans (h1 : Soft P lv m lv' m') (h2 : Soft P lv' m' lv'' m'') : Soft P lv m lv'' m'' := by
  refine ⟨h2.levels, fun hf => h2.mono (h1.mono hf), fun {f k} hf => ?_, fun {f k i} hf hk hp hg => ?_,
    fun hf hk hp => h2.stay (h1.mono hf) hk (h1.stay hf hk hp), fun {f i} hf => ?_,
    fun f hu => h2.used_mono f (h1.used_mono f hu), h2.cr3.trans h1.cr3, h2.freed.trans h1.freed⟩
  · rcases h2.fresh hf with hf | hu
    · exact h1.fresh hf
    · refine Or.inr ?_
      cases hu' : used m f with
      | false => rfl
      | true => rw [h1.used_mono f hu'] at hu; cases hu
  · have s1 := h1.link hf hk hp hg
    obtain ⟨k1, g1⟩ := s1.2 hp
    have s2 := h2.link (h1.mono hf) hk (s1.1.trans hp) fun hk1 => g1.trans (hg hk1)
    obtain ⟨k2, g2⟩ := s2.2 (s1.1.trans hp)
    exact ⟨s2.1.trans s1.1, fun _ => ⟨k2.trans k1, g2.trans g1⟩⟩
  · rcases h2.leaf (h1.mono hf) with he | hP
    · rw [he]; exact h1.leaf hf
    · exact Or.inr hP

theorem Soft.keeps_pd (h : Soft P lv m lv' m') (hl : Levels lv m) (hr : lv r = some 3) (ht : toPd m.mem r v = some t) :
    toPd m'.mem r v = some t := by
  obtain ⟨t3, hc3, hc2⟩ := toPd_some.1 ht
  obtain ⟨p4, rfl⟩ := child_some.1 hc3
  obtain ⟨p3, rfl⟩ := child_some.1 hc2
  have s4 := h.link hr (by decide) p4 fun hk => by cases hk
  have s3 := h.link (hl.pml4 hr p4) (by decide) p3 fun hk => by cases hk
  exact toPd_some.2 ⟨_, child_some.2 ⟨s4.1.trans p4, (s4.2 p4).1⟩, child_some.2 ⟨s3.1.trans p3, (s3.2 p3).1⟩⟩

theorem Soft.keeps_pt (h : Soft P lv m lv' m') (hl : Levels lv m) (hr : lv r = some 3) (ht : toPt m.mem r v = some t) :
    toPt m'.mem r v = some t := by
  obtain ⟨t2, ht2, hg, hc⟩ := toPt_some.1 ht
  obtain ⟨p2, rfl⟩ := child_some.1 hc
  have s2 := h.link (hl.pd_level hr ht2) (by decide) p2 fun _ => hg
  exact toPt_some.2 ⟨t2, h.keeps_pd hl hr ht2, (s2.2 p2).2.trans hg, child_some.2 ⟨s2.1.trans p2, (s2.2 p2).1⟩⟩

/-- the page has a page table and an entry in P -/
def Settled (P : U64 → Prop) (mem : ℕ → Idx → U64) (r : ℕ) (v : U64) : Prop :=
  ∃ t, toPt mem r v = some t ∧ P (mem t (tableIdx v 12))

/-- **Settled pages stay settled.** -/
theorem Soft.settled (h : Soft P lv m lv' m') (hl : Levels lv m) (hr : lv r = some 3) (hv : Settled P m.mem r v) :
    Settled P m'.mem r v := by
  obtain ⟨t, ht, hP⟩ := hv
  refine ⟨t, h.keeps_pt hl hr ht, ?_⟩
  rcases h.leaf (i := tableIdx v 12) (hl.pt_level hr ht) with he | he
  · rw [he]; exact hP
  · exact he

/-- rewriting an entry above the page tables so that the walk does not notice -/
theorem Soft.ofLink (h : Levels lv m) {k : ℕ} (ht : lv t = some k) (hk : k ≠ 0) {e : U64} (he : Same (m.mem t i) e) :
    Soft P lv m lv (m.store t i e) := by
  have hs : ∀ f j, Same (m.mem f j) ((m.store t i e).mem f j) := by
    intro f j
    by_cases hfj : f = t ∧ j = i
    · obtain ⟨rfl, rfl⟩ := hfj
      rw [store_self]; exact he
    · exact Same.of_eq (store_of_ne hfj)
  refine ⟨⟨fun hf => h.used hf, fun {f j} hf hp => ?_, fun {f j} hf hp => ?_, fun {f j} hf hp hg => ?_⟩, fun hf => hf,
    fun hf => Or.inl hf, fun {f k j} _ _ _ _ => hs f j, fun {f k j} _ _ hp => (hs f j).1.trans hp,
    fun {f j} hf => Or.inl (store_of_ne ?_), fun _ hu => hu, rfl, rfl⟩
  · have hp' := (hs f j).1.symm.trans hp
    rw [((hs f j).2 hp').1]; exact h.pml4 hf hp'
  · have hp' := (hs f j).1.symm.trans hp
    rw [((hs f j).2 hp').1, ((hs f j).2 hp').2]; exact h.pdpt hf hp'
  · have hp' := (hs f j).1.symm.trans hp
    rw [((hs f j).2 hp').2] at hg
    rw [((hs f j).2 hp').1]; exact h.pd hf hp' hg
  · rintro ⟨rfl, rfl⟩
    rw [ht] at hf
    exact hk (Option.some.inj hf)

/-- writing a page-table entry -/
theorem Soft.ofLeaf (h : Levels lv m) (ht : lv t = some 0) {e : U64} (he : P e) : Soft P lv m lv (m.store t i e) := by
  have hrow : ∀ {f k}, lv f = some k → k ≠ 0 → (m.store t i e).mem f = m.mem f := by
    intro f k hf hk
    refine store_row ?_
    rintro rfl
    rw [ht] at hf
    exact hk (Option.some.inj hf).symm
  refine ⟨⟨fun hf => h.used hf, fun {f j} hf hp => ?_, fun {f j} hf hp => ?_, fun {f j} hf hp hg => ?_⟩, fun hf => hf,
    fun hf => Or.inl hf, fun {f k j} hf hk _ _ => Same.of_eq (by rw [hrow hf hk]),
    fun {f k j} hf hk hp => by rw [hrow hf hk]; exact hp, fun {f j} hf => ?_, fun _ hu => hu, rfl, rfl⟩
  · rw [hrow hf (by decide)] at hp ⊢; exact h.pml4 hf hp
  · rw [hrow hf (by decide)] at hp ⊢; exact h.pdpt hf hp
  · rw [hrow hf (by decide)] at hp hg ⊢; exact h.pd hf hp hg
  · by_cases hfj : f = t ∧ j = i
    · obtain ⟨rfl, rfl⟩ := hfj
      rw [store_self]; exact Or.inr he
    · exact Or.inl (store_of_ne hfj)

/-- **Splitting a 2 MiB page.** The new page table takes level 0; afterwards the PD entry is a link. -/
theorem splitIfHuge_soft (h : Levels lv m) (ht : lv t = some 1) (hm : splitIfHuge m t i = some m') :
    ∃ lv', Soft P lv m lv' m' ∧ present (m'.mem t i) = present (m.mem t i) ∧
      (present (m'.mem t i) = true → huge (m'.mem t i) = false) := by
  unfold splitIfHuge at hm
  rw [isHuge_eq] at hm
  split_ifs at hm with hh
  swap
  · cases hm
    refine ⟨lv, Soft.refl h, rfl, fun hp => ?_⟩
    cases hg : huge (m.mem t i) with
    | false => rfl
    | true => exact absurd (by rw [hp, hg]; rfl) hh
  rw [Bool.and_eq_true] at hh
  obtain ⟨⟨a, m1⟩, ha, hres⟩ := Option.map_eq_some_iff.1 hm
  obtain ⟨c, rfl, hlt, hfree, hm1, hu, -⟩ := alloc_spec ha
  simp only [frameOf_addrOf hlt] at hres
  generalize hg : (fun i : Idx => ((m.mem t _ &&& 0x000FFFFFFFE00000) + BitVec.ofNat 64 i.val * 0x1000) ||| _) = g at hres
  have hnew : ∀ {f k}, lv f = some k → f ≠ c := by
    rintro f k hf rfl
    rw [h.used hf] at hfree; cases hfree
  have hlink : present (addrOf c ||| PRESENT ||| WRITABLE) = true ∧ huge (addrOf c ||| PRESENT ||| WRITABLE) = false ∧
      entryToKptr (addrOf c ||| PRESENT ||| WRITABLE) = c := by
    rw [BitVec.or_assoc]
    exact ⟨by rw [present_addr_or hlt]; rfl, by rw [huge_addr_or hlt]; rfl, kptr_addr_or hlt (by decide)⟩
  -- only the PD entry changes among the tables that had a level
  have hmem : ∀ {f k j}, lv f = some k → ¬ (f = t ∧ j = i) → m'.mem f j = m.mem f j := by
    intro f k j hf hne
    rw [← hres, store_of_ne hne, fill_mem, if_neg (hnew hf), hm1]
  have hself : m'.mem t i = addrOf c ||| PRESENT ||| WRITABLE := by rw [← hres, store_self]
  have hlv : ∀ {f k}, lv f = some k → Function.update lv c (some 0) f = some k := by
    intro f k hf
    rw [Function.update_of_ne (hnew hf)]; exact hf
  have hcases : ∀ {f k}, Function.update lv c (some 0) f = some k → f ≠ c ∧ lv f = some k ∨ f = c ∧ k = 0 := by
    intro f k hf
    by_cases hfc : f = c
    · rw [hfc, Function.update_self] at hf
      exact Or.inr ⟨hfc, (Option.some.inj hf).symm⟩
    · rw [Function.update_of_ne hfc] at hf; exact Or.inl ⟨hfc, hf⟩
  have hused : ∀ f, used m' f = (decide (f = c) || used m f) := by intro f; rw [← hres]; exact hu f
  have hne1 : ∀ {f k j}, lv f = some k → k ≠ 1 → ¬ (f = t ∧ j = i) := by
    rintro f k j hf hk ⟨rfl, -⟩
    rw [ht] at hf
    exact hk (Option.some.inj hf).symm
  refine ⟨Function.update lv c (some 0), ⟨⟨fun {f k} hf => ?_, fun {f j} hf hp => ?_, fun {f j} hf hp => ?_,
    fun {f j} hf hp hg => ?_⟩, hlv, fun hf => ?_, fun {f k j} hf hk hp hnot => ?_, fun {f k j} hf hk hp => ?_,
    fun {f j} hf => Or.inl ?_, fun f hf => ?_, ?_, ?_⟩, ?_, fun _ => by rw [hself]; exact hlink.2.1⟩
  · rcases hcases hf with ⟨-, hf⟩ | ⟨rfl, -⟩
    · rw [hused, h.used hf, Bool.or_true]
    · rw [hused]; simp
  · rcases hcases hf with ⟨-, hf⟩ | ⟨-, hk⟩
    · rw [hmem hf (hne1 hf (by decide))] at hp ⊢; exact hlv (h.pml4 hf hp)
    · cases hk
  · rcases hcases hf with ⟨-, hf⟩ | ⟨-, hk⟩
    · rw [hmem hf (hne1 hf (by decide))] at hp ⊢
      exact ⟨(h.pdpt hf hp).1, hlv (h.pdpt hf hp).2⟩
    · cases hk
  · rcases hcases hf with ⟨-, hf⟩ | ⟨-, hk⟩
    · by_cases hti : f = t ∧ j = i
      · obtain ⟨rfl, rfl⟩ := hti
        rw [hself, hlink.2.2, Function.update_self]
      · rw [hmem hf hti] at hp hg ⊢; exact hlv (h.pd hf hp hg)
    · cases hk
  · rcases hcases hf with ⟨-, hf⟩ | ⟨rfl, -⟩
    · exact Or.inl hf
    · exact Or.inr hfree
  · refine Same.of_eq (hmem hf ?_)
    rintro ⟨rfl, rfl⟩
    rw [ht] at hf
    rw [hnot (Option.some.inj hf).symm] at hh
    exact Bool.false_ne_true hh.2
  · by_cases hti : f = t ∧ j = i
    · obtain ⟨rfl, rfl⟩ := hti
      rw [hself]; exact hlink.1
    · rw [hmem hf hti]; exact hp
  · exact hmem hf (hne1 hf (by decide))
  · rw [hused, hf, Bool.or_true]
  · rw [← hres, hm1]; rfl
  · rw [← hres, hm1]; rfl
  · rw [hself, hlink.1, hh.1]

/-- **Unmap at any address.** -/
theorem unmap_soft (h : Levels lv m) (hr : lv (getPml4 m) = some 3) (hm : unmap m v = some m') :
    ∃ lv', Soft (· = 0) lv m lv' m' ∧
      (translate m.mem (getPml4 m) v ≠ none → Settled (· = 0) m'.mem (getPml4 m) v) := by
  rw [unmap_eq] at hm
  cases ht : toPd m.mem (getPml4 m) v with
  | none =>
    rw [ht] at hm
    cases hm
    exact ⟨lv, Soft.refl h, fun hv => absurd (translate_no_pd ht) hv⟩
  | some t =>
    simp only [ht] at hm
    obtain ⟨m1, h1, hm⟩ := Option.bind_eq_some_iff.1 hm
    obtain ⟨lv1, s1, hp1, hg1⟩ := splitIfHuge_soft (P := (· = 0)) h (h.pd_level hr ht) h1
    split_ifs at hm with hp
    · cases hm
      refine ⟨lv1, s1, fun hv => ?_⟩
      rw [hp1] at hp
      exact absurd (by rw [h.translate_pd hr ht, if_pos hp]) hv
    · cases hm
      have hp' := Bool.eq_true_of_not_eq_false hp
      have ht1 : toPt m1.mem (getPml4 m) v = some (entryToKptr (m1.mem t (tableIdx v 21))) :=
        toPt_some.2 ⟨t, s1.keeps_pd h hr ht, hg1 hp', child_some.2 ⟨hp', rfl⟩⟩
      have s2 : Soft (· = 0) lv1 m1 lv1 (m1.store (entryToKptr (m1.mem t (tableIdx v 21))) (tableIdx v 12) 0) :=
        Soft.ofLeaf s1.levels (s1.levels.pt_level (s1.mono hr) ht1) rfl
      exact ⟨lv1, s1.trans s2, fun _ => ⟨_, s2.keeps_pt s1.levels (s1.mono hr) ht1, store_self _ _ _ _⟩⟩

theorem ensureTable_present (hp : present (m.mem t i) = true) : ensureTable m t i fl =
    some (entryToKptr (m.mem t i), m.store t i (m.mem t i ||| (fl &&& (USER ||| WRITABLE)))) := by
  unfold ensureTable
  rw [if_neg (by rw [absent_iff]; simp [hp])]
  simp only [store_self, kptr_widen]

theorem widen_same (e fl : U64) : Same e (e ||| (fl &&& (USER ||| WRITABLE))) :=
  ⟨present_widen _ _, fun _ => ⟨kptr_widen _ _, huge_widen _ _⟩⟩

/-- an entry of a page mapped for the user -/
def UserEntry (e : U64) : Prop := present e = true ∧ user e = true

theorem UserEntry.or (h : UserEntry fl) (e : U64) : UserEntry (e ||| fl) := by
  refine ⟨by rw [present_or, h.1, Bool.or_true], ?_⟩
  have h2 : fl.getLsbD 2 = true := h.2
  unfold user
  rw [BitVec.getLsbD_or, h2, Bool.or_true]

/-- mapping over a page that has a page table takes no frame: three links are widened, one entry is replaced -/
theorem mapInto_over (phys : U64) (h : Levels lv m) (hr : lv r = some 3) (hpt : toPt m.mem r v ≠ none) :
    ∃ m', mapInto m r v phys fl = some m' := by
  obtain ⟨t1, ht1⟩ := Option.ne_none_iff_exists'.1 hpt
  obtain ⟨t2, ht2, hg, hc1⟩ := toPt_some.1 ht1
  obtain ⟨t3, hc3, hc2⟩ := toPd_some.1 ht2
  obtain ⟨p4, k4⟩ := child_some.1 hc3
  obtain ⟨p3, k3⟩ := child_some.1 hc2
  obtain ⟨p2, k2⟩ := child_some.1 hc1
  have l3 := h.pml4 hr p4
  rw [k4] at l3
  have l2 := h.pd_level hr ht2
  unfold mapInto
  simp only [bind, pure]
  generalize (if fl &&& USER ≠ 0 then PRESENT ||| WRITABLE ||| USER else PRESENT ||| WRITABLE) = w
  rw [ensureTable_present p4, k4, Option.bind_some]
  simp only
  have s1 : Soft UserEntry lv m lv (m.store r (tableIdx v 39) (m.mem r (tableIdx v 39) ||| (w &&& (USER ||| WRITABLE)))) :=
    Soft.ofLink h hr (by decide) (widen_same _ _)
  generalize m.store r (tableIdx v 39) (m.mem r (tableIdx v 39) ||| (w &&& (USER ||| WRITABLE))) = m1 at s1 ⊢
  have e3 := s1.link l3 (by decide) p3 fun hk => by cases hk
  rw [ensureTable_present (e3.1.trans p3), (e3.2 p3).1, k3, Option.bind_some]
  simp only
  have s2 := s1.trans (Soft.ofLink (i := tableIdx v 30) s1.levels l3 (by decide)
    (widen_same (m1.mem t3 (tableIdx v 30)) w))
  generalize m1.store t3 (tableIdx v 30) (m1.mem t3 (tableIdx v 30) ||| (w &&& (USER ||| WRITABLE))) = m2 at s2 ⊢
  have e2 := s2.link l2 (by decide) p2 fun _ => hg
  have hns : splitIfHuge m2 t2 (tableIdx v 21) = some m2 := by
    unfold splitIfHuge
    rw [isHuge_eq, (e2.2 p2).2, hg, Bool.and_false]
    rfl
  rw [hns, Option.bind_some, ensureTable_present (e2.1.trans p2), Option.bind_some]
  exact ⟨_, rfl⟩

/-- taking a frame -/
theorem Soft.ofAlloc {a : U64} (h : Levels lv m) (ha : m.allocFrame = some (a, m')) : Soft P lv m lv m' := by
  obtain ⟨f, -, -, -, hm, hu, -⟩ := alloc_spec ha
  have hmem : m'.mem = m.mem := by rw [hm]
  have hused : ∀ f, used m f = true → used m' f = true := fun f hf => by rw [hu, hf, Bool.or_true]
  refine ⟨⟨fun hf => hused _ (h.used hf), ?_, ?_, ?_⟩, fun hf => hf, fun hf => Or.inl hf, ?_, ?_, ?_, hused, ?_, ?_⟩
  · rw [hmem]; exact h.pml4
  · rw [hmem]; exact h.pdpt
  · rw [hmem]; exact h.pd
  · rw [hmem]; exact fun _ _ _ _ => Same.refl _
  · rw [hmem]; exact fun _ _ hp => hp
  · rw [hmem]; exact fun _ => Or.inl rfl
  · rw [hm]
  · rw [hm]

/-- filling a frame that is no table -/
theorem Soft.ofFill {f : ℕ} (h : Levels lv m) (hf : lv f = none) (g : Idx → U64) : Soft P lv m lv (m.fill f g) := by
  have hrow : ∀ {t k}, lv t = some k → (m.fill f g).mem t = m.mem t := by
    intro t k ht
    rw [fill_mem, if_neg]
    rintro rfl
    rw [hf] at ht
    cases ht
  refine ⟨⟨fun hf => h.used hf, fun {t i} ht hp => ?_, fun {t i} ht hp => ?_, fun {t i} ht hp hg => ?_⟩, fun hf => hf,
    fun hf => Or.inl hf, fun {t k i} ht _ _ _ => ?_, fun {t k i} ht _ hp => ?_, fun {t i} ht => Or.inl ?_, fun _ hu => hu,
    rfl, rfl⟩
  · rw [hrow ht] at hp ⊢; exact h.pml4 ht hp
  · rw [hrow ht] at hp ⊢; exact h.pdpt ht hp
  · rw [hrow ht] at hp hg ⊢; exact h.pd ht hp hg
  · rw [hrow ht]; exact Same.refl _
  · rw [hrow ht]; exact hp
  · rw [hrow ht]

/-- a level for an empty table, and a link to it -/
theorem Soft.ofNew {c k : ℕ} {e : U64} (h : Levels lv m) (ht : lv t = some (k + 1)) (h0 : present (m.mem t i) = false)
    (hc : lv c = none) (hu : used m c = true) (hz : ∀ j, m.mem c j = 0) (hkc : entryToKptr e = c) (hh : huge e = false) :
    Levels (Function.update lv c (some k)) (m.store t i e) ∧
      (∀ {f l}, lv f = some l → Function.update lv c (some k) f = some l) ∧
      (∀ {f l j}, lv f = some l → present (m.mem f j) = true → (m.store t i e).mem f j = m.mem f j) ∧
      (∀ {f j}, lv f = some 0 → (m.store t i e).mem f j = m.mem f j) := by
  have hct : c ≠ t := by
    rintro rfl
    rw [hc] at ht
    cases ht
  have hold : ∀ {f l}, lv f = some l → Function.update lv c (some k) f = some l := by
    intro f l hf
    rw [Function.update_of_ne]
    · exact hf
    rintro rfl
    rw [hc] at hf
    cases hf
  -- an entry of the new table is absent, the new link leads to it, every other entry is old
  have hcases : ∀ {f l j}, Function.update lv c (some k) f = some l → present ((m.store t i e).mem f j) = true →
      (l = k + 1 ∧ f = t ∧ (m.store t i e).mem f j = e) ∨
        (lv f = some l ∧ (m.store t i e).mem f j = m.mem f j) := by
    intro f l j hf hp
    by_cases hfj : f = t ∧ j = i
    · obtain ⟨rfl, rfl⟩ := hfj
      rw [hold ht] at hf
      cases hf
      exact Or.inl ⟨rfl, rfl, store_self _ _ _ _⟩
    · rw [store_of_ne hfj] at hp ⊢
      by_cases hfc : f = c
      · rw [hfc, hz] at hp; cases hp
      · rw [Function.update_of_ne hfc] at hf
        exact Or.inr ⟨hf, rfl⟩
  refine ⟨⟨fun {f l} hf => ?_, fun {f j} hf hp => ?_, fun {f j} hf hp => ?_, fun {f j} hf hp hg => ?_⟩, hold,
    fun {f l j} hf hp => store_of_ne ?_, fun {f j} hf => store_of_ne ?_⟩
  · show used m f = true
    by_cases hfc : f = c
    · rw [hfc]; exact hu
    · rw [Function.update_of_ne hfc] at hf; exact h.used hf
  · rcases hcases hf hp with ⟨hl, -, he⟩ | ⟨hf, he⟩
    · rw [he, hkc, Function.update_self, show k = 2 by omega]
    · rw [he] at hp ⊢; exact hold (h.pml4 hf hp)
  · rcases hcases hf hp with ⟨hl, -, he⟩ | ⟨hf, he⟩
    · rw [he, hkc, Function.update_self, show k = 1 by omega]
      exact ⟨hh, rfl⟩
    · rw [he] at hp ⊢; exact ⟨(h.pdpt hf hp).1, hold (h.pdpt hf hp).2⟩
  · rcases hcases hf hp with ⟨hl, -, he⟩ | ⟨hf, he⟩
    · rw [he, hkc, Function.update_self, show k = 0 by omega]
    · rw [he] at hp hg ⊢; exact hold (h.pd hf hp hg)
  · rintro ⟨rfl, rfl⟩
    rw [h0] at hp
    cases hp
  · rintro ⟨rfl, rfl⟩
    rw [ht] at hf
    cases hf

/-- **One level down, at any address.** -/
theorem ensureTable_soft {c k : ℕ} (h : Levels lv m) (ht : lv t = some (k + 1)) (hk : k < 3) (hfl : Flags fl)
    (hh : huge fl = false) (hn : k = 0 → present (m.mem t i) = true → huge (m.mem t i) = false)
    (he : ensureTable m t i fl = some (c, m')) :
    ∃ lv', Soft P lv m lv' m' ∧ lv' c = some k ∧ child (m'.mem t i) = some c ∧
      (k = 0 → huge (m'.mem t i) = false) := by
  unfold ensureTable at he
  split_ifs at he with h0
  · rw [absent_iff] at h0
    obtain ⟨⟨a, m1⟩, ha, hres⟩ := Option.map_eq_some_iff.1 he
    have s1 : Soft P lv m lv m1 := Soft.ofAlloc h ha
    obtain ⟨f, rfl, hlt, hfree, hm1, hu, -⟩ := alloc_spec ha
    simp only [frameOf_addrOf hlt] at hres
    have hlf : lv f = none := by
      cases hl : lv f with
      | none => rfl
      | some l =>
        rw [h.used hl] at hfree
        cases hfree
    have hft : t ≠ f := by
      rintro rfl
      rw [hlf] at ht
      cases ht
    have s2 : Soft P lv m lv (m1.fill f fun _ => 0) := s1.trans (Soft.ofFill s1.levels hlf _)
    have hmt : (m1.fill f fun _ => 0).mem t i = m.mem t i := by rw [fill_mem, if_neg hft, hm1]
    have hkc : entryToKptr (addrOf f ||| fl ||| PRESENT) = f := kptr_table hlt hfl
    have hpr : present (addrOf f ||| fl ||| PRESENT) = true := present_table _
    have hhu : huge (addrOf f ||| fl ||| PRESENT) = false := huge_table hlt hh
    have huf : used (m1.fill f fun _ => 0) f = true := by
      show used m1 f = true
      rw [hu]
      simp
    obtain ⟨hl', hold, hkeep, hleaf⟩ := Soft.ofNew s2.levels ht (by rw [hmt]; exact h0) hlf huf
      (fun j => by rw [fill_mem, if_pos rfl]) hkc hhu
    simp only [store_self, hkc, Prod.mk.injEq] at hres
    obtain ⟨rfl, rfl⟩ := hres
    have hrow : ∀ {g l}, lv g = some l → (m1.fill f fun _ => 0).mem g = m.mem g := by
      intro g l hg
      rw [fill_mem, if_neg, hm1]
      rintro rfl
      rw [hlf] at hg
      cases hg
    have hstay : ∀ {g l j}, lv g = some l → present (m.mem g j) = true →
        ((m1.fill f fun _ => 0).store t i (addrOf f ||| fl ||| PRESENT)).mem g j = m.mem g j := by
      intro g l j hg hp
      rw [hkeep hg (by rw [hrow hg]; exact hp), hrow hg]
    refine ⟨Function.update lv f (some k), ⟨hl', hold, fun {g l} hg => ?_, fun {g l j} hg _ hp _ => Same.of_eq (hstay hg hp),
      fun {g l j} hg _ hp => by rw [hstay hg hp]; exact hp, fun {g j} hg => Or.inl (by rw [hleaf hg, hrow hg]),
      s2.used_mono, s2.cr3, s2.freed⟩, Function.update_self .., ?_, ?_⟩
    · by_cases hgf : g = f
      · rw [hgf]; exact Or.inr hfree
      · rw [Function.update_of_ne hgf] at hg; exact Or.inl hg
    · rw [store_self]; exact child_some.2 ⟨hpr, hkc⟩
    · rw [store_self]; exact fun _ => hhu
  · have h1 : present (m.mem t i) = true := by rw [absent_iff] at h0; simpa using h0
    have hs := widen_same (m.mem t i) fl
    have hl : lv (entryToKptr (m.mem t i)) = some k := by
      have hk' : k = 0 ∨ k = 1 ∨ k = 2 := by omega
      rcases hk' with rfl | rfl | rfl
      · exact h.pd ht h1 (hn rfl h1)
      · exact (h.pdpt ht h1).2
      · exact h.pml4 ht h1
    cases he
    rw [store_self]
    exact ⟨lv, Soft.ofLink h ht (Nat.succ_ne_zero k) hs, by rw [kptr_widen]; exact hl,
      child_some.2 ⟨hs.1.trans h1, rfl⟩, fun h0 => by rw [huge_widen]; exact hn h0 h1⟩

/-- the flags `map_into` gives to the tables on the way -/
theorem intermediate_flags (fl : U64) :
    Flags (if fl &&& USER ≠ 0 then PRESENT ||| WRITABLE ||| USER else PRESENT ||| WRITABLE) ∧
      huge (if fl &&& USER ≠ 0 then PRESENT ||| WRITABLE ||| USER else PRESENT ||| WRITABLE) = false := by
  split_ifs <;> decide

/-- **Map at any address.** Whatever the page was, it has a page table and the new entry afterwards. -/
theorem mapInto_any (phys : U64) (h : Levels lv m) (hr : lv r = some 3) (hfl : UserEntry fl)
    (hm : mapInto m r v phys fl = some m') : ∃ lv', Soft UserEntry lv m lv' m' ∧ Settled UserEntry m'.mem r v := by
  unfold mapInto at hm
  simp only [bind, Option.bind_eq_some_iff, pure, Option.some.injEq] at hm
  obtain ⟨⟨t3, m1⟩, e1, ⟨t2, m2⟩, e2, m3, hs, ⟨t1, m4⟩, e4, rfl⟩ := hm
  have hw := intermediate_flags fl
  generalize (if fl &&& USER ≠ 0 then PRESENT ||| WRITABLE ||| USER else PRESENT ||| WRITABLE) = w at e1 e2 e4 hw
  obtain ⟨lv1, s1, l3, c3, -⟩ := ensureTable_soft (P := UserEntry) h hr (by decide) hw.1 hw.2 (fun hk => by cases hk) e1
  obtain ⟨lv2, s2, l2, c2, -⟩ := ensureTable_soft (P := UserEntry) s1.levels l3 (by decide) hw.1 hw.2
    (fun hk => by cases hk) e2
  obtain ⟨lv3, s3, -, hg3⟩ := splitIfHuge_soft (P := UserEntry) s2.levels l2 hs
  obtain ⟨lv4, s4, l1, c1, g1⟩ := ensureTable_soft (P := UserEntry) s3.levels (s3.mono l2) (by decide) hw.1 hw.2
    (fun _ => hg3) e4
  have s5 : Soft UserEntry lv4 m4 lv4 (m4.store t1 (tableIdx v 12) ((phys &&& ~~~0xFFF#64) ||| fl)) :=
    Soft.ofLeaf s4.levels l1 (hfl.or _)
  -- the way down, as it was left at each level
  have hpd2 : toPd m2.mem r v = some t2 := by
    have hl3 := s2.link (s1.mono hr) (by decide) (child_some.1 c3).1 fun hk => by cases hk
    exact toPd_some.2 ⟨t3, child_some.2 ⟨hl3.1.trans (child_some.1 c3).1,
      (hl3.2 (child_some.1 c3).1).1.trans (child_some.1 c3).2⟩, c2⟩
  have hpd4 := s4.keeps_pd s3.levels (s3.mono (s2.mono (s1.mono hr)))
    (s3.keeps_pd s2.levels (s2.mono (s1.mono hr)) hpd2)
  have hpt4 : toPt m4.mem r v = some t1 := toPt_some.2 ⟨t2, hpd4, g1 rfl, c1⟩
  refine ⟨lv4, (((s1.trans s2).trans s3).trans s4).trans s5, t1, ?_, ?_⟩
  · exact s5.keeps_pt s4.levels (s4.mono (s3.mono (s2.mono (s1.mono hr)))) hpt4
  · show UserEntry ((m4.store t1 (tableIdx v 12) _).mem t1 (tableIdx v 12))
    rw [store_self]
    exact hfl.or _

/-- **Protect at any address.** -/
theorem protect_soft (h : Levels lv m) (hr : lv (getPml4 m) = some 3) (hfl : UserEntry fl)
    (hm : protect m v fl = some m') :
    ∃ lv', Soft UserEntry lv m lv' m' ∧ (virtToPhys m v ≠ 0 → Settled UserEntry m'.mem (getPml4 m) v) := by
  unfold protect at hm
  by_cases h0 : virtToPhys m v = 0
  · rw [h0] at hm
    cases hm
    exact ⟨lv, Soft.refl h, fun hn => absurd h0 hn⟩
  · simp only [if_neg h0] at hm
    obtain ⟨lv', s, hset⟩ := mapInto_any _ h hr hfl hm
    exact ⟨lv', s, fun _ => hset⟩

end Soft

end Retux.Vmm
