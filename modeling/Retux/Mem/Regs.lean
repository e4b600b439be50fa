/-
The memory manager does not write the registers: whatever it does to the tables, and whatever state they are in, CR3 and
the captured kernel PML4 stay. `Regs.fold` and `Regs.foldM` carry this through the loops, one lemma per function.
-/
import Mathlib.Tactic
import Retux.Mem.Spaces

namespace Retux.Vmm

open Retux.Word Retux.Pmm

/-- CR3 and `g_kernel_pml4` are the same -/
def Regs (m m' : Machine) : Prop := m'.cr3 = m.cr3 ∧ m'.gKernelPml4 = m.gKernelPml4

variable {α : Type} {m m' : Machine}

theorem Regs.refl (m : Machine) : Regs m m := ⟨rfl, rfl⟩

theorem Regs.trans {m1 : Machine} (h : Regs m m1) (h' : Regs m1 m') : Regs m m' :=
  ⟨h'.1.trans h.1, h'.2.trans h.2⟩

theorem Regs.fold {f : Machine → α → Machine} (hf : ∀ m a, Regs m (f m a)) (l : List α) (m : Machine) :
    Regs m (l.foldl f m) := by
  induction l generalizing m with
  | nil => exact Regs.refl m
  | cons a l ih => exact (hf m a).trans (ih (f m a))

theorem Regs.foldM {f : Machine → α → Option Machine} (hf : ∀ m a m', f m a = some m' → Regs m m') {l : List α}
    (h : l.foldlM f m = some m') : Regs m m' := by
  induction l generalizing m with
  | nil =>
    cases h
    exact Regs.refl _
  | cons a l ih =>
    rw [List.foldlM_cons] at h
    obtain ⟨m1, h1, h2⟩ := Option.bind_eq_some_iff.1 h
    exact (hf m a m1 h1).trans (ih h2)

/-! ## Editing -/

theorem allocFrame_regs {a : U64} (h : m.allocFrame = some (a, m')) : Regs m m' := by
  obtain ⟨r, -, heq⟩ := Option.map_eq_some_iff.1 h
  cases heq
  exact ⟨rfl, rfl⟩

theorem ensureTable_regs {t c : ℕ} {i : Idx} {fl : U64} (h : ensureTable m t i fl = some (c, m')) : Regs m m' := by
  unfold ensureTable at h
  split_ifs at h
  · obtain ⟨⟨a, m1⟩, h1, heq⟩ := Option.map_eq_some_iff.1 h
    cases heq
    exact (allocFrame_regs h1 :)
  · cases h
    exact ⟨rfl, rfl⟩

theorem splitIfHuge_regs {pd : ℕ} {i : Idx} (h : splitIfHuge m pd i = some m') : Regs m m' := by
  unfold splitIfHuge at h
  split_ifs at h
  · obtain ⟨⟨a, m1⟩, h1, heq⟩ := Option.map_eq_some_iff.1 h
    cases heq
    exact (allocFrame_regs h1 :)
  · cases h
    exact Regs.refl m

theorem mapInto_regs {pml4 : ℕ} {v p fl : U64} (h : mapInto m pml4 v p fl = some m') : Regs m m' := by
  unfold mapInto at h
  simp only [bind, Option.bind_eq_some_iff, pure, Option.some.injEq] at h
  obtain ⟨⟨pdpt, m1⟩, h1, ⟨pd, m2⟩, h2, m3, h3, ⟨pt, m4⟩, h4, rfl⟩ := h
  have h12 := (ensureTable_regs h1).trans (ensureTable_regs h2)
  have h34 := (splitIfHuge_regs h3).trans (ensureTable_regs h4)
  exact h12.trans (h34.trans ⟨rfl, rfl⟩)

theorem mapFresh_regs {v fl a : U64} (h : mapFresh m v fl = some (a, m')) : Regs m m' := by
  unfold mapFresh at h
  simp only [bind, Option.bind_eq_some_iff, pure, Option.some.injEq, Prod.mk.injEq] at h
  obtain ⟨⟨b, m1⟩, h1, m2, h2, -, rfl⟩ := h
  exact (allocFrame_regs h1).trans (mapInto_regs h2)

theorem protect_regs {v fl : U64} (h : protect m v fl = some m') : Regs m m' := by
  unfold protect at h
  simp only at h
  split_ifs at h
  · cases h
    exact Regs.refl m
  · exact mapInto_regs h

theorem unmap_regs {v : U64} (h : unmap m v = some m') : Regs m m' := by
  unfold unmap at h
  simp only [bind] at h
  split_ifs at h
  · cases h
    exact Regs.refl m
  · cases h
    exact Regs.refl m
  · obtain ⟨m1, h1, h2⟩ := Option.bind_eq_some_iff.1 h
    split_ifs at h2
    · cases h2
      exact splitIfHuge_regs h1
    · cases h2
      exact (splitIfHuge_regs h1).trans ⟨rfl, rfl⟩

theorem unmapAndFree_regs {v : U64} (h : unmapAndFree m v = some m') : Regs m m' := by
  obtain ⟨m1, h1, rfl⟩ := Option.map_eq_some_iff.1 h
  refine (unmap_regs h1).trans ?_
  split_ifs
  · exact Regs.refl m1
  · exact ⟨rfl, rfl⟩

/-! ## Address spaces -/

theorem createPd_regs {t k : ℕ} {i : Idx} (h : createPd t k m i = some m') : Regs m m' := by
  unfold createPd at h
  split_ifs at h
  · cases h
    exact Regs.refl m
  · obtain ⟨⟨a, m1⟩, h1, rfl⟩ := Option.map_eq_some_iff.1 h
    exact (allocFrame_regs h1).trans ⟨rfl, rfl⟩

theorem createAddressSpace_regs {a : U64} (h : createAddressSpace m = some (a, m')) : Regs m m' := by
  unfold createAddressSpace at h
  simp only [bind, Option.bind_eq_some_iff, pure, Option.some.injEq, Prod.mk.injEq] at h
  obtain ⟨⟨r, m1⟩, h1, ⟨t, m2⟩, h2, m3, h3, -, rfl⟩ := h
  have hlow : Regs m2 m3 := by
    unfold createLow at h3
    split_ifs at h3
    · cases h3
      exact ⟨rfl, rfl⟩
    · have hfold := Regs.foldM (fun _ _ _ hi => createPd_regs hi) h3
      exact hfold
  have h12 := allocFrame_regs h2
  have h13 : Regs m1 m3 := Regs.trans h12 hlow
  exact ((allocFrame_regs h1).trans h13 :)

theorem clonePt_regs {d s : ℕ} {i4 i3 i2 : Idx} (h : clonePt d s i4 i3 i2 m = some m') : Regs m m' := by
  refine Regs.foldM (fun m i m' hi => ?_) h
  split_ifs at hi
  · cases hi
    exact Regs.refl m
  · unfold cloneLeaf at hi
    simp only [bind, Option.bind_eq_some_iff] at hi
    obtain ⟨⟨a, m1⟩, h1, h2⟩ := hi
    have h12 : Regs m1 _ := (mapInto_regs h2 :)
    exact (allocFrame_regs h1).trans h12

theorem cloneSlot0_regs {d s : ℕ} (h : cloneSlot0 d s m = some m') : Regs m m' := by
  unfold cloneSlot0 at h
  simp only at h
  split_ifs at h
  · cases h
    exact Regs.refl m
  · cases h
    exact Regs.refl m
  · refine Regs.foldM (fun m i m' hi => ?_) h
    split_ifs at hi
    · cases hi
      exact Regs.refl m
    · cases hi
      exact Regs.refl m
    · exact clonePt_regs hi

theorem clonePdpt_regs {d s : ℕ} {i4 : Idx} (h : clonePdpt d s i4 m = some m') : Regs m m' := by
  refine Regs.foldM (fun m i3 m' hi => ?_) h
  split_ifs at hi
  · cases hi
    exact Regs.refl m
  · refine Regs.foldM (fun m i2 m' hj => ?_) hi
    split_ifs at hj
    · cases hj
      exact Regs.refl m
    · exact clonePt_regs hj

theorem cloneAddressSpace_regs {d s : U64} (h : cloneAddressSpace d s m = some m') : Regs m m' := by
  unfold cloneAddressSpace at h
  simp only [bind, Option.bind_eq_some_iff] at h
  obtain ⟨m1, h1, h2⟩ := h
  refine (cloneSlot0_regs h1).trans (Regs.foldM (fun m i4 m' hi => ?_) h2)
  split_ifs at hi
  · cases hi
    exact Regs.refl m
  · cases hi
    exact Regs.refl m
  · exact clonePdpt_regs hi

theorem Regs.freeFrame {m1 : Machine} (h : Regs m m1) (a : U64) : Regs m (m1.freeFrame a) := h

theorem freeEntries_regs {below : Machine → U64 → Machine} (hb : ∀ m a, Regs m (below m a)) (m : Machine) (a : U64) :
    Regs m (freeEntries below m a) := by
  unfold freeEntries
  refine (Regs.fold (fun m i => ?_) _ m).freeFrame a
  split_ifs
  · exact Regs.refl m
  · exact hb m _

theorem freeTable_regs (k : ℕ) (m : Machine) (a : U64) : Regs m (freeTable k m a) := by
  induction k generalizing m a with
  | zero => exact freeEntries_regs (fun m a => (Regs.refl m).freeFrame a) m a
  | succ k ih => exact freeEntries_regs ih m a

theorem destroySlot0Pd_regs (i : Idx) (a : U64) (m : Machine) : Regs m (destroySlot0Pd i a m) := by
  unfold destroySlot0Pd
  refine Regs.freeFrame ?_ a
  split_ifs
  · refine Regs.fold (fun m j => ?_) _ m
    split_ifs
    · exact Regs.refl m
    · exact Regs.refl m
    · exact freeTable_regs 0 m _
  · exact Regs.refl m

theorem destroyPml4Slot0_regs (a : U64) (m : Machine) : Regs m (destroyPml4Slot0 a m) := by
  unfold destroyPml4Slot0
  refine (Regs.fold (fun m i => ?_) _ m).freeFrame a
  split_ifs
  · exact Regs.refl m
  · exact destroySlot0Pd_regs i _ m

theorem destroyAddressSpace_regs (a : U64) (m : Machine) : Regs m (destroyAddressSpace a m) := by
  unfold destroyAddressSpace
  have h0 : Regs m (if m.mem (frameOf (a &&& PHYS_MASK)) 0 &&& PRESENT = 0 then m else
      destroyPml4Slot0 (entryPhys (m.mem (frameOf (a &&& PHYS_MASK)) 0)) m) := by
    split_ifs
    · exact Regs.refl m
    · exact destroyPml4Slot0_regs _ m
  refine (h0.trans (Regs.fold (fun m i => ?_) _ _)).freeFrame _
  split_ifs
  · exact Regs.refl m
  · exact Regs.refl m
  · exact freeTable_regs 2 m _

end Retux.Vmm
