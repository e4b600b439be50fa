/-
What munmap and mprotect can reach.

Neither call checks its range. On a private page they edit the task's own tables; on a shared page that is not mapped
they do nothing; on a shared page that is mapped they write kernel tables and, in munmap, free a frame that is not the
task's. So a call stays inside the task exactly if its range has no mapped shared page.

The direct half runs on `Inv` (`munmap_good`, `mprotect_good`). The other half has to follow the call past its first
bad page, where `Inv` is gone: `Soft` says that the bad page stays as the call left it, unmapped or open to the user, as
long as no table is freed (`Tables`), and a freed table would itself be a frame that is not the task's.
-/
import Mathlib.Tactic
import Retux.Mem.Boot
import Retux.Mem.Levels
import Retux.Sys.Memory

namespace Retux.Sys

open Retux.Word Retux.Pmm Retux.Vmm Retux.Loop

/-! ## The property -/

/-- shared addresses translate as before, in every address space and in the kernel's own -/
def SharedKept (m m' : Machine) (rs : List ℕ) : Prop :=
  ∀ R, R ∈ rs ∨ R = frameOf m.gKernelPml4 → ∀ v, isPrivate v = false → translate m'.mem R v = translate m.mem R v

/-- the frames freed since m are leaves address space r had in m, each freed once -/
def FreedOwn (m m' : Machine) (r : ℕ) : Prop :=
  ∃ new, m'.freed = new ++ m.freed ∧ (new.map frameOf).Nodup ∧ ∀ a ∈ new, OwnedLeaf m r (frameOf a)

/-- a call returns, and keeps to the running task's own pages -/
def Contained (m : Machine) (rs : List ℕ) (call : Option Machine) : Prop :=
  ∃ m', call = some m' ∧ SharedKept m m' rs ∧ FreedOwn m m' (getPml4 m)

/-! ## Shared pages -/

section Shared

variable {L : Layout} {m : Machine} {r t : ℕ} {v : U64}

/-- below the PD of a shared address there is a supervisor 2 MiB page or a kernel page table -/
theorem shared_pd (h : Inv L m) (hr : L.own r = some (r, [])) (hv : isPrivate v = false) (ht : toPd m.mem r v = some t)
    (hp : present (m.mem t (tableIdx v 21)) = true) :
    huge (m.mem t (tableIdx v 21)) = true ∧ user (m.mem t (tableIdx v 21)) = false ∨
      huge (m.mem t (tableIdx v 21)) = false ∧ L.klv (entryToKptr (m.mem t (tableIdx v 21))) = some 0 := by
  have hnp : Priv (ptPath v) = false := by
    rw [← hv, ← priv_iff_isPrivate]; rfl
  obtain ⟨t3, hc3, hc2⟩ := toPd_some.1 ht
  obtain ⟨p4, rfl⟩ := child_some.1 hc3
  obtain ⟨p3, rfl⟩ := child_some.1 hc2
  cases hs : Priv [tableIdx v 39] with
  | false => exact h.kern.pd (h.kern.pdpt (h.shr_pml4 hr hs p4) p3).2 hp
  | true =>
    -- a private slot with a shared address is slot 0
    have h0 : tableIdx v 39 = 0 := by
      by_contra h0
      simp only [ptPath, Priv, h0, if_false] at hnp hs
      rw [hnp] at hs; cases hs
    have ho3 := h.down hr hs p4
    cases hp3 : Priv [tableIdx v 30, tableIdx v 39] with
    | true =>
      have ho2 := h.down ho3 hp3 p3
      unfold ptPath at hnp
      rw [h0] at ho2 hnp hp ⊢
      exact h.shr_pd ho2 hnp hp
    | false =>
      rw [h0] at ho3 hp3 p3
      rw [h.slot0_end ho3 (by simpa [Priv] using hp3)] at p3; cases p3

theorem user_leafFlags (e : U64) : user (leafFlags e) = user e := by
  unfold user leafFlags
  rw [BitVec.getLsbD_and, BitVec.getLsbD_not, PHYS_MASK, frameMask_bit]
  simp

/-- no shared page is open to the user -/
theorem shared_user (h : Inv L m) (hr : L.own r = some (r, [])) (hv : isPrivate v = false) {x fl : U64}
    (ht : translate m.mem r v = some (x, fl)) : user fl = false := by
  have hl := level_own h hr (by simp)
  obtain ⟨t, hpd, hp⟩ := h.levels.pd_of_mapped hl (by rw [ht]; simp)
  rw [h.levels.translate_pd hl hpd, if_neg (by simp [hp])] at ht
  rcases shared_pd h hr hv hpd hp with ⟨hg, hus⟩ | ⟨hg, hk⟩
  · rw [if_pos hg] at ht
    cases ht
    rw [user_leafFlags]; exact hus
  · rw [if_neg (by simp [hg])] at ht
    split_ifs at ht with hp1
    cases ht
    rw [user_leafFlags]; exact h.kern.pt_user hk (Bool.eq_true_of_not_eq_false hp1)

/-- unmapping a shared page that is not mapped does nothing -/
theorem unmapAndFree_shared (h : Inv L m) (hr : L.own (getPml4 m) = some (getPml4 m, [])) (hv : isPrivate v = false)
    (hn : translate m.mem (getPml4 m) v = none) : unmapAndFree m v = some m := by
  have hphys : virtToPhys m v = 0 := by rw [virtToPhys_eq, hn]; rfl
  have hun : unmap m v = some m := by
    rw [unmap_eq]
    cases ht : toPd m.mem (getPml4 m) v with
    | none => rfl
    | some t =>
      have htr := h.levels.translate_pd (level_own h hr (by simp)) ht
      rw [hn] at htr
      cases hp : present (m.mem t (tableIdx v 21)) with
      | false =>
        have hns : splitIfHuge m t (tableIdx v 21) = some m := by
          unfold splitIfHuge
          rw [isHuge_eq, hp]; rfl
        simp only [hns, Option.bind_some, hp, if_true]
      | true =>
        rcases shared_pd h hr hv ht hp with ⟨hg, -⟩ | ⟨hg, hk⟩
        · rw [if_neg (by simp [hp]), if_pos hg] at htr; cases htr
        · have hns : splitIfHuge m t (tableIdx v 21) = some m := by
            unfold splitIfHuge
            rw [isHuge_eq, hg, Bool.and_false]; rfl
          rw [if_neg (by simp [hp]), if_neg (by simp [hg])] at htr
          split_ifs at htr with hp1
          have hz := h.kern.pt_zero hk hp1
          simp only [hns, Option.bind_some, hp, Bool.true_eq_false, if_false, ← hz, Machine.store,
            Function.update_eq_self]
  unfold unmapAndFree
  rw [hun, hphys]; rfl

end Shared

/-! ## Calls that stay inside -/

section Good

variable {L L1 : Layout} {m m1 : Machine} {rs : List ℕ} {X : Set ℕ} {new : List U64} {v fl : U64}

/-- the state of a call that has kept to the task's own pages so far -/
structure Inside (L : Layout) (m : Machine) (L1 : Layout) (m1 : Machine) : Prop where
  inv : Inv L1 m1
  keeps : Keeps (getPml4 m) L m L1 m1
  cr3 : m1.cr3 = m.cr3

theorem Inside.start (h : Inv L m) : Inside L m L m := ⟨h, Keeps.refl _ _ _, rfl⟩

theorem Inside.pml4 (g : Inside L m L1 m1) : getPml4 m1 = getPml4 m := by rw [getPml4, g.cr3]; rfl

theorem Inside.root (g : Inside L m L1 m1) (hr : L.own (getPml4 m) = some (getPml4 m, [])) :
    L1.own (getPml4 m1) = some (getPml4 m1, []) := by
  rw [g.pml4]; exact g.keeps.tbl hr (by simp)

/-- a shared address translates as before -/
theorem Inside.shared (g : Inside L m L1 m1) (h : Inv L m) (hr : L.own (getPml4 m) = some (getPml4 m, []))
    (hv : isPrivate v = false) : translate m1.mem (getPml4 m1) v = translate m.mem (getPml4 m) v := by
  rw [g.pml4]; exact keeps_shared h g.keeps hr hv

theorem Inside.sharedKept (g : Inside L m L1 m1) (hh : History L m rs X) (hr : getPml4 m ∈ rs) :
    SharedKept m m1 rs := by
  rintro R (hR | rfl) v hv
  · by_cases hRr : R = getPml4 m
    · subst hRr
      exact keeps_shared hh.inv g.keeps ((hh.roots _).1 hr) hv
    · exact keeps_other hh.inv g.keeps ((hh.roots _).1 hR) hRr
  · exact keeps_kernel hh.inv g.keeps

/-- the leaves munmap has freed so far: exactly those that lost their owner -/
structure Freeing (L : Layout) (m : Machine) (L1 : Layout) (m1 : Machine) (new : List U64) : Prop where
  freed : m1.freed = new ++ m.freed
  nodup : (new.map frameOf).Nodup
  leaf : ∀ a ∈ new, (∃ p, p.length = 4 ∧ L.own (frameOf a) = some (getPml4 m, p)) ∧ L1.own (frameOf a) = none
  old : ∀ {f x}, L1.own f = some x → L.own f = some x
  gone : ∀ {f p}, p.length = 4 → L.own f = some (getPml4 m, p) → L1.own f = none → f ∈ new.map frameOf

theorem Freeing.start : Freeing L m L m [] :=
  ⟨rfl, List.nodup_nil, by simp, fun hf => hf, fun _ ho hn => by rw [ho] at hn; cases hn⟩

/-- one page of munmap: a private one, or one that is not mapped -/
theorem Inside.unmap (g : Inside L m L1 m1) (w : Freeing L m L1 m1 new) (h : Inv L m)
    (hr : L.own (getPml4 m) = some (getPml4 m, [])) (hv : isPrivate v = false → translate m.mem (getPml4 m) v = none) :
    ∃ L2 m2 new2, unmapAndFree m1 v = some m2 ∧ Inside L m L2 m2 ∧ Freeing L m L2 m2 new2 := by
  have hr1 := g.root hr
  cases hp : isPrivate v with
  | false => exact ⟨L1, m1, new, unmapAndFree_shared g.inv hr1 hp ((g.shared h hr hp).trans (hv hp)), g, w⟩
  | true =>
    obtain ⟨L2, m2, hm, hi, hk, hcr, hown, -, hfreed⟩ := unmapAndFree_spec g.inv hr1 hp
    rw [g.pml4] at hk hown hfreed
    have g2 : Inside L m L2 m2 := ⟨hi, g.keeps.trans hk, hcr.trans g.cr3⟩
    have hold : ∀ {f x}, L2.own f = some x → L1.own f = some x := by
      intro f x hf
      rw [hown] at hf
      split_ifs at hf
      exact hf
    rcases hfreed with ⟨hf, hno⟩ | ⟨c, a, hc, rfl, hf⟩
    · have hsame : ∀ f, L2.own f = L1.own f := fun f => by rw [hown, if_neg (hno f)]
      refine ⟨L2, m2, new, hm, g2, hf.trans w.freed, w.nodup, fun a ha => ?_, fun hf => w.old (hold hf), fun hl ho hn => ?_⟩
      · rw [hsame]; exact w.leaf a ha
      · rw [hsame] at hn; exact w.gone hl ho hn
    · -- the page's leaf is freed; it was a leaf when the call began, and has not been freed before
      refine ⟨L2, m2, a :: new, hm, g2, by rw [hf, w.freed]; rfl, ?_, fun b hb => ?_, fun hf => w.old (hold hf),
        fun {f p} hl ho hn => ?_⟩
      · rw [List.map_cons, List.nodup_cons]
        refine ⟨fun hmem => ?_, w.nodup⟩
        obtain ⟨b, hb, hba⟩ := List.mem_map.1 hmem
        have := (w.leaf b hb).2
        rw [hba, hc] at this; cases this
      · rcases List.mem_cons.1 hb with rfl | hb
        · exact ⟨⟨pathOf v, rfl, w.old hc⟩, by rw [hown, if_pos hc]⟩
        · obtain ⟨h1, h2⟩ := w.leaf b hb
          refine ⟨h1, ?_⟩
          rw [hown, h2]; simp
      · rw [List.map_cons, List.mem_cons]
        rw [hown] at hn
        split_ifs at hn with hq
        · exact Or.inl (g.inv.tree.unique hq hc)
        · exact Or.inr (w.gone hl ho hn)

/-- **munmap of private pages and of shared pages that are not mapped.** -/
theorem munmap_good (h : Inv L m) (hr : L.own (getPml4 m) = some (getPml4 m, [])) (l : List U64)
    (hl : ∀ v ∈ l, isPrivate v = false → translate m.mem (getPml4 m) v = none) :
    ∃ L2 m2 new, l.foldlM unmapAndFree m = some m2 ∧ Inside L m L2 m2 ∧ Freeing L m L2 m2 new := by
  have hrun : Runs True (l.foldlM unmapAndFree m) fun m2 => ∃ L2 new, Inside L m L2 m2 ∧ Freeing L m L2 m2 new := by
    refine Runs.foldlM (P := fun _ m2 => ∃ L2 new, Inside L m L2 m2 ∧ Freeing L m L2 m2 new)
      ⟨L, [], Inside.start h, Freeing.start⟩ ?_
    rintro done v m1 hpre ⟨L1, new, g, w⟩
    obtain ⟨L2, m2, new2, hm, g2, w2⟩ := g.unmap w h hr (hl v (hpre.subset (by simp)))
    rw [hm]
    exact Runs.pure ⟨L2, new2, g2, w2⟩
  obtain ⟨m2, hm⟩ := hrun.returns trivial
  obtain ⟨L2, new, g, w⟩ := hrun.post hm
  exact ⟨L2, m2, new, hm, g, w⟩

/-- a mapped private page has a page table -/
theorem private_pt (h : Inv L m) {r : ℕ} (hr : L.own r = some (r, [])) (hv : isPrivate v = true)
    (ht : translate m.mem r v ≠ none) : toPt m.mem r v ≠ none := by
  obtain ⟨t, hot, -⟩ := (translate_isSome_iff h hr hv).1 (Option.isSome_iff_ne_none.2 ht)
  obtain ⟨t3, t2, -, -, hc4, hc3, hc2, -, hg2⟩ := h.walk_to_pt hv hot
  rw [toPt_some.2 ⟨t2, toPd_some.2 ⟨t3, hc4, hc3⟩, hg2, hc2⟩]
  simp

/-- one page of mprotect -/
theorem Inside.protect (g : Inside L m L1 m1) (h : Inv L m) (hr : L.own (getPml4 m) = some (getPml4 m, []))
    (hfl : LeafFlags fl ∧ user fl = true) (hv : isPrivate v = false → virtToPhys m v = 0) :
    ∃ L2 m2, protect m1 v fl = some m2 ∧ Inside L m L2 m2 ∧ m2.freed = m1.freed := by
  have hr1 := g.root hr
  cases hp : isPrivate v with
  | false =>
    refine ⟨L1, m1, ?_, g, rfl⟩
    have h0 : virtToPhys m1 v = 0 := by rw [virtToPhys_eq, g.shared h hr hp, ← virtToPhys_eq]; exact hv hp
    unfold Vmm.protect
    rw [h0]; rfl
  | true =>
    have hret : ∃ m2, Vmm.protect m1 v fl = some m2 := by
      unfold Vmm.protect
      by_cases h0 : virtToPhys m1 v = 0
      · exact ⟨m1, by rw [h0]; rfl⟩
      · have hne : translate m1.mem (getPml4 m1) v ≠ none := by
          intro hn
          rw [virtToPhys_eq, hn] at h0
          exact h0 rfl
        obtain ⟨m2, hm⟩ := mapInto_over (virtToPhys m1 v) g.inv.levels (level_own g.inv hr1 (by simp))
          (private_pt g.inv hr1 hp hne)
        exact ⟨m2, by simp only [if_neg h0]; exact hm⟩
    obtain ⟨m2, hm⟩ := hret
    rcases protect_spec g.inv hr1 hp hfl.1.1 hfl.1.2.1 hfl.1.2.2 hm with ⟨-, rfl⟩ | ⟨L2, c, -, w, -⟩
    · exact ⟨L1, m2, hm, g, rfl⟩
    · have hk := w.keeps
      rw [g.pml4] at hk
      exact ⟨L2, m2, hm, ⟨w.inv, g.keeps.trans hk, w.rest.1.trans g.cr3⟩, w.rest.2.2⟩

/-- **mprotect of private pages and of shared pages that are not mapped.** -/
theorem mprotect_good (h : Inv L m) (hr : L.own (getPml4 m) = some (getPml4 m, [])) (hfl : LeafFlags fl ∧ user fl = true)
    (l : List U64) (hl : ∀ v ∈ l, isPrivate v = false → virtToPhys m v = 0) :
    ∃ L2 m2, l.foldlM (fun m v => protect m v fl) m = some m2 ∧ Inside L m L2 m2 ∧ m2.freed = m.freed := by
  have hrun : Runs True (l.foldlM (fun m v => protect m v fl) m) fun m2 =>
      ∃ L2, Inside L m L2 m2 ∧ m2.freed = m.freed := by
    refine Runs.foldlM (P := fun _ m2 => ∃ L2, Inside L m L2 m2 ∧ m2.freed = m.freed) ⟨L, Inside.start h, rfl⟩ ?_
    rintro done v m1 hpre ⟨L1, g, hf⟩
    obtain ⟨L2, m2, hm, g2, hf2⟩ := g.protect h hr hfl (hl v (hpre.subset (by simp)))
    simp only [hm]
    exact Runs.pure ⟨L2, g2, hf2.trans hf⟩
  obtain ⟨m2, hm⟩ := hrun.returns trivial
  obtain ⟨L2, g, hf⟩ := hrun.post hm
  exact ⟨L2, m2, hm, g, hf⟩

end Good

/-! ## Calls that do not -/

section Bad

variable {A : Set ℕ} {base new new' : List U64} {lv : ℕ → Option ℕ} {L : Layout} {m m' : Machine} {r : ℕ} {v w fl : U64}

theorem used_freeFrame {f : ℕ} {a : U64} (hf : f ≠ frameOf a) (hu : used m f = true) :
    used (m.freeFrame a) f = true := by
  by_cases ha : frameOf a < MAX_FRAMES
  · have := freeFrame_isUsed m.pmm a ha f
    rw [show isUsed m.pmm.bitmap f = true from hu] at this
    exact this.trans (by simp [hf])
  · have : Pmm.freeFrame m.pmm a = m.pmm := by
      unfold Pmm.freeFrame
      rw [if_pos (Or.inl (Nat.le_of_not_lt ha))]
    unfold used Machine.freeFrame
    rw [this]; exact hu

/-- a log of frees of leaves in A, each freed once -/
def LogOk (A : Set ℕ) (new : List U64) : Prop := (new.map frameOf).Nodup ∧ ∀ a ∈ new, frameOf a ∈ A

theorem LogOk.suffix {more : List U64} (h : LogOk A (more ++ new)) : LogOk A new :=
  ⟨(List.nodup_append.1 (List.map_append ▸ h.1)).2.1, fun a ha => h.2 a (List.mem_append_right _ ha)⟩

/-- tables while frames are being freed: A are the task's leaves at the start. A table that was such a leaf has been
freed once already, so it is not freed again as long as the log stays good. -/
structure Tables (A : Set ℕ) (base : List U64) (lv : ℕ → Option ℕ) (m : Machine) (new : List U64) : Prop where
  levels : Levels lv m
  root : lv (getPml4 m) = some 3
  freed : m.freed = new ++ base
  table : ∀ {f k}, lv f = some k → f ∈ A → f ∈ new.map frameOf
  leaf : ∀ {f}, f ∈ A → used m f = true ∨ f ∈ new.map frameOf

theorem Tables.soft {P : U64 → Prop} {lv' : ℕ → Option ℕ} (h : Tables A base lv m new) (s : Soft P lv m lv' m') :
    Tables A base lv' m' new := by
  refine ⟨s.levels, ?_, s.freed.trans h.freed, fun {f k} hf hA => ?_, fun {f} hA => ?_⟩
  · rw [show getPml4 m' = getPml4 m by rw [getPml4, s.cr3]; rfl]; exact s.mono h.root
  · rcases s.fresh hf with hf | hu
    · exact h.table hf hA
    · rcases h.leaf hA with hu' | hn
      · rw [hu] at hu'; cases hu'
      · exact hn
  · rcases h.leaf hA with hu | hn
    · exact Or.inl (s.used_mono f hu)
    · exact Or.inr hn

theorem Tables.free {a : U64} (h : Tables A base lv m new) (hlog : LogOk A (a :: new)) :
    Tables A base lv (m.freeFrame a) (a :: new) := by
  have hnew : frameOf a ∉ new.map frameOf := (List.nodup_cons.1 (List.map_cons ▸ hlog.1)).1
  refine ⟨⟨fun {f k} hf => used_freeFrame ?_ (h.levels.used hf), h.levels.pml4, h.levels.pdpt, h.levels.pd⟩, h.root,
    ?_, fun {f k} hf hA => ?_, fun {f} hA => ?_⟩
  · rintro rfl
    exact hnew (h.table hf (hlog.2 a (by simp)))
  · show a :: m.freed = _
    rw [h.freed]; rfl
  · exact List.mem_cons_of_mem _ (h.table hf hA)
  · by_cases hfa : f = frameOf a
    · exact Or.inr (by rw [hfa]; simp)
    · rcases h.leaf hA with hu | hn
      · exact Or.inl (used_freeFrame hfa hu)
      · exact Or.inr (List.mem_cons_of_mem _ hn)

/-- the log only grows -/
theorem unmapAndFree_freed (hm : unmapAndFree m v = some m') : ∃ more, m'.freed = more ++ m.freed := by
  have hsplit : ∀ {t i m1}, splitIfHuge m t i = some m1 → m1.freed = m.freed := by
    intro t i m1 h1
    unfold splitIfHuge at h1
    split_ifs at h1
    · obtain ⟨⟨a, m2⟩, ha, rfl⟩ := Option.map_eq_some_iff.1 h1
      obtain ⟨-, -, -, -, hm2, -⟩ := alloc_spec ha
      rw [hm2]; rfl
    · cases h1; rfl
  unfold unmapAndFree at hm
  obtain ⟨m1, hu, hres⟩ := Option.map_eq_some_iff.1 hm
  have h1 : m1.freed = m.freed := by
    rw [unmap_eq] at hu
    cases ht : toPd m.mem (getPml4 m) v with
    | none =>
      rw [ht] at hu
      cases hu; rfl
    | some t =>
      simp only [ht] at hu
      obtain ⟨m2, h2, hu⟩ := Option.bind_eq_some_iff.1 hu
      have h2f := hsplit h2
      split_ifs at hu <;> cases hu <;> exact h2f
  split_ifs at hres
  · exact ⟨[], by rw [← hres, h1]; rfl⟩
  · exact ⟨[virtToPhys m v], by rw [← hres, ← h1]; rfl⟩

theorem munmap_freed (l : List U64) (hm : l.foldlM unmapAndFree m = some m') : ∃ more, m'.freed = more ++ m.freed := by
  induction l generalizing m with
  | nil => cases hm; exact ⟨[], rfl⟩
  | cons v l ih =>
    rw [List.foldlM_cons] at hm
    obtain ⟨m1, h1, hm⟩ := Option.bind_eq_some_iff.1 hm
    obtain ⟨more1, e1⟩ := unmapAndFree_freed h1
    obtain ⟨more2, e2⟩ := ih hm
    exact ⟨more2 ++ more1, by rw [e2, e1, List.append_assoc]⟩

/-- the log of a call that ends well was good all along -/
theorem LogOk.earlier (h : LogOk A new') (h1 : m.freed = new ++ base) (h2 : m'.freed = new' ++ base)
    (hm : ∃ more, m'.freed = more ++ m.freed) : LogOk A new := by
  obtain ⟨more, hmore⟩ := hm
  rw [h1, h2, ← List.append_assoc, List.append_left_inj] at hmore
  subst hmore
  exact h.suffix

/-- one page of munmap, in tables that have levels only -/
theorem Tables.unmap (h : Tables A base lv m new) (hm : unmapAndFree m v = some m') (hf : m'.freed = new' ++ base)
    (hlog : LogOk A new') :
    ∃ lv', Tables A base lv' m' new' ∧ getPml4 m' = getPml4 m ∧
      (∀ w, Settled (· = 0) m.mem (getPml4 m) w → Settled (· = 0) m'.mem (getPml4 m) w) ∧
      (translate m.mem (getPml4 m) v ≠ none → Settled (· = 0) m'.mem (getPml4 m) v) := by
  unfold unmapAndFree at hm
  obtain ⟨m1, hu, hres⟩ := Option.map_eq_some_iff.1 hm
  obtain ⟨lv', s, hv⟩ := unmap_soft h.levels h.root hu
  have hset := fun w hw => s.settled (v := w) h.levels h.root hw
  have hpml4 : getPml4 m1 = getPml4 m := by rw [getPml4, s.cr3]; rfl
  have h1 := h.soft s
  split_ifs at hres with h0
  · subst hres
    rw [h1.freed, List.append_left_inj] at hf
    exact ⟨lv', hf ▸ h1, hpml4, hset, hv⟩
  · subst hres
    have hf' : virtToPhys m v :: (new ++ base) = new' ++ base := by rw [← hf, ← h1.freed]; rfl
    rw [← List.cons_append, List.append_left_inj] at hf'
    subst hf'
    exact ⟨lv', h1.free hlog, hpml4, hset, hv⟩

/-- **A page munmap has cut off stays cut off**, if the log ends good. -/
theorem munmap_settled (l : List U64) (h : Tables A base lv m new) (hw : Settled (· = 0) m.mem (getPml4 m) w)
    (hm : l.foldlM unmapAndFree m = some m') (hf : m'.freed = new' ++ base) (hlog : LogOk A new') :
    translate m'.mem (getPml4 m) w = none := by
  induction l generalizing m lv new with
  | nil =>
    cases hm
    obtain ⟨t, ht, h0⟩ := hw
    rw [h.levels.translate_pt h.root ht, if_pos (by rw [h0]; rfl)]
  | cons v l ih =>
    rw [List.foldlM_cons] at hm
    obtain ⟨m1, h1, hm⟩ := Option.bind_eq_some_iff.1 hm
    obtain ⟨more1, e1⟩ := unmapAndFree_freed h1
    have e1' : m1.freed = (more1 ++ new) ++ base := by rw [e1, h.freed, List.append_assoc]
    obtain ⟨lv', h', hpml4, hset, -⟩ := h.unmap h1 e1' (hlog.earlier e1' hf (munmap_freed l hm))
    rw [← hpml4] at hset ⊢
    exact ih h' (hset w (by rw [hpml4]; exact hw)) hm

/-- a list with a bad element has a first one -/
theorem exists_first {α : Type} {p : α → Prop} {l : List α} (h : ∃ x ∈ l, p x) :
    ∃ pre x post, l = pre ++ x :: post ∧ p x ∧ ∀ y ∈ pre, ¬ p y := by
  classical
  cases hf : l.find? fun x => decide (p x) with
  | none =>
    obtain ⟨x, hx, hp⟩ := h
    exact absurd hp (by simpa using List.find?_eq_none.1 hf x hx)
  | some x =>
    obtain ⟨hx, pre, post, rfl, hpre⟩ := List.find?_eq_some_iff_append.1 hf
    exact ⟨pre, x, post, rfl, by simpa using hx, fun y hy => by simpa using hpre y hy⟩

/-- **munmap of a mapped shared page.** If it frees the task's leaves only, the first such page is no longer mapped. -/
theorem munmap_bad (h : Inv L m) (hr : L.own (getPml4 m) = some (getPml4 m, [])) (l : List U64)
    (hbad : ∃ v ∈ l, isPrivate v = false ∧ translate m.mem (getPml4 m) v ≠ none)
    (hm : l.foldlM unmapAndFree m = some m') (hown : FreedOwn m m' (getPml4 m)) :
    ∃ v, isPrivate v = false ∧ translate m'.mem (getPml4 m) v ≠ translate m.mem (getPml4 m) v := by
  obtain ⟨pre, v, post, rfl, ⟨hv, hmap⟩, hpre⟩ := exists_first hbad
  refine ⟨v, hv, ?_⟩
  obtain ⟨new', hf, hnd, hA⟩ := hown
  have hlog : LogOk {f | OwnedLeaf m (getPml4 m) f} new' := ⟨hnd, hA⟩
  rw [List.foldlM_append] at hm
  obtain ⟨m1, h1, hm⟩ := Option.bind_eq_some_iff.1 hm
  rw [List.foldlM_cons] at hm
  obtain ⟨m2, h2, hm⟩ := Option.bind_eq_some_iff.1 hm
  -- up to the bad page the call stays inside
  obtain ⟨L1, m1', new1, h1', g, w⟩ := munmap_good h hr pre fun y hy hyp => by
    by_contra hn
    exact hpre y hy ⟨hyp, hn⟩
  rw [h1] at h1'
  cases h1'
  have htab : Tables {f | OwnedLeaf m (getPml4 m) f} m.freed (level L1) m1 new1 := by
    refine ⟨g.inv.levels, level_own g.inv (g.root hr) (by simp), w.freed, fun {f k} hf hA => ?_, fun {f} hA => ?_⟩
    · obtain ⟨p, hl, ho⟩ := (ownedLeaf_iff h hr).1 hA
      rcases level_cases hf with hk | ⟨r', p', ho', hl', -⟩
      · rw [g.keeps.klv, h.klv_none ho] at hk; cases hk
      · have := w.old ho'
        rw [ho] at this
        cases this
        omega
    · obtain ⟨p, hl, ho⟩ := (ownedLeaf_iff h hr).1 hA
      cases ho1 : L1.own f with
      | none => exact Or.inr (w.gone hl ho ho1)
      | some x => exact Or.inl (g.inv.own_used ho1).1
  -- from there on its entry is zero
  obtain ⟨more2, e2⟩ := unmapAndFree_freed h2
  have e2' : m2.freed = (more2 ++ new1) ++ m.freed := by rw [e2, w.freed, List.append_assoc]
  obtain ⟨lv2, t2, hp2, -, hset⟩ := htab.unmap h2 e2' (hlog.earlier e2' hf (munmap_freed post hm))
  rw [g.pml4] at hp2
  have hset' := hset (by rw [g.shared h hr hv]; exact hmap)
  rw [g.pml4, ← hp2] at hset'
  have hnone := munmap_settled post t2 hset' hm hf hlog
  rw [hp2] at hnone
  rw [hnone]
  exact Ne.symm hmap

/-- mprotect of pages past the first bad one -/
theorem mprotect_soft (l : List U64) (h : Levels lv m) (hr : lv (getPml4 m) = some 3) (hfl : UserEntry fl)
    (hm : l.foldlM (fun m v => protect m v fl) m = some m') : ∃ lv', Soft UserEntry lv m lv' m' := by
  induction l generalizing m lv with
  | nil => cases hm; exact ⟨lv, Soft.refl h⟩
  | cons v l ih =>
    rw [List.foldlM_cons] at hm
    obtain ⟨m1, h1, hm⟩ := Option.bind_eq_some_iff.1 hm
    obtain ⟨lv1, s1, -⟩ := protect_soft h hr hfl h1
    have hp : getPml4 m1 = getPml4 m := by rw [getPml4, s1.cr3]; rfl
    obtain ⟨lv2, s2⟩ := ih s1.levels (by rw [hp]; exact s1.mono hr) hm
    exact ⟨lv2, s1.trans s2⟩

/-- **mprotect of a mapped shared page.** The first such page is open to the user when the call returns. -/
theorem mprotect_bad (h : Inv L m) (hr : L.own (getPml4 m) = some (getPml4 m, [])) (hfl : LeafFlags fl ∧ user fl = true)
    (l : List U64) (hbad : ∃ v ∈ l, isPrivate v = false ∧ virtToPhys m v ≠ 0)
    (hm : l.foldlM (fun m v => protect m v fl) m = some m') :
    ∃ v, isPrivate v = false ∧ translate m'.mem (getPml4 m) v ≠ translate m.mem (getPml4 m) v := by
  obtain ⟨pre, v, post, rfl, ⟨hv, hmap⟩, hpre⟩ := exists_first hbad
  refine ⟨v, hv, ?_⟩
  rw [List.foldlM_append] at hm
  obtain ⟨m1, h1, hm⟩ := Option.bind_eq_some_iff.1 hm
  rw [List.foldlM_cons] at hm
  obtain ⟨m2, h2, hm⟩ := Option.bind_eq_some_iff.1 hm
  obtain ⟨L1, m1', h1', g, -⟩ := mprotect_good h hr hfl pre fun y hy hyp => by
    by_contra hn
    exact hpre y hy ⟨hyp, hn⟩
  rw [h1] at h1'
  cases h1'
  have hue : UserEntry fl := ⟨hfl.1.2.1, hfl.2⟩
  have hl1 := level_own g.inv (g.root hr) (by simp)
  obtain ⟨lv2, s2, hset⟩ := protect_soft g.inv.levels hl1 hue h2
  have hp2 : getPml4 m2 = getPml4 m1 := by rw [getPml4, s2.cr3]; rfl
  obtain ⟨lv3, s3⟩ := mprotect_soft post s2.levels (by rw [hp2]; exact s2.mono hl1) hue hm
  have hset' := s3.settled s2.levels (s2.mono hl1) (hset (by
    rw [virtToPhys_eq, g.shared h hr hv, ← virtToPhys_eq]; exact hmap))
  obtain ⟨t, ht, hp, hu⟩ := hset'
  have htr := s3.levels.translate_pt (s3.mono (s2.mono hl1)) ht
  rw [if_neg (by simp [hp]), g.pml4] at htr
  intro heq
  rw [htr] at heq
  have hno := shared_user h hr hv heq.symm
  rw [user_leafFlags, hu] at hno; cases hno

end Bad

/-! ## Both calls -/

section Calls

variable {m : Machine} {rs : List ℕ} {X : Set ℕ}

theorem munmap_contained_iff (hb : Built m rs X) (hr : getPml4 m ∈ rs) (addr len : U64) :
    Contained m rs (sysMunmap m addr len) ↔ ∀ va ∈ pages (pageDown addr) (pageUp (addr + len)),
      isPrivate va = false → translate m.mem (getPml4 m) va = none := by
  obtain ⟨L, h⟩ := hb.history
  have hroot := (h.roots _).1 hr
  rw [sysMunmap_eq]
  constructor
  · rintro ⟨m', hm, hkept, hfreed⟩ va hva hpriv
    by_contra hn
    obtain ⟨v, hv, hne⟩ := munmap_bad h.inv hroot _ ⟨va, hva, hpriv, hn⟩ hm hfreed
    exact hne (hkept _ (Or.inl hr) v hv)
  · intro hgood
    obtain ⟨L2, m2, new, hm, g, w⟩ := munmap_good h.inv hroot _ hgood
    exact ⟨m2, hm, g.sharedKept h hr, new, w.freed, w.nodup, fun a ha =>
      (ownedLeaf_iff h.inv hroot).2 (w.leaf a ha).1⟩

theorem mprotect_contained_iff (hb : Built m rs X) (hr : getPml4 m ∈ rs) (addr len prot : U64) :
    Contained m rs (sysMprotect m addr len prot) ↔ ∀ va ∈ pages (pageDown addr) (pageUp (addr + len)),
      isPrivate va = false → virtToPhys m va = 0 := by
  obtain ⟨L, h⟩ := hb.history
  have hroot := (h.roots _).1 hr
  rw [sysMprotect_eq]
  constructor
  · rintro ⟨m', hm, hkept, -⟩ va hva hpriv
    by_contra hn
    obtain ⟨v, hv, hne⟩ := mprotect_bad h.inv hroot (protFlags_leaf prot) _ ⟨va, hva, hpriv, hn⟩ hm
    exact hne (hkept _ (Or.inl hr) v hv)
  · intro hgood
    obtain ⟨L2, m2, hm, g, hf⟩ := mprotect_good h.inv hroot (protFlags_leaf prot) _ hgood
    exact ⟨m2, hm, g.sharedKept h hr, [], hf, by simp, by simp⟩

/-- **Containment of munmap and mprotect.** In any address space of any history, for any range and protection: munmap
keeps to the running task's pages exactly if no shared page of its range is mapped, mprotect exactly if none has a
physical address other than 0. -/
theorem memory_calls_contained_iff (hb : Built m rs X) (hr : getPml4 m ∈ rs) (addr len prot : U64) :
    (Contained m rs (sysMunmap m addr len) ↔ ∀ va ∈ pages (pageDown addr) (pageUp (addr + len)),
      isPrivate va = false → translate m.mem (getPml4 m) va = none) ∧
    (Contained m rs (sysMprotect m addr len prot) ↔ ∀ va ∈ pages (pageDown addr) (pageUp (addr + len)),
      isPrivate va = false → virtToPhys m va = 0) :=
  ⟨munmap_contained_iff hb hr addr len, mprotect_contained_iff hb hr addr len prot⟩

end Calls

/-- the page at 4 MiB of the first address space after boot -/
theorem contained_one_page : ∃ m rs X, Built m rs X ∧ getPml4 m ∈ rs ∧
    Contained m rs (sysMunmap m sampleVirt 4096) ∧ Contained m rs (sysMprotect m sampleVirt 4096 PROT_WRITE) := by
  obtain ⟨r, m, -, -, hb, hcr, -, -⟩ := boot_space
  have hr : getPml4 { m with cr3 := addrOf r } ∈ [r] := by rw [hcr]; simp
  obtain ⟨h1, h2⟩ := memory_calls_contained_iff hb hr sampleVirt 4096 PROT_WRITE
  have hpages : ∀ va ∈ pages (pageDown sampleVirt) (pageUp (sampleVirt + 4096)), isPrivate va = true := by
    intro va hva
    rw [mem_pages (pageDown_aligned _) (pageUp_aligned _), show (pageDown sampleVirt).toNat = 0x400000 from rfl,
      show (pageUp (sampleVirt + 4096)).toNat = 0x401000 from rfl] at hva
    have hone : va = sampleVirt := BitVec.eq_of_toNat_eq (by show va.toNat = 0x400000; omega)
    rw [hone]; exact sample_private
  refine ⟨_, _, _, hb, hr, h1.2 fun va hva hp => ?_, h2.2 fun va hva hp => ?_⟩
  · rw [hpages va hva] at hp; cases hp
  · rw [hpages va hva] at hp; cases hp

/-- **munmap reaches the physmap.** Unmapping the first page of the physmap changes how a shared address translates. -/
theorem munmap_physmap : ¬ ∀ (m : Machine) (rs : List ℕ) (X : Set ℕ) (addr len prot : U64), Built m rs X →
    getPml4 m ∈ rs → Contained m rs (sysMunmap m addr len) ∧ Contained m rs (sysMprotect m addr len prot) := by
  intro hclaim
  obtain ⟨r, m, hc, hlt, hb, hcr, -, -⟩ := boot_space
  have hr : getPml4 { m with cr3 := addrOf r } ∈ [r] := by rw [hcr]; simp
  have hcont := (hclaim _ _ _ PHYSMAP_BASE 4096 0 hb hr).1
  have hpage : PHYSMAP_BASE ∈ pages (pageDown PHYSMAP_BASE) (pageUp (PHYSMAP_BASE + 4096)) :=
    (mem_pages (pageDown_aligned _) (pageUp_aligned _)).2 (by decide)
  have hn := (munmap_contained_iff hb hr PHYSMAP_BASE 4096).1 hcont PHYSMAP_BASE hpage (by decide)
  rw [hcr] at hn
  exact boot_physmap hc hlt hn

end Retux.Sys
