/-
Destroying an address space.

`destroy_address_space` writes no table: it only hands frames to `free_frame`. So its loops read fixed memory, and the
whole call is the freeing of a list of frames (`freeAll`). That list is the walk of the owner's tree
(`Forest.collect`): `destroy_eq`. The walk lists each frame of the tree once, which is all there is to teardown
(`destroy_spec`).
-/
import Mathlib.Tactic
import Retux.Mem.Clone

namespace Retux.Vmm

open Retux.Word Retux.Pmm Retux.Forest

/-! ## Freeing a list of frames -/

def freeAll (m : Machine) (l : List U64) : Machine := l.foldl Machine.freeFrame m

theorem freeAll_append (m : Machine) (l l' : List U64) : freeAll m (l ++ l') = freeAll (freeAll m l) l' :=
  List.foldl_append

theorem freeAll_one (m : Machine) (a : U64) : freeAll m [a] = m.freeFrame a := rfl

/-- no table is written -/
theorem freeAll_mem (m : Machine) (l : List U64) : (freeAll m l).mem = m.mem := by
  induction l generalizing m with
  | nil => rfl
  | cons a l ih => exact (ih (m.freeFrame a)).trans rfl

theorem freeAll_rest (m : Machine) (l : List U64) : (freeAll m l).cr3 = m.cr3 ∧
    (freeAll m l).gKernelPml4 = m.gKernelPml4 ∧ (freeAll m l).freed = l.reverse ++ m.freed := by
  induction l generalizing m with
  | nil => exact ⟨rfl, rfl, rfl⟩
  | cons a l ih =>
    obtain ⟨h1, h2, h3⟩ := ih (m.freeFrame a)
    refine ⟨h1, h2, h3.trans ?_⟩
    simp [Machine.freeFrame]

theorem freeAll_used (m : Machine) (l : List ℕ) (hl : ∀ f ∈ l, f < MAX_FRAMES) (g : ℕ) :
    used (freeAll m (l.map addrOf)) g = (!decide (g ∈ l) && used m g) := by
  induction l generalizing m with
  | nil => simp [freeAll]
  | cons f l ih =>
    have hf := hl f (by simp)
    have hstep : used (m.freeFrame (addrOf f)) g = (!decide (g = f) && used m g) := by
      have h := freeFrame_isUsed m.pmm (addrOf f) (by rw [frameOf_addrOf hf]; exact hf) g
      rw [frameOf_addrOf hf] at h
      exact h
    have := ih (m.freeFrame (addrOf f)) fun f' hf' => hl f' (by simp [hf'])
    rw [List.map_cons]
    show used (freeAll (m.freeFrame (addrOf f)) (l.map addrOf)) g = _
    rw [this, hstep]
    by_cases h1 : g = f <;> by_cases h2 : g ∈ l <;> simp [h1, h2]

/-- a loop whose rounds free lists that do not depend on the machine -/
theorem foldl_freeAll {α : Type} {f : Machine → α → Machine} {g : α → List U64} {mem : ℕ → Idx → U64} (l : List α)
    (hf : ∀ m x, x ∈ l → m.mem = mem → f m x = freeAll m (g x)) (m : Machine) (hm : m.mem = mem) :
    l.foldl f m = freeAll m (l.flatMap g) := by
  induction l generalizing m with
  | nil => rfl
  | cons x l ih =>
    rw [List.foldl_cons, List.flatMap_cons, freeAll_append, hf m x (by simp) hm]
    exact ih (fun m y hy => hf m y (by simp [hy])) _ (by rw [freeAll_mem, hm])

/-! ## The walk of a space -/

section Destroy

variable {L : Layout} {m : Machine} {r t : ℕ} {p : List Idx}

/-- the frames at and below a table -/
def frames (mem : ℕ → Idx → U64) (k t : ℕ) (p : List Idx) : List ℕ := collect shape mem (List.finRange 512) k t p

/-- what the walk lists for entry i -/
def framesAt (mem : ℕ → Idx → U64) (k t : ℕ) (p : List Idx) (i : Idx) : List ℕ :=
  if Priv (i :: p) then ((child (mem t i)).map fun c => frames mem k c (i :: p)).getD [] else []

theorem frames_succ (mem : ℕ → Idx → U64) (k t : ℕ) (p : List Idx) :
    frames mem (k + 1) t p = (List.finRange 512).flatMap (framesAt mem k t p) ++ [t] := rfl

theorem framesAt_absent {mem : ℕ → Idx → U64} {k : ℕ} {i : Idx} (h : present (mem t i) = false) :
    framesAt mem k t p i = [] := by
  simp [framesAt, child_none.2 h]

theorem framesAt_shared {mem : ℕ → Idx → U64} {k : ℕ} {i : Idx} (h : Priv (i :: p) = false) :
    framesAt mem k t p i = [] := by
  simp [framesAt, h]

theorem framesAt_present {mem : ℕ → Idx → U64} {k : ℕ} {i : Idx} (hp : Priv (i :: p) = true)
    (h : present (mem t i) = true) : framesAt mem k t p i = frames mem k (entryToKptr (mem t i)) (i :: p) := by
  simp [framesAt, hp, child_some.2 ⟨h, rfl⟩]

/-- everything below p is private -/
def Full (p : List Idx) : Prop := ∀ q, q.length ≤ 4 → p <:+ q → Priv q = true

theorem Full.cons {i : Idx} (h : Full p) : Full (i :: p) :=
  fun q hq hs => h q hq ((List.suffix_cons i p).trans hs)

theorem full_slot {i4 : Idx} (h0 : i4 ≠ 0) (hp : Priv [i4] = true) : Full [i4] := by
  rintro q hq ⟨a, rfl⟩
  match a, hq with
  | [], _ => exact hp
  | [i3], _ => exact (priv_below h0 hp i3 0).1
  | [i2, i3], _ => exact (priv_below h0 hp i3 i2).2
  | [i1, i2, i3], _ => exact (priv_below h0 hp i3 i2).2
  | _ :: _ :: _ :: _ :: _, hq => simp only [List.length_append, List.length_cons, List.length_nil] at hq; omega

theorem full_pt (hl : p.length = 3) (hp : Priv p = true) : Full p := by
  rintro q hq ⟨a, rfl⟩
  match a, p, hl, hq with
  | [], _, _, _ => exact hp
  | [i1], [_, _, _], _, _ => exact hp
  | _ :: _ :: _, p, hl, hq => simp only [List.length_append, List.length_cons, hl] at hq; omega

/-- the loop of `free_table`, given what it does below -/
theorem freeEntries_eq (h : Inv L m) (ht : L.own t = some (r, p)) (hl : p.length < 4) (hfull : Full p)
    {below : Machine → U64 → Machine} {k : ℕ}
    (hb : ∀ {c i}, L.own c = some (r, i :: p) → ∀ m', m'.mem = m.mem →
      below m' (addrOf c) = freeAll m' ((frames m.mem k c (i :: p)).map addrOf))
    (m' : Machine) (hm : m'.mem = m.mem) :
    freeEntries below m' (addrOf t) = freeAll m' ((frames m.mem (k + 1) t p).map addrOf) := by
  unfold freeEntries
  rw [frames_succ, List.map_append, freeAll_append, List.map_flatMap, List.map_singleton, freeAll_one,
    frameOf_addrOf (h.own_used ht).2.2]
  refine congrArg (fun m => Machine.freeFrame m (addrOf t)) (foldl_freeAll _ (fun m1 i _ hm1 => ?_) m' hm)
  have hp : Priv (i :: p) = true := hfull _ (by simp; omega) (List.suffix_cons i p)
  rw [hm1]
  cases hpr : present (m.mem t i) with
  | false => rw [if_pos (Or.inl ((absent_iff _).2 hpr)), framesAt_absent hpr]; rfl
  | true =>
    have hc := h.down ht hp hpr
    rw [if_neg (by rw [absent_iff, huge_iff, hpr, h.own_huge ht hp hpr]; simp), framesAt_present hp hpr,
      entryPhys_eq (h.own_used hc).2.2]
    exact hb hc m1 hm1

/-- **`free_table` is the walk.** -/
theorem freeTable_eq (h : Inv L m) (ht : L.own t = some (r, p)) (level : ℕ) (hl : p.length + level = 3) (hfull : Full p)
    (m' : Machine) (hm : m'.mem = m.mem) :
    freeTable level m' (addrOf t) = freeAll m' ((frames m.mem (level + 1) t p).map addrOf) := by
  induction level generalizing t p m' with
  | zero => exact freeEntries_eq h ht (by omega) hfull (fun _ _ _ => rfl) m' hm
  | succ level ih =>
    exact freeEntries_eq h ht (by omega) hfull (fun hc m1 hm1 => ih hc (by simp; omega) hfull.cons m1 hm1) m' hm

/-- a PD of slot 0 -/
theorem destroySlot0Pd_eq (h : Inv L m) {i3 : Idx} (ht : L.own t = some (r, [i3, 0])) (m' : Machine)
    (hm : m'.mem = m.mem) :
    destroySlot0Pd i3 (addrOf t) m' = freeAll m' ((frames m.mem 2 t [i3, 0]).map addrOf) := by
  rw [frames_succ, List.map_append, freeAll_append, List.map_flatMap, List.map_singleton, freeAll_one]
  unfold destroySlot0Pd
  rw [frameOf_addrOf (h.own_used ht).2.2]
  refine congrArg (fun m => Machine.freeFrame m (addrOf t)) ?_
  have hpriv : ∀ i2 : Idx, Priv [i2, i3, 0] = true ↔ i3 = 0 ∧ 1 ≤ i2.val ∧ i2.val < 8 := by
    intro i2; simp [Priv, and_assoc]
  split_ifs with h3
  · subst h3
    refine foldl_freeAll _ (fun m1 i2 _ hm1 => ?_) m' hm
    rw [hm1]
    by_cases hwin : 1 ≤ i2.val ∧ i2.val < 8
    · have hp := (hpriv i2).2 ⟨rfl, hwin⟩
      rw [if_neg (by rw [outside_window_iff]; exact not_not.2 hwin)]
      cases hpr : present (m.mem t i2) with
      | false => rw [if_pos ((absent_iff _).2 hpr), framesAt_absent hpr]; rfl
      | true =>
        have hc := h.down ht hp hpr
        rw [if_neg (by rw [absent_iff, hpr]; simp), framesAt_present hp hpr, entryPhys_eq (h.own_used hc).2.2]
        exact freeTable_eq h hc 0 rfl (full_pt rfl hp) m1 hm1
    · have hp : Priv [i2, 0, 0] = false := by
        cases hp : Priv [i2, 0, 0] with
        | false => rfl
        | true => exact absurd ((hpriv i2).1 hp).2 hwin
      rw [if_pos ((outside_window_iff i2).2 hwin), framesAt_shared hp]; rfl
  · have hnil : (List.finRange 512).flatMap (fun i => (framesAt m.mem 1 t [i3, 0] i).map addrOf) = [] := by
      rw [List.flatMap_eq_nil_iff]
      intro i2 _
      have hp : Priv [i2, i3, 0] = false := by
        cases hp : Priv [i2, i3, 0] with
        | false => rfl
        | true => exact absurd ((hpriv i2).1 hp).1 h3
      rw [framesAt_shared hp]; rfl
    rw [hnil]; rfl

/-- a loop over all indices that does nothing from 4 on -/
theorem flatMap_first4 {α : Type} (g : Idx → List α) (h : ∀ i : Idx, 4 ≤ i.val → g i = []) :
    (List.finRange 512).flatMap g = [0, 1, 2, 3].flatMap g := by
  have hsplit : List.finRange 512 =
      0 :: 1 :: 2 :: 3 :: (List.finRange 508).map fun i => i.succ.succ.succ.succ := by
    rw [show List.finRange 512 = 0 :: (List.finRange 511).map Fin.succ from List.finRange_succ,
      show List.finRange 511 = 0 :: (List.finRange 510).map Fin.succ from List.finRange_succ,
      show List.finRange 510 = 0 :: (List.finRange 509).map Fin.succ from List.finRange_succ,
      show List.finRange 509 = 0 :: (List.finRange 508).map Fin.succ from List.finRange_succ]
    simp only [List.map_cons, List.map_map]
    rfl
  have hrest : ((List.finRange 508).map fun i => i.succ.succ.succ.succ).flatMap g = [] := by
    rw [List.flatMap_eq_nil_iff]
    intro i hi
    obtain ⟨j, -, rfl⟩ := List.mem_map.1 hi
    exact h _ (by simp only [Fin.val_succ]; omega)
  rw [hsplit]
  simp only [List.flatMap_cons, List.flatMap_nil, hrest]

theorem destroyPml4Slot0_eq (h : Inv L m) (ht : L.own t = some (r, [0])) (m' : Machine) (hm : m'.mem = m.mem) :
    destroyPml4Slot0 (addrOf t) m' = freeAll m' ((frames m.mem 3 t [0]).map addrOf) := by
  unfold destroyPml4Slot0
  rw [frames_succ, List.map_append, freeAll_append, List.map_flatMap, List.map_singleton, freeAll_one,
    frameOf_addrOf (h.own_used ht).2.2, flatMap_first4]
  · refine congrArg (fun m => Machine.freeFrame m (addrOf t)) (foldl_freeAll _ (fun m1 i hi hm1 => ?_) m' hm)
    have h4 : i.val < 4 := by
      simp only [List.mem_cons, List.not_mem_nil, or_false] at hi
      rcases hi with rfl | rfl | rfl | rfl <;> decide
    have hp : Priv [i, 0] = true := by simpa [Priv] using h4
    have hpr := h.slot0_pd ht h4
    have hc := h.down ht hp hpr
    rw [hm1, if_neg (by rw [absent_iff, hpr]; simp), framesAt_present hp hpr, entryPhys_eq (h.own_used hc).2.2]
    exact destroySlot0Pd_eq h hc m1 hm1
  · intro i hi
    have hp : Priv [i, 0] = false := by simp [Priv]; omega
    rw [framesAt_shared hp]; rfl

/-- slot 0 first, then a loop that skips it -/
theorem flatMap_split0 {α : Type} (g : Idx → List α) :
    (List.finRange 512).flatMap g = g 0 ++ (List.finRange 512).flatMap fun i => if i = 0 then [] else g i := by
  have hs : List.finRange 512 = 0 :: (List.finRange 511).map Fin.succ := List.finRange_succ
  rw [hs, List.flatMap_cons, List.flatMap_cons, if_pos rfl, List.nil_append, List.flatMap_map, List.flatMap_map]
  simp only [Fin.succ_ne_zero, if_false]

/-- **Teardown is the walk.** `destroy_address_space` frees the frames of the owner's tree and does nothing else. -/
theorem destroy_eq (h : Inv L m) (hr : L.own r = some (r, [])) {cr3 : U64} (hcr3 : cr3 &&& PHYS_MASK = addrOf r) :
    destroyAddressSpace cr3 m = freeAll m ((frames m.mem 4 r []).map addrOf) := by
  have hp0 := h.slot0 hr
  have hc0 := h.down hr (by decide) hp0
  unfold destroyAddressSpace
  simp only [hcr3, frameOf_addrOf (h.own_used hr).2.2]
  rw [frames_succ, List.map_append, freeAll_append, List.map_flatMap, List.map_singleton, freeAll_one,
    if_neg (by rw [absent_iff, hp0]; simp), entryPhys_eq (h.own_used hc0).2.2,
    destroyPml4Slot0_eq h hc0 m rfl, flatMap_split0, freeAll_append, framesAt_present (by decide) hp0]
  refine congrArg (fun m => Machine.freeFrame m (addrOf r)) (foldl_freeAll _ (fun m1 i _ hm1 => ?_) _ (freeAll_mem _ _))
  rw [hm1]
  cases hsk : skippedSlot i with
  | true =>
    rw [if_pos rfl]
    split_ifs with hi
    · rfl
    · have hp : Priv [i] = false := by
        cases hp : Priv [i] with
        | false => rfl
        | true => rw [(skippedSlot_iff i).2 ⟨hi, hp⟩] at hsk; cases hsk
      rw [framesAt_shared hp]; rfl
  | false =>
    obtain ⟨hi, hp⟩ := (skippedSlot_iff i).1 hsk
    rw [if_neg Bool.false_ne_true, if_neg hi]
    cases hpr : present (m.mem r i) with
    | false => rw [if_pos ((absent_iff _).2 hpr), framesAt_absent hpr]; rfl
    | true =>
      have hc := h.down hr hp hpr
      rw [if_neg (by rw [absent_iff, hpr]; simp), framesAt_present hp hpr, entryPhys_eq (h.own_used hc).2.2]
      exact freeTable_eq h hc 2 rfl (full_slot hi hp) m1 hm1

theorem mem_frames (h : Inv L m) (hr : L.own r = some (r, [])) {f : ℕ} :
    f ∈ frames m.mem 4 r [] ↔ ∃ p, L.own f = some (r, p) := by
  rw [frames, h.tree.mem_collect List.mem_finRange hr fun hf => by simpa using Priv.length_le (h.tree.priv hf)]
  simp

theorem frames_nodup (h : Inv L m) (hr : L.own r = some (r, [])) : (frames m.mem 4 r []).Nodup :=
  h.tree.nodup_collect List.mem_finRange (List.nodup_finRange 512) hr fun hf => by
    simpa using Priv.length_le (h.tree.priv hf)

/-- **What is left.** The space is gone, its frames are free, and every other space is as it was. -/
theorem destroy_spec (h : Inv L m) (hr : L.own r = some (r, [])) {cr3 : U64} (hcr3 : cr3 &&& PHYS_MASK = addrOf r) :
    Inv { L with own := without L.own r } (destroyAddressSpace cr3 m) ∧ (destroyAddressSpace cr3 m).mem = m.mem ∧
      (∀ f, used (destroyAddressSpace cr3 m) f = true ↔ used m f = true ∧ ∀ p, L.own f ≠ some (r, p)) := by
  have hused : ∀ f, used (destroyAddressSpace cr3 m) f = true ↔ used m f = true ∧ ∀ p, L.own f ≠ some (r, p) := by
    intro f
    rw [destroy_eq h hr hcr3, freeAll_used _ _ fun f hf => by
      obtain ⟨p, hp⟩ := (mem_frames h hr).1 hf
      exact (h.own_used hp).2.2]
    rw [Bool.and_eq_true, Bool.not_eq_true', decide_eq_false_iff_not, mem_frames h hr, not_exists, and_comm]
  have hmem : (destroyAddressSpace cr3 m).mem = m.mem := by rw [destroy_eq h hr hcr3, freeAll_mem]
  have hold : ∀ {f x}, without L.own r f = some x → L.own f = some x := fun hf => (without_some.1 hf).1
  refine ⟨?_, hmem, hused⟩
  constructor
  · rw [hmem]; exact h.tree.dropRoot r
  · refine h.kern.congr ?_ (fun f k _ => by rw [hmem]) fun f k hf hu => (hused f).2 ⟨hu, fun p hp => ?_⟩
    · rw [destroy_eq h hr hcr3]; exact (freeAll_rest _ _).2.1
    · rw [h.apart hf] at hp; cases hp
  · intro f k hk
    cases ho : without L.own r f with
    | none => exact ho
    | some x =>
      have hk' : L.klv f = some k := hk
      have := hold ho
      rw [h.apart hk'] at this; cases this
  · refine (hused 0).2 ⟨h.zero, fun p hp => ?_⟩
    have := (h.own_used hp).2.1
    omega
  · intro f x hf
    obtain ⟨ho, hne⟩ := without_some.1 hf
    obtain ⟨h1, h2, h3⟩ := h.own_used ho
    refine ⟨(hused f).2 ⟨h1, fun p hp => ?_⟩, h2, h3⟩
    rw [ho] at hp
    cases hp
    exact hne rfl
  · intro f r' p i hf hp he
    rw [hmem] at he ⊢; exact h.own_huge (hold hf) hp he
  · intro f r' hf
    rw [hmem]; exact h.slot0 (hold hf)
  · intro f r' i hf hi
    rw [hmem]; exact h.slot0_pd (hold hf) hi
  · intro f r' i hf hi
    rw [hmem]; exact h.slot0_end (hold hf) hi
  · intro f r' i hf hp he
    rw [hmem] at he ⊢; exact h.shr_pml4 (hold hf) hp he
  · intro f r' i3 i2 hf hp he
    rw [hmem] at he ⊢; exact h.shr_pd (hold hf) hp he

end Destroy

end Retux.Vmm
