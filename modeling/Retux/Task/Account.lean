/-
The account of physical memory, over whole runs of `Views.apply`.

Every frame in use belongs to exactly one of: the kernel (in use at boot, taken for the heap or by another subsystem
since), one live address space, or nobody any more. The last are the frames a map or a fork's copy displaced:
`vmm::map` overwrites an entry without freeing what it pointed at. Nothing else is ever lost, and nothing is freed twice:
what a space gives up at its end is what it owns.

- `Keeps.other_iff`: an operation on one space changes no ownership of another;
- `apply_outside`: one operation;
- `frames_account`: every run.
-/
import Mathlib.Tactic
import Retux.Task.Views

namespace Retux.Views

open Retux.Word Retux.Pmm Retux.Vmm Retux.Run Retux.Sched

/-- frames an edit takes away from the loaded space without freeing them -/
def editDisplaced (m : Machine) : Edit → Set ℕ
  | .map v _ => backing m (getPml4 m) v
  | _ => ∅

def displaced (s : Kernel) : Op → Set ℕ
  | .edit e => editDisplaced s.m e
  | .clone dst src => {f | ∃ v, isPrivate v = true ∧ (translate s.m.mem src v).isSome = true ∧ f ∈ backing s.m dst v}
  | _ => ∅

/-- frames an operation takes for the kernel -/
def taken (s s' : Kernel) : Op → Set ℕ
  | .kmalloc _ => {f | used s'.m f = true ∧ used s.m f = false}
  | .take _ => {f | used s'.m f = true ∧ used s.m f = false}
  | _ => ∅

/-- a run from k to s, with the frames that are the kernel's or nobody's -/
inductive Account (k : Kernel) : Kernel → Set ℕ → Prop
  | start : Account k k {f | used k.m f = true}
  | step {s s' X op} : Account k s X → apply s op = some s' → Account k s' (X ∪ displaced s op ∪ taken s s' op)

section Account

variable {m m' : Machine} {rs : List ℕ} {X : Set ℕ} {L L' : Layout} {s s' k : Kernel} {op : Op} {r r' f d : ℕ}

/-- an operation on space r that releases D from it -/
theorem outside_keep {D : Set ℕ} (h : History L m rs X) (h' : History L' m' rs X) (hr : r ∈ rs) (c : Keeps r L m L' m')
    (hrest : ∀ f, Rest m' r f ↔ Rest m r f ∨ f ∈ D) (hD : ∀ f ∈ D, ∃ p, L.own f = some (r, p)) (f : ℕ) :
    Outside m' rs f ↔ Outside m rs f ∨ f ∈ D := by
  have hsplit : ∀ {m : Machine}, Outside m rs f ↔ Rest m r f ∧ ∀ x ∈ rs, x ≠ r → ¬ Owned m x f := by
    intro m
    constructor
    · rintro ⟨hu, hno⟩
      exact ⟨⟨hu, hno r hr⟩, fun x hx _ => hno x hx⟩
    · rintro ⟨⟨hu, hnr⟩, hno⟩
      refine ⟨hu, fun x hx => ?_⟩
      by_cases hxr : x = r
      · rw [hxr]
        exact hnr
      · exact hno x hx hxr
  have hothers : (∀ x ∈ rs, x ≠ r → ¬ Owned m' x f) ↔ ∀ x ∈ rs, x ≠ r → ¬ Owned m x f := by
    refine forall_congr' fun x => forall_congr' fun hx => forall_congr' fun hne => not_congr ?_
    rw [owned_iff h'.inv ((h'.roots x).1 hx), owned_iff h.inv ((h.roots x).1 hx)]
    exact exists_congr fun p => c.other_iff h.inv h'.inv ((h.roots x).1 hx) hne
  rw [hsplit, hsplit, hothers, hrest, or_and_right]
  refine or_congr_right ⟨fun hh => hh.1, fun hf => ⟨hf, fun x hx hne => ?_⟩⟩
  -- what r gives up is no one else's
  obtain ⟨p, hp⟩ := hD f hf
  rw [owned_iff h.inv ((h.roots x).1 hx)]
  rintro ⟨q, hq⟩
  rw [hp] at hq
  cases hq
  exact hne rfl

theorem edit_outside {e : Edit} (h : Ready rs m) (hr : getPml4 m ∈ rs) (he : e.apply m = some m') (f : ℕ) :
    Outside m' rs f ↔ Outside m rs f ∨ f ∈ editDisplaced m e := by
  obtain ⟨K, H, hz, L, X, h, z, hload⟩ := h
  have hroot := (h.roots _).1 hr
  have hnone : ∀ {m' L'}, History L' m' rs X → Keeps (getPml4 m) L m L' m' →
      (∀ f, Rest m' (getPml4 m) f ↔ Rest m (getPml4 m) f) → (Outside m' rs f ↔ Outside m rs f ∨ f ∈ (∅ : Set ℕ)) :=
    fun h' c hrest => outside_keep h h' hr c (fun f => (hrest f).trans (or_iff_left (Set.notMem_empty f)).symm)
      (fun f hf => absurd hf (Set.notMem_empty f)) f
  cases e with
  | map v fl =>
    simp only [Edit.apply] at he
    split_ifs at he with hv
    obtain ⟨⟨a, m1⟩, hm, rfl⟩ := Option.map_eq_some_iff.1 he
    obtain ⟨L', h', c⟩ := h.map hr hv.1 hv.2 hm
    exact outside_keep h h' hr c (rest_map h.inv hroot hv.1 hv.2 hm)
      (fun f hf => ⟨_, (backing_iff h.inv hroot hv.1).1 hf⟩) f
  | write v g =>
    simp only [Edit.apply] at he
    split_ifs at he with hv
    obtain ⟨x, hx, rfl⟩ := Option.map_eq_some_iff.1 he
    obtain ⟨h', c⟩ := h.write hr ((ownedLeaf_iff h.inv hroot).2 ⟨_, rfl, h.page hr hv hx⟩) g
    refine hnone h' c fun f => ?_
    rw [rest_iff h'.inv hroot, rest_iff h.inv hroot, used_fill]
  | protect v fl =>
    simp only [Edit.apply] at he
    split_ifs at he with hv
    obtain ⟨L', h', c⟩ := h.protect hr hv.1 hv.2 he
    exact hnone h' c (rest_protect h.inv hroot hv.1 hv.2 he)
  | unmap v =>
    simp only [Edit.apply] at he
    split_ifs at he with hv
    obtain ⟨L', h', c⟩ := h.unmap hr hv he
    exact hnone h' c (rest_unmap h.inv hroot hv he)

theorem clone_outside (h : Ready rs m) (hd : d ∈ rs) (hr : r ∈ rs) (hne : r ≠ d)
    (hc : cloneAddressSpace (addrOf d) (addrOf r) m = some m') (f : ℕ) : Outside m' rs f ↔ Outside m rs f ∨
      ∃ v, isPrivate v = true ∧ (translate m.mem r v).isSome = true ∧ f ∈ backing m d v := by
  obtain ⟨K, H, hz, L, X, h, z, hload⟩ := h
  have hdr := (h.roots d).1 hd
  obtain ⟨L', h', c⟩ := h.clone hd hr hne hc
  refine outside_keep (D := {f | ∃ v, isPrivate v = true ∧ (translate m.mem r v).isSome = true ∧ f ∈ backing m d v}) h h' hd
    c (rest_clone h.inv hdr ((h.roots r).1 hr) hne hc) (fun f hf => ?_) f
  obtain ⟨v, hv, -, hb⟩ := hf
  exact ⟨_, (backing_iff h.inv hdr hv).1 hb⟩

theorem create_outside {a : U64} (h : Ready rs m) (hc : createAddressSpace m = some (a, m')) (f : ℕ) :
    Outside m' (frameOf a :: rs) f ↔ Outside m rs f := by
  obtain ⟨r, rfl, hlt, -, -, -, -, -, hout, -⟩ := h.create hc
  rw [frameOf_addrOf hlt]
  obtain ⟨K, H, hz, L, X, h, -⟩ := h
  obtain ⟨L', r', heq, hlt', hfree, hi, -, hst, hr', hold, hnew, -⟩ := create_spec h.inv hc
  obtain rfl : r = r' := by rw [← frameOf_addrOf hlt, heq, frameOf_addrOf hlt']
  have hothers : ∀ x ∈ rs, Owned m' x f ↔ Owned m x f := by
    intro x hx
    have hxr := (h.roots x).1 hx
    rw [owned_iff hi (hold _ _ hxr), owned_iff h.inv hxr]
    refine exists_congr fun p => ⟨fun hf => ?_, fun hf => hold _ _ hf⟩
    rcases hnew f x p hf with ho | ⟨rfl, -⟩
    · exact ho
    · rw [(h.inv.own_used hxr).1] at hfree
      cases hfree
  have h1 := hout f
  rw [outside_one] at h1
  constructor
  · rintro ⟨hu, hno⟩
    exact ⟨h1.1 ⟨hu, hno r (List.mem_cons_self ..)⟩, fun x hx => by
      rw [← hothers x hx]; exact hno x (List.mem_cons_of_mem _ hx)⟩
  · rintro ⟨hu, hno⟩
    obtain ⟨hu', hnr⟩ := h1.2 hu
    refine ⟨hu', fun x hx => ?_⟩
    rcases List.mem_cons.1 hx with rfl | hx
    · exact hnr
    · rw [hothers x hx]
      exact hno x hx

theorem destroy_outside (h : Ready rs m) (hr : r ∈ rs) (hne : getPml4 m ≠ r) (f : ℕ) :
    Outside (destroyAddressSpace (addrOf r) m) (rs.erase r) f ↔ Outside m rs f := by
  obtain ⟨-, -, -, hu⟩ := h.destroy hr hne
  obtain ⟨K, H, hz, L, X, h, -⟩ := h
  have hused := (hu f).trans (outside_one f)
  have hmem := (h.destroy hr).2.1
  have hown : ∀ x, Owned (destroyAddressSpace (addrOf r) m) x f ↔ Owned m x f := fun x => by
    unfold Owned
    rw [hmem]
  constructor
  · rintro ⟨hu', hno⟩
    obtain ⟨hum, hnr⟩ := hused.1 hu'
    refine ⟨hum, fun x hx => ?_⟩
    by_cases hxr : x = r
    · rw [hxr]
      exact hnr
    · rw [← hown]
      exact hno x ((List.mem_erase_of_ne hxr).2 hx)
  · rintro ⟨hum, hno⟩
    refine ⟨hused.2 ⟨hum, hno r hr⟩, fun x hx => ?_⟩
    rw [hown]
    exact hno x (List.mem_of_mem_erase hx)

/-- another subsystem's frame -/
theorem take_outside {a : U64} {m1 : Machine} (g : Idx → U64) (h : Ready rs m) (ha : m.allocFrame = some (a, m1)) (f : ℕ) :
    Outside (m1.fill (frameOf a) g) rs f ↔
      Outside m rs f ∨ used (m1.fill (frameOf a) g) f = true ∧ used m f = false := by
  obtain ⟨K, H, hz, L, X, h, -⟩ := h
  obtain ⟨h', hst⟩ := h.alloc ha g
  rw [h'.outside fun _ hx => hx, h.outside fun _ hx => hx]
  constructor
  · rintro ⟨hu', hno⟩
    cases hu : used m f with
    | true => exact Or.inl ⟨rfl, hno⟩
    | false => exact Or.inr ⟨hu', rfl⟩
  · rintro (⟨hu, hno⟩ | ⟨hu', hu⟩)
    · exact ⟨hst.used hu, hno⟩
    · refine ⟨hu', fun x _ p hp => ?_⟩
      rw [(h.inv.fresh hu).1] at hp
      cases hp

/-- **Step.** What is in use and in no live space grows by what the operation displaces and by what the kernel takes. -/
theorem apply_outside (h : Good s) (hs : apply s op = some s') (f : ℕ) :
    Outside s'.m s'.spaces f ↔ Outside s.m s.spaces f ∨ f ∈ displaced s op ∨ f ∈ taken s s' op := by
  have hempty : ∀ {P : Prop}, P ↔ P ∨ f ∈ (∅ : Set ℕ) ∨ f ∈ (∅ : Set ℕ) := fun {P} => by simp
  have hleft : ∀ {P Q : Prop}, P ∨ Q ↔ P ∨ Q ∨ f ∈ (∅ : Set ℕ) := fun {P Q} => by simp
  have hright : ∀ {P Q : Prop}, P ∨ Q ↔ P ∨ f ∈ (∅ : Set ℕ) ∨ Q := fun {P Q} => by simp
  cases op with
  | kmalloc size =>
    obtain ⟨st, hst, rfl⟩ := Option.map_eq_some_iff.1 hs
    obtain ⟨l, hl, hg⟩ := Heap.step_pages h.tidy (fun _ hh => by cases hh) hst
    obtain ⟨-, -, -, hout⟩ := h.ready.grow hl hg
    exact (hout s.spaces (fun _ hx => hx) f).trans hright
  | kfree p =>
    obtain ⟨st, hst, rfl⟩ := Option.map_eq_some_iff.1 hs
    have hm : ({ s with st := st } : Kernel).m = s.m := Heap.step_kfree_keeps hst
    rw [hm]
    exact hempty
  | store p i x =>
    obtain ⟨st, hst, rfl⟩ := Option.map_eq_some_iff.1 hs
    have hm : ({ s with st := st } : Kernel).m = s.m := Heap.step_store_keeps hst
    rw [hm]
    exact hempty
  | take g =>
    obtain ⟨⟨a, m1⟩, ha, rfl⟩ := Option.map_eq_some_iff.1 hs
    exact (take_outside g h.ready ha f).trans hright
  | bounce g =>
    obtain ⟨⟨a, m1⟩, ha, rfl⟩ := Option.map_eq_some_iff.1 hs
    obtain ⟨-, -, -, hout⟩ := h.ready.bounce g ha
    exact (hout s.spaces (fun _ hx => hx) f).trans hempty
  | create =>
    obtain ⟨⟨a, m1⟩, hm, rfl⟩ := Option.map_eq_some_iff.1 hs
    exact (create_outside h.ready hm f).trans hempty
  | load r =>
    simp only [apply] at hs
    split_ifs at hs with hr
    cases hs
    exact hempty
  | loadKernel =>
    cases hs
    exact hempty
  | edit e =>
    simp only [apply] at hs
    split_ifs at hs with hr
    obtain ⟨m1, he, rfl⟩ := Option.map_eq_some_iff.1 hs
    exact (edit_outside h.ready hr he f).trans hleft
  | clone d r =>
    simp only [apply] at hs
    split_ifs at hs with hdr
    obtain ⟨m1, hm, rfl⟩ := Option.map_eq_some_iff.1 hs
    exact (clone_outside h.ready hdr.1 hdr.2.1 hdr.2.2 hm f).trans hleft
  | destroy r =>
    simp only [apply] at hs
    split_ifs at hs with hr
    cases hs
    exact (destroy_outside h.ready hr.1 hr.2 f).trans hempty

/-- a run is an account -/
theorem Account.run {X : Set ℕ} {ops : List Op} (ha : Account k s X) (hr : ops.foldlM apply s = some s') :
    ∃ Y, Account k s' Y := by
  induction ops generalizing s X with
  | nil =>
    cases hr
    exact ⟨X, ha⟩
  | cons op ops ih =>
    rw [List.foldlM_cons] at hr
    obtain ⟨s1, h1, h2⟩ := Option.bind_eq_some_iff.1 hr
    exact ih (ha.step h1) h2

end Account

end Retux.Views
