/-
The low 4 GiB in every address space.

A new space's PDs are copies of the kernel's, less the window [2 MiB, 16 MiB). `Borrowed` says that they still are; no
operation on an address space writes them. So outside the window an address translates as under the boot tables, and
inside it to a frame the space owns, if at all.

- `Built.borrowed`: every history keeps the copies;
- `low_walk`: outside the window, the boot tables' translation, whatever the frames hold that are no tables;
- `window_own`: inside the window, a frame of the space's own;
- `selfMapped_iff`: so under which CR3 a frame that belongs to no space is mapped to itself.
-/
import Mathlib.Tactic
import Retux.Mem.Access
import Retux.Mem.Spaces

namespace Retux.Vmm

open Retux.Word Retux.Pmm Retux.Forest

/-- an address of the window -/
def InWindow (v : U64) : Prop := RESERVED_LOW ≤ v ∧ v < RESERVED_HIGH

instance : DecidablePred InWindow := fun _ => inferInstanceAs (Decidable (_ ∧ _))

/-- the PDs of every space hold what the kernel's do, outside the window -/
def Borrowed (L : Layout) (m : Machine) : Prop :=
  ∀ {f r} {i3 i2 : Idx}, L.own f = some (r, [i3, 0]) → i3.val < 4 → Priv [i2, i3, 0] = false →
    m.mem f i2 = borrowedPd (m.mem (kernelPd m i3)) i3 i2

section Borrowed

variable {L L' : Layout} {m m' : Machine} {rs : List ℕ} {X : Set ℕ} {r r0 t f : ℕ} {d : Idx → ℕ} {i : Idx}
  {klv : ℕ → Option ℕ}

/-! ## The kernel's PDs -/

theorem kernelPd_kept (h : Kern klv m) (hk : ∀ f k, klv f = some k → m'.mem f = m.mem f)
    (hg : m'.gKernelPml4 = m.gKernelPml4) (hi : i.val < 4) :
    kernelPd m' i = kernelPd m i ∧ m'.mem (kernelPd m i) = m.mem (kernelPd m i) := by
  have hp : kernelPdpt m' = kernelPdpt m := by rw [kernelPdpt, kernelPdpt, hg, hk _ _ h.root]
  refine ⟨?_, hk _ _ (h.pd_level hi)⟩
  rw [kernelPd, kernelPd, hp, kernelPdpt, hk _ _ (h.pml4 h.root h.slot0)]

/-- the PDs of m' are PDs of m, and neither they nor the kernel's are written -/
theorem Borrowed.mono (hb : Borrowed L m) (h : Inv L m) (hk : ∀ f k, L.klv f = some k → m'.mem f = m.mem f)
    (hg : m'.gKernelPml4 = m.gKernelPml4)
    (hown : ∀ {f r} {i3 i2 : Idx}, L'.own f = some (r, [i3, 0]) → i3.val < 4 → Priv [i2, i3, 0] = false →
      L.own f = some (r, [i3, 0]) ∧ m'.mem f i2 = m.mem f i2) : Borrowed L' m' := by
  intro f r i3 i2 ho hi hp
  obtain ⟨ho', hrow⟩ := hown ho hi hp
  obtain ⟨he, hpd⟩ := kernelPd_kept h.kern hk hg hi
  rw [hrow, he, hpd]
  exact hb ho' hi hp

/-- **Operations on one space.** -/
theorem Borrowed.keeps (hb : Borrowed L m) (h : Inv L m) (h' : Inv L' m') (k : Keeps r0 L m L' m')
    (hroots : ∀ r, L'.own r = some (r, []) → L.own r = some (r, [])) : Borrowed L' m' := by
  refine hb.mono h (fun f k' hf => k.kernel hf) k.gk fun {f r i3 i2} ho hi hp => ?_
  -- the PD that was there before still is, and a position has one frame
  have hroot := hroots r (h'.tree.root_own ho)
  have ht := h.down hroot (i := 0) (by decide) (h.slot0 hroot)
  have hd := h.down ht (i := i3) (by simpa [Priv] using hi) (h.slot0_pd ht hi)
  have hd' : L'.own (entryToKptr (m.mem (entryToKptr (m.mem r 0)) i3)) = some (r, [i3, 0]) := by
    by_cases hr : r = r0
    · subst hr; exact k.tbl hd (by simp)
    · exact k.other hd hr
  rw [h'.tree.unique ho hd']
  exact ⟨hd, k.mem (Or.inr ⟨r, _, hd, fun _ => ⟨by simp, hp⟩⟩)⟩

/-- the PDs of a new space -/
theorem NewSpace.pd (n : NewSpace m r t d m') (h' : Inv L' m') (ho : L'.own f = some (r, [i, 0])) (hi : i.val < 4) :
    f = d i := by
  obtain ⟨t', ht', hc3⟩ := h'.tree.up ho
  obtain ⟨r', hr', hc4⟩ := h'.tree.up ht'
  have hrr := h'.tree.root hr'
  subst hrr
  obtain ⟨-, rfl⟩ := child_some.1 hc4
  obtain ⟨-, rfl⟩ := child_some.1 hc3
  have hfl : Flags (PRESENT ||| WRITABLE ||| USER) := by decide
  rw [n.pml4 0, if_pos rfl, kptr_addr_or n.lt.2 hfl, n.rounds.pdpt i, if_pos hi,
    kptr_addr_or (n.rounds.fresh i hi).2.2.2 hfl]

/-- **Creation.** -/
theorem Borrowed.create (hb : Borrowed L m) (h : History L m rs X) {a : U64}
    (hc : createAddressSpace m = some (a, m')) :
    ∃ L', History L' m' (frameOf a :: rs) X ∧ Borrowed L' m' := by
  obtain ⟨L', h', hklv, hnew⟩ := h.create hc
  obtain ⟨r, t, d, rfl, n⟩ := create_rows h.inv.kern.lowMap hc
  rw [frameOf_addrOf n.lt.1] at hnew
  have hst := n.rounds.stage
  refine ⟨L', h', fun {f r' i3 i2} ho hi hp => ?_⟩
  obtain ⟨he, hpd⟩ := kernelPd_kept h.inv.kern (fun f k hf => hst.mem (h.inv.kern.used hf).1) hst.rest.2.1 hi
  rw [he, hpd]
  rcases hnew f r' _ ho with hold | rfl
  · rw [hst.mem (h.inv.own_used hold).1]
    exact hb hold hi hp
  · rw [n.pd h'.inv ho hi, n.rounds.pd i3 hi]

/-- **Every history keeps the copies.** -/
theorem Built.borrowed (hb : Built m rs X) : ∃ L, History L m rs X ∧ Borrowed L m := by
  have hroots : ∀ {L L' : Layout} {m m' : Machine} {rs X}, History L m rs X → History L' m' rs X → ∀ r,
      L'.own r = some (r, []) → L.own r = some (r, []) := fun h h' r ho => (h.roots r).1 ((h'.roots r).2 ho)
  induction hb with
  | boot h0 =>
    obtain ⟨L, h, hnone⟩ := h0.history
    refine ⟨L, h, fun ho => ?_⟩
    rw [hnone] at ho
    cases ho
  | create _ hc ih =>
    obtain ⟨L, h, hb⟩ := ih
    exact hb.create h hc
  | load _ _ ih =>
    obtain ⟨L, h, hb⟩ := ih
    exact ⟨L, h.congr rfl (fun _ _ => rfl) fun _ hu => hu, hb⟩
  | map _ hr hv hfl hm ih =>
    obtain ⟨L, h, hb⟩ := ih
    obtain ⟨L', h', k⟩ := h.map hr hv hfl hm
    exact ⟨L', h', hb.keeps h.inv h'.inv k (hroots h h')⟩
  | write g _ hr hl ih =>
    obtain ⟨L, h, hb⟩ := ih
    obtain ⟨h', k⟩ := h.write hr hl g
    exact ⟨L, h', hb.keeps h.inv h'.inv k (hroots h h')⟩
  | protect _ hr hv hfl hm ih =>
    obtain ⟨L, h, hb⟩ := ih
    obtain ⟨L', h', k⟩ := h.protect hr hv hfl hm
    exact ⟨L', h', hb.keeps h.inv h'.inv k (hroots h h')⟩
  | unmap _ hr hv hm ih =>
    obtain ⟨L, h, hb⟩ := ih
    obtain ⟨L', h', k⟩ := h.unmap hr hv hm
    exact ⟨L', h', hb.keeps h.inv h'.inv k (hroots h h')⟩
  | clone _ hd hs hne hm ih =>
    obtain ⟨L, h, hb⟩ := ih
    obtain ⟨L', h', k⟩ := h.clone hd hs hne hm
    exact ⟨L', h', hb.keeps h.inv h'.inv k (hroots h h')⟩
  | destroy _ hr ih =>
    obtain ⟨L, h, hb⟩ := ih
    obtain ⟨h', hmem, hg⟩ := h.destroy hr
    refine ⟨_, h', hb.mono h.inv (fun f k _ => by rw [hmem]) hg fun ho _ _ => ⟨(without_some.1 ho).1, by rw [hmem]⟩⟩
  | alloc g _ ha ih =>
    obtain ⟨L, h, hb⟩ := ih
    obtain ⟨h', hst⟩ := h.alloc ha g
    exact ⟨L, h', hb.keeps h.inv h'.inv (hst.keeps h.inv 0) fun _ ho => ho⟩

/-! ## Translation -/

variable {mem' : ℕ → Idx → U64} {v : U64}

/-- **Outside the window.** An address space translates as the boot PML4 does, also in a memory that differs in frames
that are no tables. -/
theorem low_walk (hb : Borrowed L m) (h : Inv L m) (hk : Kern klv m) (hr : L.own r = some (r, []))
    (hrow : ∀ f, L.own f ≠ none ∨ klv f ≠ none → mem' f = m.mem f) (hv : v.toNat < 2 ^ 32) (hw : ¬ InWindow v) :
    translate mem' r v = translate m.mem (frameOf m.gKernelPml4) v := by
  obtain ⟨h4, h3, hres, hpriv⟩ := low_idx hv hw
  have hown : ∀ {f x}, L.own f = some x → mem' f = m.mem f := fun ho => hrow _ (Or.inl (by rw [ho]; simp))
  -- the space's own tables on the way
  have p4 := h.slot0 hr
  have ht := h.down hr (i := 0) (by decide) p4
  have hpd : Priv [tableIdx v 30, 0] = true := by simpa [Priv] using h3
  have p3 := h.slot0_pd ht h3
  have hd := h.down ht (i := tableIdx v 30) hpd p3
  -- the kernel's
  have q4 := hk.slot0
  have q3 := hk.slot0_pd _ h3
  obtain ⟨w3, hk1⟩ := hk.pdpt (hk.pml4 hk.root q4) q3
  refine translate_borrowed h4 hres (child_some.2 ⟨by rw [hown hr]; exact p4, by rw [hown hr]⟩)
    (child_some.2 ⟨by rw [hown ht]; exact p3, by rw [hown ht]⟩) (by rw [hown ht]; exact h.own_huge ht hpd p3)
    (by rw [hown hd]; exact hb hd h3 hpriv) (child_some.2 ⟨q4, rfl⟩) (child_some.2 ⟨q3, rfl⟩) w3 fun hp hg => ?_
  rcases hk.pd hk1 hp with ⟨hh, -⟩ | ⟨-, hk0⟩
  · rw [hg] at hh; cases hh
  · exact hrow _ (Or.inr (by rw [hk0]; simp))

/-- **Inside the window.** What an address space maps there is its own. -/
theorem window_own (h : Inv L m) (hr : L.own r = some (r, [])) (hw : InWindow v) {x : U64 × U64}
    (hx : translate m.mem r v = some x) : ∃ p, L.own (frameOf x.1) = some (r, p) := by
  have hpriv : isPrivate v = true := by
    obtain ⟨hlo, hhi⟩ := hw
    have h1 : RESERVED_LOW.toNat = 2097152 := rfl
    have h2 : RESERVED_HIGH.toNat = 16777216 := rfl
    rw [BitVec.le_def, h1] at hlo
    rw [BitVec.lt_def, h2] at hhi
    have h0 : tableIdx v 39 = 0 := by
      apply Fin.ext
      show v.toNat / 2 ^ 39 % 512 = 0
      omega
    rw [isPrivate, if_pos h0, h1, h2, Bool.and_eq_true, decide_eq_true_eq, decide_eq_true_eq]
    omega
  obtain ⟨e, hl, rfl⟩ := (translate_eq_some_iff h hr hpriv).1 hx
  rw [frameOf_leaf h hl v]
  exact ⟨_, hl.own h⟩

/-! ## Frames at their own address -/

/-- the boot tables map the low 4 GiB to itself, and frame P is none of them -/
structure BootMap (m : Machine) (P : ℕ) : Prop where
  kern : ∃ klv, Kern klv m ∧ klv P = none
  identity : ∀ v : U64, v.toNat < 2 ^ 32 → ∃ fl, translate m.mem (frameOf m.gKernelPml4) v = some (v, fl)

/-- under the boot tables, or outside the window -/
def Unshadowed (m : Machine) (f : ℕ) : Prop := getPml4 m = frameOf m.gKernelPml4 ∨ ¬ InWindow (addrOf f)

theorem page_low {n : ℕ} (hn : n < MAX_FRAMES) (hv : frameOf v = n) :
    v.toNat < 2 ^ 32 ∧ (InWindow v ↔ InWindow (addrOf n)) := by
  have ha := addrOf_toNat hn
  have h1 : RESERVED_LOW.toNat = 2097152 := rfl
  have h2 : RESERVED_HIGH.toNat = 16777216 := rfl
  unfold frameOf PAGE_SIZE at hv
  unfold MAX_FRAMES at hn
  simp only [InWindow, BitVec.le_def, BitVec.lt_def, ha, h1, h2]
  omega

variable {P n : ℕ}

/-- **Frames that stay mapped to themselves.** P belongs to no space, f is free; nothing written to them matters. -/
theorem staysSelf (hb : Built m rs X) (hm : BootMap m P) (hP : P ∈ X) (hfree : used m f = false)
    (hact : getPml4 m = frameOf m.gKernelPml4 ∨ getPml4 m ∈ rs) (hn : n < MAX_FRAMES) (hd : Unshadowed m n) :
    StaysSelf m {P, f} n := by
  obtain ⟨L, h, hbor⟩ := hb.borrowed
  obtain ⟨klv, hk, hkP⟩ := hm.kern
  intro mem' hmem v hv
  obtain ⟨hlow, hwin⟩ := page_low hn hv
  obtain ⟨fl, hid⟩ := hm.identity v hlow
  refine ⟨fl, ?_⟩
  rw [← hid]
  show translate mem' (getPml4 m) v = _
  have hrow : ∀ g, klv g ≠ none → mem' g = m.mem g := by
    intro g hg
    refine hmem g ?_
    rintro (rfl | rfl)
    · exact hg hkP
    · obtain ⟨k, hk'⟩ := Option.ne_none_iff_exists'.1 hg
      rw [(hk.used hk').1] at hfree
      cases hfree
  by_cases hK : getPml4 m = frameOf m.gKernelPml4
  · rw [hK]
    exact hk.translate fun g k hg => hrow g (by rw [hg]; simp)
  · have hr := (h.roots _).1 (hact.resolve_left hK)
    refine low_walk hbor h.inv hk hr (fun g hg => ?_) hlow fun hw => (hd.resolve_left hK) (hwin.1 hw)
    rcases hg with ho | hg
    · refine hmem g ?_
      rintro (rfl | rfl)
      · exact ho (h.other g hP).2
      · obtain ⟨x, hx⟩ := Option.ne_none_iff_exists'.1 ho
        rw [(h.inv.own_used hx).1] at hfree
        cases hfree
    · exact hrow g hg

/-- **Which frames are.** -/
theorem selfMapped_iff (hb : Built m rs X) (hm : BootMap m P) (hP : P ∈ X) (hfree : used m f = false)
    (hact : getPml4 m = frameOf m.gKernelPml4 ∨ getPml4 m ∈ rs) (hn : n < MAX_FRAMES) (hpf : n = P ∨ n = f) :
    SelfMapped m n ↔ Unshadowed m n := by
  refine ⟨fun hs => ?_, fun hd => (staysSelf hb hm hP hfree hact hn hd).selfMapped⟩
  by_contra hd
  rw [Unshadowed, not_or, not_not] at hd
  obtain ⟨hK, hw⟩ := hd
  obtain ⟨L, h⟩ := hb.history
  have hr := (h.roots _).1 (hact.resolve_left hK)
  obtain ⟨fl, ht⟩ := hs (addrOf n) (frameOf_addrOf hn)
  obtain ⟨p, ho⟩ := window_own h.inv hr hw ht
  rw [frameOf_addrOf hn] at ho
  rcases hpf with rfl | rfl
  · rw [(h.other n hP).2] at ho
    cases ho
  · rw [(h.inv.own_used ho).1] at hfree
    cases hfree

end Borrowed

end Retux.Vmm
