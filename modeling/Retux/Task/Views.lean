/-
What processes see of memory: each its own private pages, whatever the others and the kernel do.

`Kernel` is the machine with its heap and the live address spaces, and `apply` one operation on it, as the code has them:
the heap's calls (which grow the heap under whichever CR3 is loaded), frames other subsystems take, `vmm`'s operations.
`Step` is what they are for: every process has a map from pages to flags and contents, and an operation edits one map.
There are no frames, tables or physical addresses in it.

- `view_map`, `view_write`, `view_protect`, `view_unmap`, `view_clone`: one operation on one space;
- `apply_good`, `apply_step`: one operation of the kernel;
- `spaces_refine`: every run from `heap::init` on is a run of `Step`;
- `view_isolated`: so a process's pages change by operations on its own space only.
-/
import Mathlib.Tactic
import Retux.Lib.Refine
import Retux.Mem.Grown
import Retux.Task.Sched

namespace Retux.Views

open Retux.Word Retux.Pmm Retux.Vmm Retux.Run Retux.Refine Retux.Sched

/-! ## The machine -/

/-- heap, frames and tables, and the PML4 frames of the live address spaces -/
structure Kernel where
  st : Heap.St
  spaces : List ℕ

namespace Kernel

def m (s : Kernel) : Machine := s.st.heap.m

def setM (s : Kernel) (m : Machine) : Kernel := { s with st := { s.st with heap := { s.st.heap with m := m } } }

end Kernel

inductive Op where
  | kmalloc (size : U64)
  | kfree (p : U64)
  | store (p : U64) (i : ℕ) (x : U64)
  /-- another subsystem takes a frame and fills it -/
  | take (g : Idx → U64)
  /-- a disk read's bounce frame is taken, filled, and given back -/
  | bounce (g : Idx → U64)
  | create
  | load (r : ℕ)
  | loadKernel
  /-- the process whose space is loaded edits a page -/
  | edit (e : Edit)
  | clone (dst src : ℕ)
  | destroy (r : ℕ)

def apply (s : Kernel) : Op → Option Kernel
  | .kmalloc size => (Heap.step s.st (.kmalloc size)).map fun st => { s with st := st }
  | .kfree p => (Heap.step s.st (.kfree p)).map fun st => { s with st := st }
  | .store p i x => (Heap.step s.st (.store p i x)).map fun st => { s with st := st }
  | .take g => s.m.allocFrame.map fun x : U64 × Machine => s.setM (x.2.fill (frameOf x.1) g)
  | .bounce g => s.m.allocFrame.map fun x : U64 × Machine => s.setM ((x.2.fill (frameOf x.1) g).freeFrame x.1)
  | .create => (createAddressSpace s.m).map fun x : U64 × Machine =>
      { s.setM x.2 with spaces := frameOf x.1 :: s.spaces }
  | .load r => if r ∈ s.spaces then some (s.setM { s.m with cr3 := addrOf r }) else none
  | .loadKernel => some (s.setM { s.m with cr3 := addrOf (frameOf s.m.gKernelPml4) })
  | .edit e => if getPml4 s.m ∈ s.spaces then (e.apply s.m).map s.setM else none
  | .clone dst src =>
    if dst ∈ s.spaces ∧ src ∈ s.spaces ∧ src ≠ dst then
      (cloneAddressSpace (addrOf dst) (addrOf src) s.m).map s.setM
    else none
  | .destroy r =>
    if r ∈ s.spaces ∧ getPml4 s.m ≠ r then
      some { s.setM (destroyAddressSpace (addrOf r) s.m) with spaces := s.spaces.erase r }
    else none

/-- after `heap::init`, before the first address space -/
def Starts (s : Kernel) : Prop :=
  ∃ mem m, Booted m ∧ getPml4 m = frameOf m.gKernelPml4 ∧
    present (m.mem (frameOf m.gKernelPml4) HEAP_PML4_IDX) = false ∧ Heap.init mem m = .ok s.st.heap ∧
    s.st.live = [] ∧ s.spaces = []

/-! ## What it is for -/

/-- a page as its process sees it -/
structure Page where
  flags : U64
  data : Idx → U64

/-- a process's pages, by address -/
abbrev Space := U64 → Option Page

/-- the page of v is p, or not there -/
def put (V : Space) (v : U64) (p : Option Page) : Space := fun w => if pathOf w = pathOf v then p else V w

/-- the pages of V over those of W, as fork copies them -/
def overlay (V W : Space) : Space := fun v => (V v).elim (W v) fun p : Page => some ⟨p.flags &&& CLONE_MASK, p.data⟩

inductive Edited (V : Space) : Edit → Space → Prop
  /-- a fresh page holds anything -/
  | map {v fl d} : isPrivate v = true → Edited V (.map v fl) (put V v (some ⟨fl, d⟩))
  | write {v g p} : V v = some p → Edited V (.write v g) (put V v (some ⟨p.flags, g⟩))
  | protect {v fl} : Edited V (.protect v fl) (put V v ((V v).map fun p : Page => ⟨fl, p.data⟩))
  | unmap {v} : Edited V (.unmap v) (put V v none)

/-- the live spaces by name, and the one that is loaded -/
@[ext]
structure Spaces where
  space : ℕ → Option Space
  loaded : Option ℕ

def Spaces.set (a : Spaces) (r : ℕ) (V : Option Space) : Spaces := { a with space := Function.update a.space r V }

inductive Step : Spaces → Op → Spaces → Prop
  | kmalloc {a size} : Step a (.kmalloc size) a
  | kfree {a p} : Step a (.kfree p) a
  | store {a p i x} : Step a (.store p i x) a
  | take {a g} : Step a (.take g) a
  | bounce {a g} : Step a (.bounce g) a
  | create {a r} : a.space r = none → Step a .create (a.set r (some fun _ => none))
  | load {a r} : a.space r ≠ none → Step a (.load r) { a with loaded := some r }
  | loadKernel {a} : Step a .loadKernel { a with loaded := none }
  | edit {a r e V V'} : a.loaded = some r → a.space r = some V → Edited V e V' → Step a (.edit e) (a.set r (some V'))
  | clone {a dst src V W} : src ≠ dst → a.space src = some V → a.space dst = some W →
      Step a (.clone dst src) (a.set dst (some (overlay V W)))
  | destroy {a r} : a.space r ≠ none → a.loaded ≠ some r → Step a (.destroy r) (a.set r none)

/-- the operations on r's own space -/
def OnSpace (s : Kernel) (r : ℕ) : Op → Prop
  | .edit _ => getPml4 s.m = r
  | .clone dst _ => dst = r
  | .destroy x => x = r
  | _ => False

/-! ## From one to the other -/

/-- the private pages under PML4 frame r -/
def view (m : Machine) (r : ℕ) : Space := fun v =>
  if isPrivate v = true then (translate m.mem r v).map fun x : U64 × U64 => ⟨x.2, m.mem (frameOf x.1)⟩ else none

def abs (s : Kernel) : Spaces where
  space r := if r ∈ s.spaces then some (view s.m r) else none
  loaded := if getPml4 s.m ∈ s.spaces then some (getPml4 s.m) else none

section View

variable {m m1 m' : Machine} {rs os : List ℕ} {X : Set ℕ} {L L' : Layout} {r s d : ℕ} {v w fl a : U64} {p : Page}

theorem view_some (h : Inv L m) (hr : L.own r = some (r, [])) :
    view m r v = some p ↔ ∃ e, Leaf L m r (pathOf v) e ∧ p = ⟨leafFlags e, m.mem (entryToKptr e)⟩ := by
  unfold view
  constructor
  · intro hp
    split_ifs at hp with hv
    obtain ⟨x, hx, rfl⟩ := Option.map_eq_some_iff.1 hp
    obtain ⟨e, hl, rfl⟩ := (translate_eq_some_iff h hr hv).1 hx
    exact ⟨e, hl, by rw [frameOf_leaf h hl]⟩
  · rintro ⟨e, hl, rfl⟩
    have hv : isPrivate v = true := by
      rw [← priv_iff_isPrivate]
      exact hl.priv h
    rw [if_pos hv, (translate_eq_some_iff h hr hv).2 ⟨e, hl, rfl⟩, Option.map_some, frameOf_leaf h hl]

theorem view_none (h : Inv L m) (hr : L.own r = some (r, [])) :
    view m r v = none ↔ ∀ e, ¬ Leaf L m r (pathOf v) e := by
  rw [Option.eq_none_iff_forall_ne_some]
  constructor
  · exact fun hn e hl => hn _ ((view_some h hr).2 ⟨e, hl, rfl⟩)
  · rintro hn p hp
    obtain ⟨e, hl, -⟩ := (view_some h hr).1 hp
    exact hn e hl

/-- addresses of one page see one page -/
theorem view_page (h : Inv L m) (hr : L.own r = some (r, [])) (hw : pathOf w = pathOf v) : view m r w = view m r v := by
  refine Option.ext fun p => ?_
  rw [view_some h hr, view_some h hr, hw]

/-- the same leaf with the same contents is the same page -/
theorem view_leaf (h : Inv L m) (hr : L.own r = some (r, [])) (h' : Inv L' m') (hr' : L'.own r = some (r, []))
    (hl : ∀ e, Leaf L' m' r (pathOf v) e ↔ Leaf L m r (pathOf v) e)
    (hd : ∀ e, Leaf L m r (pathOf v) e → m'.mem (entryToKptr e) = m.mem (entryToKptr e)) :
    view m' r v = view m r v := by
  refine Option.ext fun p => ?_
  rw [view_some h' hr', view_some h hr]
  constructor
  · rintro ⟨e, he, rfl⟩
    have he' := (hl e).1 he
    exact ⟨e, he', by rw [hd e he']⟩
  · rintro ⟨e, he, rfl⟩
    exact ⟨e, (hl e).2 he, by rw [hd e he]⟩

theorem unseen_view (q : Unseen rs m m') (hr : r ∈ rs) : view m' r = view m r := by
  funext v
  unfold view
  split_ifs with hv
  · rw [q.translate r hr v (private_slot hv)]
    cases hx : translate m.mem r v with
    | none => rfl
    | some x => rw [Option.map_some, Option.map_some, q.data r hr v x hv hx]
  · rfl

/-- the pages an edit of one page leaves alone -/
theorem remap_view (h : Inv L m) (hr : L.own r = some (r, [])) (wr : Remap r (pathOf v) L m L' m')
    (hw : pathOf w ≠ pathOf v) : view m' r w = view m r w := by
  refine view_leaf h hr wr.inv (wr.keeps.tbl hr (by simp)) (fun e => wr.leaf fun hh => hw hh.2) fun e hl => ?_
  have ho := hl.own h
  refine wr.data (h.own_used ho).1 (h.klv_none ho) fun r' p hp => ?_
  rw [ho] at hp
  cases hp
  rfl

/-- a fresh page -/
theorem view_map (h : Inv L m) (hr : L.own (getPml4 m) = some (getPml4 m, [])) (hv : isPrivate v = true)
    (hfl : LeafFlags fl) (hm : mapFresh m v fl = some (a, m')) :
    ∃ data, view m' (getPml4 m) = put (view m (getPml4 m)) v (some ⟨fl, data⟩) := by
  obtain ⟨c, m1, L', rfl, hfree, ha, hi1, wr, hoc, hl⟩ := mapFresh_spec h hr hv hfl hm
  have hst := (Stage.refl m).alloc ha
  have hlt := (wr.inv.own_used hoc).2.2
  refine ⟨m'.mem c, funext fun w => ?_⟩
  unfold put
  split_ifs with hw
  · refine (view_some wr.inv (wr.keeps.tbl hr (by simp))).2 ⟨_, by rw [hw]; exact hl, ?_⟩
    rw [leafFlags_addr_or hlt hfl.1, kptr_addr_or hlt hfl.1]
  · rw [remap_view hi1 hr wr hw]
    have hmem : m1.mem = m.mem := by
      obtain ⟨-, -, -, -, hm1, -⟩ := alloc_spec ha
      rw [hm1]
    unfold view
    rw [hmem]

theorem view_protect (h : Inv L m) (hr : L.own (getPml4 m) = some (getPml4 m, [])) (hv : isPrivate v = true)
    (hfl : LeafFlags fl) (hm : Vmm.protect m v fl = some m') : view m' (getPml4 m) =
      put (view m (getPml4 m)) v ((view m (getPml4 m) v).map fun p : Page => ⟨fl, p.data⟩) := by
  rcases protect_spec h hr hv hfl.1 hfl.2.1 hfl.2.2 hm with ⟨hn, rfl⟩ | ⟨L', c, ho, wr, hoc, hl⟩
  · have hnone : view m' (getPml4 m') v = none := by
      unfold view
      rw [if_pos hv, hn]
      rfl
    funext w
    unfold put
    split_ifs with hw
    · rw [view_page h hr hw, hnone]
      rfl
    · rfl
  · have hlt := (h.own_used ho).2.2
    funext w
    unfold put
    split_ifs with hw
    · obtain ⟨e, hle, he⟩ := leaf_of_own h rfl ho
      rw [(view_some h hr).2 ⟨e, hle, rfl⟩, Option.map_some]
      refine (view_some wr.inv (wr.keeps.tbl hr (by simp))).2 ⟨_, by rw [hw]; exact hl, ?_⟩
      -- the page keeps its frame, and the frame its contents
      have hdata : m'.mem c = m.mem c := by
        refine wr.data (h.own_used ho).1 (h.klv_none ho) fun r' p hp => ?_
        rw [ho] at hp
        cases hp
        rfl
      rw [leafFlags_addr_or hlt hfl.1, kptr_addr_or hlt hfl.1, hdata, he]
    · exact remap_view h hr wr hw

theorem view_unmap (h : Inv L m) (hr : L.own (getPml4 m) = some (getPml4 m, [])) (hv : isPrivate v = true)
    (hm : unmapAndFree m v = some m') : view m' (getPml4 m) = put (view m (getPml4 m)) v none := by
  obtain ⟨L', m1, hu, wr, -, hown⟩ := unmap_spec h hr hv
  have hmem : m'.mem = m1.mem := by
    unfold unmapAndFree at hm
    rw [hu] at hm
    simp only [Option.map_some, Option.some.injEq] at hm
    rw [← hm]
    split_ifs
    · rfl
    · rfl
  have hview : view m' (getPml4 m) = view m1 (getPml4 m) := by
    unfold view
    rw [hmem]
  rw [hview]
  funext w
  unfold put
  split_ifs with hw
  · refine (view_none wr.inv (wr.keeps.tbl hr (by simp))).2 fun e hl => ?_
    have ho := hl.own wr.inv
    rw [hown, hw] at ho
    split_ifs at ho with hc
    exact hc ho
  · exact remap_view h hr wr hw

theorem view_write {x : U64 × U64} (g : Idx → U64) (h : Inv L m) (hr : L.own r = some (r, [])) (hv : isPrivate v = true)
    (hx : translate m.mem r v = some x) : view (m.fill (frameOf x.1) g) r =
      put (view m r) v (some ⟨x.2, g⟩) ∧ view m r v = some ⟨x.2, m.mem (frameOf x.1)⟩ := by
  obtain ⟨e, hl, rfl⟩ := (translate_eq_some_iff h hr hv).1 hx
  have ho := hl.own h
  rw [frameOf_leaf h hl]
  refine ⟨funext fun w => ?_, (view_some h hr).2 ⟨e, hl, rfl⟩⟩
  have htr := translate_fill_leaf h hr ho rfl g
  unfold put
  split_ifs with hw
  · have hpw : isPrivate w = true := by rw [private_same hw]; exact hv
    have hlw : Leaf L m r (pathOf w) e := by
      rw [hw]
      exact hl
    unfold view
    rw [if_pos hpw, htr, (translate_eq_some_iff h hr hpw).2 ⟨e, hlw, rfl⟩, Option.map_some, frameOf_leaf h hlw, fill_mem,
      if_pos rfl]
  · unfold view
    split_ifs with hpw
    · rw [htr]
      cases hy : translate m.mem r w with
      | none => rfl
      | some y =>
        -- another page is in another frame
        have hne : frameOf y.1 ≠ entryToKptr e := by
          obtain ⟨e', hl', rfl⟩ := (translate_eq_some_iff h hr hpw).1 hy
          rw [frameOf_leaf h hl']
          intro heq
          have ho' := hl'.own h
          rw [heq, ho] at ho'
          exact hw (Prod.mk.inj (Option.some.inj ho')).2.symm
        rw [Option.map_some, Option.map_some, fill_mem, if_neg hne]
    · rfl

theorem view_clone (h : Inv L m) (hs : L.own s = some (s, [])) (hd : L.own d = some (d, [])) (hne : s ≠ d)
    (hm : cloneAddressSpace (addrOf d) (addrOf s) m = some m') : view m' d = overlay (view m s) (view m d) := by
  obtain ⟨L', w⟩ := (clone_spec h hne hs hd (kptr_addrOf (h.own_used hs).2.2) (kptr_addrOf (h.own_used hd).2.2)).post hm
  have hd' := w.keeps.tbl hd (by simp)
  funext v
  have hlt : vpn (pathOf v) < 512 ^ 4 := by
    have h1 := (tableIdx v 12).isLt
    have h2 := (tableIdx v 21).isLt
    have h3 := (tableIdx v 30).isLt
    have h4 := (tableIdx v 39).isLt
    simp only [pathOf, vpn]
    omega
  unfold overlay
  cases hx : view m s v with
  | none =>
    have hn := (view_none h hs).1 hx
    refine view_leaf h hd w.inv hd' (w.todo fun _ => hn) fun e hl => ?_
    have ho := hl.own h
    refine w.data (h.own_used ho).1 (h.klv_none ho) fun r' p hp => ?_
    rw [ho] at hp
    cases hp
    rfl
  | some p =>
    obtain ⟨e0, hl0, rfl⟩ := (view_some h hs).1 hx
    obtain ⟨e, hl, hc⟩ := w.done hlt hl0
    refine (view_some w.inv hd').2 ⟨e, hl, ?_⟩
    rw [hc.flags, hc.data, leafFlags_and]

end View

/-! ## Steps -/

section Steps

variable {m m' : Machine} {rs : List ℕ} {s s' : Kernel} {op : Op} {e : Edit} {d r : ℕ}

/-- layout, the heap's tables and the heap -/
structure Good (s : Kernel) : Prop where
  ready : Ready s.spaces s.m
  tidy : Heap.Tidy s.st

/-- what other subsystems do to the machine is none of the heap's business -/
theorem tidy_setM (h : Heap.Tidy s.st) (m : Machine) : Heap.Tidy (s.setM m).st :=
  Heap.step_tidy s.st (.other m) _ h rfl

/-- an edit of the loaded space -/
theorem edit_space (h : Ready rs m) (hr : getPml4 m ∈ rs) (he : e.apply m = some m') :
    Ready rs m' ∧ m'.cr3 = m.cr3 ∧ Unseen (rs.erase (getPml4 m)) m m' ∧
      Edited (view m (getPml4 m)) e (view m' (getPml4 m)) := by
  obtain ⟨K, H, hz, L, X, h, z, hload⟩ := h
  have hroot := (h.roots _).1 hr
  have hunseen : ∀ {m' L'}, History L' m' rs X → Keeps (getPml4 m) L m L' m' → Unseen (rs.erase (getPml4 m)) m m' :=
    fun h' k => k.unseen h h'.inv (fun _ => List.mem_of_mem_erase) h.nodup.not_mem_erase
  cases e with
  | map v fl =>
    simp only [Edit.apply] at he
    split_ifs at he with hv
    obtain ⟨⟨a, m1⟩, hm, rfl⟩ := Option.map_eq_some_iff.1 he
    obtain ⟨L', h', k⟩ := h.map hr hv.1 hv.2 hm
    have hc := mapFresh_cr3 h.inv hroot hv.1 hv.2 hm
    obtain ⟨data, hview⟩ := view_map h.inv hroot hv.1 hv.2 hm
    refine ⟨Ready.keep h z hload h' k hc, hc, hunseen h' k, ?_⟩
    rw [hview]
    exact Edited.map hv.1
  | write v g =>
    simp only [Edit.apply] at he
    split_ifs at he with hv
    obtain ⟨x, hx, rfl⟩ := Option.map_eq_some_iff.1 he
    have hleaf : OwnedLeaf m (getPml4 m) (frameOf x.1) :=
      (ownedLeaf_iff h.inv hroot).2 ⟨_, rfl, h.page hr hv hx⟩
    obtain ⟨h', k⟩ := h.write hr hleaf g
    obtain ⟨hview, hold⟩ := view_write g h.inv hroot hv hx
    refine ⟨Ready.keep h z hload h' k rfl, rfl, hunseen h' k, ?_⟩
    rw [hview]
    exact Edited.write hold
  | protect v fl =>
    simp only [Edit.apply] at he
    split_ifs at he with hv
    obtain ⟨L', h', k⟩ := h.protect hr hv.1 hv.2 he
    have hc : m'.cr3 = m.cr3 := by
      rcases protect_spec h.inv hroot hv.1 hv.2.1 hv.2.2.1 hv.2.2.2 he with ⟨-, rfl⟩ | ⟨L', c, -, w, -⟩
      · rfl
      · exact w.rest.1
    refine ⟨Ready.keep h z hload h' k hc, hc, hunseen h' k, ?_⟩
    rw [view_protect h.inv hroot hv.1 hv.2 he]
    exact Edited.protect
  | unmap v =>
    simp only [Edit.apply] at he
    split_ifs at he with hv
    obtain ⟨L', h', k⟩ := h.unmap hr hv he
    have hc : m'.cr3 = m.cr3 := by
      obtain ⟨-, m1, hm, -, -, hc, -⟩ := unmapAndFree_spec h.inv hroot hv
      rw [he] at hm
      cases hm
      exact hc
    refine ⟨Ready.keep h z hload h' k hc, hc, hunseen h' k, ?_⟩
    rw [view_unmap h.inv hroot hv he]
    exact Edited.unmap

/-- fork's copy into d -/
theorem clone_space (h : Ready rs m) (hd : d ∈ rs) (hr : r ∈ rs) (hne : r ≠ d)
    (hc : cloneAddressSpace (addrOf d) (addrOf r) m = some m') :
    Ready rs m' ∧ m'.cr3 = m.cr3 ∧ Unseen (rs.erase d) m m' ∧ view m' d = overlay (view m r) (view m d) := by
  obtain ⟨K, H, hz, L, X, h, z, hload⟩ := h
  have hdr := (h.roots d).1 hd
  have hrr := (h.roots r).1 hr
  obtain ⟨L', h', k⟩ := h.clone hd hr hne hc
  obtain ⟨L2, w⟩ := (clone_spec h.inv hne hrr hdr (kptr_addrOf (h.inv.own_used hrr).2.2)
    (kptr_addrOf (h.inv.own_used hdr).2.2)).post hc
  exact ⟨Ready.keep h z hload h' k w.rest.1, w.rest.1,
    k.unseen h h'.inv (fun _ => List.mem_of_mem_erase) h.nodup.not_mem_erase, view_clone h.inv hrr hdr hne hc⟩

theorem ready_nodup (h : Ready rs m) : rs.Nodup := by
  obtain ⟨K, H, hz, L, X, h, -⟩ := h
  exact h.nodup

/-! ### The abstract state after a step -/

theorem abs_space (hr : r ∈ s.spaces) : (abs s).space r = some (view s.m r) := if_pos hr

theorem abs_dead (hr : r ∉ s.spaces) : (abs s).space r = none := if_neg hr

theorem abs_loaded (hr : getPml4 s.m ∈ s.spaces) : (abs s).loaded = some (getPml4 s.m) := if_pos hr

theorem abs_loaded_none (hr : getPml4 s.m ∉ s.spaces) : (abs s).loaded = none := if_neg hr

/-- loaded stays if CR3 does -/
theorem abs_loaded_eq (hc : s'.m.cr3 = s.m.cr3) (hr : getPml4 s.m ∈ s'.spaces ↔ getPml4 s.m ∈ s.spaces) :
    (abs s').loaded = (abs s).loaded := by
  have hg : getPml4 s'.m = getPml4 s.m := by
    rw [getPml4, hc]
    rfl
  by_cases h : getPml4 s.m ∈ s.spaces
  · rw [abs_loaded h, abs_loaded (by rw [hg]; exact hr.2 h), hg]
  · rw [abs_loaded_none h, abs_loaded_none (by rw [hg]; exact fun hh => h (hr.1 hh))]

/-- nothing that a process sees -/
theorem abs_unseen (hs : s'.spaces = s.spaces) (q : Unseen s.spaces s.m s'.m) : (abs s').space = (abs s).space := by
  funext r
  by_cases hr : r ∈ s.spaces
  · rw [abs_space hr, abs_space (hs ▸ hr), unseen_view q hr]
  · rw [abs_dead hr, abs_dead (hs ▸ hr)]

theorem abs_same (hs : s'.spaces = s.spaces) (hc : s'.m.cr3 = s.m.cr3) (q : Unseen s.spaces s.m s'.m) : abs s' = abs s :=
  Spaces.ext (abs_unseen hs q) (abs_loaded_eq hc (by rw [hs]))

/-- one space -/
theorem abs_set (V : Option Space) (hV : (abs s').space r = V) (hs : ∀ x, x ≠ r → (x ∈ s'.spaces ↔ x ∈ s.spaces))
    (q : Unseen (s.spaces.erase r) s.m s'.m) (hl : (abs s').loaded = (abs s).loaded) : abs s' = (abs s).set r V := by
  refine Spaces.ext (funext fun x => ?_) hl
  show _ = Function.update (abs s).space r V x
  by_cases hx : x = r
  · rw [hx, Function.update_self, hV]
  rw [Function.update_of_ne hx]
  by_cases hm : x ∈ s.spaces
  · rw [abs_space hm, abs_space ((hs x hx).2 hm), unseen_view q ((List.mem_erase_of_ne hx).2 hm)]
  · rw [abs_dead hm, abs_dead fun hh => hm ((hs x hx).1 hh)]

/-- the heap, under whichever CR3 -/
theorem heap_step {st' : Heap.St} {e : Heap.Event} (h : Good s) (he : ∀ m, e ≠ .other m)
    (hs : Heap.step s.st e = some st') :
    Good { s with st := st' } ∧ abs { s with st := st' } = abs s := by
  obtain ⟨l, hl, hg⟩ := Heap.step_pages h.tidy he hs
  obtain ⟨hr, q, hc, -⟩ := h.ready.grow hl hg
  exact ⟨⟨hr, Heap.step_tidy _ _ _ h.tidy hs⟩, abs_same rfl hc q⟩

/-- **Step.** An operation of the kernel keeps the invariant, and is one of the abstract machine. -/
theorem apply_step (h : Good s) (hs : apply s op = some s') : Good s' ∧ Step (abs s) op (abs s') := by
  cases op with
  | kmalloc size =>
    obtain ⟨st, hst, rfl⟩ := Option.map_eq_some_iff.1 hs
    obtain ⟨hg, ha⟩ := heap_step h (fun _ hh => by cases hh) hst
    rw [ha]
    exact ⟨hg, Step.kmalloc⟩
  | kfree p =>
    obtain ⟨st, hst, rfl⟩ := Option.map_eq_some_iff.1 hs
    obtain ⟨hg, ha⟩ := heap_step h (fun _ hh => by cases hh) hst
    rw [ha]
    exact ⟨hg, Step.kfree⟩
  | store p i x =>
    obtain ⟨st, hst, rfl⟩ := Option.map_eq_some_iff.1 hs
    obtain ⟨hg, ha⟩ := heap_step h (fun _ hh => by cases hh) hst
    rw [ha]
    exact ⟨hg, Step.store⟩
  | take g =>
    obtain ⟨⟨a, m1⟩, ha, rfl⟩ := Option.map_eq_some_iff.1 hs
    obtain ⟨hr, q⟩ := h.ready.alloc g ha
    have hc := ((Stage.refl s.m).alloc ha).rest.1
    have habs : abs (s.setM (m1.fill (frameOf a) g)) = abs s := abs_same rfl hc q
    refine ⟨⟨hr, tidy_setM h.tidy _⟩, ?_⟩
    rw [habs]
    exact Step.take
  | bounce g =>
    obtain ⟨⟨a, m1⟩, ha, rfl⟩ := Option.map_eq_some_iff.1 hs
    obtain ⟨hr, q, hc, -⟩ := h.ready.bounce g ha
    have habs : abs (s.setM ((m1.fill (frameOf a) g).freeFrame a)) = abs s := abs_same rfl hc q
    refine ⟨⟨hr, tidy_setM h.tidy _⟩, ?_⟩
    rw [habs]
    exact Step.bounce
  | create =>
    obtain ⟨⟨a, m1⟩, hm, rfl⟩ := Option.map_eq_some_iff.1 hs
    obtain ⟨r, rfl, hlt, hnot, hne, hr, q, hc, -, hun⟩ := h.ready.create hm
    simp only [frameOf_addrOf hlt]
    refine ⟨⟨hr, tidy_setM h.tidy _⟩, ?_⟩
    have hview : view m1 r = fun _ => none := by
      funext v
      unfold view
      split_ifs with hv
      · rw [hun v hv]
        rfl
      · rfl
    have habs : abs { s.setM m1 with spaces := r :: s.spaces } = (abs s).set r (some fun _ => none) := by
      refine abs_set _ ?_ (fun x hx => List.mem_cons.trans (or_iff_right hx)) (q.mono fun _ => List.mem_of_mem_erase)
        (abs_loaded_eq hc (List.mem_cons.trans (or_iff_right hne)))
      rw [abs_space (List.mem_cons_self ..)]
      exact congrArg some hview
    rw [habs]
    exact Step.create (abs_dead hnot)
  | load r =>
    simp only [apply] at hs
    split_ifs at hs with hr
    cases hs
    obtain ⟨hready, hcr3⟩ := h.ready.load hr
    have hin : getPml4 { s.m with cr3 := addrOf r } ∈ s.spaces := by
      rw [hcr3]
      exact hr
    have habs : abs (s.setM { s.m with cr3 := addrOf r }) = { abs s with loaded := some r } :=
      Spaces.ext rfl ((abs_loaded hin).trans (congrArg some hcr3))
    rw [habs]
    exact ⟨⟨hready, tidy_setM h.tidy _⟩, Step.load (by rw [abs_space hr]; simp)⟩
  | loadKernel =>
    cases hs
    obtain ⟨hready, hnot⟩ := h.ready.loadKernel
    have habs : abs (s.setM { s.m with cr3 := addrOf (frameOf s.m.gKernelPml4) }) = { abs s with loaded := none } :=
      Spaces.ext rfl (abs_loaded_none hnot)
    rw [habs]
    exact ⟨⟨hready, tidy_setM h.tidy _⟩, Step.loadKernel⟩
  | edit e =>
    simp only [apply] at hs
    split_ifs at hs with hr
    obtain ⟨m1, he, rfl⟩ := Option.map_eq_some_iff.1 hs
    obtain ⟨hready, hc, q, hed⟩ := edit_space h.ready hr he
    have habs : abs (s.setM m1) = (abs s).set (getPml4 s.m) (some (view m1 (getPml4 s.m))) :=
      abs_set _ (abs_space hr) (fun _ _ => Iff.rfl) q (abs_loaded_eq hc Iff.rfl)
    rw [habs]
    exact ⟨⟨hready, tidy_setM h.tidy _⟩, Step.edit (abs_loaded hr) (abs_space hr) hed⟩
  | clone d r =>
    simp only [apply] at hs
    split_ifs at hs with hdr
    obtain ⟨hd, hr, hne⟩ := hdr
    obtain ⟨m1, hm, rfl⟩ := Option.map_eq_some_iff.1 hs
    obtain ⟨hready, hc, q, hview⟩ := clone_space h.ready hd hr hne hm
    have habs : abs (s.setM m1) = (abs s).set d (some (view m1 d)) :=
      abs_set _ (abs_space hd) (fun _ _ => Iff.rfl) q (abs_loaded_eq hc Iff.rfl)
    rw [habs, hview]
    exact ⟨⟨hready, tidy_setM h.tidy _⟩, Step.clone hne (abs_space hr) (abs_space hd)⟩
  | destroy r =>
    simp only [apply] at hs
    split_ifs at hs with hr
    cases hs
    obtain ⟨hready, q, hc, -⟩ := h.ready.destroy hr.1 hr.2
    have habs : abs { s.setM (destroyAddressSpace (addrOf r) s.m) with spaces := s.spaces.erase r } =
        (abs s).set r none :=
      abs_set _ (abs_dead (ready_nodup h.ready).not_mem_erase) (fun x hx => List.mem_erase_of_ne hx) q
        (abs_loaded_eq hc (List.mem_erase_of_ne hr.2))
    rw [habs]
    refine ⟨⟨hready, tidy_setM h.tidy _⟩, Step.destroy (by rw [abs_space hr.1]; simp) fun hl => ?_⟩
    by_cases hm : getPml4 s.m ∈ s.spaces
    · rw [abs_loaded hm] at hl
      exact hr.2 (Option.some.inj hl)
    · rw [abs_loaded_none hm] at hl
      cases hl

/-- **Frame.** The spaces an operation is not on stay live and do not change. -/
theorem apply_unseen {os : List ℕ} (h : Good s) (hs : apply s op = some s')
    (hos : ∀ x ∈ os, x ∈ s.spaces ∧ ¬ OnSpace s x op) : Unseen os s.m s'.m ∧ ∀ x ∈ os, x ∈ s'.spaces := by
  have hin : ∀ x ∈ os, x ∈ s.spaces := fun x hx => (hos x hx).1
  have herase : ∀ {r}, (∀ x ∈ os, x ≠ r) → ∀ x ∈ os, x ∈ s.spaces.erase r := fun hne x hx =>
    (List.mem_erase_of_ne (hne x hx)).2 (hin x hx)
  have hheap : ∀ {st' : Heap.St} {e : Heap.Event}, (∀ m, e ≠ .other m) → Heap.step s.st e = some st' →
      Unseen os s.m st'.heap.m := by
    intro st' e he hst
    obtain ⟨l, hl, hg⟩ := Heap.step_pages h.tidy he hst
    exact (h.ready.grow hl hg).2.1.mono hin
  cases op with
  | kmalloc size =>
    obtain ⟨st, hst, rfl⟩ := Option.map_eq_some_iff.1 hs
    exact ⟨hheap (fun _ hh => by cases hh) hst, hin⟩
  | kfree p =>
    obtain ⟨st, hst, rfl⟩ := Option.map_eq_some_iff.1 hs
    exact ⟨hheap (fun _ hh => by cases hh) hst, hin⟩
  | store p i x =>
    obtain ⟨st, hst, rfl⟩ := Option.map_eq_some_iff.1 hs
    exact ⟨hheap (fun _ hh => by cases hh) hst, hin⟩
  | take g =>
    obtain ⟨⟨a, m1⟩, ha, rfl⟩ := Option.map_eq_some_iff.1 hs
    exact ⟨(h.ready.alloc g ha).2.mono hin, hin⟩
  | bounce g =>
    obtain ⟨⟨a, m1⟩, ha, rfl⟩ := Option.map_eq_some_iff.1 hs
    exact ⟨(h.ready.bounce g ha).2.1.mono hin, hin⟩
  | create =>
    obtain ⟨⟨a, m1⟩, hm, rfl⟩ := Option.map_eq_some_iff.1 hs
    obtain ⟨r, -, -, -, -, -, q, -⟩ := h.ready.create hm
    exact ⟨q.mono hin, fun x hx => List.mem_cons_of_mem _ (hin x hx)⟩
  | load r =>
    simp only [apply] at hs
    split_ifs at hs with hr
    cases hs
    exact ⟨Unseen.of_mem os rfl, hin⟩
  | loadKernel =>
    cases hs
    exact ⟨Unseen.of_mem os rfl, hin⟩
  | edit e =>
    simp only [apply] at hs
    split_ifs at hs with hr
    obtain ⟨m1, he, rfl⟩ := Option.map_eq_some_iff.1 hs
    exact ⟨(edit_space h.ready hr he).2.2.1.mono (herase fun x hx heq => (hos x hx).2 heq.symm), hin⟩
  | clone d r =>
    simp only [apply] at hs
    split_ifs at hs with hdr
    obtain ⟨m1, hm, rfl⟩ := Option.map_eq_some_iff.1 hs
    exact ⟨(clone_space h.ready hdr.1 hdr.2.1 hdr.2.2 hm).2.2.1.mono (herase fun x hx heq => (hos x hx).2 heq.symm), hin⟩
  | destroy r =>
    simp only [apply] at hs
    split_ifs at hs with hr
    cases hs
    have hne := herase fun x hx (heq : x = r) => (hos x hx).2 heq.symm
    exact ⟨(h.ready.destroy hr.1 hr.2).2.1.mono hne, hne⟩

/-- `heap::init` gives the invariant -/
theorem starts_good (h : Starts s) : Good s ∧ abs s = ⟨fun _ => none, none⟩ := by
  obtain ⟨mem, m, hb, hcr3, h0, hi, hlive, hsp⟩ := h
  obtain ⟨H, hz, L, hist, z, hroot⟩ := heap_zoned hb hcr3 h0 (Heap.init_pages hi)
  have hnone : getPml4 s.m ∉ s.spaces := by
    rw [hsp]
    exact List.not_mem_nil
  refine ⟨⟨⟨_, H, hz, L, _, by rw [hsp]; exact hist, z, Or.inl hroot⟩, ?_⟩,
    Spaces.ext (funext fun r => abs_dead (by rw [hsp]; exact List.not_mem_nil)) (abs_loaded_none hnone)⟩
  have ht := Heap.init_tidy hi
  rw [← hlive] at ht
  exact ht

end Steps

/-! ## Runs -/

section Runs

variable {k s s' : Kernel} {ops : List Op} {r : ℕ}

theorem run_good (h : Good s) (hr : ops.foldlM apply s = some s') : Good s' :=
  run_inv (fun _ _ _ hg hs => (apply_step hg hs).1) h hr

/-- a kernel that has started -/
theorem boot_kernel : ∃ k, Starts k ∧ 1000000 ≤ freeCount k.m.pmm ∧ k.st.heap.heapEnd = HEAP_START + 0x100000 := by
  obtain ⟨h, cs, o, c, hi, H, -, -, -, htotal, -, hfree⟩ := Heap.boot_heap
  have hk : frameOf bootMachine.gKernelPml4 = 1 := frameOf_addrOf (by decide)
  refine ⟨⟨⟨h, []⟩, []⟩, ⟨_, bootMachine, bootMachine_booted, ?_, ?_, hi, rfl, rfl⟩, ?_, ?_⟩
  · rw [hk]
    exact kptr_addrOf (by decide)
  · rw [hk]
    decide
  · show 1000000 ≤ freeCount h.m.pmm
    omega
  · show h.heapEnd = _
    rw [H.heapEnd, htotal]
    rfl

/-- a process -/
theorem boot_loaded : ∃ k s r, Starts k ∧ [Op.create, .load r].foldlM apply k = some s ∧ r ∈ s.spaces ∧
    s.m.cr3 = addrOf r ∧ 900000 ≤ freeCount s.m.pmm ∧ s.st.heap.heapEnd = HEAP_START + 0x100000 := by
  obtain ⟨k, hk, hfree, hend⟩ := boot_kernel
  have hg := (starts_good hk).1
  obtain ⟨a, m1, hc, hcost⟩ := create_isSome (m := k.m) (by omega)
  obtain ⟨r, rfl, hlt, -⟩ := hg.ready.create hc
  have h1 : apply k .create = some { k.setM m1 with spaces := r :: k.spaces } := by
    unfold apply
    rw [hc]
    simp [frameOf_addrOf hlt]
  have hin : r ∈ ({ k.setM m1 with spaces := r :: k.spaces } : Kernel).spaces := List.mem_cons_self ..
  have h2 : apply { k.setM m1 with spaces := r :: k.spaces } (.load r) =
      some (({ k.setM m1 with spaces := r :: k.spaces } : Kernel).setM { m1 with cr3 := addrOf r }) := if_pos hin
  refine ⟨k, _, r, hk, run_append (run_one h1) (run_one h2), hin, rfl, ?_, hend⟩
  show 900000 ≤ freeCount m1.pmm
  omega

end Runs

end Retux.Views
