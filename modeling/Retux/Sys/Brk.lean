/-
The program break (`sys_brk` in `cpu/syscall.cpp`) over whole call sequences.

The break counts bytes and the tables count pages. `HeapExact` says that the two agree: of the pages from `brk_start` to
16 MiB exactly those below the page-rounded break are mapped, each with USER_RW and a frame that no other page of any
task has. `BrkGood` says what a call does besides. Between calls the program may write its pages.

- `growRange_spec`, `shrinkRange_spec`: the two loops, for any pages of the window;
- `sysBrk_spec`: one call, from any state where break and tables agree;
- `brk_exact`: so at every point of every sequence of calls and writes.
-/
import Mathlib.Tactic
import Retux.Lib.Run
import Retux.Sys.Mmap

namespace Retux.Sys

open Retux.Word Retux.Pmm Retux.Vmm Retux.Loop

/-! ## Model -/

/-- user page flags for brk and mmap growth -/
def USER_RW : U64 := PRESENT ||| USER ||| WRITABLE ||| NO_EXECUTE

/-- 16 MiB, the end of the private window -/
def BRK_CEILING : U64 := 0x0000000001000000

/-- the machine, and the running task's break -/
structure BrkProc where
  m : Machine
  brkStart : U64
  brkCur : U64

def sysBrk (p : BrkProc) (addr : U64) : Option (U64 × BrkProc) :=
  if addr = 0 ∨ addr < p.brkStart then some (p.brkCur, p)
  else if BRK_CEILING < addr then some (p.brkCur, p)
  else
    let oldTop := pageUp p.brkCur
    let newTop := pageUp addr
    let m :=
      if oldTop < newTop then forPages (fun m va => mapZeroed m va USER_RW) newTop FUEL oldTop p.m
      else if newTop < oldTop then forPages unmapAndFree oldTop FUEL newTop p.m
      else some p.m
    m.map fun m => (addr, { p with m := m, brkCur := addr })

/-! ## What a call should do -/

/-- requests that are turned down -/
def Rejected (p : BrkProc) (addr : U64) : Prop := addr = 0 ∨ addr < p.brkStart ∨ BRK_CEILING < addr

/-- a page of the break's range -/
structure HeapPage (p : BrkProc) (va : U64) : Prop where
  aligned : va.toNat % 4096 = 0
  ge : p.brkStart ≤ va
  lt : va < BRK_CEILING

/-- the pages of the range that are mapped are those below the break; rs are the address spaces of all tasks -/
structure HeapExact (rs : List ℕ) (p : BrkProc) : Prop where
  ge : p.brkStart ≤ p.brkCur
  le : p.brkCur ≤ BRK_CEILING
  mapped : ∀ {va}, HeapPage p va → va < pageUp p.brkCur →
    ∃ c, c < MAX_FRAMES ∧ translate p.m.mem (getPml4 p.m) va = some (addrOf c, USER_RW) ∧ used p.m c = true ∧
      ∀ r ∈ rs, ∀ w x, isPrivate w = true → translate p.m.mem r w = some x → frameOf x.1 = c →
        r = getPml4 p.m ∧ pathOf w = pathOf va
  unmapped : ∀ {va}, HeapPage p va → pageUp p.brkCur ≤ va → translate p.m.mem (getPml4 p.m) va = none

/-- what a call does, from p to p' -/
structure BrkGood (p : BrkProc) (addr ret : U64) (p' : BrkProc) : Prop where
  ret : ret = p'.brkCur
  rejected : Rejected p addr → p' = p
  accepted : ¬ Rejected p addr → p'.brkCur = addr
  /-- pages that stay mapped keep frame, flags and contents -/
  kept : ∀ {w x}, isPrivate w = true → translate p.m.mem (getPml4 p.m) w = some x →
    translate p'.m.mem (getPml4 p.m) w ≠ none → translate p'.m.mem (getPml4 p.m) w = some x ∧
      p'.m.mem (frameOf x.1) = p.m.mem (frameOf x.1)
  /-- new pages read zero -/
  zero : ∀ {w x}, isPrivate w = true → translate p.m.mem (getPml4 p.m) w = none →
    translate p'.m.mem (getPml4 p.m) w = some x → p'.m.mem (frameOf x.1) = fun _ => 0
  /-- the frames of dropped pages are freed, once each, and nothing else is -/
  freed : ∃ as, p'.m.freed = as ++ p.m.freed ∧ (as.map frameOf).Nodup ∧
    (∀ f, f ∈ as.map frameOf ↔ ∃ w x, isPrivate w = true ∧ translate p.m.mem (getPml4 p.m) w = some x ∧
      frameOf x.1 = f ∧ translate p'.m.mem (getPml4 p.m) w = none) ∧
    ∀ f ∈ as.map frameOf, used p'.m f = false
  /-- pages outside the range are not touched -/
  outside : ∀ {w}, isPrivate w = true → (∀ va, HeapPage p va → pathOf w ≠ pathOf va) →
    translate p'.m.mem (getPml4 p.m) w = translate p.m.mem (getPml4 p.m) w

/-! ## Pages of the window -/

/-- an aligned address of the private window of slot 0 -/
structure WindowPage (va : U64) : Prop where
  aligned : va.toNat % 4096 = 0
  ge : 0x200000 ≤ va.toNat
  lt : va.toNat < 0x1000000

theorem WindowPage.private {va : U64} (h : WindowPage va) : isPrivate va = true := by
  have hge := h.ge
  have hlt := h.lt
  have h0 : tableIdx va 39 = 0 := by
    apply Fin.ext
    simp only [tableIdx, Fin.val_zero]
    omega
  unfold isPrivate
  rw [if_pos h0]
  simp only [show RESERVED_LOW.toNat = 0x200000 from rfl, show RESERVED_HIGH.toNat = 0x1000000 from rfl,
    Bool.and_eq_true, decide_eq_true_eq]
  omega

theorem WindowPage.path {va va' : U64} (h : WindowPage va) (h' : WindowPage va') (hp : pathOf va = pathOf va') :
    va = va' := by
  obtain ⟨ha, -, hlt⟩ := h
  obtain ⟨ha', -, hlt'⟩ := h'
  simp only [pathOf, List.cons.injEq, and_true, tableIdx, Fin.mk.injEq] at hp
  apply BitVec.eq_of_toNat_eq
  omega

section Window

variable {m m' : Machine} {rs : List ℕ} {X : Set ℕ} {r : ℕ} {v w a fl : U64} {mem : ℕ → Idx → U64}

/-! ## One page -/

theorem mapFresh_freed (hm : mapFresh m v fl = some (a, m')) (hb : Built m rs X) (hr : getPml4 m ∈ rs)
    (hv : isPrivate v = true) (hfl : LeafFlags fl) : m'.freed = m.freed := by
  obtain ⟨L, h⟩ := hb.history
  obtain ⟨c, m1, L', -, -, ha, -, wr, -, -⟩ := mapFresh_spec h.inv ((h.roots _).1 hr) hv hfl hm
  exact wr.rest.2.2.trans ((Stage.refl m).alloc ha).rest.2.2

/-- the page of v, mapped to frame address a before, is unmapped and its frame freed -/
structure Dropped (m : Machine) (v a : U64) (m' : Machine) : Prop where
  pml4 : getPml4 m' = getPml4 m
  page : ∀ {w}, isPrivate w = true → pathOf w = pathOf v → translate m'.mem (getPml4 m) w = none
  other : ∀ {w}, isPrivate w = true → pathOf w ≠ pathOf v →
    translate m'.mem (getPml4 m) w = translate m.mem (getPml4 m) w
  data : ∀ {w x}, isPrivate w = true → pathOf w ≠ pathOf v → translate m.mem (getPml4 m) w = some x →
    m'.mem (frameOf x.1) = m.mem (frameOf x.1)
  freed : m'.freed = a :: m.freed
  used : ∀ f, used m' f = true ↔ used m f = true ∧ f ≠ frameOf a

theorem unmapAndFree_dropped (hb : Built m rs X) (hr : getPml4 m ∈ rs) (hv : isPrivate v = true)
    (ht : translate m.mem (getPml4 m) v = some (a, fl)) :
    ∃ m', unmapAndFree m v = some m' ∧ Built m' rs X ∧ Dropped m v a m' := by
  obtain ⟨L, h⟩ := hb.history
  have hroot := (h.roots _).1 hr
  obtain ⟨e, hl, heq⟩ := (translate_eq_some_iff h.inv hroot hv).1 ht
  have ho := hl.own h.inv
  obtain ⟨-, hpos, hlt⟩ := h.inv.own_used ho
  have hframe : frameOf a = entryToKptr e := by
    rw [(Prod.mk.inj heq).1]
    exact frameOf_leaf h.inv hl v
  have hphys : virtToPhys m v = a := by
    rw [virtToPhys_eq, ht]
    rfl
  have ha0 : a ≠ 0 := by
    rintro rfl
    have : (0 : ℕ) = entryToKptr e := hframe
    omega
  obtain ⟨L1, m1, hu, wr, hpmm, hown⟩ := unmap_spec h.inv hroot hv
  have hmem : ∀ {m2}, unmapAndFree m v = some m2 → m2.mem = m1.mem ∧ m2.freed = a :: m1.freed ∧ m2.cr3 = m1.cr3 := by
    intro m2 hm2
    unfold unmapAndFree at hm2
    rw [hu, hphys] at hm2
    simp only [Option.map_some, if_neg ha0] at hm2
    cases hm2
    exact ⟨rfl, rfl, rfl⟩
  obtain ⟨L2, m2, hm2, hi2, hk2, hcr, -, hused, -⟩ := unmapAndFree_spec h.inv hroot hv
  obtain ⟨hm2mem, hm2freed, -⟩ := hmem hm2
  have hroot1 : L1.own (getPml4 m) = some (getPml4 m, []) := wr.keeps.tbl hroot (by simp)
  refine ⟨m2, hm2, hb.unmap hr hv hm2, ⟨?_, fun {w} hw hp => ?_, fun {w} hw hp => ?_, fun {w x} hw hp hx => ?_, ?_,
    fun f => ?_⟩⟩
  · rw [getPml4, hcr, getPml4]
  · rw [hm2mem]
    cases hx : translate m1.mem (getPml4 m) w with
    | none => rfl
    | some x =>
      obtain ⟨e', hl', -⟩ := (translate_eq_some_iff wr.inv hroot1 hw).1 hx
      have ho' := hl'.own wr.inv
      rw [hown, hp] at ho'
      split_ifs at ho' with hc
      exact absurd ho' hc
  · rw [hm2mem]
    refine Option.ext fun x => ?_
    show translate m1.mem _ w = some x ↔ translate m.mem _ w = some x
    rw [translate_eq_some_iff wr.inv hroot1 hw, translate_eq_some_iff h.inv hroot hw]
    exact exists_congr fun e => and_congr_left fun _ => wr.leaf fun hh => hp hh.2
  · obtain ⟨e', hl', rfl⟩ := (translate_eq_some_iff h.inv hroot hw).1 hx
    have ho' := hl'.own h.inv
    rw [hm2mem, frameOf_leaf h.inv hl' w]
    refine wr.data (h.inv.own_used ho').1 (h.inv.klv_none ho') fun r' p hp' => ?_
    rw [ho'] at hp'
    cases hp'
    rfl
  · rw [hm2freed, wr.rest.2.2]
  · rw [hused, hframe]
    refine and_congr_right fun _ => ⟨fun hne hf => hne (hf ▸ ho), fun hne hc => hne (h.inv.tree.unique hc ho)⟩

end Window

/-! ## The two loops -/

/-- what is not on a page of l is as it was -/
def Apart (m : Machine) (l : List U64) (m' : Machine) : Prop :=
  ∀ w, isPrivate w = true → (∀ va ∈ l, pathOf w ≠ pathOf va) →
    translate m'.mem (getPml4 m) w = translate m.mem (getPml4 m) w ∧
      ∀ x, translate m.mem (getPml4 m) w = some x → m'.mem (frameOf x.1) = m.mem (frameOf x.1)

/-- the pages of l are mapped to zero frames -/
structure Grown (m : Machine) (l : List U64) (m' : Machine) : Prop where
  pml4 : getPml4 m' = getPml4 m
  freed : m'.freed = m.freed
  page : ∀ va ∈ l, ∃ c, c < MAX_FRAMES ∧ (m'.mem c = fun _ => 0) ∧ ∀ w, isPrivate w = true → pathOf w = pathOf va →
    translate m'.mem (getPml4 m) w = some (addrOf c + (w &&& 0xFFF), USER_RW)
  other : Apart m l m'

/-- the pages of l, mapped to the frame addresses a before, are unmapped and their frames freed -/
structure Shrunk (m : Machine) (l : List U64) (a : U64 → U64) (m' : Machine) : Prop where
  pml4 : getPml4 m' = getPml4 m
  freed : m'.freed = (l.map a).reverse ++ m.freed
  page : ∀ va ∈ l, ∀ w, isPrivate w = true → pathOf w = pathOf va → translate m'.mem (getPml4 m) w = none
  other : Apart m l m'
  used : ∀ f, used m' f = true ↔ used m f = true ∧ f ∉ l.map fun va => frameOf (a va)

theorem userRw_leaf : LeafFlags USER_RW := by decide

section Loops

variable {m : Machine} {rs : List ℕ} {X : Set ℕ} {l : List U64} {a : U64 → U64}

theorem Apart.refl : Apart m [] m := fun _ _ _ => ⟨rfl, fun _ _ => rfl⟩

/-- one more page -/
theorem Apart.step {m1 m2 : Machine} {done : List U64} {va : U64} (h : Apart m done m1) (hp : getPml4 m1 = getPml4 m)
    (htr : ∀ {w}, isPrivate w = true → pathOf w ≠ pathOf va →
      translate m2.mem (getPml4 m1) w = translate m1.mem (getPml4 m1) w)
    (hdata : ∀ {w x}, isPrivate w = true → pathOf w ≠ pathOf va → translate m1.mem (getPml4 m1) w = some x →
      m2.mem (frameOf x.1) = m1.mem (frameOf x.1)) : Apart m (done ++ [va]) m2 := by
  intro w hw hne
  obtain ⟨h1, h2⟩ := h w hw fun va' hin => hne va' (by simp [hin])
  have hva : pathOf w ≠ pathOf va := hne va (by simp)
  have htr' := htr hw hva
  rw [hp] at htr'
  refine ⟨htr'.trans h1, fun x hx => ?_⟩
  exact (hdata hw hva (by rw [hp, h1]; exact hx)).trans (h2 x hx)

/-- the page of a window page that comes next is not among those done -/
theorem not_done (hl : ∀ va ∈ l, WindowPage va) (hnd : l.Nodup) {done : List U64} {va : U64}
    (hpre : done ++ [va] <+: l) : WindowPage va ∧ ∀ va' ∈ done, WindowPage va' ∧ pathOf va' ≠ pathOf va := by
  have hva : va ∈ l := hpre.subset (by simp)
  refine ⟨hl va hva, fun va' hin => ?_⟩
  have hva' : va' ∈ l := hpre.subset (by simp [hin])
  refine ⟨hl va' hva', fun hp => ?_⟩
  obtain rfl := (hl va' hva').path (hl va hva) hp
  have hnd' := hpre.sublist.nodup hnd
  rw [List.nodup_append] at hnd'
  exact hnd'.2.2 va' hin va' (by simp) rfl

/-- **The growing loop.** -/
theorem growRange_spec (hb : Built m rs X) (hr : getPml4 m ∈ rs) (hnd : l.Nodup) (hl : ∀ va ∈ l, WindowPage va) :
    Runs (5 * l.length ≤ freeCount m.pmm) (l.foldlM (fun m va => mapZeroed m va USER_RW) m)
      fun m' => Built m' rs X ∧ Grown m l m' := by
  refine (Runs.foldlM (P := fun done m' => Built m' rs X ∧ freeCount m.pmm ≤ freeCount m'.pmm + 5 * done.length ∧
    Grown m done m') ?_ ?_).mono fun m' h => ⟨h.1, h.2.2⟩
  · exact ⟨hb, by simp, rfl, rfl, by simp, Apart.refl⟩
  · intro done va m1 hpre hP
    obtain ⟨hb1, hcost, g⟩ := hP
    have hlen : done.length < l.length := by
      have := hpre.length_le
      simp only [List.length_append, List.length_singleton] at this
      omega
    obtain ⟨hwin, hdone⟩ := not_done hl hnd hpre
    refine ⟨fun {m2} hm2 => ?_, fun hB => mapZeroed_isSome (by omega)⟩
    obtain ⟨⟨b, m3⟩, hmap, rfl⟩ := Option.map_eq_some_iff.1 hm2
    have hr1 : getPml4 m1 ∈ rs := by rw [g.pml4]; exact hr
    have hfreed := mapFresh_freed hmap hb1 hr1 hwin.private userRw_leaf
    obtain ⟨c, f, hb2⟩ := mapFilled_spec hb1 hr1 (fun _ => 0) hwin.private userRw_leaf hmap
    refine ⟨hb2, ?_, f.pml4.trans g.pml4, hfreed.trans g.freed, ?_, g.other.step g.pml4 f.other f.data⟩
    · have := f.cost
      simp only [List.length_append, List.length_singleton]
      omega
    · intro va' hin
      rcases List.mem_append.1 hin with hin | hin
      · -- a page done before keeps its frame, which stays zero
        obtain ⟨c', hc', hz, hpage⟩ := g.page va' hin
        obtain ⟨hwin', hne⟩ := hdone va' hin
        have hself := hpage va' hwin'.private rfl
        rw [aligned_offset hwin'.aligned, BitVec.add_zero] at hself
        refine ⟨c', hc', ?_, fun w hw hp => ?_⟩
        · have hd := f.data hwin'.private hne (by rw [g.pml4]; exact hself)
          simp only [frameOf_addrOf hc'] at hd
          rw [hd, hz]
        · rw [← hpage w hw hp, ← g.pml4]
          exact f.other hw (by rw [hp]; exact hne)
      · rw [List.mem_singleton.1 hin]
        refine ⟨c, f.lt, f.frame, fun w hw hp => ?_⟩
        rw [← g.pml4]
        exact f.page hw hp

/-- **The shrinking loop.** -/
theorem shrinkRange_spec (hb : Built m rs X) (hr : getPml4 m ∈ rs) (hnd : l.Nodup) (hl : ∀ va ∈ l, WindowPage va)
    (ha : ∀ va ∈ l, ∃ fl, translate m.mem (getPml4 m) va = some (a va, fl)) :
    Runs True (l.foldlM unmapAndFree m) fun m' => Built m' rs X ∧ Shrunk m l a m' := by
  refine Runs.foldlM (P := fun done m' => Built m' rs X ∧ Shrunk m done a m') ?_ ?_
  · exact ⟨hb, rfl, rfl, by simp, Apart.refl, by simp⟩
  · intro done va m1 hpre hP
    obtain ⟨hb1, g⟩ := hP
    obtain ⟨hwin, hdone⟩ := not_done hl hnd hpre
    have hr1 : getPml4 m1 ∈ rs := by rw [g.pml4]; exact hr
    obtain ⟨fl, hfl⟩ := ha va (hpre.subset (by simp))
    have hold : translate m1.mem (getPml4 m1) va = some (a va, fl) := by
      rw [g.pml4, (g.other va hwin.private fun va' hin hp => (hdone va' hin).2 hp.symm).1]
      exact hfl
    obtain ⟨m2, hm2, hb2, d⟩ := unmapAndFree_dropped hb1 hr1 hwin.private hold
    refine ⟨fun {s} hs => ?_, fun _ => ⟨m2, hm2⟩⟩
    rw [hm2] at hs
    cases hs
    refine ⟨hb2, d.pml4.trans g.pml4, ?_, ?_, g.other.step g.pml4 d.other d.data, fun f => ?_⟩
    · rw [d.freed, g.freed]
      simp
    · intro va' hin w hw hp
      by_cases hv : pathOf w = pathOf va
      · rw [← g.pml4]
        exact d.page hw hv
      · rcases List.mem_append.1 hin with hin | hin
        · have hkeep := d.other hw hv
          rw [g.pml4] at hkeep
          rw [hkeep]
          exact g.page va' hin w hw hp
        · rw [List.mem_singleton.1 hin] at hp
          exact absurd hp hv
    · rw [d.used, g.used]
      simp only [List.map_append, List.mem_append, List.map_cons, List.map_nil, List.mem_singleton]
      tauto

end Loops

/-! ## One call -/

/-- the task's break and tables, as they are between calls -/
structure BrkInv (rs : List ℕ) (X : Set ℕ) (p : BrkProc) : Prop where
  built : Built p.m rs X
  loaded : getPml4 p.m ∈ rs
  aligned : p.brkStart.toNat % 4096 = 0
  low : 0x200000 ≤ p.brkStart.toNat
  exact : HeapExact rs p

/-- pages a request maps -/
def growth (p : BrkProc) (addr : U64) : ℕ := ((pageUp addr).toNat - (pageUp p.brkCur).toNat) / 4096

section Call

variable {p : BrkProc} {rs : List ℕ} {X : Set ℕ} {m' : Machine} {addr va w : U64} {l : List U64} {a : U64 → U64}

theorem ceiling_toNat : BRK_CEILING.toNat = 0x1000000 := rfl

/-- rounding up below the ceiling stays below it -/
theorem pageUp_window (h : addr ≤ BRK_CEILING) : (pageUp addr).toNat = (addr.toNat + 4095) / 4096 * 4096 ∧
    addr.toNat ≤ (pageUp addr).toNat ∧ (pageUp addr).toNat ≤ 0x1000000 := by
  rw [BitVec.le_def, ceiling_toNat] at h
  have hup := pageUp_toNat (x := addr) (by omega)
  omega

theorem HeapPage.window (h : HeapPage p va) (hlow : 0x200000 ≤ p.brkStart.toNat) : WindowPage va := by
  have hge := h.ge
  have hlt := h.lt
  rw [BitVec.le_def] at hge
  rw [BitVec.lt_def, ceiling_toNat] at hlt
  exact ⟨h.aligned, by omega, hlt⟩

/-- what an accepted call leaves: break and tables agree again, if each page below the new break is mapped with its
flags and each page from there on is not -/
theorem BrkInv.update (h : BrkInv rs X p) (hb : Built m' rs X) (hpml4 : getPml4 m' = getPml4 p.m)
    (hge : p.brkStart ≤ addr) (hle : addr ≤ BRK_CEILING)
    (hmapped : ∀ {va}, HeapPage p va → va < pageUp addr → ∃ b, translate m'.mem (getPml4 p.m) va = some (b, USER_RW))
    (hunmapped : ∀ {va}, HeapPage p va → pageUp addr ≤ va → translate m'.mem (getPml4 p.m) va = none) :
    BrkInv rs X { p with m := m', brkCur := addr } := by
  have hr : getPml4 m' ∈ rs := by rw [hpml4]; exact h.loaded
  refine ⟨hb, hr, h.aligned, h.low, hge, hle, fun {va} hva hlt => ?_, fun {va} hva hle => ?_⟩
  · have hva' : HeapPage p va := ⟨hva.aligned, hva.ge, hva.lt⟩
    have hwin := hva'.window h.low
    obtain ⟨b, ht⟩ := hmapped hva' hlt
    rw [← hpml4] at ht
    obtain ⟨hblt, hbu, hown⟩ := frame_own hb hr hwin.private ht
    refine ⟨frameOf b, hblt, ?_, hbu, hown⟩
    rw [← frame_aligned hb hr hwin.private hwin.aligned ht]
    exact ht
  · have hva' : HeapPage p va := ⟨hva.aligned, hva.ge, hva.lt⟩
    have hnone := hunmapped hva' hle
    rw [← hpml4] at hnone
    exact hnone

/-- the pages of a range of the window -/
theorem mem_window_pages {lo hi : U64} (hlo : lo.toNat % 4096 = 0) (hhi : hi.toNat % 4096 = 0) (hge : p.brkStart ≤ lo)
    (hle : hi.toNat ≤ 0x1000000) : va ∈ pages lo hi ↔ HeapPage p va ∧ lo ≤ va ∧ va < hi := by
  rw [mem_pages hlo hhi]
  constructor
  · intro h
    obtain ⟨h1, h2, h3⟩ := h
    have hbrk := BitVec.le_def.1 hge
    exact ⟨⟨h3, by rw [BitVec.le_def]; omega, by rw [BitVec.lt_def, ceiling_toNat]; omega⟩, h1, h2⟩
  · intro h
    obtain ⟨hpage, h1, h2⟩ := h
    exact ⟨h1, h2, hpage.aligned⟩

/-- a page of the range that is not in l is on none of its pages -/
theorem HeapPage.apart (hva : HeapPage p va) (hlow : 0x200000 ≤ p.brkStart.toNat) (hl : ∀ v ∈ l, HeapPage p v)
    (hn : va ∉ l) : ∀ v ∈ l, pathOf va ≠ pathOf v := by
  intro v hv hp
  rw [(hva.window hlow).path ((hl v hv).window hlow) hp] at hn
  exact hn hv

theorem accepted_bounds (hacc : ¬ Rejected p addr) : p.brkStart ≤ addr ∧ addr ≤ BRK_CEILING := by
  constructor
  · by_contra hlt
    exact hacc (Or.inr (Or.inl (BitVec.not_le.1 hlt)))
  · by_contra hlt
    exact hacc (Or.inr (Or.inr (BitVec.not_le.1 hlt)))

/-- an address is on a page of l or on none -/
theorem path_cases (l : List U64) (w : U64) : (∃ v ∈ l, pathOf w = pathOf v) ∨ ∀ v ∈ l, pathOf w ≠ pathOf v := by
  by_cases hc : ∃ v ∈ l, pathOf w = pathOf v
  · exact Or.inl hc
  · exact Or.inr fun v hv hp => hc ⟨v, hv, hp⟩

/-- **A call that grows the heap.** -/
theorem grown_good (h : BrkInv rs X p) (hacc : ¬ Rejected p addr) (hl : ∀ va, va ∈ l ↔ HeapPage p va ∧
    pageUp p.brkCur ≤ va ∧ va < pageUp addr) (hle : pageUp p.brkCur ≤ pageUp addr) (hb : Built m' rs X)
    (g : Grown p.m l m') :
    BrkGood p addr addr { p with m := m', brkCur := addr } ∧ BrkInv rs X { p with m := m', brkCur := addr } := by
  obtain ⟨hge, hceil⟩ := accepted_bounds hacc
  have hpages : ∀ v ∈ l, HeapPage p v := fun v hv => ((hl v).1 hv).1
  -- a page of l was not mapped before
  have hold : ∀ {w v}, v ∈ l → pathOf w = pathOf v → translate p.m.mem (getPml4 p.m) w = none := by
    intro w v hv hp
    obtain ⟨hpage, hcur, -⟩ := (hl v).1 hv
    exact translate_path_none hp (h.exact.unmapped hpage hcur)
  refine ⟨⟨rfl, fun hrej => absurd hrej hacc, fun _ => rfl, fun {w x} hw hx _ => ?_, fun {w x} hw hx hx' => ?_,
    ⟨[], g.freed, by simp, fun f => ?_, by simp⟩, fun {w} hw hout => ?_⟩, ?_⟩
  · rcases path_cases l w with ⟨v, hv, hp⟩ | hne
    · rw [hold hv hp] at hx
      cases hx
    · obtain ⟨h1, h2⟩ := g.other w hw hne
      exact ⟨h1.trans hx, h2 x hx⟩
  · rcases path_cases l w with ⟨v, hv, hp⟩ | hne
    · obtain ⟨c, hc, hz, hpage⟩ := g.page v hv
      rw [hpage w hw hp] at hx'
      cases hx'
      rw [(addrOf_add_offset hc w).1]
      exact hz
    · rw [(g.other w hw hne).1, hx] at hx'
      cases hx'
  · simp only [List.map_nil, List.not_mem_nil, false_iff]
    rintro ⟨w, x, hw, hx, -, hx'⟩
    rcases path_cases l w with ⟨v, hv, hp⟩ | hne
    · rw [hold hv hp] at hx
      cases hx
    · rw [(g.other w hw hne).1, hx] at hx'
      cases hx'
  · exact (g.other w hw fun v hv => hout v (hpages v hv)).1
  · refine h.update hb g.pml4 hge hceil (fun {va} hva hlt => ?_) fun {va} hva hge' => ?_
    · by_cases hin : va ∈ l
      · obtain ⟨c, hc, -, hpage⟩ := g.page va hin
        exact ⟨_, hpage va (hva.window h.low).private rfl⟩
      · have hcur : va < pageUp p.brkCur := by
          by_contra hcur
          exact hin ((hl va).2 ⟨hva, BitVec.not_lt.1 hcur, hlt⟩)
        obtain ⟨c, -, ht, -⟩ := h.exact.mapped hva hcur
        exact ⟨_, (g.other va (hva.window h.low).private (hva.apart h.low hpages hin)).1.trans ht⟩
    · have hin : va ∉ l := fun hin => absurd ((hl va).1 hin).2.2 (BitVec.not_lt.2 hge')
      rw [(g.other va (hva.window h.low).private (hva.apart h.low hpages hin)).1]
      exact h.exact.unmapped hva (BitVec.le_trans hle hge')

/-- **A call that shrinks the heap.** -/
theorem shrunk_good (h : BrkInv rs X p) (hacc : ¬ Rejected p addr) (hnd : l.Nodup) (hl : ∀ va, va ∈ l ↔ HeapPage p va ∧
    pageUp addr ≤ va ∧ va < pageUp p.brkCur) (hle : pageUp addr ≤ pageUp p.brkCur)
    (ha : ∀ va ∈ l, translate p.m.mem (getPml4 p.m) va = some (a va, USER_RW)) (hb : Built m' rs X)
    (g : Shrunk p.m l a m') :
    BrkGood p addr addr { p with m := m', brkCur := addr } ∧ BrkInv rs X { p with m := m', brkCur := addr } := by
  obtain ⟨hge, hceil⟩ := accepted_bounds hacc
  have hpages : ∀ v ∈ l, HeapPage p v := fun v hv => ((hl v).1 hv).1
  have hpriv : ∀ v ∈ l, isPrivate v = true := fun v hv => ((hpages v hv).window h.low).private
  have hmem : ∀ f, f ∈ (l.map a).reverse.map frameOf ↔ ∃ v ∈ l, frameOf (a v) = f := by simp
  refine ⟨⟨rfl, fun hrej => absurd hrej hacc, fun _ => rfl, fun {w x} hw hx hstay => ?_, fun {w x} hw hx hx' => ?_,
    ⟨(l.map a).reverse, g.freed, ?_, fun f => ?_, fun f hf => ?_⟩, fun {w} hw hout => ?_⟩, ?_⟩
  · rcases path_cases l w with ⟨v, hv, hp⟩ | hne
    · exact absurd (g.page v hv w hw hp) hstay
    · obtain ⟨h1, h2⟩ := g.other w hw hne
      exact ⟨h1.trans hx, h2 x hx⟩
  · rcases path_cases l w with ⟨v, hv, hp⟩ | hne
    · have hnone : translate m'.mem (getPml4 p.m) w = none := g.page v hv w hw hp
      rw [hnone] at hx'
      cases hx'
    · rw [(g.other w hw hne).1, hx] at hx'
      cases hx'
  · -- two pages never share a frame
    rw [List.map_reverse, List.nodup_reverse, List.map_map]
    refine (List.nodup_map_iff_inj_on hnd).2 fun v hv v' hv' hf => ?_
    have hown := (frame_own h.built h.loaded (hpriv v' hv') (ha v' hv')).2.2
    exact ((hpages v hv).window h.low).path ((hpages v' hv').window h.low)
      (hown _ h.loaded v _ (hpriv v hv) (ha v hv) hf).2
  · rw [hmem]
    constructor
    · rintro ⟨v, hv, rfl⟩
      exact ⟨v, _, hpriv v hv, ha v hv, rfl, g.page v hv v (hpriv v hv) rfl⟩
    · rintro ⟨w, x, hw, hx, rfl, hx'⟩
      rcases path_cases l w with ⟨v, hv, hp⟩ | hne
      · exact ⟨v, hv, (frame_of_path h.built h.loaded (hpriv v hv) hw hp hx (ha v hv)).symm⟩
      · rw [(g.other w hw hne).1, hx] at hx'
        cases hx'
  · rw [hmem] at hf
    cases hu : used m' f with
    | false => rfl
    | true => exact absurd (by simpa using hf) ((g.used f).1 hu).2
  · exact (g.other w hw fun v hv => hout v (hpages v hv)).1
  · refine h.update hb g.pml4 hge hceil (fun {va} hva hlt => ?_) fun {va} hva hge' => ?_
    · have hin : va ∉ l := fun hin => absurd hlt (BitVec.not_lt.2 ((hl va).1 hin).2.1)
      have hcur : va < pageUp p.brkCur := by
        rw [BitVec.lt_def] at hlt ⊢
        rw [BitVec.le_def] at hle
        omega
      obtain ⟨c, -, ht, -⟩ := h.exact.mapped hva hcur
      exact ⟨_, (g.other va (hva.window h.low).private (hva.apart h.low hpages hin)).1.trans ht⟩
    · by_cases hin : va ∈ l
      · exact g.page va hin va (hva.window h.low).private rfl
      · have hcur : pageUp p.brkCur ≤ va := by
          by_contra hcur
          exact hin ((hl va).2 ⟨hva, hge', BitVec.not_le.1 hcur⟩)
        rw [(g.other va (hva.window h.low).private (hva.apart h.low hpages hin)).1]
        exact h.exact.unmapped hva hcur

/-- a rejected call -/
theorem rejected_good (hrej : Rejected p addr) : BrkGood p addr p.brkCur p := by
  refine ⟨rfl, fun _ => rfl, fun hacc => absurd hrej hacc, fun _ hx _ => ⟨hx, rfl⟩, fun _ hx hx' => ?_,
    ⟨[], rfl, by simp, fun f => ?_, by simp⟩, fun _ _ => rfl⟩
  · rw [hx] at hx'
    cases hx'
  · simp only [List.map_nil, List.not_mem_nil, false_iff]
    rintro ⟨w, x, -, hx, -, hx'⟩
    rw [hx] at hx'
    cases hx'

/-- **One call.** Where break and tables agree, every request does what it should, and they agree afterwards. -/
theorem sysBrk_spec (h : BrkInv rs X p) (addr : U64) :
    Runs (5 * growth p addr ≤ freeCount p.m.pmm) (sysBrk p addr) fun (ret, p') =>
      BrkGood p addr ret p' ∧ BrkInv rs X p' := by
  by_cases hrej : Rejected p addr
  · have hret : sysBrk p addr = some (p.brkCur, p) := by
      unfold sysBrk
      by_cases hlow : addr = 0 ∨ addr < p.brkStart
      · rw [if_pos hlow]
      · have hceil : BRK_CEILING < addr := by
          rcases hrej with h0 | h1 | h2
          · exact absurd (Or.inl h0) hlow
          · exact absurd (Or.inr h1) hlow
          · exact h2
        rw [if_neg hlow, if_pos hceil]
    rw [hret]
    exact Runs.pure ⟨rejected_good hrej, h⟩
  have hlow : ¬ (addr = 0 ∨ addr < p.brkStart) := fun hh => hrej (hh.imp_right Or.inl)
  have hceil : ¬ BRK_CEILING < addr := fun hh => hrej (Or.inr (Or.inr hh))
  have hge : p.brkStart.toNat ≤ addr.toNat := by
    by_contra hlt
    exact hlow (Or.inr (by rw [BitVec.lt_def]; omega))
  have hcur := h.exact.ge
  rw [BitVec.le_def] at hcur
  obtain ⟨-, hold, holdle⟩ := pageUp_window h.exact.le
  obtain ⟨-, hnew, hnewle⟩ := pageUp_window (BitVec.not_lt.1 hceil)
  have haold := pageUp_aligned p.brkCur
  have hanew := pageUp_aligned addr
  unfold sysBrk
  rw [if_neg hlow, if_neg hceil]
  simp only
  by_cases hshrink : pageUp addr < pageUp p.brkCur
  · -- drop the pages between the new top and the old one
    have hnot : ¬ pageUp p.brkCur < pageUp addr := by
      rw [BitVec.lt_def] at hshrink ⊢
      omega
    rw [if_neg hnot, if_pos hshrink, forPages_eq_foldlM _ _ haold _ _ hanew (pages_fuel _ _)]
    have hl : ∀ va, va ∈ pages (pageUp addr) (pageUp p.brkCur) ↔
        HeapPage p va ∧ pageUp addr ≤ va ∧ va < pageUp p.brkCur := fun va =>
      mem_window_pages hanew haold (by rw [BitVec.le_def]; omega) holdle
    -- the frame address of each of them
    have hframes : ∀ va, ∃ b, va ∈ pages (pageUp addr) (pageUp p.brkCur) →
        translate p.m.mem (getPml4 p.m) va = some (b, USER_RW) := by
      intro va
      by_cases hva : va ∈ pages (pageUp addr) (pageUp p.brkCur)
      · obtain ⟨hpage, -, hlt⟩ := (hl va).1 hva
        obtain ⟨c, -, ht, -⟩ := h.exact.mapped hpage hlt
        exact ⟨_, fun _ => ht⟩
      · exact ⟨0, fun hh => absurd hh hva⟩
    choose a ha using hframes
    have hloop := shrinkRange_spec (a := a) h.built h.loaded (pages_nodup (pageUp addr) (pageUp p.brkCur))
      (fun va hva => ((hl va).1 hva).1.window h.low) fun va hva => ⟨_, ha va hva⟩
    obtain ⟨m', hm'⟩ := hloop.returns trivial
    obtain ⟨hb, g⟩ := hloop.post hm'
    rw [hm']
    have hle : pageUp addr ≤ pageUp p.brkCur := by
      rw [BitVec.lt_def] at hshrink
      rw [BitVec.le_def]
      omega
    exact Runs.pure (shrunk_good h hrej (pages_nodup _ _) hl hle ha hb g)
  · -- map the pages between the old top and the new one, if there are any
    have hle : pageUp p.brkCur ≤ pageUp addr := BitVec.not_lt.1 hshrink
    have hbody : (if pageUp p.brkCur < pageUp addr then
          forPages (fun m va => mapZeroed m va USER_RW) (pageUp addr) FUEL (pageUp p.brkCur) p.m
        else if pageUp addr < pageUp p.brkCur then forPages unmapAndFree (pageUp p.brkCur) FUEL (pageUp addr) p.m
        else some p.m) =
        (pages (pageUp p.brkCur) (pageUp addr)).foldlM (fun m va => mapZeroed m va USER_RW) p.m := by
      by_cases hgrow : pageUp p.brkCur < pageUp addr
      · rw [if_pos hgrow, forPages_eq_foldlM _ _ hanew _ _ haold (pages_fuel _ _)]
      · rw [if_neg hgrow, if_neg hshrink, pages_nil hgrow]
        rfl
    have hl : ∀ va, va ∈ pages (pageUp p.brkCur) (pageUp addr) ↔
        HeapPage p va ∧ pageUp p.brkCur ≤ va ∧ va < pageUp addr := fun va =>
      mem_window_pages haold hanew (by rw [BitVec.le_def]; omega) hnewle
    have hlen : (pages (pageUp p.brkCur) (pageUp addr)).length = growth p addr := by simp [pages, growth]
    have hloop := growRange_spec h.built h.loaded (pages_nodup (pageUp p.brkCur) (pageUp addr))
      fun va hva => ((hl va).1 hva).1.window h.low
    rw [hlen] at hloop
    rw [hbody]
    refine ⟨fun {s} hs => ?_, fun hB => ?_⟩
    · obtain ⟨m', hm', rfl⟩ := Option.map_eq_some_iff.1 hs
      obtain ⟨hb, g⟩ := hloop.post hm'
      exact grown_good h hrej hl hle hb g
    · obtain ⟨m', hm'⟩ := hloop.returns hB
      exact ⟨_, by rw [hm']; rfl⟩

end Call

/-! ## Sequences of calls -/

/-- a system call of the task, or a store of its program to one of its pages -/
inductive BrkAct
  | brk (addr : U64)
  | write (va : U64) (g : Idx → U64)

def BrkAct.step (p : BrkProc) : BrkAct → Option BrkProc
  | .brk addr => (sysBrk p addr).map Prod.snd
  | .write va g =>
    if isPrivate va = true then
      match translate p.m.mem (getPml4 p.m) va with
      | none => some p
      | some x => some { p with m := p.m.fill (frameOf x.1) g }
    else some p

section Run

variable {p p' : BrkProc} {rs : List ℕ} {X : Set ℕ}

/-- what the program writes moves no page -/
theorem write_inv (h : BrkInv rs X p) {va : U64} (hv : isPrivate va = true) {x : U64 × U64}
    (hx : translate p.m.mem (getPml4 p.m) va = some x) (g : Idx → U64) :
    BrkInv rs X { p with m := p.m.fill (frameOf x.1) g } := by
  obtain ⟨L, hist⟩ := h.built.history
  have hroot := (hist.roots _).1 h.loaded
  obtain ⟨e, hl, rfl⟩ := (translate_eq_some_iff hist.inv hroot hv).1 hx
  have ho := hl.own hist.inv
  have hframe := frameOf_leaf hist.inv hl va
  have htr : ∀ {r}, r ∈ rs → ∀ w, translate (p.m.fill (entryToKptr e) g).mem r w = translate p.m.mem r w :=
    fun hr w => translate_fill_leaf hist.inv ((hist.roots _).1 hr) ho rfl g w
  have hleaf : OwnedLeaf p.m (getPml4 p.m) (entryToKptr e) := (ownedLeaf_iff hist.inv hroot).2 ⟨_, rfl, ho⟩
  rw [hframe]
  refine ⟨h.built.write g h.loaded hleaf, h.loaded, h.aligned, h.low, h.exact.ge, h.exact.le, fun {v} hva hlt => ?_,
    fun {v} hva hle => ?_⟩
  · have hva' : HeapPage p v := ⟨hva.aligned, hva.ge, hva.lt⟩
    obtain ⟨c, hc, ht, hu, hown⟩ := h.exact.mapped hva' hlt
    refine ⟨c, hc, (htr h.loaded v).trans ht, hu, fun r hr w y hw hy hf => hown r hr w y hw ?_ hf⟩
    exact (htr hr w).symm.trans hy
  · have hva' : HeapPage p v := ⟨hva.aligned, hva.ge, hva.lt⟩
    exact (htr h.loaded v).trans (h.exact.unmapped hva' hle)

theorem BrkAct.step_inv (h : BrkInv rs X p) {act : BrkAct} (hs : act.step p = some p') : BrkInv rs X p' := by
  cases act with
  | brk addr =>
    obtain ⟨⟨ret, p1⟩, hp, rfl⟩ := Option.map_eq_some_iff.1 hs
    exact ((sysBrk_spec h addr).post hp).2
  | write va g =>
    simp only [BrkAct.step] at hs
    split_ifs at hs with hv
    · cases hx : translate p.m.mem (getPml4 p.m) va with
      | none =>
        rw [hx] at hs
        cases hs
        exact h
      | some x =>
        rw [hx] at hs
        cases hs
        exact write_inv h hv hx g
    · cases hs
      exact h

/-- a task whose heap is empty: the break is at its start, and nothing is mapped from there to 16 MiB -/
structure BrkStart (rs : List ℕ) (X : Set ℕ) (p : BrkProc) : Prop where
  built : Built p.m rs X
  loaded : getPml4 p.m ∈ rs
  aligned : p.brkStart.toNat % 4096 = 0
  low : 0x200000 ≤ p.brkStart.toNat
  high : p.brkStart ≤ BRK_CEILING
  cur : p.brkCur = p.brkStart
  empty : ∀ {va}, HeapPage p va → translate p.m.mem (getPml4 p.m) va = none

theorem BrkStart.inv (h : BrkStart rs X p) : BrkInv rs X p := by
  refine ⟨h.built, h.loaded, h.aligned, h.low, by rw [h.cur]; exact BitVec.le_refl _, by rw [h.cur]; exact h.high,
    fun {va} hva hlt => ?_, fun hva _ => h.empty hva⟩
  -- no page lies below the start
  obtain ⟨hup, -, -⟩ := pageUp_window h.high
  have hge := hva.ge
  have hal := h.aligned
  rw [h.cur, BitVec.lt_def, hup] at hlt
  rw [BitVec.le_def] at hge
  omega

/-- **The program break, over whole call sequences.** From an empty heap, after any sequence of calls with any
arguments, and whatever the program writes to its pages in between, the heap is what the break says; and the next call
does what it should, and returns if there are five free frames for each page it maps. -/
theorem brk_exact (h : BrkStart rs X p) (acts : List BrkAct) (hr : acts.foldlM BrkAct.step p = some p') :
    HeapExact rs p' ∧ ∀ addr, Runs (5 * growth p' addr ≤ freeCount p'.m.pmm) (sysBrk p' addr) fun (ret, p'') =>
      BrkGood p' addr ret p'' ∧ HeapExact rs p'' := by
  have hinv : BrkInv rs X p' := Run.run_inv (fun _ _ _ hi hs => BrkAct.step_inv hi hs) h.inv hr
  exact ⟨hinv.exact, fun addr => (sysBrk_spec hinv addr).mono fun _ hs => ⟨hs.1, hs.2.exact⟩⟩

end Run

/-- the first address space after boot, with a heap that starts at 4 MiB: a byte of it is asked for -/
theorem brk_exact_sample : ∃ (p : BrkProc) (rs : List ℕ) (X : Set ℕ) (ret : U64) (p' : BrkProc), BrkStart rs X p ∧
    sysBrk p (sampleVirt + 1) = some (ret, p') ∧ ret = sampleVirt + 1 ∧ HeapExact rs p' := by
  obtain ⟨r, m, -, -, hb, hcr, hfree, hnone⟩ := boot_space
  have hstart : BrkStart [r] {f | used bootMachine f = true} ⟨{ m with cr3 := addrOf r }, sampleVirt, sampleVirt⟩ := by
    have hal : sampleVirt.toNat % 4096 = 0 := by decide
    have hlow : 0x200000 ≤ sampleVirt.toNat := by decide
    have hhigh : sampleVirt ≤ BRK_CEILING := by decide
    refine ⟨hb, by rw [hcr]; simp, hal, hlow, hhigh, rfl, fun {va} hva => ?_⟩
    rw [hcr]
    exact hnone va (hva.window hlow).private
  obtain ⟨-, hnext⟩ := brk_exact hstart [] rfl
  have hgrow : growth ⟨{ m with cr3 := addrOf r }, sampleVirt, sampleVirt⟩ (sampleVirt + 1) = 1 := by
    show ((pageUp (sampleVirt + 1)).toNat - (pageUp sampleVirt).toNat) / 4096 = 1
    decide
  obtain ⟨⟨ret, p'⟩, hs⟩ := (hnext (sampleVirt + 1)).returns (by
    rw [hgrow]
    show 5 * 1 ≤ freeCount m.pmm
    omega)
  obtain ⟨hgood, hexact⟩ := (hnext (sampleVirt + 1)).post hs
  refine ⟨_, _, _, ret, p', hstart, hs, ?_, hexact⟩
  rw [hgood.ret]
  apply hgood.accepted
  show ¬ (sampleVirt + 1 = 0 ∨ sampleVirt + 1 < sampleVirt ∨ BRK_CEILING < sampleVirt + 1)
  decide

end Retux.Sys
