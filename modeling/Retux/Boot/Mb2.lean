/-
The Multiboot2 boot information (`boot/mb2.hpp`).

Tags lie one after the other in memory, 8-byte aligned, up to one of type 0. `findTag` and `forEachTag` walk them as the
code does, on bytes; a walk runs on fuel, and `none` is a walk that does not end. `Chain` says what list of tags lies at
an address. The two walks are then `find?` and `foldl` on that list (`findTag_chain`, `forEachTag_chain`).
-/
import Mathlib.Tactic

namespace Retux.Mb2

/-- physical memory -/
abbrev Bytes := ℕ → BitVec 8

def u32 (mem : Bytes) (a : ℕ) : ℕ :=
  (mem a).toNat + 256 * (mem (a + 1)).toNat + 65536 * (mem (a + 2)).toNat + 16777216 * (mem (a + 3)).toNat

def u64 (mem : Bytes) (a : ℕ) : ℕ := u32 mem a + 4294967296 * u32 mem (a + 4)

def TAG_END : ℕ := 0
def TAG_MODULE : ℕ := 3
def TAG_MEMMAP : ℕ := 6
def MEMMAP_AVAIL : ℕ := 1

/-- `(tag->size + 7) & ~7u` -/
def aligned (size : ℕ) : ℕ := (size + 7) % 4294967296 / 8 * 8

/-- the loop of `find_tag`: `some none` is null -/
def findTag (mem : Bytes) (wantedType : ℕ) : ℕ → ℕ → Option (Option ℕ)
  | 0, _ => none
  | fuel + 1, tag =>
    if u32 mem tag = TAG_END then some none
    else if u32 mem tag = wantedType then some (some tag)
    else findTag mem wantedType fuel (tag + aligned (u32 mem (tag + 4)))

/-- the loop of `for_each_tag`; the visitor says whether to stop -/
def forEachTag {σ : Type} (mem : Bytes) (visitor : σ → ℕ → σ × Bool) : ℕ → ℕ → σ → Option σ
  | 0, _, _ => none
  | fuel + 1, tag, s =>
    if u32 mem tag = TAG_END then some s
    else
      let (s, stop) := visitor s tag
      if stop then some s else forEachTag mem visitor fuel (tag + aligned (u32 mem (tag + 4))) s

/-! ## What lies in memory -/

structure MemMapEntry where
  baseAddr : ℕ
  length : ℕ
  type : ℕ

inductive Tag where
  | memmap (entrySize : ℕ) (entries : List MemMapEntry)
  | bootModule (size modStart modEnd : ℕ)
  | other (type size : ℕ)

namespace Tag

def type : Tag → ℕ
  | memmap _ _ => TAG_MEMMAP
  | bootModule _ _ _ => TAG_MODULE
  | other type _ => type

def size : Tag → ℕ
  | memmap entrySize entries => 16 + entries.length * entrySize
  | bootModule size _ _ => size
  | other _ size => size

end Tag

/-- the entry at an address -/
def MemMapEntry.At (mem : Bytes) (a : ℕ) (e : MemMapEntry) : Prop :=
  u64 mem a = e.baseAddr ∧ u64 mem (a + 8) = e.length ∧ u32 mem (a + 16) = e.type

/-- entries one after the other -/
def EntriesAt (mem : Bytes) (entrySize : ℕ) : ℕ → List MemMapEntry → Prop
  | _, [] => True
  | a, e :: es => e.At mem a ∧ EntriesAt mem entrySize (a + entrySize) es

def Tag.Body (mem : Bytes) (a : ℕ) : Tag → Prop
  | .memmap entrySize entries => u32 mem (a + 8) = entrySize ∧ 24 ≤ entrySize ∧ EntriesAt mem entrySize (a + 16) entries
  | .bootModule size modStart modEnd => u32 mem (a + 8) = modStart ∧ u32 mem (a + 12) = modEnd ∧ 16 ≤ size
  | .other type size => type ≠ TAG_END ∧ type ≠ TAG_MODULE ∧ type ≠ TAG_MEMMAP ∧ 8 ≤ size

/-- the tag at an address; its size leaves room for the alignment in 32 bits -/
structure Tag.At (mem : Bytes) (a : ℕ) (t : Tag) : Prop where
  type : u32 mem a = t.type
  size : u32 mem (a + 4) = t.size
  body : t.Body mem a
  fits : t.size + 7 < 4294967296

def Chain (mem : Bytes) : ℕ → List Tag → Prop
  | a, [] => u32 mem a = TAG_END
  | a, t :: ts => t.At mem a ∧ Chain mem (a + aligned t.size) ts

/-- the tags with their addresses -/
def place : ℕ → List Tag → List (ℕ × Tag)
  | _, [] => []
  | a, t :: ts => (a, t) :: place (a + aligned t.size) ts

section Walk

variable {mem : Bytes} {a n : ℕ} {ts : List Tag} {t : Tag}

theorem Tag.At.not_end (h : t.At mem a) : t.type ≠ TAG_END := by
  cases t with
  | memmap entrySize entries => exact show TAG_MEMMAP ≠ TAG_END by decide
  | bootModule size modStart modEnd => exact show TAG_MODULE ≠ TAG_END by decide
  | other type size => exact h.body.1

theorem Tag.At.eight_le (h : t.At mem a) : 8 ≤ aligned t.size := by
  have hsize : 8 ≤ t.size := by
    cases t with
    | memmap entrySize entries =>
      show 8 ≤ 16 + _
      omega
    | bootModule size modStart modEnd => exact le_trans (by decide) h.body.2.2
    | other type size => exact h.body.2.2.2
  have hfits := h.fits
  unfold aligned
  omega

theorem place_at (h : Chain mem a ts) : ∀ p ∈ place a ts, p.2.At mem p.1 := by
  induction ts generalizing a with
  | nil => exact fun p hp => absurd hp List.not_mem_nil
  | cons t ts ih =>
    intro p hp
    rcases List.mem_cons.1 hp with rfl | hp
    · exact h.1
    · exact ih h.2 p hp

theorem place_snd (a : ℕ) (ts : List Tag) : (place a ts).map Prod.snd = ts := by
  induction ts generalizing a with
  | nil => rfl
  | cons t ts ih => rw [place, List.map_cons, ih]

/-- **`find_tag`** returns the first tag of the type. -/
theorem findTag_chain (h : Chain mem a ts) (hn : ts.length < n) (wantedType : ℕ) :
    findTag mem wantedType n a = some (((place a ts).find? fun p => p.2.type = wantedType).map Prod.fst) := by
  induction ts generalizing a n with
  | nil =>
    obtain ⟨n, rfl⟩ := Nat.exists_eq_succ_of_ne_zero (Nat.ne_zero_of_lt hn)
    have h0 : u32 mem a = TAG_END := h
    rw [findTag, if_pos h0]
    rfl
  | cons t ts ih =>
    obtain ⟨n, rfl⟩ := Nat.exists_eq_succ_of_ne_zero (Nat.ne_zero_of_lt hn)
    have ht := h.1
    rw [findTag, ht.type, if_neg ht.not_end, place, List.find?_cons]
    split_ifs with hw
    · simp [hw]
    · rw [ht.size, ih h.2 (by simpa using hn)]
      simp [hw]

/-- **`for_each_tag`** with a visitor that never stops visits every tag. -/
theorem forEachTag_chain {σ : Type} {f : σ → ℕ → σ} (h : Chain mem a ts) (hn : ts.length < n) (s : σ) :
    forEachTag mem (fun s tag => (f s tag, false)) n a s = some ((place a ts).foldl (fun s p => f s p.1) s) := by
  induction ts generalizing a n s with
  | nil =>
    obtain ⟨n, rfl⟩ := Nat.exists_eq_succ_of_ne_zero (Nat.ne_zero_of_lt hn)
    have h0 : u32 mem a = TAG_END := h
    rw [forEachTag, if_pos h0]
    rfl
  | cons t ts ih =>
    obtain ⟨n, rfl⟩ := Nat.exists_eq_succ_of_ne_zero (Nat.ne_zero_of_lt hn)
    have ht := h.1
    rw [forEachTag, ht.type, if_neg ht.not_end]
    simp only [Bool.false_eq_true, if_false]
    rw [ht.size, ih h.2 (by simpa using hn)]
    rfl

end Walk

end Retux.Mb2
