/-
Where the ELF loader reads and writes (`parse_and_load`, `load_segment` in `task/elf.cpp`).

The loader of `Task/Elf` again, with every access written down: a structure or slice read from the file's buffer, and a
fill of, or copy into, a page frame, as 64-bit offset and length. `Inside` says that it stays in the file, or in the
frame. The sums behind a copy wrap at 2^64 and are not checked one by one.

- `header_fits`, `copy_window`: what the checks of the header and of a segment say about the offsets used later;
- `parseAndLoadT_val`: forgetting the accesses gives the loader;
- `elf_accesses_inside`: every access of every run is inside, also of a run that stops for want of frames;
- `parseAndLoad_local`: so nothing but the file's own bytes matters.
-/
import Mathlib.Tactic
import Retux.Lib.Trace
import Retux.Task.Image

namespace Retux.Elf

open Retux.Word Retux.Pmm Retux.Vmm Retux.Sys Retux.Mb2 Retux.Trace Retux.Trace.Traced

/-! ## The loader, with its accesses -/

inductive Access
  /-- bytes of the file's buffer -/
  | file (off len : U64)
  /-- bytes of the page's frame -/
  | frame (off len : U64)

def Access.Inside (size : U64) : Access → Prop
  | file off len => off.toNat + len.toNat ≤ size.toNat
  | frame off len => off.toNat + len.toNat ≤ PAGE_SIZE

/-- copy_start and copy_end of a page -/
def copyStart (ph : Phdr) (va : U64) : U64 := if va < ph.vaddr then ph.vaddr else va

def copyEnd (ph : Phdr) (va : U64) : U64 :=
  if ph.vaddr + ph.filesz < va + 4096 then ph.vaddr + ph.filesz else va + 4096

/-- the memcpy of a page, if there is one -/
def copyPage (ph : Phdr) (va : U64) : Traced Access Unit :=
  if copyStart ph va < copyEnd ph va then do
    emit (.file (ph.offset + (copyStart ph va - ph.vaddr)) (copyEnd ph va - copyStart ph va))
    emit (.frame (copyStart ph va - va) (copyEnd ph va - copyStart ph va))
  else pure ()

def loadPageT (data : Bytes) (ph : Phdr) (m : Machine) (va : U64) : Traced Access Machine := do
  let (phys, m) ← lift (mapFresh m va (segFlags ph))
  emit (.frame 0 4096)
  copyPage ph va
  return m.fill (frameOf phys) fun i => BitVec.ofNat 64 (u64 (pageByte data ph va) (8 * i.val))

def loadSegmentT (data : Bytes) (size : U64) (ph : Phdr) (m : Machine) : Traced Access (Machine × Bool) :=
  if segOk size ph = false then pure (m, false)
  else do
    let m ← Traced.forPages (loadPageT data ph) (segEnd ph) FUEL (pageDown ph.vaddr) m
    return (m, true)

/-- `data + e_phoff + i * e_phentsize`, less data -/
def phdrAt (eh : Ehdr) (i : ℕ) : U64 := eh.phoff + BitVec.ofNat 64 i * BitVec.ofNat 64 eh.phentsize

/-- the loop over the program headers that are left -/
def loadSegmentsT (data : Bytes) (size : U64) (eh : Ehdr) :
    List ℕ → U64 → U64 → Machine → Traced Access (Machine × Option (U64 × U64))
  | [], phdrVaddr, highestAddr, m => pure (m, some (phdrVaddr, highestAddr))
  | i :: rest, phdrVaddr, highestAddr, m => do
    emit (.file (phdrAt eh i) (BitVec.ofNat 64 PHDR_SIZE))
    let ph := Phdr.read data (phdrAt eh i).toNat
    if ph.type ≠ PT_LOAD then loadSegmentsT data size eh rest phdrVaddr highestAddr m
    else do
      let (m, ok) ← loadSegmentT data size ph m
      if ok = false then return (m, none)
      else loadSegmentsT data size eh rest (nextPhdr eh ph phdrVaddr) (nextHighest ph highestAddr) m

def parseAndLoadT (data : Bytes) (size : U64) (m : Machine) : Traced Access (Machine × Except String LoadResult) :=
  if size < EHDR_SIZE then pure (m, .error "elf: file too small for an ELF header\n")
  else do
    emit (.file 0 EHDR_SIZE)
    match checkHeader data size with
    | .error e => return (m, .error e)
    | .ok eh =>
      let (m, r) ← loadSegmentsT data size eh (List.range eh.phnum) 0 0 m
      match r with
      | none => return (m, .error "elf: failed to load a PT_LOAD segment\n")
      | some (phdrVaddr, highestAddr) => return (m, .ok ⟨eh.entry, phdrVaddr, eh.phnum, eh.phentsize, highestAddr⟩)

/-! ## What the checks say -/

section Checks

variable {data : Bytes} {size va : U64} {eh : Ehdr} {ph : Phdr} {m : Machine} {i : ℕ}

theorem u16_lt {a : ℕ} : u16 data a < 65536 := by
  have h0 := (data a).isLt
  have h1 := (data (a + 1)).isLt
  unfold u16
  omega

/-- the header table lies in the file -/
theorem header_fits (h : checkHeader data size = .ok eh) : EHDR_SIZE.toNat ≤ size.toNat ∧ PHDR_SIZE ≤ eh.phentsize ∧
    eh.phoff.toNat + eh.phnum * eh.phentsize ≤ size.toNat := by
  unfold checkHeader at h
  dsimp only at h
  split_ifs at h with hsize _ _ _ _ _ htab
  cases h
  rw [not_or, not_or, BitVec.lt_def, BitVec.lt_def, Nat.not_lt, Nat.not_lt, Nat.not_lt] at htab
  obtain ⟨hent, hoff, htab⟩ := htab
  rw [BitVec.lt_def, Nat.not_lt] at hsize
  have hnum : (Ehdr.read data).phnum < 65536 := u16_lt
  have hlen : (Ehdr.read data).phentsize < 65536 := u16_lt
  have hprod : (Ehdr.read data).phnum * (Ehdr.read data).phentsize < 65536 * 65536 :=
    Nat.mul_lt_mul'' hnum hlen
  rw [BitVec.toNat_sub_of_le hoff, BitVec.toNat_ofNat, Nat.mod_eq_of_lt (by omega)] at htab
  exact ⟨hsize, hent, by omega⟩

/-- so does each header, at the offset the loop computes -/
theorem phdr_fits (h : checkHeader data size = .ok eh) (hi : i < eh.phnum) :
    (phdrAt eh i).toNat = eh.phoff.toNat + i * eh.phentsize ∧ (phdrAt eh i).toNat + PHDR_SIZE ≤ size.toNat := by
  obtain ⟨-, hent, htab⟩ := header_fits h
  have hs := size.isLt
  have hle : (i + 1) * eh.phentsize ≤ eh.phnum * eh.phentsize := Nat.mul_le_mul_right _ hi
  rw [Nat.succ_mul] at hle
  have hlt : i * eh.phentsize < 2 ^ 64 := by omega
  have hlen : eh.phentsize < 2 ^ 64 := by omega
  have hi64 : i < 2 ^ 64 := by
    have : i ≤ i * eh.phentsize := Nat.le_mul_of_pos_right _ (lt_of_lt_of_le (by decide) hent)
    omega
  have hat : (phdrAt eh i).toNat = eh.phoff.toNat + i * eh.phentsize := by
    rw [phdrAt, BitVec.toNat_add, BitVec.toNat_mul, BitVec.toNat_ofNat, BitVec.toNat_ofNat, Nat.mod_eq_of_lt hi64,
      Nat.mod_eq_of_lt hlen, Nat.mod_eq_of_lt hlt, Nat.mod_eq_of_lt (by omega)]
  exact ⟨hat, by omega⟩

/-- **The copy window.** Where something is copied, no sum behind it has wrapped. -/
theorem copy_window (hok : segOk size ph = true) (hva : va ∈ segPages ph) (hlt : copyStart ph va < copyEnd ph va) :
    (copyStart ph va - va).toNat + (copyEnd ph va - copyStart ph va).toNat ≤ PAGE_SIZE ∧
    (ph.offset + (copyStart ph va - ph.vaddr)).toNat + (copyEnd ph va - copyStart ph va).toNat ≤ size.toNat := by
  obtain ⟨hle, hfile⟩ := segOk_iff.1 hok
  obtain ⟨hlo, hhi, hal⟩ := (mem_pages (pageDown_aligned _) (pageUp_aligned _)).1 hva
  have hsize := size.isLt
  have hend := (segEnd ph).isLt
  have halEnd : (segEnd ph).toNat % 4096 = 0 := pageUp_aligned _
  change va.toNat < (segEnd ph).toNat at hhi
  rw [pageDown_toNat] at hlo
  have hpe : (va + 4096).toNat = va.toNat + 4096 := add_page hal halEnd hhi
  have hcs : (copyStart ph va).toNat = max va.toNat ph.vaddr.toNat := by
    unfold copyStart
    split_ifs with h <;> rw [BitVec.lt_def] at h <;> omega
  have hce : (copyEnd ph va).toNat = min (ph.vaddr + ph.filesz).toNat (va.toNat + 4096) := by
    unfold copyEnd
    split_ifs with h <;> rw [BitVec.lt_def, hpe] at h <;> omega
  have hlt' := BitVec.lt_def.1 hlt
  have hlen : (copyEnd ph va - copyStart ph va).toNat = (copyEnd ph va).toNat - (copyStart ph va).toNat :=
    BitVec.toNat_sub_of_le (BitVec.le_of_lt hlt)
  have hat0 : (copyStart ph va - va).toNat = (copyStart ph va).toNat - va.toNat :=
    BitVec.toNat_sub_of_le (by rw [BitVec.le_def]; omega)
  have hrel : (copyStart ph va - ph.vaddr).toNat = (copyStart ph va).toNat - ph.vaddr.toNat :=
    BitVec.toNat_sub_of_le (by rw [BitVec.le_def]; omega)
  -- a file end that wraps lies below the segment's start, and nothing is copied
  have hfe : (ph.vaddr + ph.filesz).toNat = ph.vaddr.toNat + ph.filesz.toNat := by
    rw [BitVec.toNat_add] at hce ⊢
    have hf := ph.filesz.isLt
    have hv := ph.vaddr.isLt
    omega
  have hoff : (ph.offset + (copyStart ph va - ph.vaddr)).toNat =
      ph.offset.toNat + ((copyStart ph va).toNat - ph.vaddr.toNat) := by
    rw [BitVec.toNat_add, hrel]
    exact Nat.mod_eq_of_lt (by omega)
  rw [hlen, hat0, hoff, PAGE_SIZE]
  omega

end Checks

/-! ## The accesses -/

section Run

variable {data data' : Bytes} {size va pv hi : U64} {eh : Ehdr} {ph : Phdr} {m : Machine} {is : List ℕ}

theorem loadPageT_safe (hok : segOk size ph = true) (hva : va ∈ segPages ph) :
    Safe (Access.Inside size) (loadPageT data ph m va) := by
  refine Safe.bind safe_lift fun x _ => Safe.bind (safe_emit.2 (by decide : _ ≤ PAGE_SIZE)) fun _ _ => ?_
  refine Safe.bind (Safe.ite (fun hlt => ?_) fun _ => safe_pure) fun _ _ => safe_pure
  obtain ⟨hframe, hfile⟩ := copy_window hok hva hlt
  exact Safe.bind (safe_emit.2 hfile) fun _ _ => safe_emit.2 hframe

theorem loadSegmentT_safe : Safe (Access.Inside size) (loadSegmentT data size ph m) := by
  refine Safe.ite (fun _ => safe_pure) fun hok => ?_
  rw [Bool.not_eq_false] at hok
  refine Safe.bind (Safe.forPages (pageDown_aligned _) (pageUp_aligned _) (fun s va hva => ?_) _ _) fun _ _ => safe_pure
  exact loadPageT_safe hok hva

theorem loadSegmentsT_safe (h : checkHeader data size = .ok eh) (his : ∀ i ∈ is, i < eh.phnum) :
    Safe (Access.Inside size) (loadSegmentsT data size eh is pv hi m) := by
  induction is generalizing pv hi m with
  | nil => exact safe_pure
  | cons i is ih =>
    have hfit := (phdr_fits h (his i (List.mem_cons_self ..))).2
    have hrest : ∀ {pv hi m}, Safe (Access.Inside size) (loadSegmentsT data size eh is pv hi m) :=
      ih fun j hj => his j (List.mem_cons_of_mem _ hj)
    refine Safe.bind (safe_emit.2 hfit) fun _ _ => Safe.ite (fun _ => hrest) fun _ => ?_
    exact Safe.bind loadSegmentT_safe fun x _ => Safe.ite (fun _ => safe_pure) fun _ => hrest

theorem parseAndLoadT_safe : Safe (Access.Inside size) (parseAndLoadT data size m) := by
  refine Safe.ite (fun _ => safe_pure) fun hsize => ?_
  rw [BitVec.lt_def, Nat.not_lt] at hsize
  refine Safe.bind (safe_emit.2 ?_) fun _ _ => ?_
  · rw [Access.Inside]
    exact hsize
  · cases h : checkHeader data size with
    | error e => exact safe_pure
    | ok eh =>
      refine Safe.bind (loadSegmentsT_safe h fun i hi => List.mem_range.1 hi) fun x _ => ?_
      obtain ⟨m', r⟩ := x
      cases r with
      | none => exact safe_pure
      | some y => exact safe_pure

/-! ## The same loader -/

theorem loadPageT_val : (loadPageT data ph m va).val = loadPage data ph m va := by
  have hcopy : (copyPage ph va).val = some () := by
    unfold copyPage
    split_ifs <;> rfl
  unfold loadPageT loadPage
  cases mapFresh m va (segFlags ph) with
  | none => rfl
  | some x => simp [hcopy]

theorem loadSegmentT_val : (loadSegmentT data size ph m).val = loadSegment data size ph m := by
  unfold loadSegmentT loadSegment
  rw [val_ite]
  refine if_congr Iff.rfl rfl ?_
  rw [val_bind, forPages_val fun s va => loadPageT_val]
  cases forPages (loadPage data ph) (segEnd ph) FUEL (pageDown ph.vaddr) m <;> rfl

theorem loadSegmentsT_val (h : checkHeader data size = .ok eh) (his : ∀ i ∈ is, i < eh.phnum) :
    (loadSegmentsT data size eh is pv hi m).val =
      loadSegments data size eh (is.map fun i => Phdr.read data (eh.phoff.toNat + i * eh.phentsize)) pv hi m := by
  induction is generalizing pv hi m with
  | nil => rfl
  | cons i is ih =>
    have hat := (phdr_fits h (his i (List.mem_cons_self ..))).1
    have hrest := fun {pv hi m} => @ih pv hi m fun j hj => his j (List.mem_cons_of_mem _ hj)
    rw [loadSegmentsT, List.map_cons, loadSegments, val_bind, val_emit, Option.bind_some, hat]
    dsimp only
    rw [val_ite]
    refine if_congr Iff.rfl hrest ?_
    rw [val_bind, loadSegmentT_val]
    refine congrArg _ (funext fun x => ?_)
    rw [val_ite]
    exact if_congr Iff.rfl rfl hrest

/-- **Forgetting the accesses.** -/
theorem parseAndLoadT_val : (parseAndLoadT data size m).val = parseAndLoad data size m := by
  unfold parseAndLoadT parseAndLoad
  by_cases hsize : size < EHDR_SIZE
  · have h : checkHeader data size = .error "elf: file too small for an ELF header\n" := by
      unfold checkHeader
      dsimp only
      rw [if_pos hsize]
    rw [if_pos hsize, h]
    rfl
  · rw [if_neg hsize, val_bind, val_emit, Option.bind_some]
    cases h : checkHeader data size with
    | error e => rfl
    | ok eh =>
      dsimp only
      rw [val_bind, loadSegmentsT_val h fun i hi => List.mem_range.1 hi, phdrs]
      cases loadSegments data size eh _ 0 0 m with
      | none => rfl
      | some x =>
        obtain ⟨m', r⟩ := x
        cases r <;> rfl

/-! ## Only the file matters -/

theorem u16_local (h : ∀ i, i < size.toNat → data i = data' i) {a : ℕ} (ha : a + 2 ≤ size.toNat) :
    u16 data a = u16 data' a := by
  rw [u16, u16, h a (by omega), h (a + 1) (by omega)]

theorem u32_local (h : ∀ i, i < size.toNat → data i = data' i) {a : ℕ} (ha : a + 4 ≤ size.toNat) :
    u32 data a = u32 data' a := by
  rw [u32, u32, h a (by omega), h (a + 1) (by omega), h (a + 2) (by omega), h (a + 3) (by omega)]

theorem u64_local (h : ∀ i, i < size.toNat → data i = data' i) {a : ℕ} (ha : a + 8 ≤ size.toNat) :
    u64 data a = u64 data' a := by
  rw [u64, u64, u32_local h (by omega), u32_local h (by omega)]

theorem Phdr.read_local (h : ∀ i, i < size.toNat → data i = data' i) {a : ℕ} (ha : a + PHDR_SIZE ≤ size.toNat) :
    Phdr.read data a = Phdr.read data' a := by
  unfold PHDR_SIZE at ha
  rw [Phdr.read, Phdr.read, u32_local h (by omega), u32_local h (by omega), u64_local h (by omega),
    u64_local h (by omega), u64_local h (by omega), u64_local h (by omega)]

theorem checkHeader_local (h : ∀ i, i < size.toNat → data i = data' i) :
    checkHeader data size = checkHeader data' size := by
  unfold checkHeader
  dsimp only
  by_cases hsize : size < EHDR_SIZE
  · rw [if_pos hsize, if_pos hsize]
  · rw [BitVec.lt_def, Nat.not_lt] at hsize
    have h64 : EHDR_SIZE.toNat = 64 := rfl
    have hread : Ehdr.read data = Ehdr.read data' := by
      rw [Ehdr.read, Ehdr.read, u16_local h (by omega), u16_local h (by omega), u64_local h (by omega),
        u64_local h (by omega), u16_local h (by omega), u16_local h (by omega)]
    rw [hread, h 0 (by omega), h 1 (by omega), h 2 (by omega), h 3 (by omega), h 4 (by omega), h 5 (by omega)]

theorem pageByte_window {o : ℕ} : pageByte data ph va o =
    if copyStart ph va < copyEnd ph va ∧ (copyStart ph va - va).toNat ≤ o ∧
      o < (copyStart ph va - va).toNat + (copyEnd ph va - copyStart ph va).toNat then
      data ((ph.offset + (copyStart ph va - ph.vaddr)).toNat + (o - (copyStart ph va - va).toNat)) else 0 := rfl

theorem loadPage_local (h : ∀ i, i < size.toNat → data i = data' i) (hok : segOk size ph = true)
    (hva : va ∈ segPages ph) : loadPage data ph m va = loadPage data' ph m va := by
  have hbyte : pageByte data ph va = pageByte data' ph va := by
    funext o
    rw [pageByte_window, pageByte_window]
    refine ite_congr rfl (fun hc => h _ ?_) fun _ => rfl
    have hwin := (copy_window hok hva hc.1).2
    omega
  rw [loadPage, loadPage, hbyte]

theorem mem_loaded {phs : List Phdr} (h : ph ∈ loaded size phs) : segOk size ph = true := by
  induction phs with
  | nil => exact absurd h List.not_mem_nil
  | cons x phs ih =>
    rw [loaded] at h
    split_ifs at h with ht hok
    · exact ih h
    · exact absurd h List.not_mem_nil
    · rcases List.mem_cons.1 h with rfl | h
      · exact Bool.not_eq_false _ ▸ hok
      · exact ih h

/-- the pages of segments that are loaded -/
theorem loadPages_local (h : ∀ i, i < size.toNat → data i = data' i) {l : List (Phdr × U64)}
    (hl : ∀ x ∈ l, segOk size x.1 = true ∧ x.2 ∈ segPages x.1) (m : Machine) :
    l.foldlM (fun m x => loadPage data x.1 m x.2) m = l.foldlM (fun m x => loadPage data' x.1 m x.2) m := by
  induction l generalizing m with
  | nil => rw [List.foldlM_nil, List.foldlM_nil]
  | cons x l ih =>
    obtain ⟨hok, hva⟩ := hl x (List.mem_cons_self ..)
    rw [List.foldlM_cons, List.foldlM_cons, loadPage_local h hok hva]
    exact congrArg _ (funext fun m' => ih (fun y hy => hl y (List.mem_cons_of_mem _ hy)) m')

/-- **Only the file matters.** -/
theorem parseAndLoad_local (h : ∀ i, i < size.toNat → data i = data' i) (m : Machine) :
    parseAndLoad data size m = parseAndLoad data' size m := by
  unfold parseAndLoad
  rw [← checkHeader_local h]
  cases hc : checkHeader data size with
  | error e => rfl
  | ok eh =>
    have hphdrs : phdrs data eh = phdrs data' eh := List.map_congr_left fun i hi => by
      obtain ⟨hat, hfit⟩ := phdr_fits hc (List.mem_range.1 hi)
      exact Phdr.read_local h (by rwa [← hat])
    dsimp only
    rw [loadSegments_eq, loadSegments_eq, hphdrs, loadPages_local h]
    intro x hx
    obtain ⟨y, hy, hx⟩ := List.mem_flatMap.1 hx
    obtain ⟨va, hva, rfl⟩ := List.mem_map.1 hx
    exact ⟨mem_loaded hy, hva⟩

/-- **Accesses of the loader.** For any file, under any tables: every structure and slice is read from the file, every
fill and copy stays in its frame, and the accesses are those of `parse_and_load`. -/
theorem elf_accesses_inside (data : Bytes) (size : U64) (m : Machine) :
    (∀ a ∈ (parseAndLoadT data size m).log, a.Inside size) ∧
    (parseAndLoadT data size m).val = parseAndLoad data size m :=
  ⟨parseAndLoadT_safe, parseAndLoadT_val⟩

end Run

end Retux.Elf
