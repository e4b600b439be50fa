/-
The ELF loader (`task/elf.cpp`): `parse_and_load` on the bytes of a file, under the loaded address space.

The header checks keep every read inside the file. Nothing checks where a segment goes: `p_vaddr` and `p_memsz` reach
`vmm::map` as they stand in the file, so a segment may cover the window, another private slot, the kernel image, the
heap or the physmap.

- `loadSegments_eq`: the loop over the program headers is one fold over the pages it maps (`mapped`), with a result that
  depends on the file alone (`outcome`);
- `load_good`: pages that are all private leave every shared address alone;
- `load_bad`: a page that is not private ends up open to the user;
- `elf_contained_iff`: so a load keeps to the task exactly if the file says so.
-/
import Mathlib.Tactic
import Retux.Boot.Mb2
import Retux.Sys.Munmap

namespace Retux.Elf

open Retux.Word Retux.Pmm Retux.Vmm Retux.Sys Retux.Mb2

/-! ## The file -/

def u16 (mem : Bytes) (a : ℕ) : ℕ := (mem a).toNat + 256 * (mem (a + 1)).toNat

/-- `sizeof(Elf64_Ehdr)`, `sizeof(Elf64_Phdr)` -/
def EHDR_SIZE : U64 := 64
def PHDR_SIZE : ℕ := 56

def ET_EXEC : ℕ := 2
def EM_X86_64 : ℕ := 62
def PT_LOAD : ℕ := 1
def PF_X : BitVec 32 := 1
def PF_W : BitVec 32 := 2

/-- the fields of `Elf64_Ehdr` the loader reads, past `e_ident` -/
structure Ehdr where
  type : ℕ
  machine : ℕ
  entry : U64
  phoff : U64
  phentsize : ℕ
  phnum : ℕ

structure Phdr where
  type : ℕ
  flags : BitVec 32
  offset : U64
  vaddr : U64
  filesz : U64
  memsz : U64

def Ehdr.read (data : Bytes) : Ehdr where
  type := u16 data 16
  machine := u16 data 18
  entry := BitVec.ofNat 64 (u64 data 24)
  phoff := BitVec.ofNat 64 (u64 data 32)
  phentsize := u16 data 54
  phnum := u16 data 56

def Phdr.read (data : Bytes) (a : ℕ) : Phdr where
  type := u32 data a
  flags := BitVec.ofNat 32 (u32 data (a + 4))
  offset := BitVec.ofNat 64 (u64 data (a + 8))
  vaddr := BitVec.ofNat 64 (u64 data (a + 16))
  filesz := BitVec.ofNat 64 (u64 data (a + 32))
  memsz := BitVec.ofNat 64 (u64 data (a + 40))

/-- the checks at the head of `parse_and_load`, in their order; an error is what goes to the serial line -/
def checkHeader (data : Bytes) (size : U64) : Except String Ehdr :=
  let eh := Ehdr.read data
  if size < EHDR_SIZE then .error "elf: file too small for an ELF header\n"
  else if data 0 ≠ 0x7F ∨ data 1 ≠ 0x45 ∨ data 2 ≠ 0x4C ∨ data 3 ≠ 0x46 then .error "elf: bad magic\n"
  else if data 4 ≠ 2 ∨ data 5 ≠ 1 then .error "elf: not a 64-bit little-endian ELF\n"
  else if eh.type ≠ ET_EXEC then .error "elf: not an ET_EXEC executable (PIE/ET_DYN unsupported)\n"
  else if eh.machine ≠ EM_X86_64 then .error "elf: wrong machine type (not x86-64)\n"
  else if eh.phoff = 0 ∨ eh.phnum = 0 then .error "elf: no program headers\n"
  else if eh.phentsize < PHDR_SIZE ∨ size < eh.phoff ∨ size - eh.phoff < BitVec.ofNat 64 (eh.phnum * eh.phentsize) then
    .error "elf: program headers run past EOF\n"
  else .ok eh

def phdrs (data : Bytes) (eh : Ehdr) : List Phdr :=
  (List.range eh.phnum).map fun i => Phdr.read data (eh.phoff.toNat + i * eh.phentsize)

/-! ## Segments -/

/-- PRESENT | USER, with W and NX from p_flags -/
def segFlags (ph : Phdr) : U64 :=
  let flags := PRESENT ||| USER
  let flags := if ph.flags &&& PF_W ≠ 0 then flags ||| WRITABLE else flags
  if ph.flags &&& PF_X = 0 then flags ||| NO_EXECUTE else flags

/-- byte `o` of the page at va: zeroed, then the covered slice of the file copied in -/
def pageByte (data : Bytes) (ph : Phdr) (va : U64) (o : ℕ) : BitVec 8 :=
  let segStart := ph.vaddr
  let segFileEnd := ph.vaddr + ph.filesz
  let pageEnd := va + 4096
  let copyStart := if va < segStart then segStart else va
  let copyEnd := if segFileEnd < pageEnd then segFileEnd else pageEnd
  let at0 := (copyStart - va).toNat
  if copyStart < copyEnd ∧ at0 ≤ o ∧ o < at0 + (copyEnd - copyStart).toNat then
    data ((ph.offset + (copyStart - segStart)).toNat + (o - at0)) else 0

/-- one round of the page loop -/
def loadPage (data : Bytes) (ph : Phdr) (m : Machine) (va : U64) : Option Machine :=
  (mapFresh m va (segFlags ph)).map fun (phys, m) =>
    m.fill (frameOf phys) fun i => BitVec.ofNat 64 (u64 (pageByte data ph va) (8 * i.val))

/-- the two checks of `load_segment` -/
def segOk (size : U64) (ph : Phdr) : Bool :=
  ¬ ph.memsz < ph.filesz ∧ ¬ (size < ph.offset ∨ size - ph.offset < ph.filesz)

/-- `page_up(p_vaddr + p_memsz)`; the sum wraps at 2^64 -/
def segEnd (ph : Phdr) : U64 := pageUp (ph.vaddr + ph.memsz)

def loadSegment (data : Bytes) (size : U64) (ph : Phdr) (m : Machine) : Option (Machine × Bool) :=
  if segOk size ph = false then some (m, false)
  else (forPages (loadPage data ph) (segEnd ph) FUEL (pageDown ph.vaddr) m).map fun m => (m, true)

/-- where the program headers end up, if this segment holds them -/
def nextPhdr (eh : Ehdr) (ph : Phdr) (phdrVaddr : U64) : U64 :=
  if ph.offset ≤ eh.phoff ∧ eh.phoff - ph.offset < ph.filesz then ph.vaddr + (eh.phoff - ph.offset) else phdrVaddr

def nextHighest (ph : Phdr) (highestAddr : U64) : U64 := if highestAddr < segEnd ph then segEnd ph else highestAddr

/-- the loop over the program headers; it returns phdr_vaddr and highest_addr, or nothing when a segment is refused -/
def loadSegments (data : Bytes) (size : U64) (eh : Ehdr) :
    List Phdr → U64 → U64 → Machine → Option (Machine × Option (U64 × U64))
  | [], phdrVaddr, highestAddr, m => some (m, some (phdrVaddr, highestAddr))
  | ph :: phs, phdrVaddr, highestAddr, m =>
    if ph.type ≠ PT_LOAD then loadSegments data size eh phs phdrVaddr highestAddr m
    else (loadSegment data size ph m).bind fun (m, ok) =>
      if ok = false then some (m, none)
      else loadSegments data size eh phs (nextPhdr eh ph phdrVaddr) (nextHighest ph highestAddr) m

structure LoadResult where
  entry : U64
  phdrVaddr : U64
  phnum : ℕ
  phentsize : ℕ
  highestAddr : U64

def parseAndLoad (data : Bytes) (size : U64) (m : Machine) : Option (Machine × Except String LoadResult) :=
  match checkHeader data size with
  | .error e => some (m, .error e)
  | .ok eh => (loadSegments data size eh (phdrs data eh) 0 0 m).map fun (m, r) =>
    match r with
    | none => (m, .error "elf: failed to load a PT_LOAD segment\n")
    | some (phdrVaddr, highestAddr) => (m, .ok ⟨eh.entry, phdrVaddr, eh.phnum, eh.phentsize, highestAddr⟩)

/-! ## What a load does, from the file alone -/

/-- the PT_LOAD headers that are loaded: up to the first that is refused -/
def loaded (size : U64) : List Phdr → List Phdr
  | [] => []
  | ph :: phs =>
    if ph.type ≠ PT_LOAD then loaded size phs else if segOk size ph = false then [] else ph :: loaded size phs

/-- phdr_vaddr and highest_addr, if no segment is refused -/
def outcome (size : U64) (eh : Ehdr) : List Phdr → U64 → U64 → Option (U64 × U64)
  | [], phdrVaddr, highestAddr => some (phdrVaddr, highestAddr)
  | ph :: phs, phdrVaddr, highestAddr =>
    if ph.type ≠ PT_LOAD then outcome size eh phs phdrVaddr highestAddr
    else if segOk size ph = false then none
    else outcome size eh phs (nextPhdr eh ph phdrVaddr) (nextHighest ph highestAddr)

/-- the pages of a segment, as the loop computes its bounds -/
def segPages (ph : Phdr) : List U64 := pages (pageDown ph.vaddr) (segEnd ph)

/-- the pages a load maps, each with its segment -/
def mapped (data : Bytes) (size : U64) : List (Phdr × U64) :=
  match checkHeader data size with
  | .error _ => []
  | .ok eh => (loaded size (phdrs data eh)).flatMap fun ph => (segPages ph).map fun va => (ph, va)

/-- highest_addr, where the load succeeds -/
def brkStart (data : Bytes) (size : U64) : Option U64 :=
  match checkHeader data size with
  | .error _ => none
  | .ok eh => (outcome size eh (phdrs data eh) 0 0).map Prod.snd

theorem loadSegment_eq (data : Bytes) (size : U64) (ph : Phdr) (m : Machine) (h : segOk size ph = true) :
    loadSegment data size ph m = ((segPages ph).foldlM (loadPage data ph) m).map fun m => (m, true) := by
  rw [loadSegment, h, if_neg (by decide), segPages]
  congr 1
  exact forPages_eq_foldlM _ _ (pageUp_aligned _) _ _ (pageDown_aligned _) (pages_fuel _ _) _

/-- the page loop over pages paired with their segment -/
theorem foldlM_pair (data : Bytes) (ph : Phdr) (l : List U64) (m : Machine) :
    (l.map fun va => (ph, va)).foldlM (fun m x => loadPage data x.1 m x.2) m = l.foldlM (loadPage data ph) m := by
  induction l generalizing m with
  | nil => rfl
  | cons va l ih =>
    rw [List.map_cons, List.foldlM_cons, List.foldlM_cons]
    refine congrArg (Option.bind (loadPage data ph m va)) ?_
    funext m1
    exact ih m1

/-- **The loop is a fold.** -/
theorem loadSegments_eq (data : Bytes) (size : U64) (eh : Ehdr) (phs : List Phdr) (pv hi : U64) (m : Machine) :
    loadSegments data size eh phs pv hi m =
      (((loaded size phs).flatMap fun ph => (segPages ph).map fun va => (ph, va)).foldlM
        (fun m x => loadPage data x.1 m x.2) m).map fun m => (m, outcome size eh phs pv hi) := by
  induction phs generalizing pv hi m with
  | nil => rfl
  | cons ph phs ih =>
    rw [loadSegments, loaded, outcome]
    by_cases ht : ph.type ≠ PT_LOAD
    · rw [if_pos ht, if_pos ht, if_pos ht]
      exact ih pv hi m
    rw [if_neg ht, if_neg ht, if_neg ht]
    cases hok : segOk size ph with
    | false =>
      rw [loadSegment, hok]
      rfl
    | true =>
      rw [loadSegment_eq data size ph m hok, if_neg (by decide), if_neg (by decide), List.flatMap_cons,
        List.foldlM_append, foldlM_pair]
      cases (segPages ph).foldlM (loadPage data ph) m with
      | none => rfl
      | some m1 => exact ih _ _ m1

/-- **A load.** It is that fold, and it succeeds exactly if the file has a place for brk. -/
theorem parseAndLoad_spec {data : Bytes} {size : U64} {m m' : Machine} {ret : Except String LoadResult}
    (hp : parseAndLoad data size m = some (m', ret)) :
    (mapped data size).foldlM (fun m x => loadPage data x.1 m x.2) m = some m' ∧
      ∀ a, brkStart data size = some a ↔ ∃ out, ret = .ok out ∧ out.highestAddr = a := by
  unfold parseAndLoad at hp
  unfold mapped brkStart
  cases hc : checkHeader data size with
  | error e =>
    rw [hc] at hp
    cases hp
    refine ⟨rfl, fun a => ⟨fun h => (by cases h), fun ⟨_, h, _⟩ => (by cases h)⟩⟩
  | ok eh =>
    rw [hc] at hp
    simp only [loadSegments_eq, Option.map_eq_some_iff] at hp
    obtain ⟨⟨_, o⟩, ⟨m1, hf, rfl, rfl⟩, hres⟩ := hp
    dsimp only at hres ⊢
    cases ho : outcome size eh (phdrs data eh) 0 0 with
    | none =>
      rw [ho] at hres
      cases hres
      refine ⟨hf, fun a => ⟨fun h => (by cases h), fun ⟨_, h, _⟩ => (by cases h)⟩⟩
    | some x =>
      rw [ho] at hres
      cases hres
      refine ⟨hf, fun a => ⟨fun h => ⟨_, rfl, Option.some.inj h⟩, fun ⟨_, h, ha⟩ => ?_⟩⟩
      cases h
      exact congrArg some ha

theorem parseAndLoad_isSome {data : Bytes} {size : U64} {m m' : Machine}
    (h : (mapped data size).foldlM (fun m x => loadPage data x.1 m x.2) m = some m') :
    ∃ ret, parseAndLoad data size m = some (m', ret) := by
  unfold mapped at h
  unfold parseAndLoad
  cases hc : checkHeader data size with
  | error e =>
    rw [hc] at h
    cases h
    exact ⟨_, rfl⟩
  | ok eh =>
    rw [hc] at h
    simp only [loadSegments_eq, h, Option.map_some]
    cases outcome size eh (phdrs data eh) 0 0 with
    | none => exact ⟨_, rfl⟩
    | some x => exact ⟨_, rfl⟩

theorem segFlags_leaf (ph : Phdr) : LeafFlags (segFlags ph) ∧ user (segFlags ph) = true := by
  unfold segFlags
  split_ifs <;> decide

/-! ## Pages -/

section Load

variable {L L1 : Layout} {m m1 m' : Machine} {rs : List ℕ} {X : Set ℕ} {va : U64} {data : Bytes} {ph : Phdr}
  {lv : ℕ → Option ℕ}

/-- a private page: mapped and filled inside the task -/
theorem loadPage_inside (g : Inside L m L1 m1) (hr : L.own (getPml4 m) = some (getPml4 m, []))
    (hv : isPrivate va = true) (hm : loadPage data ph m1 va = some m') : ∃ L2, Inside L m L2 m' := by
  obtain ⟨⟨a, m2⟩, hf, hres⟩ := Option.map_eq_some_iff.1 hm
  obtain ⟨c, m0, L2, rfl, hfree, ha, hi0, w, hoc, -⟩ := mapFresh_spec g.inv (g.root hr) hv (segFlags_leaf ph).1 hf
  have hclt := (w.inv.own_used hoc).2.2
  rw [g.pml4] at w hoc
  simp only [frameOf_addrOf hclt] at hres
  subst hres
  -- allocating and filling are invisible to the tables
  have hst := (Stage.refl m1).alloc ha
  have k1 := hst.keeps g.inv (getPml4 m)
  have hlen : (pathOf va).length = 4 := rfl
  refine ⟨L2, w.inv.writeLeaf hoc hlen _, (g.keeps.trans (k1.trans w.keeps)).trans (keeps_fill w.inv hoc hlen _), ?_⟩
  show m2.cr3 = m.cr3
  rw [w.rest.1, hst.rest.1]
  exact g.cr3

/-- **Private pages only.** -/
theorem load_good (hr : L.own (getPml4 m) = some (getPml4 m, [])) (l : List (Phdr × U64))
    (hl : ∀ x ∈ l, isPrivate x.2 = true) (g : Inside L m L1 m1)
    (hm : l.foldlM (fun m x => loadPage data x.1 m x.2) m1 = some m') : ∃ L2, Inside L m L2 m' := by
  induction l generalizing m1 L1 with
  | nil =>
    cases hm
    exact ⟨L1, g⟩
  | cons x l ih =>
    rw [List.foldlM_cons] at hm
    obtain ⟨m2, h1, h2⟩ := Option.bind_eq_some_iff.1 hm
    obtain ⟨L2, g2⟩ := loadPage_inside g hr (hl x (List.mem_cons_self ..)) h1
    exact ih (fun y hy => hl y (List.mem_cons_of_mem _ hy)) g2 h2

/-- any page: it has a page table and a user entry afterwards, and pages that had them keep them -/
theorem loadPage_soft (h : Levels lv m) (hr : lv (getPml4 m) = some 3) (hm : loadPage data ph m va = some m') :
    ∃ lv', Soft UserEntry lv m lv' m' ∧ Settled UserEntry m'.mem (getPml4 m) va := by
  obtain ⟨⟨a, m2⟩, hf, hres⟩ := Option.map_eq_some_iff.1 hm
  unfold mapFresh Vmm.map at hf
  simp only [bind, Option.bind_eq_some_iff, pure, Option.some.injEq, Prod.mk.injEq] at hf
  obtain ⟨⟨a', m1⟩, ha, m2', hmap, rfl, rfl⟩ := hf
  subst hres
  have s1 : Soft UserEntry lv m lv m1 := Soft.ofAlloc h ha
  obtain ⟨c, rfl, hlt, hfree, hm1, hu, -⟩ := alloc_spec ha
  have hpml4 : getPml4 m1 = getPml4 m := by rw [getPml4, s1.cr3]; rfl
  rw [hpml4] at hmap
  have hue : UserEntry (segFlags ph) := ⟨(segFlags_leaf ph).1.2.1, (segFlags_leaf ph).2⟩
  obtain ⟨lv', s2, hset⟩ := mapInto_any (addrOf c) s1.levels hr hue hmap
  -- the page's frame is no table
  have hc : lv' c = none := by
    cases hl : lv' c with
    | none => rfl
    | some k =>
      rcases s2.fresh hl with hl | hn
      · rw [h.used hl] at hfree
        cases hfree
      · rw [hu] at hn
        simp at hn
  simp only [frameOf_addrOf hlt]
  have s3 : Soft UserEntry lv' m2' lv' (m2'.fill c fun i => BitVec.ofNat 64 (u64 (pageByte data ph va) (8 * i.val))) :=
    Soft.ofFill s2.levels hc _
  exact ⟨lv', (s1.trans s2).trans s3, s3.settled s2.levels (s2.mono hr) hset⟩

theorem loadPages_soft (l : List (Phdr × U64)) (h : Levels lv m) (hr : lv (getPml4 m) = some 3)
    (hm : l.foldlM (fun m x => loadPage data x.1 m x.2) m = some m') : ∃ lv', Soft UserEntry lv m lv' m' := by
  induction l generalizing m lv with
  | nil =>
    cases hm
    exact ⟨lv, Soft.refl h⟩
  | cons x l ih =>
    rw [List.foldlM_cons] at hm
    obtain ⟨m1, h1, h2⟩ := Option.bind_eq_some_iff.1 hm
    obtain ⟨lv1, s1, -⟩ := loadPage_soft h hr h1
    have hp : getPml4 m1 = getPml4 m := by rw [getPml4, s1.cr3]; rfl
    obtain ⟨lv2, s2⟩ := ih s1.levels (by rw [hp]; exact s1.mono hr) h2
    exact ⟨lv2, s1.trans s2⟩

/-- **A page that is not private.** It is open to the user when the load returns; it was not before. -/
theorem load_bad (h : Inv L m) (hr : L.own (getPml4 m) = some (getPml4 m, [])) (l : List (Phdr × U64))
    (hbad : ∃ x ∈ l, isPrivate x.2 = false) (hm : l.foldlM (fun m x => loadPage data x.1 m x.2) m = some m') :
    ∃ v, isPrivate v = false ∧ translate m'.mem (getPml4 m) v ≠ translate m.mem (getPml4 m) v := by
  obtain ⟨pre, x, post, rfl, hv, -⟩ := exists_first hbad
  refine ⟨x.2, hv, ?_⟩
  rw [List.foldlM_append] at hm
  obtain ⟨m1, h1, hm⟩ := Option.bind_eq_some_iff.1 hm
  rw [List.foldlM_cons] at hm
  obtain ⟨m2, h2, hm⟩ := Option.bind_eq_some_iff.1 hm
  have hl := level_own h hr (by simp)
  obtain ⟨lv1, s1⟩ := loadPages_soft pre h.levels hl h1
  have hp1 : getPml4 m1 = getPml4 m := by rw [getPml4, s1.cr3]; rfl
  have hr1 : lv1 (getPml4 m1) = some 3 := by rw [hp1]; exact s1.mono hl
  obtain ⟨lv2, s2, hset⟩ := loadPage_soft s1.levels hr1 h2
  have hp2 : getPml4 m2 = getPml4 m1 := by rw [getPml4, s2.cr3]; rfl
  obtain ⟨lv3, s3⟩ := loadPages_soft post s2.levels (by rw [hp2]; exact s2.mono hr1) hm
  obtain ⟨t, ht, hp, hu⟩ := s3.settled s2.levels (s2.mono hr1) hset
  have htr := s3.levels.translate_pt (s3.mono (s2.mono hr1)) ht
  rw [if_neg (by simp [hp]), hp1] at htr
  intro heq
  rw [htr] at heq
  have hno := shared_user h hr hv heq.symm
  rw [user_leafFlags, hu] at hno
  cases hno

/-- five frames for each page are enough -/
theorem load_isSome (l : List (Phdr × U64)) (hf : 5 * l.length ≤ freeCount m.pmm) :
    ∃ m', l.foldlM (fun m x => loadPage data x.1 m x.2) m = some m' := by
  induction l generalizing m with
  | nil => exact ⟨m, rfl⟩
  | cons x l ih =>
    rw [List.length_cons] at hf
    obtain ⟨a, m1, h1⟩ := mapFresh_isSome (m := m) x.2 (segFlags x.1) (by omega)
    have hc := mapFresh_freeCount h1
    have hpage : loadPage data x.1 m x.2 = some (m1.fill (frameOf a) fun i =>
        BitVec.ofNat 64 (u64 (pageByte data x.1 x.2) (8 * i.val))) := by rw [loadPage, h1]; rfl
    rw [List.foldlM_cons, hpage]
    exact ih (by show 5 * l.length ≤ freeCount m1.pmm; omega)

/-! ## The loader -/

/-- what a load may do: no shared address translates otherwise than before, in any address space, and what a successful
load maps, with the place where brk starts, is what clone copies and destroy frees -/
def LoadContained (data : Bytes) (size : U64) (rs : List ℕ) (m m' : Machine) (ret : Except String LoadResult) : Prop :=
  SharedKept m m' rs ∧ ∀ out, ret = .ok out →
    (∀ x ∈ mapped data size, isPrivate x.2 = true) ∧ isPrivate out.highestAddr = true

/-- every page of every segment that is loaded is private, and so is the end of the highest one, if none is refused -/
def FitsPrivate (data : Bytes) (size : U64) : Prop :=
  (∀ x ∈ mapped data size, isPrivate x.2 = true) ∧ ∀ a, brkStart data size = some a → isPrivate a = true

theorem loadContained_iff {ret : Except String LoadResult} {size : U64} (hb : Built m rs X) (hr : getPml4 m ∈ rs)
    (hp : parseAndLoad data size m = some (m', ret)) :
    LoadContained data size rs m m' ret ↔ FitsPrivate data size := by
  obtain ⟨L, h⟩ := hb.history
  have hroot := (h.roots _).1 hr
  obtain ⟨hf, hbrk⟩ := parseAndLoad_spec hp
  constructor
  · rintro ⟨hkept, hok⟩
    constructor
    · intro x hx
      by_contra hn
      obtain ⟨v, hv, hne⟩ := load_bad h.inv hroot _ ⟨x, hx, Bool.eq_false_iff.2 hn⟩ hf
      exact hne (hkept _ (Or.inl hr) v hv)
    · intro a ha
      obtain ⟨out, hout, rfl⟩ := (hbrk a).1 ha
      exact (hok out hout).2
  · rintro ⟨hall, hend⟩
    obtain ⟨L2, g⟩ := load_good hroot _ hall (Inside.start h.inv) hf
    refine ⟨g.sharedKept h hr, fun out hout => ⟨hall, ?_⟩⟩
    exact hend _ ((hbrk _).2 ⟨out, hout, rfl⟩)

/-- **Containment of the loader.** For any file, under any address space of any history: with frames enough for its
pages a load returns, and a load that returns keeps to the task exactly if every page the file asks for and the start of
brk are private. -/
theorem elf_contained_iff (hb : Built m rs X) (hr : getPml4 m ∈ rs) (data : Bytes) (size : U64) :
    (5 * (mapped data size).length ≤ freeCount m.pmm → ∃ m' ret, parseAndLoad data size m = some (m', ret)) ∧
    ∀ m' ret, parseAndLoad data size m = some (m', ret) →
      (LoadContained data size rs m m' ret ↔ FitsPrivate data size) := by
  refine ⟨fun hf => ?_, fun m' ret hp => loadContained_iff hb hr hp⟩
  obtain ⟨m', hm⟩ := load_isSome (mapped data size) hf
  exact ⟨m', parseAndLoad_isSome hm⟩

end Load

/-- an executable of one writable page at vaddr, all of it bss -/
def sampleElf (vaddr : U64) : Bytes
  | 0 => 0x7F | 1 => 0x45 | 2 => 0x4C | 3 => 0x46 | 4 => 2 | 5 => 1
  | 16 => 2 | 18 => 62 | 32 => 64 | 54 => 56 | 56 => 1
  | 64 => 1 | 68 => 2 | 105 => 0x10
  | a => if 80 ≤ a ∧ a < 88 then (vaddr >>> (8 * (a - 80))).truncate 8 else 0

/-- one page at 4 MiB -/
theorem elf_contained_sample : ∃ m rs X m' ret, Built m rs X ∧ getPml4 m ∈ rs ∧
    parseAndLoad (sampleElf sampleVirt) 120 m = some (m', ret) ∧
    LoadContained (sampleElf sampleVirt) 120 rs m m' ret := by
  obtain ⟨r, m, -, -, hb, hcr, hfree, -⟩ := boot_space
  have hr : getPml4 { m with cr3 := addrOf r } ∈ [r] := by rw [hcr]; simp
  obtain ⟨hret, hiff⟩ := elf_contained_iff hb hr (sampleElf sampleVirt) 120
  have hmapped : mapped (sampleElf sampleVirt) 120 = [(⟨1, 2, 0, sampleVirt, 0, 0x1000⟩, sampleVirt)] := rfl
  have hbrk : brkStart (sampleElf sampleVirt) 120 = some 0x401000 := rfl
  obtain ⟨m', ret, hp⟩ := hret (by
    rw [hmapped, List.length_singleton]
    exact le_trans (by decide) hfree)
  refine ⟨_, _, _, m', ret, hb, hr, hp, (hiff m' ret hp).2 ⟨fun x hx => ?_, fun a ha => ?_⟩⟩
  · rw [hmapped, List.mem_singleton] at hx
    rw [hx]
    exact sample_private
  · rw [hbrk] at ha
    cases ha
    decide

/-- **An executable reaches the physmap.** One with its page at PHYSMAP_BASE is loaded there. -/
theorem elf_physmap : ¬ ∀ (m : Machine) (rs : List ℕ) (X : Set ℕ) (data : Bytes) (size : U64), Built m rs X →
    getPml4 m ∈ rs → 5 * (mapped data size).length ≤ freeCount m.pmm →
    ∃ m' ret, parseAndLoad data size m = some (m', ret) ∧ LoadContained data size rs m m' ret := by
  intro hclaim
  obtain ⟨r, m, -, -, hb, hcr, hfree, -⟩ := boot_space
  have hr : getPml4 { m with cr3 := addrOf r } ∈ [r] := by rw [hcr]; simp
  have hmapped : mapped (sampleElf PHYSMAP_BASE) 120 = [(⟨1, 2, 0, PHYSMAP_BASE, 0, 0x1000⟩, PHYSMAP_BASE)] := rfl
  obtain ⟨m', ret, hp, hc⟩ := hclaim _ _ _ (sampleElf PHYSMAP_BASE) 120 hb hr (by
    rw [hmapped, List.length_singleton]
    exact le_trans (by decide) hfree)
  have hpriv := ((loadContained_iff hb hr hp).1 hc).1 (⟨1, 2, 0, PHYSMAP_BASE, 0, 0x1000⟩, PHYSMAP_BASE)
    (by rw [hmapped]; exact List.mem_singleton_self _)
  exact absurd hpriv (by decide)

end Retux.Elf
