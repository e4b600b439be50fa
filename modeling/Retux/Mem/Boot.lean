/-
The page tables boot.asm builds (`set_up_page_tables`), as a machine to start histories from.

One PML4 with two slots: slot 0 and the physmap slot, both over the same four PDs of 2 MiB supervisor pages, so that the
low 4 GiB are mapped twice. The tables stand at frames 1 to 7 in the order of the source's .bss; frame 0 is in use, as
is all of the first byte of the bitmap.

Result: `bootMachine_booted`.
-/
import Mathlib.Tactic
import Retux.Mem.Spaces

namespace Retux.Vmm

open Retux.Word Retux.Pmm

/-- `entry | 0b11` -/
def bootLink (frame : ℕ) : U64 := addrOf frame ||| (PRESENT ||| WRITABLE)

/-- entry `pdIdx` of the PD of GiB `pd`: a 2 MiB page, `0b10000011` -/
def bootHuge (pd : ℕ) (pdIdx : Idx) : U64 :=
  BitVec.ofNat 64 ((pd * 512 + pdIdx.val) * 2 ^ 21) ||| (PRESENT ||| WRITABLE ||| HUGE_PAGE)

/-- frames 1: p4_table, 2: p3_table, 3 to 6: p2_table to p2_table4, 7: p3_table_physmap -/
def bootMem (f : ℕ) (i : Idx) : U64 :=
  if f = 1 then if i = 0 then bootLink 2 else if i = PHYSMAP_PML4_IDX then bootLink 7 else 0
  else if f = 2 ∨ f = 7 then if i.val < 4 then bootLink (3 + i.val) else 0
  else if 3 ≤ f ∧ f ≤ 6 then bootHuge (f - 3) i
  else 0

def bootMachine : Machine :=
  { mem := bootMem
    pmm := ⟨fun b => if b = 0 then 0xFF else 0, 0, 0⟩
    cr3 := addrOf 1
    gKernelPml4 := addrOf 1
    freed := [] }

/-- levels of the boot tables -/
def bootLevel (f : ℕ) : Option ℕ :=
  if f = 1 then some 3 else if f = 2 ∨ f = 7 then some 2 else if 3 ≤ f ∧ f ≤ 6 then some 1 else none

theorem boot_used (f : ℕ) : used bootMachine f = decide (f < 8) := by
  unfold used bootMachine isUsed
  by_cases hf : f < 8
  · have h8 : ∀ k : Fin 8, decide ((0xFF : BitVec 8) &&& BitVec.twoPow 8 (k.val % 8) ≠ 0) = true := by decide
    simp only [Nat.div_eq_of_lt hf, if_true, hf, decide_true]
    exact h8 ⟨f, hf⟩
  · have hne : f / 8 ≠ 0 := by omega
    simp [hne, hf]

/-- all but the first eight frames are free -/
theorem boot_free_frames : MAX_FRAMES - 8 ≤ freeCount bootMachine.pmm := by
  have hsub : Finset.Ico 8 MAX_FRAMES ⊆
      (Finset.range MAX_FRAMES).filter fun f => isUsed bootMachine.pmm.bitmap f = false := by
    intro f hf
    rw [Finset.mem_Ico] at hf
    have hu : isUsed bootMachine.pmm.bitmap f = decide (f < 8) := boot_used f
    rw [Finset.mem_filter, Finset.mem_range, hu]
    exact ⟨hf.2, decide_eq_false (Nat.not_lt.2 hf.1)⟩
  calc MAX_FRAMES - 8 = (Finset.Ico 8 MAX_FRAMES).card := (Nat.card_Ico 8 MAX_FRAMES).symm
    _ ≤ freeCount bootMachine.pmm := Finset.card_le_card hsub

theorem boot_freeCount : 100 ≤ freeCount bootMachine.pmm := by
  have h := boot_free_frames
  unfold MAX_FRAMES at h
  omega

theorem bootLink_spec {f : ℕ} (hf : f < MAX_FRAMES) :
    present (bootLink f) = true ∧ huge (bootLink f) = false ∧ entryToKptr (bootLink f) = f :=
  ⟨by rw [bootLink, present_addr_or hf]; rfl, by rw [bootLink, huge_addr_or hf]; rfl, kptr_addr_or hf (by decide)⟩

theorem bootHuge_spec (pd : ℕ) (i : Idx) : huge (bootHuge pd i) = true ∧ user (bootHuge pd i) = false := by
  constructor
  · rw [bootHuge, huge_or]; simp [show huge (PRESENT ||| WRITABLE ||| HUGE_PAGE) = true by decide]
  · unfold user bootHuge
    rw [BitVec.getLsbD_or, BitVec.getLsbD_ofNat, Nat.testBit_mul_two_pow,
      show (PRESENT ||| WRITABLE ||| HUGE_PAGE).getLsbD 2 = false by decide]
    rfl

theorem bootLevel_cases {f k : ℕ} (h : bootLevel f = some k) :
    (f = 1 ∧ k = 3) ∨ ((f = 2 ∨ f = 7) ∧ k = 2) ∨ ((3 ≤ f ∧ f ≤ 6) ∧ k = 1) := by
  unfold bootLevel at h
  split_ifs at h with h1 h2 h3
  · cases h; exact Or.inl ⟨h1, rfl⟩
  · cases h; exact Or.inr (Or.inl ⟨h2, rfl⟩)
  · cases h; exact Or.inr (Or.inr ⟨h3, rfl⟩)

/-- **Boot.** The tables of boot.asm are kernel tables in the sense of `Kern`. -/
theorem bootMachine_booted : Booted bootMachine := by
  have hroot : frameOf bootMachine.gKernelPml4 = 1 := frameOf_addrOf (by decide)
  have hmem1 : ∀ i, bootMachine.mem 1 i = if i = 0 then bootLink 2 else if i = PHYSMAP_PML4_IDX then bootLink 7 else 0 :=
    fun i => rfl
  have hmem2 : ∀ {f} (i : Idx), f = 2 ∨ f = 7 →
      bootMachine.mem f i = if i.val < 4 then bootLink (3 + i.val) else 0 := by
    rintro f i (rfl | rfl) <;> rfl
  have hmem3 : ∀ {f} (i : Idx), 3 ≤ f ∧ f ≤ 6 → bootMachine.mem f i = bootHuge (f - 3) i := by
    intro f i hf
    show bootMem f i = _
    rw [bootMem, if_neg (by omega), if_neg (by omega), if_pos hf]
  refine ⟨⟨bootLevel, ?_⟩, by rw [boot_used]; rfl⟩
  constructor
  · rw [hroot]; rfl
  · intro f k hf
    have hlt : f < 8 ∧ 0 < f := by
      rcases bootLevel_cases hf with ⟨h, -⟩ | ⟨h, -⟩ | ⟨h, -⟩ <;> omega
    rw [boot_used]
    exact ⟨by simpa using hlt.1, hlt.2, by unfold MAX_FRAMES; omega⟩
  · intro f i hf he
    rcases bootLevel_cases hf with ⟨rfl, -⟩ | ⟨-, h⟩ | ⟨-, h⟩
    · rw [hmem1] at he ⊢
      split_ifs at he ⊢ with h0 h1
      · rw [(bootLink_spec (by decide)).2.2]; rfl
      · rw [(bootLink_spec (by decide)).2.2]; rfl
      · cases he
    · omega
    · omega
  · intro f i hf he
    rcases bootLevel_cases hf with ⟨-, h⟩ | ⟨h, -⟩ | ⟨-, h⟩
    · omega
    · rw [hmem2 i h] at he ⊢
      split_ifs at he ⊢ with h4
      · have hs := bootLink_spec (f := 3 + i.val) (by unfold MAX_FRAMES; omega)
        refine ⟨hs.2.1, ?_⟩
        rw [hs.2.2, bootLevel, if_neg (by omega), if_neg (by omega), if_pos (by omega)]
      · cases he
    · omega
  · intro f i hf _
    rcases bootLevel_cases hf with ⟨-, h⟩ | ⟨-, h⟩ | ⟨h, -⟩
    · omega
    · omega
    · rw [hmem3 i h]; exact Or.inl (bootHuge_spec _ i)
  · intro f i hf
    rcases bootLevel_cases hf with ⟨-, h⟩ | ⟨-, h⟩ | ⟨-, h⟩ <;> omega
  · intro f i hf
    rcases bootLevel_cases hf with ⟨-, h⟩ | ⟨-, h⟩ | ⟨-, h⟩ <;> omega
  · rw [hroot, hmem1, if_pos rfl]; exact (bootLink_spec (by decide)).1
  · intro i hi
    rw [hroot, hmem1, if_pos rfl, (bootLink_spec (by decide)).2.2, hmem2 i (Or.inl rfl), if_pos hi]
    exact (bootLink_spec (by unfold MAX_FRAMES; omega)).1

/-- the first address space after boot, loaded: nothing private is mapped in it -/
theorem boot_space : ∃ r m, createAddressSpace bootMachine = some (addrOf r, m) ∧ r < MAX_FRAMES ∧
    Built { m with cr3 := addrOf r } [r] {f | used bootMachine f = true} ∧
    getPml4 { m with cr3 := addrOf r } = r ∧ 1000 ≤ freeCount m.pmm ∧
    ∀ v, isPrivate v = true → translate m.mem r v = none := by
  have hb := Built.boot bootMachine_booted
  obtain ⟨L, h⟩ := hb.history
  obtain ⟨a, m, hc, hcost⟩ := create_isSome (m := bootMachine) (by have := boot_freeCount; omega)
  obtain ⟨L', r, rfl, hlt, -⟩ := create_spec h.inv hc
  have hb1 := hb.create hc
  have hun := fun v => create_unmapped h.inv hc (v := v)
  rw [frameOf_addrOf hlt] at hb1 hun
  refine ⟨r, m, hc, hlt, hb1.load (by simp), kptr_addrOf hlt, ?_, hun⟩
  have := boot_free_frames
  unfold MAX_FRAMES at this
  omega

/-- the physmap is mapped in it -/
theorem boot_physmap {r : ℕ} {m : Machine} (hc : createAddressSpace bootMachine = some (addrOf r, m))
    (hlt : r < MAX_FRAMES) : translate m.mem r PHYSMAP_BASE ≠ none := by
  obtain ⟨L, h⟩ := (Built.boot bootMachine_booted).history
  obtain ⟨L', r', hr', hlt', -, -, -, hst, -, -, -, -, hslot⟩ := create_spec h.inv hc
  have hrr : r = r' := by rw [← frameOf_addrOf hlt, hr', frameOf_addrOf hlt']
  subst hrr
  have hkeep : ∀ f, f < 8 → m.mem f = bootMem f := fun f hf => hst.mem (by rw [boot_used]; simpa using hf)
  have e4 : m.mem r (tableIdx PHYSMAP_BASE 39) = bootLink 7 := by
    have h1 : frameOf bootMachine.gKernelPml4 = 1 := frameOf_addrOf (by decide)
    rw [show tableIdx PHYSMAP_BASE 39 = PHYSMAP_PML4_IDX from rfl, hslot _ (Or.inr rfl), h1]
    rfl
  have e3 : m.mem 7 (tableIdx PHYSMAP_BASE 30) = bootLink 3 := by rw [hkeep 7 (by decide)]; rfl
  have e2 : m.mem 3 (tableIdx PHYSMAP_BASE 21) = bootHuge 0 0 := by rw [hkeep 3 (by decide)]; rfl
  obtain ⟨p7, -, k7⟩ := bootLink_spec (f := 7) (by decide)
  obtain ⟨p3, g3, k3⟩ := bootLink_spec (f := 3) (by decide)
  have p0 : present (bootHuge 0 0) = true := by decide
  unfold translate
  simp only [e4, p7, k7, e3, p3, g3, k3, e2, p0, (bootHuge_spec 0 0).1, Bool.true_eq_false, Bool.false_eq_true, if_false,
    if_true]
  simp

/-- page 4 MiB, where programs are loaded, with the flags of a data page -/
def sampleVirt : U64 := 0x400000
def sampleFlags : U64 := PRESENT ||| WRITABLE ||| USER ||| NO_EXECUTE

theorem sample_private : isPrivate sampleVirt = true := by decide

theorem sample_flags : LeafFlags sampleFlags := by decide

end Retux.Vmm
