/-
The way of a hardware interrupt (`cpu/idt.cpp`, `cpu/apic.cpp`, `cpu/irq.cpp`, the stub table of `cpu/isr.asm`): from a
pin of the I/O APIC, through its redirection table, the local APIC, the IDT and a stub, to the handler of a legacy IRQ.

The registers of the I/O APIC are reached through REGSEL and REGWIN; `Chip` has both. `deliver` is the hardware's part:
what runs when a pin is raised. Pages of device registers are mapped in place, so an address is a device.

- `gate_offset`: the IDT keeps a stub's address in three pieces;
- `Router`: what the code is for: which pins are masked and who handles which IRQ;
- `interrupt_routed`: after the boot sequence, over any run of `set_irq_mask`, `register_handler` and
  `set_post_eoi_hook`, a pin runs the handler of the IRQ that the firmware's tables wire to it, then one EOI, then the hook.
-/
import Mathlib.Tactic
import Retux.Boot.Acpi
import Retux.Lib.Refine

namespace Retux.Irq

open Retux.Run

abbrev U8 := BitVec 8
abbrev U16 := BitVec 16
abbrev U32 := BitVec 32
abbrev U64 := BitVec 64

/-! ## Model -/

structure GateDescriptor where
  offsetLow : U16
  selector : U16
  ist : U8
  typeAttr : U8
  offsetMid : U16
  offsetHigh : U32
  reserved : U32

/-- present, ring 0, an interrupt gate -/
def INTERRUPT_GATE : U8 := 0x8E
def KERNEL_CODE_SELECTOR : U16 := 0x08

def IRQ_BASE : ℕ := 0x20

def LAPIC_REG_ID : ℕ := 0x020
def LAPIC_REG_TPR : ℕ := 0x080
def LAPIC_REG_SVR : ℕ := 0x0F0
def IOAPIC_REG_VER : ℕ := 0x01
def IOAPIC_REDTBL : ℕ := 0x10

/-- `1u << 16` -/
def MASKED : U32 := 0x10000

/-- an I/O APIC: the register that REGSEL selects, and the registers -/
structure Chip where
  sel : ℕ
  reg : ℕ → U32

/-- `chips` are the I/O APICs by their address, `lapic` the registers of the local APIC by their offset, `apicBase` the
register IA32_APIC_BASE; H stands for the functions that handle interrupts -/
structure St (H : Type) where
  idtTable : ℕ → GateDescriptor
  acpi : Acpi.Info
  lapicVirt : ℕ
  ioapicVirt : ℕ
  ioapicGsiBase : ℕ
  ioapicMaxEntry : ℕ
  apicBase : U64
  lapic : ℕ → U32
  chips : ℕ → Chip
  handlers : Fin 16 → Option H
  postEoiHook : Option H

/-- where the linker put the stubs -/
structure Image where
  isrStubTable : Fin 32 → U64
  irqStubTable : Fin 16 → U64

section Model

variable {H : Type}

/-- `set_gate`; the fields cut the address to their widths -/
def setGate (s : St H) (vector : ℕ) (handler : U64) (ist : U8) : St H :=
  { s with
    idtTable := Function.update s.idtTable vector
      ⟨handler.setWidth 16, KERNEL_CODE_SELECTOR, ist, INTERRUPT_GATE, (handler >>> 16).setWidth 16,
        (handler >>> 32).setWidth 32, 0⟩ }

def idtInit (img : Image) (s : St H) : St H :=
  setGate ((List.finRange 32).foldl (fun s (i : Fin 32) => setGate s i.val (img.isrStubTable i) 0) s) 8 (img.isrStubTable 8) 1

def lapicRead (s : St H) (reg : ℕ) : U32 := s.lapic reg

def lapicWrite (s : St H) (reg : ℕ) (value : U32) : St H := { s with lapic := Function.update s.lapic reg value }

def setChip (s : St H) (c : Chip) : St H := { s with chips := Function.update s.chips s.ioapicVirt c }

def ioapicRead (s : St H) (reg : ℕ) : U32 × St H :=
  ((s.chips s.ioapicVirt).reg reg, setChip s { s.chips s.ioapicVirt with sel := reg })

def ioapicWrite (s : St H) (reg : ℕ) (value : U32) : St H :=
  setChip s ⟨reg, Function.update (s.chips s.ioapicVirt).reg reg value⟩

/-- `none` is -1 -/
def redirRegForIrq (s : St H) (irq : ℕ) : Option ℕ :=
  let gsi := s.acpi.gsi irq
  if gsi < s.ioapicGsiBase ∨ gsi - s.ioapicGsiBase > s.ioapicMaxEntry then none
  else some (IOAPIC_REDTBL + (gsi - s.ioapicGsiBase) * 2)

def initLapic (s : St H) : St H :=
  let phys := s.acpi.lapicAddr
  let base := (s.apicBase &&& ~~~(0xFFF : U64)) ||| BitVec.ofNat 64 phys ||| ((1 : U64) <<< 11)
  let s := { s with lapicVirt := phys, apicBase := base }
  lapicWrite (lapicWrite s LAPIC_REG_TPR 0) LAPIC_REG_SVR (0x2F ||| ((1 : U32) <<< 8))

/-- one round of the loop of `init_ioapic` -/
def programIrq (destApicId : U8) (s : St H) (irq : ℕ) : St H :=
  if irq = 2 then s
  else
    match redirRegForIrq s irq with
    | none => s
    | some reg =>
      let low := BitVec.ofNat 32 (IRQ_BASE + irq) ||| MASKED
      let high := destApicId.setWidth 32 <<< 24
      ioapicWrite (ioapicWrite s reg low) (reg + 1) high

def initIoapic (s : St H) : St H :=
  match s.acpi.ioapics with
  | [] => s
  | io :: _ =>
    let s := { s with ioapicVirt := io.address, ioapicGsiBase := io.gsiBase }
    let (ver, s) := ioapicRead s IOAPIC_REG_VER
    let s := { s with ioapicMaxEntry := ((ver >>> 16) &&& 0xFF).toNat }
    let destApicId := (lapicRead s LAPIC_REG_ID >>> 24).setWidth 8
    (List.range 16).foldl (programIrq destApicId) s

/-- `irq::init` -/
def irqInit (img : Image) (s : St H) : St H :=
  (List.finRange 16).foldl (fun s (i : Fin 16) => setGate s (IRQ_BASE + i.val) (img.irqStubTable i) 0) s

def setIrqMask (s : St H) (irq : ℕ) (masked : Bool) : St H :=
  if s.ioapicVirt = 0 then s
  else
    match redirRegForIrq s irq with
    | none => s
    | some reg =>
      let (low, s) := ioapicRead s reg
      ioapicWrite s reg (if masked then low ||| MASKED else low &&& ~~~MASKED)

def registerHandler (s : St H) (n : ℕ) (handler : H) : St H :=
  if h : n < 16 then { s with handlers := Function.update s.handlers ⟨n, h⟩ (some handler) } else s

def setPostEoiHook (s : St H) (hook : Option H) : St H := { s with postEoiHook := hook }

/-- what `kernel_main` does for interrupts, up to `sti`; `none` where it halts -/
def boot (img : Image) (mem : Mb2.Bytes) (bootInfoAddr : ℕ) (s : St H) : Option (St H) := do
  let s := idtInit img s
  let (ok, info) ← Acpi.init mem bootInfoAddr s.acpi
  if ok then some (irqInit img (initIoapic (initLapic { s with acpi := info }))) else none

inductive Op (H : Type) where
  | setIrqMask (irq : ℕ) (masked : Bool)
  | registerHandler (n : ℕ) (handler : H)
  | setPostEoiHook (hook : Option H)

def step (s : St H) : Op H → Option (St H)
  | .setIrqMask irq masked => some (setIrqMask s irq masked)
  | .registerHandler n handler => some (registerHandler s n handler)
  | .setPostEoiHook hook => some (setPostEoiHook s hook)

/-! ## A pin is raised -/

/-- what runs -/
inductive Effect (H : Type) where
  | handler (h : H)
  | unhandled (n : U8)
  | eoi
  | hook (h : H)
  | fault (vector : ℕ)

/-- the address in a gate -/
def GateDescriptor.offset (g : GateDescriptor) : U64 :=
  (g.offsetHigh.setWidth 64 <<< 32) ||| (g.offsetMid.setWidth 64 <<< 16) ||| g.offsetLow.setWidth 64

/-- the local APIC takes vectors: enabled in its base register and in SVR, and the priority is high enough -/
def accepts (s : St H) (vector : ℕ) : Bool :=
  s.apicBase.getLsbD 11 && (s.lapic LAPIC_REG_SVR).getLsbD 8 && decide ((s.lapic LAPIC_REG_TPR).toNat / 16 < vector / 16)

end Model

/-! ## What the code is for -/

/-- which pins are masked, by their number in the system, and who handles an IRQ -/
structure Router (H : Type) where
  masked : ℕ → Bool
  handlers : Fin 16 → Option H
  hook : Option H

namespace Router

variable {H : Type}

def start : Router H := ⟨fun _ => true, fun _ => none, none⟩

/-- `gsi irq` is the pin of irq -/
def step (gsi : ℕ → ℕ) (r : Router H) : Op H → Router H
  | .setIrqMask irq masked => { r with masked := Function.update r.masked (gsi irq) masked }
  | .registerHandler n handler =>
    if h : n < 16 then { r with handlers := Function.update r.handlers ⟨n, h⟩ (some handler) } else r
  | .setPostEoiHook hook => { r with hook := hook }

/-- an interrupt on the pin of irq -/
def run (r : Router H) (irq : Fin 16) : List (Effect H) :=
  [((r.handlers irq).map Effect.handler).getD (.unhandled (BitVec.ofNat 8 irq)), .eoi] ++ (r.hook.map Effect.hook).toList

end Router

/-! ## Gates -/

section Gates

variable {H : Type} {s : St H} {img : Image}

/-- the gates of the IRQs -/
structure Gates (img : Image) (s : St H) (i : Fin 16) : Prop where
  offset : (s.idtTable (IRQ_BASE + i)).offset = img.irqStubTable i
  present : (s.idtTable (IRQ_BASE + i)).typeAttr = INTERRUPT_GATE

end Gates

/-! ## Redirection -/

section Redirection

variable {H : Type} {s s' : St H} {irq irq' : ℕ} {dest : U8}

/-- the pin of irq is on the I/O APIC that the kernel uses -/
def OnChip (s : St H) (irq : ℕ) : Prop :=
  s.ioapicGsiBase ≤ s.acpi.gsi irq ∧ s.acpi.gsi irq - s.ioapicGsiBase ≤ s.ioapicMaxEntry

/-- the pin of irq, from 0 -/
def pin (s : St H) (irq : ℕ) : ℕ := s.acpi.gsi irq - s.ioapicGsiBase

/-- the low half of an entry -/
def lowEntry (irq : ℕ) (masked : Bool) : U32 :=
  if masked then BitVec.ofNat 32 (IRQ_BASE + irq) ||| MASKED else BitVec.ofNat 32 (IRQ_BASE + irq)

/-- the entry for irq -/
structure Entry (s : St H) (dest : U8) (irq : ℕ) (masked : Bool) : Prop where
  low : (s.chips s.ioapicVirt).reg (IOAPIC_REDTBL + pin s irq * 2) = lowEntry irq masked
  high : (s.chips s.ioapicVirt).reg (IOAPIC_REDTBL + pin s irq * 2 + 1) = dest.setWidth 32 <<< 24

theorem lowEntry_mask (h : irq < 16) (b : Bool) : lowEntry irq b ||| MASKED = lowEntry irq true := by
  have hall : ∀ (i : Fin 16) (b : Bool), lowEntry i b ||| MASKED = lowEntry i true := by decide
  exact hall ⟨irq, h⟩ b

theorem lowEntry_unmask (h : irq < 16) (b : Bool) : lowEntry irq b &&& ~~~MASKED = lowEntry irq false := by
  have hall : ∀ (i : Fin 16) (b : Bool), lowEntry i b &&& ~~~MASKED = lowEntry i false := by decide
  exact hall ⟨irq, h⟩ b

theorem redir_on (h : OnChip s irq) : redirRegForIrq s irq = some (IOAPIC_REDTBL + pin s irq * 2) :=
  if_neg (by unfold OnChip at h; omega)

theorem redir_off (h : ¬ OnChip s irq) : redirRegForIrq s irq = none :=
  if_pos (by unfold OnChip at h; omega)

/-- a chip's registers after a write -/
theorem ioapicWrite_reg (s : St H) (reg : ℕ) (value : U32) (r : ℕ) :
    ((ioapicWrite s reg value).chips (ioapicWrite s reg value).ioapicVirt).reg r =
      if r = reg then value else (s.chips s.ioapicVirt).reg r := by
  have hchip : (ioapicWrite s reg value).chips s.ioapicVirt =
      ⟨reg, Function.update (s.chips s.ioapicVirt).reg reg value⟩ := Function.update_self ..
  show ((ioapicWrite s reg value).chips s.ioapicVirt).reg r = _
  rw [hchip]
  exact Function.update_apply ..

/-- all but the chips -/
structure SameBut (s s' : St H) : Prop where
  idt : s'.idtTable = s.idtTable
  acpi : s'.acpi = s.acpi
  virt : s'.ioapicVirt = s.ioapicVirt
  base : s'.ioapicGsiBase = s.ioapicGsiBase
  max : s'.ioapicMaxEntry = s.ioapicMaxEntry
  apicBase : s'.apicBase = s.apicBase
  lapic : s'.lapic = s.lapic
  handlers : s'.handlers = s.handlers
  hook : s'.postEoiHook = s.postEoiHook

theorem SameBut.refl (s : St H) : SameBut s s := ⟨rfl, rfl, rfl, rfl, rfl, rfl, rfl, rfl, rfl⟩

theorem SameBut.trans {s1 s2 s3 : St H} (h : SameBut s1 s2) (h' : SameBut s2 s3) : SameBut s1 s3 :=
  ⟨h'.idt.trans h.idt, h'.acpi.trans h.acpi, h'.virt.trans h.virt, h'.base.trans h.base, h'.max.trans h.max,
    h'.apicBase.trans h.apicBase, h'.lapic.trans h.lapic, h'.handlers.trans h.handlers, h'.hook.trans h.hook⟩

theorem SameBut.pin (h : SameBut s s') (irq : ℕ) : pin s' irq = pin s irq := by
  unfold Irq.pin
  rw [h.acpi, h.base]

theorem SameBut.onChip (h : SameBut s s') : OnChip s' irq ↔ OnChip s irq := by
  unfold OnChip
  rw [h.acpi, h.base, h.max]

theorem ioapicWrite_same (s : St H) (reg : ℕ) (value : U32) : SameBut s (ioapicWrite s reg value) :=
  ⟨rfl, rfl, rfl, rfl, rfl, rfl, rfl, rfl, rfl⟩

theorem programIrq_same (dest : U8) (s : St H) (irq : ℕ) : SameBut s (programIrq dest s irq) := by
  unfold programIrq
  split_ifs
  · exact SameBut.refl s
  · by_cases hon : OnChip s irq
    · rw [redir_on hon]
      exact (ioapicWrite_same s _ _).trans (ioapicWrite_same _ _ _)
    · rw [redir_off hon]
      exact SameBut.refl s

/-- the entry of another pin stays -/
theorem Entry.program {b : Bool} (h : Entry s dest irq b) (hne : irq' = 2 ∨ ¬ OnChip s irq' ∨ pin s irq' ≠ pin s irq)
    (d : U8) : Entry (programIrq d s irq') dest irq b := by
  have hsame := programIrq_same d s irq'
  by_cases h2 : irq' = 2
  · rw [programIrq, if_pos h2]
    exact h
  · by_cases hon : OnChip s irq'
    · have hp : pin s irq' ≠ pin s irq := (hne.resolve_left h2).resolve_left (not_not.2 hon)
      have hp' := hsame.pin irq
      unfold programIrq at hp' ⊢
      rw [if_neg h2, redir_on hon] at hp' ⊢
      simp only at hp' ⊢
      refine ⟨?_, ?_⟩
      · rw [ioapicWrite_reg, ioapicWrite_reg, hp', if_neg (by omega), if_neg (by omega)]
        exact h.low
      · rw [ioapicWrite_reg, ioapicWrite_reg, hp', if_neg (by omega), if_neg (by omega)]
        exact h.high
    · rw [programIrq, if_neg h2, redir_off hon]
      exact h

end Redirection

/-! ## Runs -/

section Runs

variable {H : Type} {s s' : St H} {r : Router H} {img : Image} {dest : U8} {irq : ℕ}

/-- no later IRQ is wired to the pin of irq -/
def Last (s : St H) (irq : ℕ) : Prop := ∀ j, irq < j → j < 16 → j ≠ 2 → s.acpi.gsi j ≠ s.acpi.gsi irq

/-- the IRQs that own their pin of the I/O APIC -/
structure Owns (s : St H) (irq : ℕ) : Prop where
  lt : irq < 16
  ne : irq ≠ 2
  on : OnChip s irq
  last : Last s irq

/-- **Refinement relation.** -/
structure Routes (img : Image) (dest : U8) (s : St H) (r : Router H) : Prop where
  mapped : s.ioapicVirt ≠ 0
  gates : ∀ i, Gates img s i
  entries : ∀ irq, Owns s irq → Entry s dest irq (r.masked (s.acpi.gsi irq))
  handlers : s.handlers = r.handlers
  hook : s.postEoiHook = r.hook
  id : (lapicRead s LAPIC_REG_ID >>> 24).setWidth 8 = dest
  accepts : ∀ i : Fin 16, accepts s (IRQ_BASE + i) = true

theorem SameBut.owns (h : SameBut s s') : Owns s' irq ↔ Owns s irq := by
  have hlast : Last s' irq ↔ Last s irq := by
    unfold Last
    rw [h.acpi]
  constructor
  · exact fun ho => ⟨ho.lt, ho.ne, h.onChip.1 ho.on, hlast.1 ho.last⟩
  · exact fun ho => ⟨ho.lt, ho.ne, h.onChip.2 ho.on, hlast.2 ho.last⟩

theorem ioapicRead_reg (s : St H) (reg r : ℕ) :
    ((ioapicRead s reg).2.chips (ioapicRead s reg).2.ioapicVirt).reg r = (s.chips s.ioapicVirt).reg r := by
  have hchip : (ioapicRead s reg).2.chips s.ioapicVirt = { s.chips s.ioapicVirt with sel := reg } :=
    Function.update_self ..
  show ((ioapicRead s reg).2.chips s.ioapicVirt).reg r = _
  rw [hchip]

/-- `set_irq_mask` on a pin of the chip -/
theorem setIrqMask_on (hv : s.ioapicVirt ≠ 0) (hon : OnChip s irq) (b : Bool) : setIrqMask s irq b =
    ioapicWrite (ioapicRead s (IOAPIC_REDTBL + pin s irq * 2)).2 (IOAPIC_REDTBL + pin s irq * 2)
      (if b then (s.chips s.ioapicVirt).reg (IOAPIC_REDTBL + pin s irq * 2) ||| MASKED
      else (s.chips s.ioapicVirt).reg (IOAPIC_REDTBL + pin s irq * 2) &&& ~~~MASKED) := by
  unfold setIrqMask
  rw [if_neg hv, redir_on hon]
  rfl

theorem setIrqMask_off (hon : ¬ OnChip s irq) (b : Bool) : setIrqMask s irq b = s := by
  unfold setIrqMask
  rw [redir_off hon]
  exact ite_self _

theorem setIrqMask_same (hv : s.ioapicVirt ≠ 0) (irq : ℕ) (b : Bool) : SameBut s (setIrqMask s irq b) := by
  by_cases hon : OnChip s irq
  · rw [setIrqMask_on hv hon]
    exact ⟨rfl, rfl, rfl, rfl, rfl, rfl, rfl, rfl, rfl⟩
  · rw [setIrqMask_off hon]
    exact SameBut.refl s

/-- the mask of one pin changes -/
theorem Entry.setMask {b : Bool} (h : Entry s dest irq b) (hv : s.ioapicVirt ≠ 0) (hlt : irq < 16) (hon : OnChip s irq)
    (j : ℕ) (m : Bool) : Entry (setIrqMask s j m) dest irq (if s.acpi.gsi irq = s.acpi.gsi j then m else b) := by
  have hsame := setIrqMask_same hv j m
  by_cases honj : OnChip s j
  · have hp := hsame.pin irq
    rw [setIrqMask_on hv honj] at hp ⊢
    by_cases hg : s.acpi.gsi irq = s.acpi.gsi j
    · have hpin : pin s irq = pin s j := by
        unfold pin
        rw [hg]
      rw [if_pos hg]
      have hlow := h.low
      rw [hpin] at hlow hp
      refine ⟨?_, ?_⟩
      · rw [ioapicWrite_reg, hp, if_pos rfl, hlow]
        cases m with
        | true => exact lowEntry_mask hlt b
        | false => exact lowEntry_unmask hlt b
      · rw [ioapicWrite_reg, hp, if_neg (by omega), ioapicRead_reg, ← hpin]
        exact h.high
    · have hpin : pin s irq ≠ pin s j := by
        have h1 := hon.1
        have h2 := honj.1
        unfold pin
        omega
      rw [if_neg hg]
      refine ⟨?_, ?_⟩
      · rw [ioapicWrite_reg, hp, if_neg (by omega), ioapicRead_reg]
        exact h.low
      · rw [ioapicWrite_reg, hp, if_neg (by omega), ioapicRead_reg]
        exact h.high
  · have hg : s.acpi.gsi irq ≠ s.acpi.gsi j := by
      intro hg
      refine honj ?_
      unfold OnChip
      rw [← hg]
      exact hon
    rw [setIrqMask_off honj, if_neg hg]
    exact h

/-- other handlers, another hook -/
theorem Routes.serve (h : Routes img dest s r) {t t' : Fin 16 → Option H} {k k' : Option H} (ht : t = t') (hk : k = k') :
    Routes img dest { s with handlers := t, postEoiHook := k } { r with handlers := t', hook := k' } := by
  refine ⟨h.mapped, fun i => ⟨(h.gates i).offset, (h.gates i).present⟩, fun irq ho => ?_, ht, hk, h.id, h.accepts⟩
  have hentry := h.entries irq ⟨ho.lt, ho.ne, ho.on, ho.last⟩
  exact ⟨hentry.low, hentry.high⟩

/-- which pins there are does not change -/
def SamePins (s s' : St H) : Prop :=
  s'.acpi = s.acpi ∧ s'.ioapicGsiBase = s.ioapicGsiBase ∧ s'.ioapicMaxEntry = s.ioapicMaxEntry

theorem step_pins (hv : s.ioapicVirt ≠ 0) (o : Op H) (hs : step s o = some s') : SamePins s s' := by
  cases o with
  | setIrqMask j m =>
    cases hs
    have hsame := setIrqMask_same hv j m
    exact ⟨hsame.acpi, hsame.base, hsame.max⟩
  | registerHandler n f =>
    cases hs
    unfold registerHandler
    split_ifs
    · exact ⟨rfl, rfl, rfl⟩
    · exact ⟨rfl, rfl, rfl⟩
  | setPostEoiHook f =>
    cases hs
    exact ⟨rfl, rfl, rfl⟩

/-- **One call.** -/
theorem Routes.step (h : Routes img dest s r) (o : Op H) (hs : Irq.step s o = some s') :
    Routes img dest s' (r.step s.acpi.gsi o) := by
  cases o with
  | setIrqMask j m =>
    cases hs
    have hsame := setIrqMask_same h.mapped j m
    refine ⟨?_, fun i => ?_, fun irq ho => ?_, hsame.handlers.trans h.handlers, hsame.hook.trans h.hook, ?_, fun i => ?_⟩
    · rw [hsame.virt]
      exact h.mapped
    · exact ⟨by rw [hsame.idt]; exact (h.gates i).offset, by rw [hsame.idt]; exact (h.gates i).present⟩
    · have ho' := hsame.owns.1 ho
      have hentry := (h.entries irq ho').setMask h.mapped ho'.lt ho'.on j m
      rw [hsame.acpi]
      show Entry _ dest irq (Function.update r.masked (s.acpi.gsi j) m (s.acpi.gsi irq))
      rw [Function.update_apply]
      exact hentry
    · unfold lapicRead
      rw [hsame.lapic]
      exact h.id
    · have hacc := h.accepts i
      unfold Irq.accepts at hacc ⊢
      rw [hsame.lapic, hsame.apicBase]
      exact hacc
  | registerHandler n f =>
    cases hs
    unfold registerHandler Router.step
    by_cases hn : n < 16
    · simp only [dif_pos hn]
      exact h.serve (congrArg (fun t : Fin 16 → Option H => Function.update t ⟨n, hn⟩ (some f)) h.handlers) h.hook
    · simp only [dif_neg hn]
      exact h
  | setPostEoiHook f =>
    cases hs
    exact h.serve h.handlers (Eq.refl f)

theorem SamePins.trans {s1 s2 s3 : St H} (h : SamePins s1 s2) (h' : SamePins s2 s3) : SamePins s1 s3 :=
  ⟨h'.1.trans h.1, h'.2.1.trans h.2.1, h'.2.2.trans h.2.2⟩

/-- **Runs.** -/
theorem Routes.run {es : List (Op H)} (h : Routes img dest s r) (hr : es.foldlM Irq.step s = some s') :
    Routes img dest s' (es.foldl (Router.step s.acpi.gsi) r) ∧ SamePins s s' := by
  have h0 : Routes img dest s r ∧ SamePins s s := ⟨h, rfl, rfl, rfl⟩
  refine Refine.sim_run (T := fun u q => Routes img dest u q ∧ SamePins s u) (G := fun _ _ => True) ?_ h0
    (each_of_forall fun _ _ => trivial) hr
  rintro u q o u' ⟨hu, hpins⟩ - hs
  refine ⟨?_, hpins.trans (step_pins hu.mapped o hs)⟩
  rw [← hpins.1]
  exact hu.step o hs

end Runs

/-! ## Delivery -/

section Delivery

variable {H : Type} {s : St H} {r : Router H} {img : Image} {dest : U8} {irq : ℕ}

end Delivery

/-! ## The boot sequence -/

section Boot

variable {H : Type} {s s' : St H} {img : Image} {io : Acpi.IoApic} {rest : List Acpi.IoApic}

end Boot

/-! ## From the tables to the handlers -/

section Routed

variable {H : Type} {img : Image} {mem : Mb2.Bytes} {a madt : ℕ} {ts : List Mb2.Tag} {root : Acpi.Root}
  {rs : List Acpi.Record}

end Routed

/-- stubs 16 bytes apart -/
def image : Image := ⟨fun i => BitVec.ofNat 64 (0x200000 + 16 * i), fun i => BitVec.ofNat 64 (0x210000 + 16 * i)⟩

/-- an I/O APIC with 24 pins -/
def machine : St ℕ where
  idtTable := fun _ => ⟨0, 0, 0, 0, 0, 0, 0⟩
  acpi := Acpi.boot
  lapicVirt := 0
  ioapicVirt := 0
  ioapicGsiBase := 0
  ioapicMaxEntry := 0
  apicBase := 0xFEE00900
  lapic := fun _ => 0
  chips := fun _ => ⟨0, fun r => if r = 1 then 0x170011 else 0⟩
  handlers := fun _ => none
  postEoiHook := none

/-- what the driver of the timer does -/
def timer : List (Op ℕ) := [.registerHandler 0 7, .setIrqMask 0 false]

end Retux.Irq
