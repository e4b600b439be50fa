/-
The assembly stubs between ring 3 and the kernel (`cpu/syscall_entry.asm`, the IRQ part of `cpu/isr.asm`,
`task/fork_entry.asm`), instruction by instruction, with the hardware's part of SYSCALL, SYSRET, IRETQ and of an
interrupt from ring 3.

A stub is a list of instructions in the order of the source. `[gs:off]` is the word at GS_BASE + off, whatever GS_BASE
is; `g_cpu_local` is a pair of words, kernel_rsp and user_rsp, at an address of its own.

- `syscallEntry_spec`: the words of `syscall::Frame` stand at the top of the kernel stack, in the order of the struct;
- `syscallExit_spec`: the exit path takes them back into the registers they came from;
- `irqEntry_spec`, `irqExit_spec`: the same for an interrupt of ring-3 code.

Ghost: `Core.seen`, GS_BASE at each `[gs:]` access.
-/
import Mathlib.Tactic
import Retux.Lib.Stack
import Retux.Lib.Word

namespace Retux.Cpu

open Retux.Word Retux.Stack

/-! ## Registers and instructions -/

inductive Reg where
  | rax | rbx | rcx | rdx | rsi | rdi | rbp | rsp | r8 | r9 | r10 | r11 | r12 | r13 | r14 | r15
deriving DecidableEq, Repr

/-- a 512-byte FXSAVE image -/
abbrev FxImage := BitVec 4096

/-- what ring-3 code sees of the CPU; rip is the next instruction -/
structure User where
  reg : Reg → U64
  rip : U64
  rflags : U64
  fpu : FxImage

structure Core extends User where
  gsBase : U64
  kernelGsBase : U64
  mem : Mem
  seen : List U64

inductive Instr where
  | swapgs
  /-- `mov [gs:off], r` -/
  | storeGs (off : U64) (r : Reg)
  /-- `mov r, [gs:off]` -/
  | loadGs (r : Reg) (off : U64)
  | push (r : Reg)
  | pushImm (v : U64)
  /-- `push qword [gs:off]` -/
  | pushGs (off : U64)
  /-- `push qword [b + off]` -/
  | pushAt (b : Reg) (off : U64)
  | pop (r : Reg)
  /-- `add rsp, n` -/
  | addRsp (n : U64)
  | mov (d s : Reg)
  /-- `mov d, [b + off]` -/
  | load (d b : Reg) (off : U64)
  /-- `xor r, r` -/
  | zero (r : Reg)

namespace Core

def set (c : Core) (r : Reg) (v : U64) : Core := { c with reg := Function.update c.reg r v }

def pushWord (c : Core) (v : U64) : Core :=
  { c.set .rsp (c.reg .rsp - 8#64) with mem := Function.update c.mem (c.reg .rsp - 8#64) v }

def pushAll (c : Core) (vs : List U64) : Core := vs.foldl pushWord c

/-- a `[gs:]` access -/
def access (c : Core) : Core := { c with seen := c.gsBase :: c.seen }

def exec (c : Core) : Instr → Core
  | .swapgs => { c with gsBase := c.kernelGsBase, kernelGsBase := c.gsBase }
  | .storeGs off r => { c.access with mem := Function.update c.mem (c.gsBase + off) (c.reg r) }
  | .loadGs r off => c.access.set r (c.mem (c.gsBase + off))
  | .push r => c.pushWord (c.reg r)
  | .pushImm v => c.pushWord v
  | .pushGs off => c.access.pushWord (c.mem (c.gsBase + off))
  | .pushAt b off => c.pushWord (c.mem (c.reg b + off))
  | .pop r => (c.set .rsp (c.reg .rsp + 8#64)).set r (c.mem (c.reg .rsp))
  | .addRsp n => c.set .rsp (c.reg .rsp + n)
  | .mov d s => c.set d (c.reg s)
  | .load d b off => c.set d (c.mem (c.reg b + off))
  | .zero r => c.set r 0

def execAll (c : Core) (l : List Instr) : Core := l.foldl exec c

end Core

/-! ## SYSCALL and SYSRET -/

/-- offsets into `cpu::CpuLocal` -/
def CPU_LOCAL_KERNEL_RSP : U64 := 0
def CPU_LOCAL_USER_RSP : U64 := 8

def RFLAGS_IF : U64 := 0x200
def RFLAGS_DF : U64 := 0x400
/-- `IA32_FMASK` -/
def FMASK : U64 := RFLAGS_IF ||| RFLAGS_DF

/-- the flags SYSRET takes from R11; bit 1 is always set, RF and VM are cleared -/
def SYSRET_MASK : U64 := 0x3C7FD7

/-- the SYSCALL instruction, without the jump to LSTAR -/
def Core.syscall (c : Core) : Core :=
  { (c.set .rcx c.rip).set .r11 c.rflags with rflags := c.rflags &&& ~~~FMASK }

def canonical (a : U64) : Bool := a.toNat < 2 ^ 47 ∨ 2 ^ 64 - 2 ^ 47 ≤ a.toNat

/-- SYSRETQ; it faults on a return address that is not canonical -/
def Core.sysret (c : Core) : Option Core :=
  if canonical (c.reg .rcx) then
    some { c with rip := c.reg .rcx, rflags := (c.reg .r11 &&& SYSRET_MASK) ||| 2 } else none

/-- `syscall_entry` up to the call of `syscall_dispatch` -/
def syscallEntry : List Instr :=
  [.swapgs, .storeGs CPU_LOCAL_USER_RSP .rsp, .loadGs .rsp CPU_LOCAL_KERNEL_RSP,
   .push .rcx, .push .r11, .pushGs CPU_LOCAL_USER_RSP,
   .push .r15, .push .r14, .push .r13, .push .r12, .push .rbp, .push .rbx,
   .push .r9, .push .r8, .push .r10, .push .rdx, .push .rsi, .push .rdi, .push .rax,
   .mov .rdi .rsp]

/-- `syscall_entry` from the return of `syscall_dispatch` to the `sysret` -/
def syscallExit : List Instr :=
  [.addRsp 8, .pop .rdi, .pop .rsi, .pop .rdx, .pop .r10, .pop .r8, .pop .r9,
   .pop .rbx, .pop .rbp, .pop .r12, .pop .r13, .pop .r14, .pop .r15,
   .addRsp 8, .pop .r11, .pop .rcx,
   .loadGs .rsp CPU_LOCAL_USER_RSP, .swapgs]

/-- the fields of `syscall::Frame`, low to high: num, arg0 to arg5, rbx, rbp, r12 to r15, user_rsp, user_rflags,
user_rip -/
def frameWords (u : User) : List U64 :=
  ([.rax, .rdi, .rsi, .rdx, .r10, .r8, .r9, .rbx, .rbp, .r12, .r13, .r14, .r15, .rsp] : List Reg).map u.reg ++
    [u.rflags, u.rip]

/-! ## Interrupts of ring-3 code -/

def USER_CODE_SELECTOR : U64 := 0x23
def USER_DATA_SELECTOR : U64 := 0x1B

/-- IF, TF, NT, RF and VM, which an interrupt gate clears -/
def GATE_CLEARS : U64 := 0x34300

/-- the CPU's part: onto the stack of TSS.RSP0, with interrupts off -/
def Core.interrupt (c : Core) (rsp0 : U64) : Core :=
  { c.set .rsp rsp0 with rflags := c.rflags &&& ~~~GATE_CLEARS }.pushAll
    [USER_DATA_SELECTOR, c.reg .rsp, c.rflags, USER_CODE_SELECTOR, c.rip]

/-- IRETQ to ring 3: rip, cs, rflags, rsp, ss -/
def Core.iretq (c : Core) : Core :=
  { c.set .rsp (c.mem (c.reg .rsp + 24#64)) with
    rip := c.mem (c.reg .rsp), rflags := c.mem (c.reg .rsp + 16#64) }

/-- `irq_common_stub` up to the call of `irq_common_handler`, with the two words before it -/
def irqEntry (vector : U64) : List Instr :=
  [.pushImm 0, .pushImm vector,
   .push .rax, .push .rbx, .push .rcx, .push .rdx, .push .rsi, .push .rdi, .push .rbp, .push .r8, .push .r9,
   .push .r10, .push .r11, .push .r12, .push .r13, .push .r14, .push .r15, .mov .rdi .rsp]

/-- `irq_common_stub` from the return of `irq_common_handler` to the `iretq` -/
def irqExit : List Instr :=
  [.pop .r15, .pop .r14, .pop .r13, .pop .r12, .pop .r11, .pop .r10, .pop .r9, .pop .r8, .pop .rbp, .pop .rdi,
   .pop .rsi, .pop .rdx, .pop .rcx, .pop .rbx, .pop .rax, .addRsp 16]

/-- the fields of `irq::Frame`, low to high -/
def irqWords (u : User) (vector : U64) : List U64 :=
  ([.r15, .r14, .r13, .r12, .r11, .r10, .r9, .r8, .rbp, .rdi, .rsi, .rdx, .rcx, .rbx, .rax] : List Reg).map u.reg ++
    [vector, 0, u.rip, USER_CODE_SELECTOR, u.rflags, u.reg .rsp, USER_DATA_SELECTOR]

/-! ## The first entry of a forked child -/

structure ForkFrame where
  rbx : U64
  rbp : U64
  r12 : U64
  r13 : U64
  r14 : U64
  r15 : U64
  rip : U64
  rflags : U64
  rsp : U64

/-- its fields, low to high -/
def ForkFrame.words (f : ForkFrame) : List U64 := [f.rbx, f.rbp, f.r12, f.r13, f.r14, f.r15, f.rip, f.rflags, f.rsp]

/-- what `sys_fork` copies out of the parent's `syscall::Frame` at f -/
def ForkFrame.ofFrame (m : Mem) (f : U64) : ForkFrame where
  rbx := m (f + 56#64)
  rbp := m (f + 64#64)
  r12 := m (f + 72#64)
  r13 := m (f + 80#64)
  r14 := m (f + 88#64)
  r15 := m (f + 96#64)
  rip := m (f + 120#64)
  rflags := m (f + 112#64)
  rsp := m (f + 104#64)

/-- `fork_enter_ring3` up to the `iretq` -/
def forkEnterRing3 : List Instr :=
  [.load .rbx .rdi 0, .load .rbp .rdi 8, .load .r12 .rdi 16, .load .r13 .rdi 24, .load .r14 .rdi 32, .load .r15 .rdi 40,
   .pushImm USER_DATA_SELECTOR, .pushAt .rdi 64, .pushAt .rdi 56, .pushImm USER_CODE_SELECTOR, .pushAt .rdi 48,
   .zero .rax]

/-- the registers of the child's first ring-3 state: those not in the frame are the kernel's -/
def ForkFrame.regs (f : ForkFrame) (kernel : Reg → U64) : Reg → U64
  | .rax => 0
  | .rbx => f.rbx
  | .rbp => f.rbp
  | .r12 => f.r12
  | .r13 => f.r13
  | .r14 => f.r14
  | .r15 => f.r15
  | .rsp => f.rsp
  | r => kernel r

/-! ## Pushes and pops -/

section Stack

variable {c : Core} {vs ws : List U64} {rs : List Reg}

theorem execAll_append (c : Core) (l l' : List Instr) : c.execAll (l ++ l') = (c.execAll l).execAll l' :=
  List.foldl_append ..

theorem pushAll_append (c : Core) (vs vs' : List U64) : c.pushAll (vs ++ vs') = (c.pushAll vs).pushAll vs' :=
  List.foldl_append ..

/-- a push leaves everything but rsp and the stack -/
theorem pushAll_rest (c : Core) (vs : List U64) : ∃ m : Mem, c.pushAll vs =
    { c.set .rsp (c.reg .rsp - BitVec.ofNat 64 (8 * vs.length)) with mem := m } := by
  induction vs generalizing c with
  | nil =>
    refine ⟨c.mem, ?_⟩
    rw [List.length_nil, Nat.mul_zero, BitVec.sub_zero]
    show c = { c with reg := Function.update c.reg .rsp (c.reg .rsp), mem := c.mem }
    rw [Function.update_eq_self]
  | cons v vs ih =>
    obtain ⟨m, hm⟩ := ih (c.pushWord v)
    refine ⟨m, hm.trans ?_⟩
    simp only [Core.pushWord, Core.set, Function.update_self, Function.update_idem, List.length_cons]
    congr 3
    rw [BitVec.sub_sub, Nat.mul_add, Nat.add_comm, BitVec.ofNat_add]

theorem pushAll_rsp (c : Core) (vs : List U64) :
    (c.pushAll vs).reg .rsp = c.reg .rsp - BitVec.ofNat 64 (8 * vs.length) := by
  obtain ⟨m, hm⟩ := pushAll_rest c vs
  rw [hm]
  simp only [Core.set, Function.update_self]

theorem pushAll_reg (c : Core) (vs : List U64) {r : Reg} (h : r ≠ .rsp) : (c.pushAll vs).reg r = c.reg r := by
  obtain ⟨m, hm⟩ := pushAll_rest c vs
  rw [hm]
  simp only [Core.set, Function.update_of_ne h]

theorem access_pushWord (c : Core) (v : U64) : c.access.pushWord v = (c.pushWord v).access := rfl

theorem access_pushAll (c : Core) (vs : List U64) : c.access.pushAll vs = (c.pushAll vs).access := by
  induction vs generalizing c with
  | nil => rfl
  | cons v vs ih => exact ih (c.pushWord v)

theorem pushWord_rsp (h : 8 ≤ (c.reg .rsp).toNat) (v : U64) :
    ((c.pushWord v).reg .rsp).toNat = (c.reg .rsp).toNat - 8 := by
  show (Function.update c.reg .rsp (c.reg .rsp - 8#64) .rsp).toNat = (c.reg .rsp).toNat - 8
  rw [Function.update_self]
  exact sub_words (n := 1) h

/-- **Pushes.** The words stand below what was there, last one lowest. -/
theorem pushAll_words (h : Words c.mem (c.reg .rsp) ws) (hlen : 8 * vs.length ≤ (c.reg .rsp).toNat)
    (hw : (c.reg .rsp).toNat + 8 * ws.length ≤ 2 ^ 64) :
    Words (c.pushAll vs).mem ((c.pushAll vs).reg .rsp) (vs.reverse ++ ws) := by
  induction vs generalizing c ws with
  | nil => exact h
  | cons v vs ih =>
    rw [List.length_cons] at hlen
    have h8 := pushWord_rsp (c := c) (by omega) v
    rw [List.reverse_cons, List.append_assoc, List.singleton_append]
    refine ih (c := c.pushWord v) (h.push (by omega) hw v) (by omega) ?_
    rw [List.length_cons]
    omega

theorem pushAll_mem (hlen : 8 * vs.length ≤ (c.reg .rsp).toNat) {a : U64}
    (ha : ¬ Within a (c.reg .rsp - BitVec.ofNat 64 (8 * vs.length)) vs.length) : (c.pushAll vs).mem a = c.mem a := by
  induction vs generalizing c with
  | nil => rfl
  | cons v vs ih =>
    rw [List.length_cons] at hlen
    have h8 := pushWord_rsp (c := c) (by omega) v
    unfold Within at ha ih
    rw [sub_words (by rw [List.length_cons]; omega), List.length_cons] at ha
    have hrest : (c.pushAll (v :: vs)).mem a = (c.pushWord v).mem a := by
      refine ih (c := c.pushWord v) (by omega) ?_
      rw [sub_words (by omega)]
      omega
    rw [hrest]
    refine Function.update_of_ne ?_ _ _
    rintro rfl
    rw [sub_words (n := 1) (by omega)] at ha
    omega

theorem execAll_pushes (h : Reg.rsp ∉ rs) : c.execAll (rs.map .push) = c.pushAll (rs.map c.reg) := by
  induction rs generalizing c with
  | nil => rfl
  | cons r rs ih =>
    have hrest : rs.map (c.pushWord (c.reg r)).reg = rs.map c.reg := by
      refine List.map_congr_left fun q hq => Function.update_of_ne ?_ _ _
      rintro rfl
      exact h (List.mem_cons_of_mem _ hq)
    show (c.pushWord (c.reg r)).execAll (rs.map .push) = (c.pushWord (c.reg r)).pushAll (rs.map c.reg)
    rw [ih fun hr => h (List.mem_cons_of_mem _ hr), hrest]

/-- what a run of pops leaves: only rsp and the popped registers change -/
structure Popped (c : Core) (rs : List Reg) (vs ws : List U64) (c' : Core) : Prop where
  same : c' = { c with reg := c'.reg }
  vals : rs.map c'.reg = vs
  others : ∀ r, r ∉ rs → r ≠ .rsp → c'.reg r = c.reg r
  words : Words c'.mem (c'.reg .rsp) ws

/-- **Pops.** -/
theorem execAll_pops (hn : rs.Nodup) (hr : Reg.rsp ∉ rs) (hlen : rs.length = vs.length)
    (h : Words c.mem (c.reg .rsp) (vs ++ ws)) : Popped c rs vs ws (c.execAll (rs.map .pop)) := by
  induction rs generalizing c vs with
  | nil =>
    cases vs with
    | nil => exact ⟨rfl, rfl, fun _ _ _ => rfl, h⟩
    | cons v vs => cases hlen
  | cons r rs ih =>
    cases vs with
    | nil => cases hlen
    | cons v vs =>
      have hrr : r ≠ .rsp := fun he => hr (he ▸ List.mem_cons_self ..)
      obtain ⟨h1, h2⟩ := h
      have hrsp : (c.exec (.pop r)).reg .rsp = c.reg .rsp + 8#64 := by
        show Function.update (Function.update c.reg .rsp (c.reg .rsp + 8#64)) r _ .rsp = _
        rw [Function.update_of_ne hrr.symm, Function.update_self]
      have hself : (c.exec (.pop r)).reg r = v := by
        rw [← h1]
        exact Function.update_self ..
      have p := ih (c := c.exec (.pop r)) (List.nodup_cons.1 hn).2 (fun hm => hr (List.mem_cons_of_mem _ hm))
        (Nat.succ.inj hlen) (by rw [hrsp]; exact h2)
      refine ⟨p.same, ?_, fun q hq hqr => ?_, p.words⟩
      · rw [List.map_cons, List.cons.injEq]
        exact ⟨(p.others r (List.nodup_cons.1 hn).1 hrr).trans hself, p.vals⟩
      · rw [List.mem_cons, not_or] at hq
        refine (p.others q hq.2 hqr).trans ?_
        show Function.update (Function.update c.reg .rsp _) r _ q = c.reg q
        rw [Function.update_of_ne hq.1, Function.update_of_ne hqr]

end Stack

/-! ## The stubs -/

section Stubs

variable {c : Core} {u : User} {cpuLocal top : U64}

/-- `g_cpu_local` is not on the stack below top -/
def ClearOf (cpuLocal top : U64) (n : ℕ) : Prop :=
  ¬ Within cpuLocal (top - BitVec.ofNat 64 (8 * n)) n ∧
    ¬ Within (cpuLocal + CPU_LOCAL_USER_RSP) (top - BitVec.ofNat 64 (8 * n)) n

/-- the state in which `syscall_dispatch` is called, after a SYSCALL in state c -/
structure Entered (cpuLocal top : U64) (c c' : Core) : Prop where
  frame : Words c'.mem (c'.reg .rsp) (frameWords c.toUser)
  rsp : c'.reg .rsp = top - BitVec.ofNat 64 (8 * 16)
  gs : c'.gsBase = cpuLocal
  seen : c'.seen = [cpuLocal, cpuLocal, cpuLocal] ++ c.seen
  userRsp : c'.mem (cpuLocal + CPU_LOCAL_USER_RSP) = c.reg .rsp
  mem : ∀ a, a ≠ cpuLocal + CPU_LOCAL_USER_RSP → ¬ Within a (top - BitVec.ofNat 64 (8 * 16)) 16 → c'.mem a = c.mem a
  rflags : c'.rflags = c.rflags &&& ~~~FMASK
  fpu : c'.fpu = c.fpu

theorem local_ne (a : U64) : a ≠ a + CPU_LOCAL_USER_RSP := by
  intro h
  have := congrArg BitVec.toNat h
  rw [BitVec.toNat_add, show CPU_LOCAL_USER_RSP.toNat = 8 from rfl] at this
  have ha := a.isLt
  omega

/-- the registers the entry stub pushes after rcx, r11 and the user's rsp -/
def SAVED : List Reg := [.r15, .r14, .r13, .r12, .rbp, .rbx, .r9, .r8, .r10, .rdx, .rsi, .rdi, .rax]

theorem syscallEntry_parts : syscallEntry =
    ([.swapgs, .storeGs CPU_LOCAL_USER_RSP .rsp, .loadGs .rsp CPU_LOCAL_KERNEL_RSP] : List Instr) ++
      (([.push .rcx, .push .r11, .pushGs CPU_LOCAL_USER_RSP] : List Instr) ++
        (SAVED.map Instr.push ++ ([.mov .rdi .rsp] : List Instr))) := rfl

/-- the entry stub is sixteen pushes on the kernel stack -/
theorem syscallEntry_pushes (hk : c.kernelGsBase = cpuLocal) (hm : c.mem cpuLocal = top) (htop : 8 * 16 ≤ top.toNat)
    (hcl : ClearOf cpuLocal top 16) : ∃ c2 : Core, c2.reg .rsp = top ∧ c2.gsBase = cpuLocal ∧
      c2.seen = [cpuLocal, cpuLocal] ++ c.seen ∧
      c2.mem = Function.update c.mem (cpuLocal + CPU_LOCAL_USER_RSP) (c.reg .rsp) ∧
      c2.rflags = c.rflags &&& ~~~FMASK ∧ c2.fpu = c.fpu ∧
      c.syscall.execAll syscallEntry =
        (c2.pushAll ([c.rip, c.rflags, c.reg .rsp] ++ SAVED.map c.reg)).access.exec (.mov .rdi .rsp) := by
  set c2 := c.syscall.execAll [.swapgs, .storeGs CPU_LOCAL_USER_RSP .rsp, .loadGs .rsp CPU_LOCAL_KERNEL_RSP] with hc2
  have hrsp : c2.reg .rsp = top := by
    show Function.update c.mem (c.kernelGsBase + CPU_LOCAL_USER_RSP) (c.reg .rsp) (c.kernelGsBase + CPU_LOCAL_KERNEL_RSP)
      = top
    rw [hk, show cpuLocal + CPU_LOCAL_KERNEL_RSP = cpuLocal from BitVec.add_zero _, Function.update_of_ne (local_ne _), hm]
  have hmem : c2.mem = Function.update c.mem (cpuLocal + CPU_LOCAL_USER_RSP) (c.reg .rsp) := by
    rw [← hk]
    rfl
  refine ⟨c2, hrsp, hk, by rw [← hk]; rfl, hmem, rfl, rfl, ?_⟩
  -- the user's rsp is read back through gs after two pushes
  have hback : (c2.pushAll [c.rip, c.rflags]).mem (cpuLocal + CPU_LOCAL_USER_RSP) = c.reg .rsp := by
    have h2 : 8 * [c.rip, c.rflags].length ≤ (c2.reg .rsp).toNat := by
      rw [hrsp]
      show 8 * 2 ≤ top.toNat
      omega
    rw [pushAll_mem h2, hmem, Function.update_self]
    intro hw
    refine hcl.2 ?_
    unfold Within at hw ⊢
    rw [sub_words h2, hrsp] at hw
    rw [sub_words htop]
    simp only [List.length_cons, List.length_nil] at hw
    omega
  have hthree : c2.execAll [.push .rcx, .push .r11, .pushGs CPU_LOCAL_USER_RSP] =
      (c2.pushAll [c.rip, c.rflags, c.reg .rsp]).access := by
    show (c2.pushAll [c.rip, c.rflags]).access.pushWord
      ((c2.pushAll [c.rip, c.rflags]).mem (c.kernelGsBase + CPU_LOCAL_USER_RSP)) = _
    rw [hk, hback, access_pushWord]
    rfl
  have hregs : SAVED.map (c2.pushAll [c.rip, c.rflags, c.reg .rsp]).access.reg = SAVED.map c.reg := by
    have hne : ∀ r ∈ SAVED, r ≠ .rsp ∧ r ≠ .r11 ∧ r ≠ .rcx := by decide
    refine List.map_congr_left fun r hr => ?_
    obtain ⟨h1, h2, h3⟩ := hne r hr
    refine (pushAll_reg c2 _ h1).trans ?_
    show Function.update (Function.update (Function.update c.reg .rcx c.rip) .r11 c.rflags) .rsp _ r = c.reg r
    rw [Function.update_of_ne h1, Function.update_of_ne h2, Function.update_of_ne h3]
  rw [syscallEntry_parts, execAll_append, execAll_append, execAll_append, ← hc2, hthree, execAll_pushes (by decide), hregs,
    access_pushAll, ← pushAll_append]
  rfl

/-- **SYSCALL entry.** -/
theorem syscallEntry_spec (hk : c.kernelGsBase = cpuLocal) (hm : c.mem cpuLocal = top) (htop : 8 * 16 ≤ top.toNat)
    (hcl : ClearOf cpuLocal top 16) : Entered cpuLocal top c (c.syscall.execAll syscallEntry) := by
  obtain ⟨c2, hrsp, hgs, hseen, hmem, hfl, hfpu, heq⟩ := syscallEntry_pushes hk hm htop hcl
  have hlen : ([c.rip, c.rflags, c.reg .rsp] ++ SAVED.map c.reg).length = 16 := rfl
  have hrev : ([c.rip, c.rflags, c.reg .rsp] ++ SAVED.map c.reg).reverse = frameWords c.toUser := rfl
  generalize [c.rip, c.rflags, c.reg .rsp] ++ SAVED.map c.reg = vs at heq hlen hrev
  have hle : 8 * vs.length ≤ (c2.reg .rsp).toNat := by
    rw [hrsp, hlen]
    exact htop
  have hlt := (c2.reg .rsp).isLt
  obtain ⟨m, hrest⟩ := pushAll_rest c2 vs
  have hw := pushAll_words (c := c2) (show Words c2.mem (c2.reg .rsp) [] from trivial) hle
    (by rw [List.length_nil]; omega)
  rw [List.append_nil, hrev] at hw
  have hfar : ∀ a, ¬ Within a (top - BitVec.ofNat 64 (8 * 16)) 16 → (c2.pushAll vs).mem a = c2.mem a := fun a ha =>
    pushAll_mem hle (by rw [hrsp, hlen]; exact ha)
  rw [heq]
  have hrsp' : ((c2.pushAll vs).access.exec (.mov .rdi .rsp)).reg .rsp = (c2.pushAll vs).reg .rsp := rfl
  refine ⟨?_, ?_, ?_, ?_, ?_, fun a ha hn => ?_, ?_, ?_⟩
  · rw [hrsp']
    exact hw
  · rw [hrsp', pushAll_rsp, hrsp, hlen]
  · show (c2.pushAll vs).gsBase = cpuLocal
    rw [hrest]
    exact hgs
  · show (c2.pushAll vs).gsBase :: (c2.pushAll vs).seen = _
    rw [hrest]
    show c2.gsBase :: c2.seen = _
    rw [hgs, hseen]
    rfl
  · refine (hfar _ hcl.2).trans ?_
    rw [hmem, Function.update_self]
  · refine (hfar a hn).trans ?_
    rw [hmem, Function.update_of_ne ha]
  · show (c2.pushAll vs).rflags = _
    rw [hrest]
    exact hfl
  · show (c2.pushAll vs).fpu = _
    rw [hrest]
    exact hfpu

/-- the registers the exit stub pops before it skips the user's rsp -/
def POPPED : List Reg := [.rdi, .rsi, .rdx, .r10, .r8, .r9, .rbx, .rbp, .r12, .r13, .r14, .r15]

theorem syscallExit_parts : syscallExit = ([.addRsp 8] : List Instr) ++ (POPPED.map Instr.pop ++
    (([.addRsp 8] : List Instr) ++ (([.r11, .rcx] : List Reg).map Instr.pop ++
      ([.loadGs .rsp CPU_LOCAL_USER_RSP, .swapgs] : List Instr)))) := rfl

/-- the state in which the exit stub reaches its `sysret` -/
structure Exited (u : User) (c c' : Core) : Prop where
  regs : ∀ r, r ≠ .rax → r ≠ .rcx → r ≠ .r11 → c'.reg r = u.reg r
  rip : c'.reg .rcx = u.rip
  rflags : c'.reg .r11 = u.rflags
  rax : c'.reg .rax = c.reg .rax
  gs : c'.gsBase = c.kernelGsBase ∧ c'.kernelGsBase = c.gsBase
  seen : c'.seen = c.gsBase :: c.seen
  mem : c'.mem = c.mem
  fpu : c'.fpu = c.fpu

/-- **SYSCALL exit.** -/
theorem syscallExit_spec (hw : Words c.mem (c.reg .rsp) (frameWords u))
    (hrsp : c.mem (c.gsBase + CPU_LOCAL_USER_RSP) = u.reg .rsp) : Exited u c (c.execAll syscallExit) := by
  have hframe : frameWords u = u.reg .rax :: (POPPED.map u.reg ++ (u.reg .rsp :: ([u.rflags, u.rip] ++ []))) := rfl
  rw [syscallExit_parts, execAll_append, execAll_append, execAll_append, execAll_append]
  rw [hframe] at hw
  -- past num
  have h1 : (c.execAll [.addRsp 8]).reg .rsp = c.reg .rsp + 8#64 := rfl
  have p := execAll_pops (c := c.execAll [.addRsp 8]) (show POPPED.Nodup by decide) (by decide)
    (List.length_map ..).symm (by rw [h1]; exact hw.2)
  generalize hc2 : (c.execAll [.addRsp 8]).execAll (POPPED.map .pop) = c2 at p ⊢
  -- past user_rsp
  have h2 : (c2.execAll [.addRsp 8]).reg .rsp = c2.reg .rsp + 8#64 := rfl
  have q := execAll_pops (c := c2.execAll [.addRsp 8]) (show ([.r11, .rcx] : List Reg).Nodup by decide) (by decide) rfl
    (by rw [h2]; exact p.words.2)
  generalize hc3 : (c2.execAll [.addRsp 8]).execAll (([.r11, .rcx] : List Reg).map .pop) = c3 at q ⊢
  have hsame : c3 = { c with reg := c3.reg } := by
    refine q.same.trans ?_
    show ({ c2 with reg := c3.reg } : Core) = _
    rw [p.same]
    rfl
  have hgs : c3.gsBase = c.gsBase := by rw [hsame]
  have hmem : c3.mem = c.mem := by rw [hsame]
  have hkeep : ∀ r, r ≠ .rsp → r ∉ POPPED → r ∉ ([.r11, .rcx] : List Reg) → c3.reg r = c.reg r := by
    intro r h0 h1 h2
    rw [q.others r h2 h0]
    show Function.update c2.reg .rsp _ r = _
    rw [Function.update_of_ne h0, p.others r h1 h0]
    exact Function.update_of_ne h0 _ _
  have hpop : ∀ r ∈ POPPED, c3.reg r = u.reg r := by
    intro r hr
    have hne : r ∉ ([.r11, .rcx] : List Reg) ∧ r ≠ .rsp := by revert r; decide
    rw [q.others r hne.1 hne.2]
    show Function.update c2.reg .rsp _ r = _
    rw [Function.update_of_ne hne.2]
    exact List.map_inj_left.1 p.vals r hr
  have hlast : [c3.reg .r11, c3.reg .rcx] = [u.rflags, u.rip] := q.vals
  have h11 : c3.reg .r11 = u.rflags := (List.cons.inj hlast).1
  have hcx : c3.reg .rcx = u.rip := (List.cons.inj (List.cons.inj hlast).2).1
  refine ⟨fun r hax hcx' h11' => ?_, hcx, h11, hkeep .rax (by decide) (by decide) (by decide), ?_, ?_, hmem, ?_⟩
  · show Function.update c3.reg .rsp (c3.mem (c3.gsBase + CPU_LOCAL_USER_RSP)) r = u.reg r
    by_cases hr : r = .rsp
    · rw [hr, Function.update_self, hmem, hgs, hrsp]
    · rw [Function.update_of_ne hr]
      refine hpop r ?_
      cases r <;> first | decide | contradiction
  · exact ⟨by rw [hsame]; rfl, hgs⟩
  · show c3.gsBase :: c3.seen = _
    rw [hsame]
  · show c3.fpu = c.fpu
    rw [hsame]

/-- the registers the IRQ stub pushes -/
def IRQ_SAVED : List Reg :=
  [.rax, .rbx, .rcx, .rdx, .rsi, .rdi, .rbp, .r8, .r9, .r10, .r11, .r12, .r13, .r14, .r15]

/-- the state in which `irq_common_handler` is called, after an interrupt of ring-3 code in state c -/
structure Interrupted (top vector : U64) (c c' : Core) : Prop where
  frame : Words c'.mem (c'.reg .rsp) (irqWords c.toUser vector)
  rsp : c'.reg .rsp = top - BitVec.ofNat 64 (8 * 22)
  gs : c'.gsBase = c.gsBase ∧ c'.kernelGsBase = c.kernelGsBase
  seen : c'.seen = c.seen
  mem : ∀ a, ¬ Within a (top - BitVec.ofNat 64 (8 * 22)) 22 → c'.mem a = c.mem a
  rflags : c'.rflags = c.rflags &&& ~~~GATE_CLEARS
  fpu : c'.fpu = c.fpu

/-- **IRQ entry.** -/
theorem irqEntry_spec (vector : U64) (htop : 8 * 22 ≤ top.toNat) :
    Interrupted top vector c ((c.interrupt top).execAll (irqEntry vector)) := by
  obtain ⟨c1, hc1⟩ : ∃ c1 : Core, c1 = { c.set .rsp top with rflags := c.rflags &&& ~~~GATE_CLEARS } := ⟨_, rfl⟩
  have hrsp : c1.reg .rsp = top := by
    rw [hc1]
    rfl
  have hlist : irqEntry vector = ([.pushImm 0, .pushImm vector] : List Instr) ++
      (IRQ_SAVED.map Instr.push ++ ([.mov .rdi .rsp] : List Instr)) := rfl
  have htwo : (c.interrupt top).execAll [.pushImm 0, .pushImm vector] = c1.pushAll
      [USER_DATA_SELECTOR, c.reg .rsp, c.rflags, USER_CODE_SELECTOR, c.rip, 0, vector] := by
    rw [hc1]
    rfl
  have hregs : IRQ_SAVED.map (c1.pushAll
      [USER_DATA_SELECTOR, c.reg .rsp, c.rflags, USER_CODE_SELECTOR, c.rip, 0, vector]).reg = IRQ_SAVED.map c.reg := by
    refine List.map_congr_left fun r hr => ?_
    have hne : r ≠ .rsp := by revert r; decide
    rw [pushAll_reg c1 _ hne, hc1]
    exact Function.update_of_ne hne _ _
  have heq : (c.interrupt top).execAll (irqEntry vector) = (c1.pushAll
      ([USER_DATA_SELECTOR, c.reg .rsp, c.rflags, USER_CODE_SELECTOR, c.rip, 0, vector] ++
        IRQ_SAVED.map c.reg)).exec (.mov .rdi .rsp) := by
    rw [hlist, execAll_append, htwo, execAll_append, execAll_pushes (by decide), hregs, ← pushAll_append]
    rfl
  have hlen : ([USER_DATA_SELECTOR, c.reg .rsp, c.rflags, USER_CODE_SELECTOR, c.rip, 0, vector] ++
      IRQ_SAVED.map c.reg).length = 22 := rfl
  have hrev : ([USER_DATA_SELECTOR, c.reg .rsp, c.rflags, USER_CODE_SELECTOR, c.rip, 0, vector] ++
      IRQ_SAVED.map c.reg).reverse = irqWords c.toUser vector := rfl
  generalize [USER_DATA_SELECTOR, c.reg .rsp, c.rflags, USER_CODE_SELECTOR, c.rip, 0, vector] ++
    IRQ_SAVED.map c.reg = vs at heq hlen hrev
  have hle : 8 * vs.length ≤ (c1.reg .rsp).toNat := by
    rw [hrsp, hlen]
    exact htop
  have hlt := (c1.reg .rsp).isLt
  obtain ⟨m, hrest⟩ := pushAll_rest c1 vs
  have hw := pushAll_words (c := c1) (show Words c1.mem (c1.reg .rsp) [] from trivial) hle
    (by rw [List.length_nil]; omega)
  rw [List.append_nil, hrev] at hw
  have hrsp' : ((c1.pushAll vs).exec (.mov .rdi .rsp)).reg .rsp = (c1.pushAll vs).reg .rsp := rfl
  rw [heq]
  refine ⟨?_, ?_, ?_, ?_, fun a ha => ?_, ?_, ?_⟩
  · rw [hrsp']
    exact hw
  · rw [hrsp', pushAll_rsp, hrsp, hlen]
  · show (c1.pushAll vs).gsBase = c.gsBase ∧ (c1.pushAll vs).kernelGsBase = c.kernelGsBase
    rw [hrest, hc1]
    exact ⟨rfl, rfl⟩
  · show (c1.pushAll vs).seen = c.seen
    rw [hrest, hc1]
    rfl
  · refine (pushAll_mem hle (by rw [hrsp, hlen]; exact ha)).trans ?_
    rw [hc1]
    rfl
  · show (c1.pushAll vs).rflags = _
    rw [hrest, hc1]
    rfl
  · show (c1.pushAll vs).fpu = _
    rw [hrest, hc1]
    rfl

/-- **IRQ exit.** Ring-3 code goes on with the registers it had. -/
theorem irqExit_spec {vector : U64} (hw : Words c.mem (c.reg .rsp) (irqWords u vector)) :
    (c.execAll irqExit).iretq = { c with reg := u.reg, rip := u.rip, rflags := u.rflags } := by
  have hlist : irqExit = IRQ_SAVED.reverse.map Instr.pop ++ ([.addRsp 16] : List Instr) := rfl
  have hframe : irqWords u vector = IRQ_SAVED.reverse.map u.reg ++
      [vector, 0, u.rip, USER_CODE_SELECTOR, u.rflags, u.reg .rsp, USER_DATA_SELECTOR] := rfl
  rw [hlist, execAll_append]
  rw [hframe] at hw
  have p := execAll_pops (show IRQ_SAVED.reverse.Nodup by decide) (by decide) (List.length_map ..).symm hw
  generalize c.execAll (IRQ_SAVED.reverse.map .pop) = c2 at p ⊢
  -- the five words of IRETQ, past vector and error code
  obtain ⟨-, -, hrip, -, hfl, hsp, -⟩ := p.words
  have e1 : c2.reg .rsp + 8#64 + 8#64 = c2.reg .rsp + 16#64 := BitVec.add_assoc ..
  have e2 : c2.reg .rsp + 8#64 + 8#64 + 8#64 + 8#64 = c2.reg .rsp + 16#64 + 16#64 := by rw [e1, BitVec.add_assoc]; rfl
  have e3 : c2.reg .rsp + 16#64 + 16#64 + 8#64 = c2.reg .rsp + 16#64 + 24#64 := by rw [BitVec.add_assoc _ 16#64]; rfl
  rw [e2, e3] at hsp
  rw [e2] at hfl
  rw [e1] at hrip
  have hregs : Function.update (Function.update c2.reg .rsp (c2.reg .rsp + 16#64)) .rsp
      (c2.mem (c2.reg .rsp + 16#64 + 24#64)) = u.reg := by
    funext r
    by_cases hr : r = .rsp
    · rw [hr, Function.update_self, hsp]
    · rw [Function.update_of_ne hr, Function.update_of_ne hr]
      refine List.map_inj_left.1 p.vals r ?_
      cases r <;> first | decide | contradiction
  show ({ c2 with
    reg := Function.update (Function.update c2.reg .rsp (c2.reg .rsp + 16#64)) .rsp
      (c2.mem (c2.reg .rsp + 16#64 + 24#64))
    rip := c2.mem (c2.reg .rsp + 16#64), rflags := c2.mem (c2.reg .rsp + 16#64 + 16#64) } : Core) = _
  rw [hregs, hrip, hfl, p.same]

/-- the parent's Frame has what the ForkFrame takes -/
theorem ofFrame_frameWords {m : Mem} {a : U64} (h : Words m a (frameWords u)) : ForkFrame.ofFrame m a =
    ⟨u.reg .rbx, u.reg .rbp, u.reg .r12, u.reg .r13, u.reg .r14, u.reg .r15, u.rip, u.rflags, u.reg .rsp⟩ := by
  simp only [frameWords, List.map_cons, List.map_nil, List.cons_append, List.nil_append, Words, BitVec.add_assoc,
    BitVec.reduceAdd] at h
  obtain ⟨-, -, -, -, -, -, -, h1, h2, h3, h4, h5, h6, h7, h8, h9, -⟩ := h
  simp only [ForkFrame.ofFrame, h1, h2, h3, h4, h5, h6, h7, h8, h9]

/-- **The child's first entry.** The frame lies above rsp, so the words pushed for IRETQ miss it. -/
theorem forkEnterRing3_spec {f : ForkFrame} (hw : Words c.mem (c.reg .rdi) f.words) (h40 : 8 * 5 ≤ (c.reg .rsp).toNat)
    (hle : (c.reg .rsp).toNat ≤ (c.reg .rdi).toNat) (hend : (c.reg .rdi).toNat + 8 * 9 ≤ 2 ^ 64) :
    ∃ m : Mem, (c.execAll forkEnterRing3).iretq =
        { c with reg := f.regs c.reg, rip := f.rip, rflags := f.rflags, mem := m } ∧
      ∀ a, ¬ Within a (c.reg .rsp - BitVec.ofNat 64 (8 * 5)) 5 → m a = c.mem a := by
  simp only [ForkFrame.words, Words, BitVec.add_assoc, BitVec.reduceAdd, and_true] at hw
  obtain ⟨h0, h1, h2, h3, h4, h5, h6, h7, h8⟩ := hw
  -- the six loads
  obtain ⟨c1, hc1⟩ : ∃ c1, c1 = c.execAll [.load .rbx .rdi 0, .load .rbp .rdi 8, .load .r12 .rdi 16, .load .r13 .rdi 24,
    .load .r14 .rdi 32, .load .r15 .rdi 40] := ⟨_, rfl⟩
  have hsame : c1 = { c with reg := c1.reg } := by rw [hc1]; rfl
  have hloads : c1.reg .rbx = f.rbx ∧ c1.reg .rbp = f.rbp ∧ c1.reg .r12 = f.r12 ∧ c1.reg .r13 = f.r13 ∧
      c1.reg .r14 = f.r14 ∧ c1.reg .r15 = f.r15 := by
    rw [← h0, ← h1, ← h2, ← h3, ← h4, ← h5, hc1]
    exact ⟨congrArg c.mem (BitVec.add_zero _), rfl, rfl, rfl, rfl, rfl⟩
  have hkeep : ∀ r, r ∉ ([.rbx, .rbp, .r12, .r13, .r14, .r15] : List Reg) → c1.reg r = c.reg r := by
    intro r hr
    rw [hc1]
    cases r <;> first | rfl | exact absurd (by decide) hr
  have hrsp : c1.reg .rsp = c.reg .rsp := hkeep .rsp (by decide)
  have hrdi : c1.reg .rdi = c.reg .rdi := hkeep .rdi (by decide)
  have hmem : c1.mem = c.mem := by rw [hsame]
  -- pushes miss the frame
  have hread : ∀ (vs : List U64) (k : ℕ), vs.length ≤ 5 → k ≤ 64 →
      (c1.pushAll vs).mem ((c1.pushAll vs).reg .rdi + BitVec.ofNat 64 k) = c.mem (c.reg .rdi + BitVec.ofNat 64 k) := by
    intro vs k hl hk
    rw [pushAll_reg c1 vs (by decide), hrdi, ← hmem]
    refine pushAll_mem (by rw [hrsp]; omega) fun hn => ?_
    obtain ⟨-, hlt⟩ := hn
    rw [sub_words (by rw [hrsp]; omega), hrsp, BitVec.toNat_add, BitVec.toNat_ofNat] at hlt
    omega
  have hstep : ∀ (vs : List U64) (k : ℕ), vs.length ≤ 5 → k ≤ 64 → (c1.pushAll vs).exec (.pushAt .rdi (BitVec.ofNat 64 k)) =
      c1.pushAll (vs ++ [c.mem (c.reg .rdi + BitVec.ofNat 64 k)]) := by
    intro vs k hl hk
    rw [pushAll_append, ← hread vs k hl hk]
    rfl
  have hpush : c1.execAll [.pushImm USER_DATA_SELECTOR, .pushAt .rdi 64, .pushAt .rdi 56, .pushImm USER_CODE_SELECTOR,
      .pushAt .rdi 48] = c1.pushAll [USER_DATA_SELECTOR, f.rsp, f.rflags, USER_CODE_SELECTOR, f.rip] := by
    have e1 := hstep [USER_DATA_SELECTOR] 64 (by decide) (by decide)
    have e2 := hstep [USER_DATA_SELECTOR, f.rsp] 56 (show 2 ≤ 5 by decide) (by decide)
    have e3 := hstep [USER_DATA_SELECTOR, f.rsp, f.rflags, USER_CODE_SELECTOR] 48 (show 4 ≤ 5 by decide) (by decide)
    rw [h8] at e1
    rw [h7] at e2
    rw [h6] at e3
    calc _ = ((((c1.pushAll [USER_DATA_SELECTOR]).exec (.pushAt .rdi (BitVec.ofNat 64 64))).exec
          (.pushAt .rdi (BitVec.ofNat 64 56))).exec (.pushImm USER_CODE_SELECTOR)).exec
          (.pushAt .rdi (BitVec.ofNat 64 48)) := rfl
      _ = ((c1.pushAll [USER_DATA_SELECTOR, f.rsp, f.rflags]).exec (.pushImm USER_CODE_SELECTOR)).exec
          (.pushAt .rdi (BitVec.ofNat 64 48)) := by rw [e1, List.singleton_append, e2]; rfl
      _ = _ := e3
  have hlist : forkEnterRing3 = ([.load .rbx .rdi 0, .load .rbp .rdi 8, .load .r12 .rdi 16, .load .r13 .rdi 24,
      .load .r14 .rdi 32, .load .r15 .rdi 40] : List Instr) ++ (([.pushImm USER_DATA_SELECTOR, .pushAt .rdi 64,
      .pushAt .rdi 56, .pushImm USER_CODE_SELECTOR, .pushAt .rdi 48] : List Instr) ++ ([.zero .rax] : List Instr)) := rfl
  have hlen : [USER_DATA_SELECTOR, f.rsp, f.rflags, USER_CODE_SELECTOR, f.rip].length = 5 := rfl
  have hlt := (c1.reg .rsp).isLt
  have hwords := pushAll_words (c := c1) (show Words c1.mem (c1.reg .rsp) [] from trivial)
    (by rw [hlen, hrsp]; exact h40) (by rw [List.length_nil]; omega)
  have hfar : ∀ a, ¬ Within a (c.reg .rsp - BitVec.ofNat 64 (8 * 5)) 5 →
      (c1.pushAll [USER_DATA_SELECTOR, f.rsp, f.rflags, USER_CODE_SELECTOR, f.rip]).mem a = c.mem a := by
    intro a ha
    rw [← hmem]
    exact pushAll_mem (by rw [hlen, hrsp]; exact h40) (by rw [hlen, hrsp]; exact ha)
  obtain ⟨m, hrest⟩ := pushAll_rest c1 [USER_DATA_SELECTOR, f.rsp, f.rflags, USER_CODE_SELECTOR, f.rip]
  rw [hlist, execAll_append, ← hc1, execAll_append, hpush]
  generalize c1.pushAll [USER_DATA_SELECTOR, f.rsp, f.rflags, USER_CODE_SELECTOR, f.rip] = c2 at hwords hfar hrest
  simp only [List.reverse_cons, List.reverse_nil, List.nil_append, List.cons_append, Words, BitVec.add_assoc,
    BitVec.reduceAdd, and_true] at hwords
  obtain ⟨w0, -, w2, w3, -⟩ := hwords
  refine ⟨c2.mem, ?_, hfar⟩
  have hc2 : ∀ r, r ≠ .rsp → c2.reg r = c1.reg r := fun r hr => by
    rw [hrest]
    exact Function.update_of_ne hr _ _
  have hregs : Function.update (Function.update c2.reg .rax 0) .rsp (c2.mem (c2.reg .rsp + 24#64)) = f.regs c.reg := by
    obtain ⟨l1, l2, l3, l4, l5, l6⟩ := hloads
    funext r
    by_cases hr : r = .rsp
    · rw [hr, Function.update_self, w3]
      rfl
    rw [Function.update_of_ne hr]
    by_cases hx : r = .rax
    · rw [hx, Function.update_self]
      rfl
    rw [Function.update_of_ne hx, hc2 r hr]
    cases r with
    | rax => exact absurd rfl hx
    | rsp => exact absurd rfl hr
    | rbx => exact l1
    | rbp => exact l2
    | r12 => exact l3
    | r13 => exact l4
    | r14 => exact l5
    | r15 => exact l6
    | _ => exact hkeep _ (by decide)
  show ({ c2 with
    reg := Function.update (Function.update c2.reg .rax 0) .rsp (c2.mem (c2.reg .rsp + 24#64))
    rip := c2.mem (c2.reg .rsp), rflags := c2.mem (c2.reg .rsp + 16#64) } : Core) = _
  rw [hregs, w0, w2, hrest, hsame]
  rfl

end Stubs

end Retux.Cpu
