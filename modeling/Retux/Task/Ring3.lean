/-
Ring 3 and back: system calls, interrupts and context switches of many tasks.

GS_BASE, IA32_KernelGSBase and `g_cpu_local` are one set for all tasks, and a task may be suspended between the two
`swapgs` of a system call. `Kernel` puts the stubs of `Cpu.Stubs` on top of the scheduler of `Task.Sched`: `Point` says
where the code of each task stands, memory holds `g_cpu_local` and the kernel stacks, and `switch_to` saves and loads
RFLAGS and the FXSAVE area.

The kernel's own code is C++: what it leaves in registers is part of the event, its stores go to its own stack below the
frame of the stub, and it comes back to the stub with the rsp it was called with. User pointers are trusted, as the
source trusts them. Interrupts come where RFLAGS.IF is set, so `FMASK`, the gates and `switch_to` decide where.

- `Held`: what stands at the top of a task's kernel stack while the task is out of ring 3;
- `Inv`: the invariant, over the running task and all others;
- `syscall_returns`: in every run, every `[gs:]` access of the stub hits `g_cpu_local`, and every SYSRET goes back to the
  state the system call was made in.

Ghost: `issued` and `interrupted`, the ring-3 state of a task at its last system call and its last interrupt.
-/
import Mathlib.Tactic
import Retux.Cpu.Stubs
import Retux.Task.Context

namespace Retux.Ring3

open Retux.Word Retux.Stack Retux.Cpu Retux.Sched Retux.Run

/-! ## The machine -/

/-- where the code of a task stands; f is the frame its stub called the C++ code with -/
inductive Point where
  /-- kernel code of its own: boot, idle, a task that has not entered ring 3 yet, a task past its exit -/
  | kernel
  | user
  /-- in `irq_common_handler`, interrupted in ring 3 -/
  | irq (f : U64)
  /-- in `syscall_dispatch` -/
  | handler (f : U64)
  /-- in a loop around `yield_blocking`: of `wait4` if the scheduler has it there, of `sys_read_stdin` otherwise -/
  | blocked (f savedUserRsp : U64)

structure Kernel where
  s : Sys
  c : Core
  point : Ptr → Point
  /-- `Task::stack_base` -/
  stackBase : Ptr → U64
  /-- what `switch_to` left on the stack and in the FXSAVE area of a task that is not running -/
  rflags : Ptr → U64
  fpu : Ptr → FxImage
  /-- the argument of `fork_child_entry`, for a forked child -/
  forkArg : Ptr → Option ForkFrame
  issued : Ptr → User
  interrupted : Ptr → User

/-- rflags of `InitialFrame`, and of the IRETQ frame of `enter_ring3` -/
def INITIAL_RFLAGS : U64 := 0x202

/-- the stack size `spawn` is called with, and that of the idle task -/
def STACK_SIZE : U64 := 0x4000
def IDLE_STACK_SIZE : U64 := 0x1000

/-- `stack_top` of `task::create` -/
def stackTop (stack size : U64) : U64 := (stack + size) &&& ~~~0xF#64

/-- what can stand in RFLAGS in ring 3: SYSRET gives it back -/
def userFlags (f : U64) : Bool := (f &&& SYSRET_MASK) ||| 2 = f

namespace Kernel

def here (x : Kernel) : Point := x.point x.s.current

def top (x : Kernel) (q : Ptr) : U64 := (x.s.tb.task q).kernelStackTop

def moveTo (x : Kernel) (p : Point) : Kernel := { x with point := Function.update x.point x.s.current p }

/-- n words at a are on the running task's kernel stack -/
def onStack (x : Kernel) (a : U64) (n : ℕ) : Bool :=
  (x.stackBase x.s.current).toNat ≤ a.toNat ∧ a.toNat + 8 * n ≤ (x.top x.s.current).toNat

/-- the end of what C++ code may write of its stack -/
def stackEnd (x : Kernel) : U64 :=
  match x.here with
  | .handler f | .blocked f _ => f
  | _ => x.top x.s.current

/-- the registers as C++ code leaves them, at the rsp its stub called it with -/
def back (x : Kernel) (regs : Reg → U64) (f : U64) : Core := { x.c with reg := Function.update regs .rsp f }

/-- a new task, up to its first switch-in -/
def newTask (x : Kernel) (p : Ptr) (stack : U64) (defaultState : FxImage) (arg : Option ForkFrame) : Kernel :=
  { x with
    point := Function.update x.point p .kernel
    stackBase := Function.update x.stackBase p stack
    rflags := Function.update x.rflags p INITIAL_RFLAGS
    fpu := Function.update x.fpu p defaultState
    forkArg := Function.update x.forkArg p arg }

end Kernel

/-- `enter_ring3`: IRETQ off a frame at a, with the registers as they are -/
def enterRing3 (c : Core) (rip rsp a : U64) : Core :=
  { c with
    reg := Function.update c.reg .rsp a
    mem := put c.mem a [rip, USER_CODE_SELECTOR, INITIAL_RFLAGS, rsp, USER_DATA_SELECTOR] }.iretq

/-- `fork_child_entry`: the frame copied to a, on the stack above rsp -/
def forkChildEntry (c : Core) (f : ForkFrame) (a rsp : U64) : Core :=
  { c with
    reg := Function.update (Function.update c.reg .rdi a) .rsp rsp
    mem := put c.mem a f.words }.execAll forkEnterRing3 |>.iretq

inductive Op where
  /-- ring-3 code; it may load GS with a selector -/
  | user (u : User) (gs : U64)
  | syscall
  /-- `syscall_dispatch` returns -/
  | sysret (regs : Reg → U64)
  /-- read(0): into its loop, one round without a key, and out -/
  | read
  | readAgain
  | readDone
  | wait4 (pid : ℕ)
  | wait4Again
  | fork (p : Ptr) (stack : U64)
  /-- the work of a handler that neither blocks nor leaves -/
  | call (e : Event)
  | execveCommit (highest mmapBase rip rsp a : U64) (regs : Reg → U64)
  /-- `sys_exit`, or a task whose entry function returns -/
  | exit (code : U64)
  /-- first entries into ring 3: of a forked child, of any other task -/
  | forkEnter (a rsp : U64) (regs : Reg → U64)
  | enter (rip rsp a : U64) (regs : Reg → U64)
  | spawn (p : Ptr) (stack : U64)
  | spawnFromElf (p : Ptr) (stack : U64)
  | yield
  /-- a store of C++ code on its stack -/
  | store (a v : U64)
  | timer (vector : U64)
  | switch

/-- handler work, as far as the scheduler sees it -/
def isCall : Event → Bool
  | .forkFail | .execve | .execveFail _ | .archSetFs _ | .setLayout _ _ _ | .edit _ => true
  | _ => false

section Step

variable (cpuLocal : U64) (defaultState : FxImage)

namespace Kernel

/-- the heap gives a block that is free: not in a stack that is in use, nor in `g_cpu_local` -/
def freshStack (x : Kernel) (stack size : U64) : Bool :=
  stack.toNat + size.toNat < 2 ^ 64 ∧
  (cpuLocal.toNat + 16 ≤ stack.toNat ∨ stack.toNat + size.toNat ≤ cpuLocal.toNat) ∧
  ∀ q ∈ x.s.tb.live, x.top q = 0 ∨
    (x.top q).toNat ≤ stack.toNat ∨ stack.toNat + size.toNat ≤ (x.stackBase q).toNat

/-- a step of the scheduler; kernel_rsp is a word of `g_cpu_local` -/
def sched (x : Kernel) (e : Event) : Option Kernel :=
  (step x.s e).map fun s =>
    { x with s := s, c := { x.c with mem := Function.update x.c.mem cpuLocal s.cpu.kernelRsp } }

def userRsp (x : Kernel) : U64 := x.c.mem (cpuLocal + CPU_LOCAL_USER_RSP)

def setUserRsp (x : Kernel) (v : U64) : Kernel :=
  { x with c := { x.c with mem := Function.update x.c.mem (cpuLocal + CPU_LOCAL_USER_RSP) v } }

/-- `yield_blocking` up to its yield, and after it -/
def pinKernelGs (x : Kernel) : Kernel := { x with c := { x.c with kernelGsBase := cpuLocal } }
def pinGs (x : Kernel) : Kernel := { x with c := { x.c with gsBase := cpuLocal } }

/-- back from `schedule`: to the IRQ stub and ring 3, or into `yield_blocking` -/
def resume (x : Kernel) : Kernel :=
  match x.here with
  | .irq f => { x with c := ((x.back x.c.reg f).execAll irqExit).iretq }.moveTo .user
  | .blocked _ _ => x.pinGs cpuLocal
  | _ => x

/-- `switch_to`: RFLAGS and the FXSAVE image of old out, those of the new task in -/
def switchContext (x : Kernel) (old : Ptr) : Kernel :=
  if x.s.current = old then x else
    { x with
      rflags := Function.update x.rflags old x.c.rflags
      fpu := Function.update x.fpu old x.c.fpu
      c := { x.c with rflags := x.rflags x.s.current, fpu := x.fpu x.s.current } }

def interrupt (x : Kernel) (vector : U64) : Kernel :=
  let c := (x.c.interrupt x.s.cpu.rsp0).execAll (irqEntry vector)
  { x with c := c, interrupted := Function.update x.interrupted x.s.current x.c.toUser }.moveTo (.irq (c.reg .rsp))

def enterSyscall (x : Kernel) : Kernel :=
  let c := x.c.syscall.execAll syscallEntry
  { x with c := c, issued := Function.update x.issued x.s.current x.c.toUser }.moveTo (.handler (c.reg .rsp))

end Kernel

/-- what the running task can do, outside `schedule` -/
def run (x : Kernel) : Op → Point → Option Kernel
  | .user u gs, .user =>
    if userFlags u.rflags ∧ u.rflags &&& RFLAGS_IF = x.c.rflags &&& RFLAGS_IF then
      some { x with c := { x.c with toUser := u, gsBase := gs } } else none
  | .syscall, .user => some x.enterSyscall
  | .sysret regs, .handler f =>
    ((x.back regs f).execAll syscallExit).sysret.map fun c => { x with c := c }.moveTo .user
  | .read, .handler f => some (x.moveTo (.blocked f (x.userRsp cpuLocal)))
  | .readAgain, .blocked _ _ => (x.pinKernelGs cpuLocal).sched cpuLocal .yield
  | .readDone, .blocked f saved =>
    if x.s.cont x.s.current = .own then some ((x.setUserRsp cpuLocal saved).moveTo (.handler f)) else none
  | .wait4 pid, .handler f => (x.sched cpuLocal (.wait4 pid)).map fun x =>
    match x.s.cont x.s.current with
    | .wait _ => x.moveTo (.blocked f (x.userRsp cpuLocal))
    | _ => x
  | .wait4Again, .blocked f saved =>
    match x.s.cont x.s.current with
    | .wait child =>
      if (x.s.tb.task child).state = .Dead then
        (x.sched cpuLocal .wait4Again).map fun x => (x.setUserRsp cpuLocal saved).moveTo (.handler f)
      else (x.pinKernelGs cpuLocal).sched cpuLocal .wait4Again
    | _ => none
  | .fork p stack, .handler f =>
    if x.freshStack cpuLocal stack STACK_SIZE then
      (x.sched cpuLocal (.fork p (stackTop stack STACK_SIZE))).map fun x' =>
        x'.newTask p stack defaultState (some (ForkFrame.ofFrame x.c.mem f)) else none
  | .call e, .handler _ => if isCall e then x.sched cpuLocal e else none
  | .execveCommit highest mmapBase rip rsp a regs, .handler _ =>
    if x.onStack a 5 then (x.sched cpuLocal (.execveCommit highest mmapBase)).map fun x =>
      { x with c := enterRing3 ({ x.c with reg := regs }.exec .swapgs) rip rsp a }.moveTo .user else none
  | .exit code, .handler _ => ({ x with c := x.c.exec .swapgs }.moveTo .kernel).sched cpuLocal (.exit code)
  | .exit code, .kernel => x.sched cpuLocal (.exit code)
  | .forkEnter a rsp regs, .kernel =>
    match x.forkArg x.s.current with
    | some f =>
      if x.onStack a 9 ∧ x.onStack (rsp - 40#64) 5 ∧ 40 ≤ rsp.toNat ∧ rsp.toNat ≤ a.toNat then
        some ({ x with c := forkChildEntry { x.c with reg := regs } f a rsp }.moveTo .user) else none
    | none => none
  | .enter rip rsp a regs, .kernel =>
    match x.forkArg x.s.current with
    | some _ => none
    | none => if x.onStack a 5 then
      some ({ x with c := enterRing3 { x.c with reg := regs } rip rsp a }.moveTo .user) else none
  | .spawn p stack, .kernel =>
    if x.freshStack cpuLocal stack STACK_SIZE then
      (x.sched cpuLocal (.spawn p (stackTop stack STACK_SIZE))).map fun x => x.newTask p stack defaultState none else none
  | .spawnFromElf p stack, .kernel =>
    if x.freshStack cpuLocal stack STACK_SIZE then
      (x.sched cpuLocal (.spawnFromElf p (stackTop stack STACK_SIZE))).map fun x =>
        x.newTask p stack defaultState none else none
  | .yield, .kernel => x.sched cpuLocal .yield
  | .store _ _, .user => none
  | .store a v, _ =>
    if (x.stackBase x.s.current).toNat ≤ a.toNat ∧ a.toNat + 8 ≤ x.stackEnd.toNat then
      some { x with c := { x.c with mem := Function.update x.c.mem a v } } else none
  | .timer vector, .user =>
    if x.c.rflags &&& RFLAGS_IF ≠ 0 then
      ((x.interrupt vector).sched cpuLocal .timer).map fun x => if x.s.scheduling then x else x.resume cpuLocal
    else none
  -- in kernel code the stack stays the same, and a switch is one like any other
  | .timer _, _ => if x.c.rflags &&& RFLAGS_IF ≠ 0 then x.sched cpuLocal .timer else none
  | _, _ => none

/-- the rest of `schedule` -/
def finish (x : Kernel) : Option Kernel :=
  (x.sched cpuLocal .switch).map fun x' => (x'.switchContext x.s.current).resume cpuLocal

/-- **One step of the machine.** -/
def Kernel.step (x : Kernel) (o : Op) : Option Kernel :=
  match o with
  | .switch => finish cpuLocal x
  | o => if x.s.scheduling then none else run cpuLocal defaultState x o x.here

end Step

/-! ## The invariant -/

/-- a system call in progress: its Frame is at the top of the kernel stack -/
structure HeldCall (m : Mem) (top : U64) (u : User) (f : U64) : Prop where
  stack : top ≠ 0
  frame : f = top - BitVec.ofNat 64 (8 * 16)
  words : Words m f (frameWords u)
  flags : userFlags u.rflags = true

structure HeldIrq (m : Mem) (top : U64) (u : User) (f : U64) : Prop where
  stack : top ≠ 0
  frame : f = top - BitVec.ofNat 64 (8 * 22)
  words : ∃ vector, Words m f (irqWords u vector)
  flags : userFlags u.rflags = true

/-- what stands at the top of the kernel stack of a task at p -/
def Held (m : Mem) (top : U64) (issued interrupted : User) : Point → Prop
  | .kernel => True
  | .user => top ≠ 0
  | .irq f => HeldIrq m top interrupted f
  | .handler f => HeldCall m top issued f
  | .blocked f saved => HeldCall m top issued f ∧ saved = issued.reg .rsp

/-- a task that is not running: not in ring 3, and in a system call only where `yield_blocking` is on its stack -/
def Parked (rflags : U64) : Point → Prop
  | .kernel => True
  | .user | .handler _ => False
  | .irq _ | .blocked _ _ => rflags &&& RFLAGS_IF = 0

/-- a is a word of the kernel stack of q -/
def Kernel.OnStack (x : Kernel) (q : Ptr) (a : U64) : Prop :=
  (x.stackBase q).toNat ≤ a.toNat ∧ a.toNat < (x.top q).toNat

section Invariant

variable (cpuLocal : U64)

/-- the kernel stacks: room for a frame each, none over another or over `g_cpu_local` -/
structure Stacks (x : Kernel) : Prop where
  room : ∀ {q}, q ∈ x.s.tb.live → x.top q ≠ 0 → (x.stackBase q).toNat + 8 * 22 ≤ (x.top q).toNat
  apart : ∀ {p q}, p ∈ x.s.tb.live → q ∈ x.s.tb.live → p ≠ q → x.top p ≠ 0 → x.top q ≠ 0 →
    (x.top p).toNat ≤ (x.stackBase q).toNat ∨ (x.top q).toNat ≤ (x.stackBase p).toNat
  clear : ∀ {q}, q ∈ x.s.tb.live → x.top q ≠ 0 →
    cpuLocal.toNat + 16 ≤ (x.stackBase q).toNat ∨ (x.top q).toNat ≤ cpuLocal.toNat

/-- the running task: IA32_KernelGSBase is `g_cpu_local` outside system calls and in `schedule`, GS_BASE inside them -/
def Active (x : Kernel) : Prop :=
  match x.here with
  | .kernel => x.c.kernelGsBase = cpuLocal
  | .user => x.s.scheduling = false ∧ x.c.kernelGsBase = cpuLocal ∧ userFlags x.c.rflags = true
  | .irq _ => x.s.scheduling = true ∧ x.c.kernelGsBase = cpuLocal ∧ x.c.rflags &&& RFLAGS_IF = 0
  | .handler _ => x.s.scheduling = false ∧ x.c.gsBase = cpuLocal ∧ x.c.rflags &&& RFLAGS_IF = 0 ∧
      x.userRsp cpuLocal = (x.issued x.s.current).reg .rsp
  | .blocked _ _ => x.c.gsBase = cpuLocal ∧ x.c.rflags &&& RFLAGS_IF = 0 ∧
      (x.s.scheduling = true → x.c.kernelGsBase = cpuLocal)

/-- all but the running task -/
structure Base (x : Kernel) : Prop where
  queue : ∃ l, Queue x.s.abs l
  kstacks : Stacks cpuLocal x
  loaded : StackLoaded x.s
  kernelRsp : x.c.mem cpuLocal = x.s.cpu.kernelRsp
  seen : ∀ b ∈ x.c.seen, b = cpuLocal
  held : ∀ {q}, q ∈ x.s.tb.live → q ≠ x.s.current →
    Held x.c.mem (x.top q) (x.issued q) (x.interrupted q) (x.point q)
  parked : ∀ {q}, q ∈ x.s.tb.live → q ≠ x.s.current → Parked (x.rflags q) (x.point q)
  forkFlags : ∀ {q f}, x.forkArg q = some f → userFlags f.rflags = true

structure Inv (x : Kernel) : Prop extends Base cpuLocal x where
  mine : Held x.c.mem (x.top x.s.current) (x.issued x.s.current) (x.interrupted x.s.current) x.here
  active : Active cpuLocal x

/-- x' is x after its running task has changed nothing of the others: its own point, and memory on its own stack and
in user_rsp -/
structure Local (x x' : Kernel) : Prop where
  s : x'.s = x.s
  others : ∀ q, q ≠ x.s.current → x'.point q = x.point q ∧ x'.issued q = x.issued q ∧
    x'.interrupted q = x.interrupted q ∧ x'.rflags q = x.rflags q
  stackBase : x'.stackBase = x.stackBase
  forkArg : x'.forkArg = x.forkArg
  mem : ∀ a, a ≠ cpuLocal + CPU_LOCAL_USER_RSP → ¬ x.OnStack x.s.current a → x'.c.mem a = x.c.mem a
  seen : ∀ b ∈ x'.c.seen, b = cpuLocal ∨ b ∈ x.c.seen

end Invariant

section Frame

variable {cpuLocal : U64} {x x' : Kernel} {q : Ptr} {m m' : Mem} {top f : U64} {u v : User} {p : Point}

theorem stackTop_bounds {stack size : U64} (h : stack.toNat + size.toNat < 2 ^ 64) :
    (stackTop stack size).toNat ≤ stack.toNat + size.toNat ∧
      stack.toNat + size.toNat < (stackTop stack size).toNat + 16 := by
  have hs : (stack + size).toNat = stack.toNat + size.toNat := by
    rw [BitVec.toNat_add]
    exact Nat.mod_eq_of_lt h
  have ht : (stackTop stack size).toNat = (stack + size).toNat / 2 ^ 4 * 2 ^ 4 := and_not_low (stack + size) 4
  rw [ht, hs]
  omega

/-- a frame at the top of a stack with room for it is on the stack -/
theorem within_stack {n : ℕ} {a : U64} (hroom : (x.stackBase q).toNat + 8 * n ≤ (x.top q).toNat)
    (h : Within a (x.top q - BitVec.ofNat 64 (8 * n)) n) : x.OnStack q a := by
  unfold Within at h
  rw [sub_words (by omega)] at h
  exact ⟨by omega, by omega⟩

theorem HeldCall.congr (h : HeldCall m top u f) (htop : 8 * 16 ≤ top.toNat)
    (hm : ∀ a, Within a (top - BitVec.ofNat 64 (8 * 16)) 16 → m' a = m a) : HeldCall m' top u f := by
  obtain ⟨h1, rfl, h3, h4⟩ := h
  have hlt := top.isLt
  refine ⟨h1, rfl, h3.congr ?_ hm, h4⟩
  rw [sub_words htop]
  show top.toNat - 8 * 16 + 8 * 16 ≤ 2 ^ 64
  omega

/-- what a task holds depends on its stack only -/
theorem Held.congr (h : Held m (x.top q) u v p) (hroom : x.top q ≠ 0 → (x.stackBase q).toNat + 8 * 22 ≤ (x.top q).toNat)
    (hm : ∀ a, x.OnStack q a → m' a = m a) : Held m' (x.top q) u v p := by
  have hcall : ∀ {f : U64}, HeldCall m (x.top q) u f → HeldCall m' (x.top q) u f := by
    intro f hf
    have hr := hroom hf.stack
    exact hf.congr (by omega) fun a ha => hm a (within_stack (by omega) ha)
  cases p with
  | kernel => trivial
  | user => exact h
  | irq f =>
    obtain ⟨h1, rfl, ⟨vector, h3⟩, h4⟩ := h
    have hr := hroom h1
    have hlt := (x.top q).isLt
    refine ⟨h1, rfl, ⟨vector, h3.congr ?_ fun a ha => hm a (within_stack hr ha)⟩, h4⟩
    rw [sub_words (by omega)]
    show (x.top q).toNat - 8 * 22 + 8 * 22 ≤ 2 ^ 64
    omega
  | handler f => exact hcall h
  | blocked f saved => exact ⟨hcall h.1, h.2⟩

theorem Kernel.OnStack.top_ne {a : U64} (h : x.OnStack q a) : x.top q ≠ 0 := by
  intro h0
  have hlt := h.2
  rw [h0] at hlt
  exact absurd hlt (Nat.not_lt_zero _)

/-- no stack reaches into `g_cpu_local` -/
theorem Stacks.clear_local {a : U64} (h : Stacks cpuLocal x) (hloc : cpuLocal.toNat + 16 ≤ 2 ^ 64)
    (hq : q ∈ x.s.tb.live) (ha : x.OnStack q a) : a ≠ cpuLocal + CPU_LOCAL_USER_RSP ∧ a ≠ cpuLocal := by
  have h8 : (cpuLocal + CPU_LOCAL_USER_RSP).toNat = cpuLocal.toNat + 8 := add_eight (by omega)
  have hd := h.clear hq ha.top_ne
  unfold Kernel.OnStack at ha
  constructor
  · rintro rfl
    omega
  · rintro rfl
    omega

/-- tasks that keep their stacks -/
theorem Stacks.congr (h : Stacks cpuLocal x) (hl : ∀ {q}, q ∈ x'.s.tb.live → q ∈ x.s.tb.live ∧ x'.top q = x.top q)
    (hb : x'.stackBase = x.stackBase) : Stacks cpuLocal x' := by
  refine ⟨fun {q} hq h0 => ?_, fun {p q} hp hq hpq hp0 hq0 => ?_, fun {q} hq h0 => ?_⟩
  · obtain ⟨h1, h2⟩ := hl hq
    rw [h2] at h0 ⊢
    rw [hb]
    exact h.room h1 h0
  · obtain ⟨h1, h2⟩ := hl hp
    obtain ⟨k1, k2⟩ := hl hq
    rw [h2] at hp0
    rw [k2] at hq0
    rw [h2, k2, hb]
    exact h.apart h1 k1 hpq hp0 hq0
  · obtain ⟨h1, h2⟩ := hl hq
    rw [h2] at h0 ⊢
    rw [hb]
    exact h.clear h1 h0

/-- **The running task works.** -/
theorem Base.local (h : Base cpuLocal x) (hloc : cpuLocal.toNat + 16 ≤ 2 ^ 64) (hl : Local cpuLocal x x') :
    Base cpuLocal x' := by
  obtain ⟨l, hq⟩ := h.queue
  have hcl : x.s.current ∈ x.s.tb.live := hq.cur_live
  have htop : ∀ q, x'.top q = x.top q := fun q => by
    unfold Kernel.top
    rw [hl.s]
  have hclear : ∀ {q a}, q ∈ x.s.tb.live → x.OnStack q a → a ≠ cpuLocal + CPU_LOCAL_USER_RSP ∧ a ≠ cpuLocal :=
    fun hqm ha => h.kstacks.clear_local hloc hqm ha
  have hother : ∀ {q a}, q ∈ x.s.tb.live → q ≠ x.s.current → x.OnStack q a → ¬ x.OnStack x.s.current a := by
    intro q a hqm hqc ha hb
    have hd := h.kstacks.apart hqm hcl hqc ha.top_ne hb.top_ne
    unfold Kernel.OnStack at ha hb
    omega
  refine ⟨?_, ?_, ?_, ?_, fun b hb => ?_, fun {q} hqm hqc => ?_, fun {q} hqm hqc => ?_, fun {q f} hf => ?_⟩
  · rw [hl.s]
    exact ⟨l, hq⟩
  · exact h.kstacks.congr (fun {q} hqm => ⟨hl.s ▸ hqm, htop q⟩) hl.stackBase
  · rw [hl.s]
    exact h.loaded
  · rw [hl.s, ← h.kernelRsp]
    refine hl.mem _ (local_ne _) fun hon => (hclear hcl hon).2 rfl
  · rcases hl.seen b hb with hb | hb
    · exact hb
    · exact h.seen b hb
  · rw [hl.s] at hqm hqc
    obtain ⟨h1, h2, h3, -⟩ := hl.others q hqc
    rw [htop, h1, h2, h3]
    exact (h.held hqm hqc).congr (h.kstacks.room hqm) fun a ha => hl.mem a (hclear hqm ha).1 (hother hqm hqc ha)
  · rw [hl.s] at hqm hqc
    obtain ⟨h1, -, -, h4⟩ := hl.others q hqc
    rw [h1, h4]
    exact h.parked hqm hqc
  · rw [hl.forkArg] at hf
    exact h.forkFlags hf

/-- a step of the scheduler, other than the switch, as the rest of the machine sees it -/
structure Scheduled (x : Kernel) (e : Event) (x' : Kernel) : Prop where
  eq : x' = { x with s := x'.s }
  step : Sched.step x.s e = some x'.s
  current : x'.s.current = x.s.current
  top : x'.top x.s.current = x.top x.s.current
  queue : ∃ l, Queue x'.s.abs l
  loaded : StackLoaded x'.s
  kernelRsp : x'.s.cpu.kernelRsp = x.s.cpu.kernelRsp

theorem Base.scheduled {e : Event} (h : Base cpuLocal x) (he : e ≠ .switch) (hs : x.sched cpuLocal e = some x') :
    Scheduled x e x' := by
  obtain ⟨s', hst, rfl⟩ := Option.map_eq_some_iff.1 hs
  obtain ⟨l, hq⟩ := h.queue
  have hcl : x.s.current ∈ x.s.tb.live := hq.cur_live
  have hcur : s'.current = x.s.current := step_current he hst
  obtain ⟨h1, h2, h3⟩ := step_stacks hcl he hst
  have hq' := step_queue ⟨l, hq⟩ hst
  have htop : (s'.tb.task x.s.current).kernelStackTop = (x.s.tb.task x.s.current).kernelStackTop := by
    obtain ⟨l', hl'⟩ := hq'
    have hcl' : s'.current ∈ s'.tb.live := hl'.cur_live
    rw [hcur] at hcl'
    rcases h3 hcl' with ⟨-, ht⟩ | ⟨-, hn, -⟩
    · exact ht
    · exact absurd hcl hn
  refine ⟨?_, hst, hcur, htop, hq', ?_, h1⟩
  · have hmem : Function.update x.c.mem cpuLocal s'.cpu.kernelRsp = x.c.mem := by
      rw [h1, ← h.kernelRsp, Function.update_eq_self]
    show ({ x with s := s', c := { x.c with mem := Function.update x.c.mem cpuLocal s'.cpu.kernelRsp } } : Kernel) = _
    rw [hmem]
  · show StackLoaded s'
    unfold StackLoaded
    rw [hcur, htop, h1, h2]
    exact h.loaded

/-- **The scheduler works**, without a new task. -/
theorem Base.sched {e : Event} (h : Base cpuLocal x) (g : Scheduled x e x') (he : e ≠ .switch)
    (ha : e.adds x.s = none) : Base cpuLocal x' := by
  obtain ⟨l, hq⟩ := h.queue
  obtain ⟨-, -, h3⟩ := step_stacks hq.cur_live he g.step
  have hc : x'.c = x.c := by rw [g.eq]
  have hb : x'.stackBase = x.stackBase := by rw [g.eq]
  have hold : ∀ {q}, q ∈ x'.s.tb.live → q ∈ x.s.tb.live ∧ x'.top q = x.top q := by
    intro q hqm
    rcases h3 hqm with hold | ⟨⟨par, hn⟩, -⟩
    · exact hold
    · rw [ha] at hn
      cases hn
  refine ⟨g.queue, h.kstacks.congr hold hb, g.loaded, ?_, ?_, fun {q} hqm hqc => ?_, fun {q} hqm hqc => ?_,
    fun {q f} hf => ?_⟩
  · rw [hc, g.kernelRsp]
    exact h.kernelRsp
  · rw [hc]
    exact h.seen
  · obtain ⟨h1, h2⟩ := hold hqm
    rw [g.current] at hqc
    rw [h2, g.eq]
    exact h.held h1 hqc
  · obtain ⟨h1, -⟩ := hold hqm
    rw [g.current] at hqc
    rw [g.eq]
    exact h.parked h1 hqc
  · rw [g.eq] at hf
    exact h.forkFlags hf

/-- **The scheduler works**, with a new task on a stack of its own. -/
theorem Base.add {e : Event} {par : Option Ptr} {stack : U64} {fpu : FxImage} {arg : Option ForkFrame} {p : Ptr}
    (h : Base cpuLocal x) (g : Scheduled x e x') (he : e ≠ .switch) (ha : e.adds x.s = some (p, par))
    (ht : e.stackTop = stackTop stack STACK_SIZE) (hf : x.freshStack cpuLocal stack STACK_SIZE = true)
    (harg : ∀ f, arg = some f → userFlags f.rflags = true) :
    Base cpuLocal (x'.newTask p stack fpu arg) ∧ p ≠ x.s.current := by
  obtain ⟨l, hq⟩ := h.queue
  have hcl : x.s.current ∈ x.s.tb.live := hq.cur_live
  obtain ⟨-, -, h3⟩ := step_stacks hcl he g.step
  have hp : p ∉ x.s.tb.live := adds_fresh ha g.step
  simp only [Kernel.freshStack, decide_eq_true_eq] at hf
  obtain ⟨hlt, hcpu, hfar⟩ := hf
  obtain ⟨hb1, hb2⟩ := stackTop_bounds hlt
  have hsize : STACK_SIZE.toNat = 0x4000 := rfl
  -- an old task keeps its stack, the new one has a fresh one
  have hcase : ∀ {q}, q ∈ x'.s.tb.live → (q ∈ x.s.tb.live ∧ q ≠ p ∧ x'.top q = x.top q ∧
      Function.update x'.stackBase p stack q = x.stackBase q) ∨
      (q = p ∧ x'.top q = stackTop stack STACK_SIZE ∧ Function.update x'.stackBase p stack q = stack) := by
    intro q hqm
    rcases h3 hqm with ⟨h1, h2⟩ | ⟨⟨par', hn⟩, h1, h2⟩
    · have hqp : q ≠ p := by
        rintro rfl
        exact hp h1
      refine Or.inl ⟨h1, hqp, h2, ?_⟩
      rw [Function.update_of_ne hqp, g.eq]
    · rw [ha] at hn
      cases hn
      exact Or.inr ⟨rfl, h2.trans ht, Function.update_self ..⟩
  have hfar' : ∀ {q}, q ∈ x.s.tb.live → x.top q ≠ 0 →
      (x.top q).toNat ≤ stack.toNat ∨ (stackTop stack STACK_SIZE).toNat ≤ (x.stackBase q).toNat := by
    intro q hqm h0
    rcases hfar q hqm with hz | hd
    · exact absurd hz h0
    · omega
  have hpc : p ≠ x.s.current := by
    rintro rfl
    exact hp hcl
  refine ⟨⟨g.queue, ⟨fun {q} hqm h0 => ?_, fun {r q} hr hqm hrq hr0 hq0 => ?_, fun {q} hqm h0 => ?_⟩, g.loaded, ?_, ?_,
    fun {q} hqm hqc => ?_, fun {q} hqm hqc => ?_, fun {q f} hfa => ?_⟩, hpc⟩
  · show (Function.update x'.stackBase p stack q).toNat + 8 * 22 ≤ (x'.top q).toNat
    rcases hcase hqm with ⟨h1, -, h2, h4⟩ | ⟨-, h2, h4⟩
    · rw [h2, h4]
      exact h.kstacks.room h1 (h2 ▸ h0)
    · rw [h2, h4]
      omega
  · show (x'.top r).toNat ≤ (Function.update x'.stackBase p stack q).toNat ∨
      (x'.top q).toNat ≤ (Function.update x'.stackBase p stack r).toNat
    rcases hcase hr with ⟨h1, -, h2, h4⟩ | ⟨rfl, h2, h4⟩ <;>
      rcases hcase hqm with ⟨k1, -, k2, k4⟩ | ⟨rfl, k2, k4⟩
    · rw [h2, h4, k2, k4]
      exact h.kstacks.apart h1 k1 hrq (h2 ▸ hr0) (k2 ▸ hq0)
    · rw [h2, h4, k2, k4]
      exact hfar' h1 (h2 ▸ hr0)
    · rw [h2, h4, k2, k4]
      exact (hfar' k1 (k2 ▸ hq0)).symm
    · exact absurd rfl hrq
  · show cpuLocal.toNat + 16 ≤ (Function.update x'.stackBase p stack q).toNat ∨ (x'.top q).toNat ≤ cpuLocal.toNat
    rcases hcase hqm with ⟨h1, -, h2, h4⟩ | ⟨-, h2, h4⟩
    · rw [h2, h4]
      exact h.kstacks.clear h1 (h2 ▸ h0)
    · rw [h2, h4]
      omega
  · show x'.c.mem cpuLocal = x'.s.cpu.kernelRsp
    rw [g.kernelRsp, g.eq]
    exact h.kernelRsp
  · show ∀ b ∈ x'.c.seen, b = cpuLocal
    rw [g.eq]
    exact h.seen
  · show Held x'.c.mem (x'.top q) (x'.issued q) (x'.interrupted q) (Function.update x'.point p .kernel q)
    rcases hcase hqm with ⟨h1, hqp, h2, -⟩ | ⟨rfl, -, -⟩
    · have hqc' : q ≠ x.s.current := fun hc => hqc (hc.trans g.current.symm)
      rw [Function.update_of_ne hqp, h2, g.eq]
      exact h.held h1 hqc'
    · rw [Function.update_self]
      trivial
  · show Parked (Function.update x'.rflags p INITIAL_RFLAGS q) (Function.update x'.point p .kernel q)
    rcases hcase hqm with ⟨h1, hqp, -, -⟩ | ⟨rfl, -, -⟩
    · have hqc' : q ≠ x.s.current := fun hc => hqc (hc.trans g.current.symm)
      rw [Function.update_of_ne hqp, Function.update_of_ne hqp, g.eq]
      exact h.parked h1 hqc'
    · rw [Function.update_self, Function.update_self]
      trivial
  · have hfa' : Function.update x'.forkArg p arg q = some f := hfa
    by_cases hqp : q = p
    · rw [hqp, Function.update_self] at hfa'
      exact harg f hfa'
    · rw [Function.update_of_ne hqp, g.eq] at hfa'
      exact h.forkFlags hfa'

theorem Scheduled.here {e : Event} (g : Scheduled x e x') : x'.here = x.here := by
  unfold Kernel.here
  rw [g.current, g.eq]

theorem Scheduled.mine {e : Event} (g : Scheduled x e x')
    (h : Held x.c.mem (x.top x.s.current) (x.issued x.s.current) (x.interrupted x.s.current) x.here) :
    Held x'.c.mem (x'.top x'.s.current) (x'.issued x'.s.current) (x'.interrupted x'.s.current) x'.here := by
  rw [g.here, g.current, g.top, g.eq]
  exact h

end Frame

/-! ## Steps -/

section Ops

variable {cpuLocal : U64} {x x' : Kernel} {f : U64} {fpu : FxImage}

/-- the loaded kernel stack of a task that has one: where it is, and what it is clear of -/
theorem Inv.stack (h : Inv cpuLocal x) (hloc : cpuLocal.toNat + 16 ≤ 2 ^ 64) (h0 : x.top x.s.current ≠ 0) :
    x.c.mem cpuLocal = x.top x.s.current ∧ x.s.cpu.rsp0 = x.top x.s.current ∧
    (x.stackBase x.s.current).toNat + 8 * 22 ≤ (x.top x.s.current).toNat ∧
    ClearOf cpuLocal (x.top x.s.current) 16 := by
  obtain ⟨l, hq⟩ := h.queue
  have hcl : x.s.current ∈ x.s.tb.live := hq.cur_live
  obtain ⟨h1, h2⟩ := h.loaded h0
  have hr := h.kstacks.room hcl h0
  refine ⟨h.kernelRsp.trans h1, h2, hr, ?_, ?_⟩
  · exact fun hw => (h.kstacks.clear_local hloc hcl (within_stack (by omega) hw)).2 rfl
  · exact fun hw => (h.kstacks.clear_local hloc hcl (within_stack (by omega) hw)).1 rfl

theorem moveTo_other {p : Point} {q : Ptr} (hq : q ≠ x.s.current) : (x.moveTo p).point q = x.point q :=
  Function.update_of_ne hq _ _

theorem moveTo_here {p : Point} : (x.moveTo p).here = p := Function.update_self ..

theorem and_not_if (f : U64) {g : U64} (h : ~~~g &&& RFLAGS_IF = 0) : (f &&& ~~~g) &&& RFLAGS_IF = 0 := by
  rw [BitVec.and_assoc, h]
  exact BitVec.and_zero

/-- **SYSCALL.** -/
theorem Inv.enterSyscall (h : Inv cpuLocal x) (hloc : cpuLocal.toNat + 16 ≤ 2 ^ 64) (hp : x.here = .user) :
    Inv cpuLocal x.enterSyscall := by
  have hm := h.mine
  have ha := h.active
  rw [hp] at hm
  unfold Active at ha
  rw [hp] at ha
  obtain ⟨hsc, hk, hfl⟩ := ha
  obtain ⟨hmem, -, hroom, hclear⟩ := h.stack hloc hm
  have spec := syscallEntry_spec hk hmem (by omega) hclear
  have hl : Local cpuLocal x x.enterSyscall := by
    refine ⟨rfl, fun q hq => ⟨moveTo_other hq, Function.update_of_ne hq _ _, rfl, rfl⟩, rfl, rfl, fun a hne hon => ?_,
      fun b hb => ?_⟩
    · exact spec.mem a hne fun hw => hon (within_stack (by omega) hw)
    · have hb' : b ∈ [cpuLocal, cpuLocal, cpuLocal] ++ x.c.seen := spec.seen ▸ hb
      simpa using hb'
  refine ⟨h.toBase.local hloc hl, ?_, ?_⟩
  · show Held _ _ (Function.update x.issued x.s.current x.c.toUser x.s.current) _ (x.enterSyscall.here)
    rw [Function.update_self, show x.enterSyscall.here = .handler _ from moveTo_here]
    exact ⟨hm, spec.rsp, spec.frame, hfl⟩
  · unfold Active
    rw [show x.enterSyscall.here = .handler _ from moveTo_here]
    refine ⟨hsc, spec.gs, ?_, ?_⟩
    · show (x.c.syscall.execAll syscallEntry).rflags &&& RFLAGS_IF = 0
      rw [spec.rflags]
      exact and_not_if _ (by decide)
    · show (x.c.syscall.execAll syscallEntry).mem _ =
        (Function.update x.issued x.s.current x.c.toUser x.s.current).reg .rsp
      rw [Function.update_self]
      exact spec.userRsp

/-- SYSRET and the registers the claim is about -/
def Restored (u : User) (c : Core) : Prop :=
  (∀ r, r ≠ .rax → r ≠ .rcx → r ≠ .r11 → c.reg r = u.reg r) ∧ c.rip = u.rip ∧ c.rflags = u.rflags

/-- the exit stub in a system call in progress -/
theorem Inv.exits (regs : Reg → U64) (h : Inv cpuLocal x) (hp : x.here = .handler f) :
    Exited (x.issued x.s.current) (x.back regs f) ((x.back regs f).execAll syscallExit) := by
  have hm := h.mine
  have ha := h.active
  rw [hp] at hm
  unfold Active at ha
  rw [hp] at ha
  obtain ⟨-, hgs, -, hrsp⟩ := ha
  have hrsp' : (x.back regs f).reg .rsp = f := rfl
  refine syscallExit_spec (by rw [hrsp']; exact hm.words) ?_
  show x.c.mem (x.c.gsBase + CPU_LOCAL_USER_RSP) = _
  rw [hgs]
  exact hrsp

/-- what the exit stub and SYSRET do in a system call in progress -/
theorem Inv.sysret_spec {regs : Reg → U64} {c : Core} (h : Inv cpuLocal x) (hp : x.here = .handler f)
    (hs : ((x.back regs f).execAll syscallExit).sysret = some c) :
    Restored (x.issued x.s.current) c ∧ c.kernelGsBase = cpuLocal ∧ c.mem = x.c.mem ∧
      c.seen = cpuLocal :: x.c.seen := by
  have hm := h.mine
  have ha := h.active
  rw [hp] at hm
  unfold Active at ha
  rw [hp] at ha
  obtain ⟨-, hgs, -, -⟩ := ha
  have spec := h.exits regs hp
  generalize (x.back regs f).execAll syscallExit = c1 at spec hs
  unfold Core.sysret at hs
  split_ifs at hs
  cases hs
  refine ⟨⟨spec.regs, spec.rip, ?_⟩, spec.gs.2.trans hgs, spec.mem, ?_⟩
  · show (_ &&& SYSRET_MASK) ||| 2 = _
    rw [spec.rflags]
    exact of_decide_eq_true hm.flags
  · refine spec.seen.trans ?_
    rw [show (x.back regs f).gsBase = cpuLocal from hgs]
    rfl

/-- **SYSRET.** -/
theorem Inv.sysret {regs : Reg → U64} {c : Core} (h : Inv cpuLocal x) (hloc : cpuLocal.toNat + 16 ≤ 2 ^ 64)
    (hsc : x.s.scheduling = false) (hp : x.here = .handler f)
    (hs : ((x.back regs f).execAll syscallExit).sysret = some c) : Inv cpuLocal ({ x with c := c }.moveTo .user) := by
  obtain ⟨hr, hk, hmem, hseen⟩ := h.sysret_spec hp hs
  have hm := h.mine
  rw [hp] at hm
  have hl : Local cpuLocal x ({ x with c := c }.moveTo .user) := by
    refine ⟨rfl, fun q hq => ⟨moveTo_other hq, rfl, rfl, rfl⟩, rfl, rfl, fun a _ _ => congrFun hmem a, fun b hb => ?_⟩
    have hb' : b ∈ cpuLocal :: x.c.seen := hseen ▸ hb
    exact List.mem_cons.1 hb'
  refine ⟨h.toBase.local hloc hl, ?_, ?_⟩
  · rw [moveTo_here]
    exact hm.stack
  · unfold Active
    rw [moveTo_here]
    refine ⟨hsc, hk, ?_⟩
    show userFlags c.rflags = true
    rw [hr.2.2]
    exact hm.flags

/-- a change of the point alone -/
theorem Local.moveTo {p : Point} : Local cpuLocal x (x.moveTo p) :=
  ⟨rfl, fun _ hq => ⟨moveTo_other hq, rfl, rfl, rfl⟩, rfl, rfl, fun _ _ _ => rfl, fun _ hb => Or.inr hb⟩

/-- into the loop of read(0) or wait4 -/
theorem Inv.block (h : Inv cpuLocal x) (hloc : cpuLocal.toNat + 16 ≤ 2 ^ 64) (hsc : x.s.scheduling = false)
    (hp : x.here = .handler f) : Inv cpuLocal (x.moveTo (.blocked f (x.userRsp cpuLocal))) := by
  have hm := h.mine
  have ha := h.active
  rw [hp] at hm
  unfold Active at ha
  rw [hp] at ha
  obtain ⟨-, hgs, hif, hrsp⟩ := ha
  refine ⟨h.toBase.local hloc Local.moveTo, ?_, ?_⟩
  · rw [moveTo_here]
    exact ⟨hm, hrsp⟩
  · unfold Active
    rw [moveTo_here]
    refine ⟨hgs, hif, fun ht => ?_⟩
    rw [show x.s.scheduling = true from ht] at hsc
    cases hsc

/-- out of the loop: user_rsp is what it was -/
theorem Inv.unblock {saved : U64} (h : Inv cpuLocal x) (hloc : cpuLocal.toNat + 16 ≤ 2 ^ 64)
    (hsc : x.s.scheduling = false) (hp : x.here = .blocked f saved) :
    Inv cpuLocal ((x.setUserRsp cpuLocal saved).moveTo (.handler f)) := by
  obtain ⟨l, hq⟩ := h.queue
  have hcl : x.s.current ∈ x.s.tb.live := hq.cur_live
  have hm := h.mine
  have ha := h.active
  rw [hp] at hm
  unfold Active at ha
  rw [hp] at ha
  obtain ⟨hcall, hsaved⟩ := hm
  obtain ⟨hgs, hif, -⟩ := ha
  have hl : Local cpuLocal x ((x.setUserRsp cpuLocal saved).moveTo (.handler f)) :=
    ⟨rfl, fun _ hq => ⟨moveTo_other hq, rfl, rfl, rfl⟩, rfl, rfl, fun _ hne _ => Function.update_of_ne hne _ _,
      fun _ hb => Or.inr hb⟩
  refine ⟨h.toBase.local hloc hl, ?_, ?_⟩
  · rw [moveTo_here]
    have hr := h.kstacks.room hcl hcall.stack
    refine hcall.congr (show 8 * 16 ≤ (x.top x.s.current).toNat by omega) fun a ha => ?_
    exact Function.update_of_ne (h.kstacks.clear_local hloc hcl (within_stack (by omega) ha)).1 _ _
  · unfold Active
    rw [moveTo_here]
    refine ⟨hsc, hgs, hif, ?_⟩
    show Function.update x.c.mem (cpuLocal + CPU_LOCAL_USER_RSP) saved (cpuLocal + CPU_LOCAL_USER_RSP) = _
    rw [Function.update_self]
    exact hsaved

/-- `yield_blocking` up to its yield -/
theorem Inv.pinKernelGs {saved : U64} (h : Inv cpuLocal x) (hloc : cpuLocal.toNat + 16 ≤ 2 ^ 64)
    (hp : x.here = .blocked f saved) : Inv cpuLocal (x.pinKernelGs cpuLocal) := by
  have hl : Local cpuLocal x (x.pinKernelGs cpuLocal) :=
    ⟨rfl, fun _ _ => ⟨rfl, rfl, rfl, rfl⟩, rfl, rfl, fun _ _ _ => rfl, fun _ hb => Or.inr hb⟩
  refine ⟨h.toBase.local hloc hl, h.mine, ?_⟩
  have ha := h.active
  unfold Active at ha ⊢
  rw [hp] at ha
  rw [show (x.pinKernelGs cpuLocal).here = .blocked f saved from hp]
  exact ⟨ha.1, ha.2.1, fun _ => rfl⟩

/-- **Into `schedule`**, or not: from kernel code, or with `yield_blocking` on the stack. -/
theorem Inv.yields {e : Event} (h : Inv cpuLocal x) (he : e ≠ .switch) (ha : e.adds x.s = none)
    (hk : x.c.kernelGsBase = cpuLocal) (hp : x.here = .kernel ∨ ∃ f saved, x.here = .blocked f saved)
    (hs : x.sched cpuLocal e = some x') : Inv cpuLocal x' := by
  have g := h.toBase.scheduled he hs
  have hc : x'.c = x.c := by rw [g.eq]
  refine ⟨h.toBase.sched g he ha, g.mine h.mine, ?_⟩
  have hact := h.active
  unfold Active at hact ⊢
  rcases hp with hp | ⟨f, saved, hp⟩
  · rw [g.here, hp, hc]
    exact hk
  · rw [hp] at hact
    rw [g.here, hp, hc]
    exact ⟨hact.1, hact.2.1, fun _ => hk⟩

/-- the work of a system call that does not go into `schedule` -/
theorem Inv.calls {e : Event} (h : Inv cpuLocal x) (he : e ≠ .switch) (ha : e.adds x.s = none)
    (hn : ¬ (Enters x.s e ∨ ∃ code, e = .exit code))
    (hp : (∃ f, x.here = .handler f) ∨ ∃ f saved, x.here = .blocked f saved) (hs : x.sched cpuLocal e = some x') :
    Inv cpuLocal x' ∧ Scheduled x e x' ∧ x'.s.scheduling = false := by
  have g := h.toBase.scheduled he hs
  have hsc : x'.s.scheduling = false := by
    by_contra hne
    exact hn (step_scheduling he g.step (Bool.not_eq_false _ ▸ hne))
  refine ⟨⟨h.toBase.sched g he ha, g.mine h.mine, ?_⟩, g, hsc⟩
  have hact := h.active
  unfold Active at hact ⊢
  rcases hp with ⟨f, hp⟩ | ⟨f, saved, hp⟩
  · rw [hp] at hact
    rw [g.here, hp]
    refine ⟨hsc, ?_⟩
    rw [g.current, g.eq]
    exact hact.2
  · rw [hp] at hact
    rw [g.here, hp, g.eq]
    refine ⟨hact.1, hact.2.1, fun ht => ?_⟩
    rw [show x'.s.scheduling = true from ht] at hsc
    cases hsc

/-- **A new task.** -/
theorem Inv.addTask {e : Event} {p : Ptr} {par : Option Ptr} {stack : U64} {arg : Option ForkFrame}
    (h : Inv cpuLocal x) (he : e ≠ .switch) (ha : e.adds x.s = some (p, par))
    (ht : e.stackTop = stackTop stack STACK_SIZE) (hf : x.freshStack cpuLocal stack STACK_SIZE = true)
    (harg : ∀ f, arg = some f → userFlags f.rflags = true) (hp : x.here = .kernel ∨ ∃ f, x.here = .handler f)
    (hs : x.sched cpuLocal e = some x') : Inv cpuLocal (x'.newTask p stack fpu arg) := by
  have g := h.toBase.scheduled he hs
  obtain ⟨hb, hpc⟩ : Base cpuLocal (x'.newTask p stack fpu arg) ∧ p ≠ x.s.current := h.toBase.add g he ha ht hf harg
  have hsc : x'.s.scheduling = false := by
    by_contra hne
    rcases step_scheduling he g.step (Bool.not_eq_false _ ▸ hne) with (rfl | ⟨rfl, -⟩ | ⟨rfl, -⟩) | ⟨code, rfl⟩ <;>
      cases ha
  have hhere : (x'.newTask p stack fpu arg).here = x.here := by
    show Function.update x'.point p .kernel x'.s.current = _
    rw [g.current, Function.update_of_ne hpc.symm, g.eq]
    rfl
  have hmine := g.mine h.mine
  rw [g.here] at hmine
  refine ⟨hb, ?_, ?_⟩
  · rw [hhere]
    exact hmine
  · have hact := h.active
    unfold Active at hact ⊢
    rw [hhere]
    rcases hp with hp | ⟨f, hp⟩
    · rw [hp] at hact ⊢
      show x'.c.kernelGsBase = cpuLocal
      rw [g.eq]
      exact hact
    · rw [hp] at hact ⊢
      refine ⟨hsc, ?_⟩
      show x'.c.gsBase = cpuLocal ∧ x'.c.rflags &&& RFLAGS_IF = 0 ∧
        x'.userRsp cpuLocal = (x'.issued x'.s.current).reg .rsp
      rw [g.current, g.eq]
      exact hact.2

/-- **Into ring 3** by an IRETQ off the running task's own stack. -/
theorem Inv.enters {c : Core} {a : U64} {n : ℕ} (h : Inv cpuLocal x) (hloc : cpuLocal.toNat + 16 ≤ 2 ^ 64)
    (hsc : x.s.scheduling = false) (hk : c.kernelGsBase = cpuLocal) (hfl : userFlags c.rflags = true)
    (hon : x.onStack a (n + 1) = true) (hmem : ∀ b, ¬ x.OnStack x.s.current b → c.mem b = x.c.mem b)
    (hseen : c.seen = x.c.seen) : Inv cpuLocal ({ x with c := c }.moveTo .user) := by
  have hl : Local cpuLocal x ({ x with c := c }.moveTo .user) :=
    ⟨rfl, fun _ hq => ⟨moveTo_other hq, rfl, rfl, rfl⟩, rfl, rfl, fun b _ hb => hmem b hb, fun b hb => Or.inr (hseen ▸ hb)⟩
  refine ⟨h.toBase.local hloc hl, ?_, ?_⟩
  · rw [moveTo_here]
    simp only [Kernel.onStack, decide_eq_true_eq] at hon
    show x.top x.s.current ≠ 0
    intro h0
    rw [h0] at hon
    have h2 : a.toNat + 8 * (n + 1) ≤ 0 := hon.2
    omega
  · unfold Active
    rw [moveTo_here]
    exact ⟨hsc, hk, hfl⟩

/-- words on the running task's stack -/
theorem onStack_within {a b : U64} {n : ℕ} (h : x.onStack a n = true) (hw : Within b a n) : x.OnStack x.s.current b := by
  simp only [Kernel.onStack, decide_eq_true_eq] at h
  unfold Within at hw
  exact ⟨by omega, by omega⟩

theorem onStack_lt {a : U64} {n : ℕ} (h : x.onStack a n = true) : a.toNat + 8 * n ≤ 2 ^ 64 := by
  simp only [Kernel.onStack, decide_eq_true_eq] at h
  have := (x.top x.s.current).isLt
  omega

theorem enterRing3_spec (rip rsp : U64) {c : Core} {a : U64} (h : x.onStack a 5 = true) (hc : c.mem = x.c.mem) :
    (enterRing3 c rip rsp a).kernelGsBase = c.kernelGsBase ∧ (enterRing3 c rip rsp a).seen = c.seen ∧
    userFlags (enterRing3 c rip rsp a).rflags = true ∧
    ∀ b, ¬ x.OnStack x.s.current b → (enterRing3 c rip rsp a).mem b = x.c.mem b := by
  refine ⟨rfl, rfl, ?_, fun b hb => ?_⟩
  · have hw := put_words (a := a) c.mem
      (show a.toNat + 8 * [rip, USER_CODE_SELECTOR, INITIAL_RFLAGS, rsp, USER_DATA_SELECTOR].length ≤ 2 ^ 64
        from onStack_lt h)
    obtain ⟨-, -, h2, -⟩ := hw
    rw [BitVec.add_assoc] at h2
    show userFlags (put c.mem a _ (a + 16#64)) = true
    rw [show (16#64 : U64) = 8#64 + 8#64 from rfl, h2]
    decide
  · rw [← hc]
    exact put_mem (a := a) c.mem (onStack_lt h) fun hw => hb (onStack_within h hw)

/-- the child's first ring-3 state -/
theorem forkChildEntry_eq {c : Core} {f : ForkFrame} {a rsp : U64} (ha : x.onStack a 9 = true)
    (hs : x.onStack (rsp - 40#64) 5 = true) (h40 : 40 ≤ rsp.toNat) (hle : rsp.toNat ≤ a.toNat) :
    ∃ m : Mem, forkChildEntry c f a rsp = { c with
        reg := f.regs (Function.update (Function.update c.reg .rdi a) .rsp rsp)
        rip := f.rip, rflags := f.rflags, mem := m } ∧
      ∀ b, ¬ x.OnStack x.s.current b → m b = c.mem b := by
  have hw : Words (put c.mem a f.words) a f.words := put_words c.mem (onStack_lt (n := 9) ha)
  obtain ⟨m, heq, hm⟩ := forkEnterRing3_spec (f := f)
    (c := { c with
      reg := Function.update (Function.update c.reg .rdi a) .rsp rsp
      mem := put c.mem a f.words }) hw h40 hle (onStack_lt (n := 9) ha)
  refine ⟨m, heq, fun b hb => ?_⟩
  rw [hm b fun hwb => hb (onStack_within hs hwb)]
  exact put_mem c.mem (onStack_lt (n := 9) ha) fun hwb => hb (onStack_within (n := 9) ha hwb)

theorem forkChildEntry_spec {c : Core} {f : ForkFrame} {a rsp : U64} (ha : x.onStack a 9 = true)
    (hs : x.onStack (rsp - 40#64) 5 = true) (h40 : 40 ≤ rsp.toNat) (hle : rsp.toNat ≤ a.toNat) (hc : c.mem = x.c.mem) :
    (forkChildEntry c f a rsp).kernelGsBase = c.kernelGsBase ∧ (forkChildEntry c f a rsp).seen = c.seen ∧
    (forkChildEntry c f a rsp).rflags = f.rflags ∧
    ∀ b, ¬ x.OnStack x.s.current b → (forkChildEntry c f a rsp).mem b = x.c.mem b := by
  obtain ⟨m, heq, hm⟩ := forkChildEntry_eq (c := c) (f := f) ha hs h40 hle
  rw [heq]
  exact ⟨rfl, rfl, rfl, fun b hb => (hm b hb).trans (congrFun hc b)⟩

/-- a store of C++ code below the frame of its stub -/
theorem Inv.store {a v : U64} (h : Inv cpuLocal x) (hloc : cpuLocal.toNat + 16 ≤ 2 ^ 64) (hp : x.here ≠ .user)
    (hi : ∀ f, x.here ≠ .irq f) (hb : (x.stackBase x.s.current).toNat ≤ a.toNat)
    (he : a.toNat + 8 ≤ x.stackEnd.toNat) :
    Inv cpuLocal { x with c := { x.c with mem := Function.update x.c.mem a v } } := by
  obtain ⟨l, hq⟩ := h.queue
  have hcl : x.s.current ∈ x.s.tb.live := hq.cur_live
  -- the store is on the stack, below every word of the frame
  have hcall : ∀ {f : U64}, x.stackEnd = f → HeldCall x.c.mem (x.top x.s.current) (x.issued x.s.current) f →
      x.OnStack x.s.current a ∧
      HeldCall (Function.update x.c.mem a v) (x.top x.s.current) (x.issued x.s.current) f := by
    intro f hend hf
    have hr := h.kstacks.room hcl hf.stack
    have hbelow : a.toNat + 8 ≤ (x.top x.s.current).toNat - 8 * 16 := by
      rw [hend, hf.frame, sub_words (by omega)] at he
      exact he
    refine ⟨⟨hb, by omega⟩, hf.congr (by omega) fun b hw => Function.update_of_ne ?_ _ _⟩
    rintro rfl
    have hge := hw.1
    rw [sub_words (by omega)] at hge
    omega
  have hm := h.mine
  have ha := h.active
  unfold Active at ha
  -- the running task's own part, by where it stands
  have hown : x.OnStack x.s.current a ∧
      Held (Function.update x.c.mem a v) (x.top x.s.current) (x.issued x.s.current) (x.interrupted x.s.current) x.here ∧
      Active cpuLocal { x with c := { x.c with mem := Function.update x.c.mem a v } } := by
    unfold Active
    have hend : x.stackEnd = (match x.here with | .handler f | .blocked f _ => f | _ => x.top x.s.current) := rfl
    have hhere : ({ x with c := { x.c with mem := Function.update x.c.mem a v } } : Kernel).here = x.here := rfl
    rw [hhere]
    cases hh : x.here with
    | user => exact absurd hh hp
    | irq f => exact absurd hh (hi f)
    | kernel =>
      rw [hh] at ha hend
      rw [show x.stackEnd = x.top x.s.current from hend] at he
      exact ⟨⟨hb, by omega⟩, trivial, ha⟩
    | handler f =>
      rw [hh] at ha hend hm
      obtain ⟨h1, h2⟩ := hcall hend hm
      refine ⟨h1, h2, ha.1, ha.2.1, ha.2.2.1, ?_⟩
      rw [← ha.2.2.2]
      exact Function.update_of_ne (h.kstacks.clear_local hloc hcl h1).1.symm _ _
    | blocked f saved =>
      rw [hh] at ha hend hm
      obtain ⟨h1, h2⟩ := hcall hend hm.1
      exact ⟨h1, ⟨h2, hm.2⟩, ha⟩
  obtain ⟨hon, hheld, hact⟩ := hown
  refine ⟨h.toBase.local hloc ⟨rfl, fun _ _ => ⟨rfl, rfl, rfl, rfl⟩, rfl, rfl, fun b _ hb' => ?_, fun _ hb => Or.inr hb⟩,
    hheld, hact⟩
  refine Function.update_of_ne ?_ _ _
  rintro rfl
  exact hb' hon

theorem Inv.stores {a v : U64} {p : Point} (h : Inv cpuLocal x) (hloc : cpuLocal.toNat + 16 ≤ 2 ^ 64) (hp : x.here = p)
    (hu : p ≠ .user) (hi : ∀ f, p ≠ .irq f) (hs : run cpuLocal fpu x (.store a v) p = some x') : Inv cpuLocal x' := by
  have hs' : (if (x.stackBase x.s.current).toNat ≤ a.toNat ∧ a.toNat + 8 ≤ x.stackEnd.toNat then
      some { x with c := { x.c with mem := Function.update x.c.mem a v } } else none) = some x' := by
    cases p <;> first | exact hs | exact absurd rfl hu
  split_ifs at hs' with hb
  cases hs'
  exact h.store hloc (hp ▸ hu) (hp ▸ hi) hb.1 hb.2

/-- `sys_exit`: the closing swapgs by hand, and the frame is given up -/
theorem Inv.leave (h : Inv cpuLocal x) (hloc : cpuLocal.toNat + 16 ≤ 2 ^ 64) (hp : x.here = .handler f) :
    Inv cpuLocal ({ x with c := x.c.exec .swapgs }.moveTo .kernel) := by
  have ha := h.active
  unfold Active at ha
  rw [hp] at ha
  have hl : Local cpuLocal x ({ x with c := x.c.exec .swapgs }.moveTo .kernel) :=
    ⟨rfl, fun _ hq => ⟨moveTo_other hq, rfl, rfl, rfl⟩, rfl, rfl, fun _ _ _ => rfl, fun _ hb => Or.inr hb⟩
  refine ⟨h.toBase.local hloc hl, ?_, ?_⟩
  · rw [moveTo_here]
    trivial
  · unfold Active
    rw [moveTo_here]
    exact ha.2.1

/-- **Back from `schedule`.** -/
theorem Base.resume (h : Base cpuLocal x) (hloc : cpuLocal.toNat + 16 ≤ 2 ^ 64) (hsc : x.s.scheduling = false)
    (hk : x.c.kernelGsBase = cpuLocal)
    (hm : Held x.c.mem (x.top x.s.current) (x.issued x.s.current) (x.interrupted x.s.current) x.here)
    (hp : Parked x.c.rflags x.here) : Inv cpuLocal (x.resume cpuLocal) := by
  unfold Kernel.resume
  cases hh : x.here with
  | user =>
    rw [hh] at hp
    exact absurd hp id
  | handler f =>
    rw [hh] at hp
    exact absurd hp id
  | kernel =>
    refine ⟨h, hm, ?_⟩
    unfold Active
    rw [hh]
    exact hk
  | irq f =>
    rw [hh] at hm
    obtain ⟨vector, hw⟩ := hm.words
    have spec := irqExit_spec (c := x.back x.c.reg f) (u := x.interrupted x.s.current) hw
    dsimp only
    rw [spec]
    have hl : Local cpuLocal x ({ x with c := { x.back x.c.reg f with
        reg := (x.interrupted x.s.current).reg
        rip := (x.interrupted x.s.current).rip
        rflags := (x.interrupted x.s.current).rflags } }.moveTo .user) :=
      ⟨rfl, fun _ hq => ⟨moveTo_other hq, rfl, rfl, rfl⟩, rfl, rfl, fun _ _ _ => rfl, fun _ hb => Or.inr hb⟩
    refine ⟨h.local hloc hl, ?_, ?_⟩
    · rw [moveTo_here]
      exact hm.stack
    · unfold Active
      rw [moveTo_here]
      exact ⟨hsc, hk, hm.flags⟩
  | blocked f saved =>
    rw [hh] at hp
    have hl : Local cpuLocal x (x.pinGs cpuLocal) :=
      ⟨rfl, fun _ _ => ⟨rfl, rfl, rfl, rfl⟩, rfl, rfl, fun _ _ _ => rfl, fun _ hb => Or.inr hb⟩
    refine ⟨h.local hloc hl, hm, ?_⟩
    unfold Active
    rw [show (x.pinGs cpuLocal).here = .blocked f saved from hh]
    exact ⟨rfl, hp, fun _ => hk⟩

/-- **The timer in ring 3.** -/
theorem Inv.timer {vector : U64} (h : Inv cpuLocal x) (hloc : cpuLocal.toNat + 16 ≤ 2 ^ 64) (hp : x.here = .user)
    (hs : (x.interrupt vector).sched cpuLocal .timer = some x') :
    Inv cpuLocal (if x'.s.scheduling then x' else x'.resume cpuLocal) := by
  have hm := h.mine
  have ha := h.active
  rw [hp] at hm
  unfold Active at ha
  rw [hp] at ha
  obtain ⟨-, hk, hfl⟩ := ha
  obtain ⟨-, hrsp0, hroom, -⟩ := h.stack hloc hm
  have spec : Interrupted (x.top x.s.current) vector x.c
      ((x.c.interrupt x.s.cpu.rsp0).execAll (irqEntry vector)) := by
    rw [hrsp0]
    exact irqEntry_spec vector (by omega)
  have hl : Local cpuLocal x (x.interrupt vector) := by
    refine ⟨rfl, fun q hq => ⟨moveTo_other hq, rfl, Function.update_of_ne hq _ _, rfl⟩, rfl, rfl, fun a _ hon => ?_,
      fun b hb => Or.inr (spec.seen ▸ hb)⟩
    exact spec.mem a fun hw => hon (within_stack hroom hw)
  have hb := h.toBase.local hloc hl
  have hheld : Held (x.interrupt vector).c.mem ((x.interrupt vector).top (x.interrupt vector).s.current)
      ((x.interrupt vector).issued (x.interrupt vector).s.current)
      ((x.interrupt vector).interrupted (x.interrupt vector).s.current) (x.interrupt vector).here := by
    show Held _ _ _ (Function.update x.interrupted x.s.current x.c.toUser x.s.current) _
    rw [Function.update_self, show (x.interrupt vector).here = .irq _ from moveTo_here]
    exact ⟨hm, spec.rsp, ⟨vector, spec.frame⟩, hfl⟩
  have hif : (x.interrupt vector).c.rflags &&& RFLAGS_IF = 0 := by
    show ((x.c.interrupt x.s.cpu.rsp0).execAll (irqEntry vector)).rflags &&& RFLAGS_IF = 0
    rw [spec.rflags]
    exact and_not_if _ (by decide)
  have hk' : (x.interrupt vector).c.kernelGsBase = cpuLocal := spec.gs.2.trans hk
  have g := hb.scheduled (by simp) hs
  have hb' := hb.sched g (by simp) rfl
  have hc : x'.c = (x.interrupt vector).c := by rw [g.eq]
  have hirq : x'.here = .irq _ := g.here.trans moveTo_here
  cases hsc : x'.s.scheduling with
  | true =>
    rw [if_pos rfl]
    refine ⟨hb', g.mine hheld, ?_⟩
    unfold Active
    rw [hirq, hc]
    exact ⟨hsc, hk', hif⟩
  | false =>
    rw [if_neg (by decide)]
    refine hb'.resume hloc hsc (by rw [hc]; exact hk') (g.mine hheld) ?_
    rw [hirq, hc]
    exact hif

/-- in `schedule` the running task is as good as parked -/
theorem Inv.parking (h : Inv cpuLocal x) (hsc : x.s.scheduling = true) :
    x.c.kernelGsBase = cpuLocal ∧ Parked x.c.rflags x.here := by
  have ha := h.active
  unfold Active at ha
  cases hh : x.here with
  | kernel =>
    rw [hh] at ha
    exact ⟨ha, trivial⟩
  | user =>
    rw [hh] at ha
    rw [hsc] at ha
    exact absurd ha.1 (by decide)
  | irq f =>
    rw [hh] at ha
    exact ha.2
  | handler f =>
    rw [hh] at ha
    rw [hsc] at ha
    exact absurd ha.1 (by decide)
  | blocked f saved =>
    rw [hh] at ha
    exact ⟨ha.2.2 hsc, ha.2.1⟩

/-- `switch_to` moves RFLAGS and the FXSAVE image, and nothing else -/
theorem switchContext_rest (x : Kernel) (old : Ptr) : ∃ rflags rfl fpu fx, x.switchContext old =
    { x with rflags := rflags, fpu := fpu, c := { x.c with rflags := rfl, fpu := fx } } := by
  unfold Kernel.switchContext
  split_ifs with hc
  · exact ⟨x.rflags, x.c.rflags, x.fpu, x.c.fpu, rfl⟩
  · exact ⟨_, _, _, _, rfl⟩

/-- if old is as good as parked, it is parked afterwards, and the new task is as good as it was -/
theorem switchContext_parked (old : Ptr) (h : ∀ {q}, q ∈ x.s.tb.live → q ≠ old → Parked (x.rflags q) (x.point q))
    (hold : Parked x.c.rflags (x.point old)) :
    (∀ {q}, q ∈ x.s.tb.live → q ≠ x.s.current → Parked ((x.switchContext old).rflags q) (x.point q)) ∧
    (x.s.current ∈ x.s.tb.live → Parked (x.switchContext old).c.rflags (x.point x.s.current)) := by
  unfold Kernel.switchContext
  split_ifs with hc
  · refine ⟨fun {q} hq hqc => h hq (hc ▸ hqc), fun _ => ?_⟩
    rw [hc]
    exact hold
  · refine ⟨fun {q} hq hqc => ?_, fun hq => h hq hc⟩
    show Parked (Function.update x.rflags old x.c.rflags q) (x.point q)
    by_cases hqo : q = old
    · rw [hqo, Function.update_self]
      exact hold
    · rw [Function.update_of_ne hqo]
      exact h hq hqo

/-- **The switch.** -/
theorem Inv.finish (h : Inv cpuLocal x) (hloc : cpuLocal.toNat + 16 ≤ 2 ^ 64)
    (hs : finish cpuLocal x = some x') : Inv cpuLocal x' := by
  obtain ⟨x1, hs1, rfl⟩ := Option.map_eq_some_iff.1 hs
  obtain ⟨s', hst, rfl⟩ := Option.map_eq_some_iff.1 hs1
  have hsc : x.s.scheduling = true := by
    obtain ⟨self, -, hst⟩ := Option.bind_eq_some_iff.1 hst
    split_ifs at hst with hen
    rw [Bool.and_eq_true] at hen
    exact hen.2
  obtain ⟨hk, hpark⟩ := h.parking hsc
  obtain ⟨l, hq⟩ := h.queue
  have hcl : x.s.current ∈ x.s.tb.live := hq.cur_live
  obtain ⟨hlive, htop, hcur, hsc', hld⟩ := switch_stacks hcl hst h.loaded
  have hq' := step_queue ⟨l, hq⟩ hst
  obtain ⟨x1, hx1⟩ : ∃ x1 : Kernel, x1 =
    { x with s := s', c := { x.c with mem := Function.update x.c.mem cpuLocal s'.cpu.kernelRsp } } := ⟨_, rfl⟩
  have htop1 : ∀ q, x1.top q = x.top q := fun q => by rw [hx1]; exact htop q
  -- every task holds what it held: kernel_rsp is on no stack
  have hheld : ∀ {q}, q ∈ x.s.tb.live → Held x1.c.mem (x.top q) (x.issued q) (x.interrupted q) (x.point q) := by
    intro q hqm
    have hold : Held x.c.mem (x.top q) (x.issued q) (x.interrupted q) (x.point q) := by
      by_cases hqc : q = x.s.current
      · rw [hqc]
        exact h.mine
      · exact h.held hqm hqc
    rw [hx1]
    exact hold.congr (h.kstacks.room hqm) fun a ha => Function.update_of_ne (h.kstacks.clear_local hloc hqm ha).2 _ _
  have hlive1 : x1.s.tb.live = x.s.tb.live := by rw [hx1]; exact hlive
  obtain ⟨hp1, hp2⟩ := switchContext_parked x.s.current (x := x1)
    (fun {q} hqm hqo => by
      rw [hlive1] at hqm
      rw [hx1]
      exact h.parked hqm hqo)
    (by rw [hx1]; exact hpark)
  have hcur1 : x1.s.current ∈ x1.s.tb.live := by
    rw [hlive1, hx1]
    exact hcur
  obtain ⟨rfs, rf, fs, fx, heq⟩ := switchContext_rest x1 x.s.current
  rw [← hx1]
  rw [heq] at hp1 hp2 ⊢
  have hbase : Base cpuLocal { x1 with rflags := rfs, fpu := fs, c := { x1.c with rflags := rf, fpu := fx } } := by
    refine ⟨?_, ?_, ?_, ?_, ?_, fun {q} hqm _ => ?_, fun {q} hqm hqc => hp1 hqm hqc, fun {q f} hf => ?_⟩
    · rw [hx1]
      exact hq'
    · refine h.kstacks.congr (fun {q} hqm => ⟨hlive1 ▸ hqm, htop1 q⟩) ?_
      rw [hx1]
    · rw [hx1]
      exact hld
    · rw [hx1]
      exact Function.update_self ..
    · rw [hx1]
      exact h.seen
    · have hq1 : q ∈ x.s.tb.live := hlive1 ▸ hqm
      have hh := hheld hq1
      rw [← htop1] at hh
      rw [hx1] at hh ⊢
      exact hh
    · rw [hx1] at hf
      exact h.forkFlags hf
  refine hbase.resume hloc ?_ ?_ ?_ (hp2 hcur1)
  · rw [hx1]
    exact hsc'
  · rw [hx1]
    exact hk
  · have hh := hheld (hlive1 ▸ hcur1)
    rw [← htop1] at hh
    rw [hx1] at hh ⊢
    exact hh

theorem Inv.handler_gs (h : Inv cpuLocal x) (hp : x.here = .handler f) : x.c.gsBase = cpuLocal := by
  have ha := h.active
  unfold Active at ha
  rw [hp] at ha
  exact ha.2.1

/-- the first entry of a task that was not forked -/
theorem run_enter {rip rsp a : U64} {regs : Reg → U64} (hs : run cpuLocal fpu x (.enter rip rsp a regs) .kernel = some x') :
    x.onStack a 5 = true ∧ x' = { x with c := enterRing3 { x.c with reg := regs } rip rsp a }.moveTo .user := by
  unfold run at hs
  simp only at hs
  split at hs
  · cases hs
  · split_ifs at hs with hon
    cases hs
    exact ⟨hon, rfl⟩

/-- the first entry of a forked child -/
theorem run_forkEnter {a rsp : U64} {regs : Reg → U64} (hs : run cpuLocal fpu x (.forkEnter a rsp regs) .kernel = some x') :
    ∃ F, x.forkArg x.s.current = some F ∧
      (x.onStack a 9 = true ∧ x.onStack (rsp - 40#64) 5 = true ∧ 40 ≤ rsp.toNat ∧ rsp.toNat ≤ a.toNat) ∧
      x' = { x with c := forkChildEntry { x.c with reg := regs } F a rsp }.moveTo .user := by
  unfold run at hs
  simp only at hs
  split at hs
  · next F harg =>
    split_ifs at hs with hon
    cases hs
    exact ⟨F, harg, hon, rfl⟩
  · cases hs

/-- a round of the loop of wait4: out of it, or back into `schedule` -/
theorem run_wait4Again {saved : U64} (hs : run cpuLocal fpu x .wait4Again (.blocked f saved) = some x') :
    ∃ child, x.s.cont x.s.current = .wait child ∧
      ((x.s.tb.task child).state = .Dead ∧ (∃ x1, x.sched cpuLocal .wait4Again = some x1 ∧
          x' = (x1.setUserRsp cpuLocal saved).moveTo (.handler f)) ∨
        (x.s.tb.task child).state ≠ .Dead ∧ (x.pinKernelGs cpuLocal).sched cpuLocal .wait4Again = some x') := by
  unfold run at hs
  simp only at hs
  split at hs
  · next child hw =>
    split_ifs at hs with hd
    · obtain ⟨x1, h1, rfl⟩ := Option.map_eq_some_iff.1 hs
      exact ⟨child, hw, Or.inl ⟨hd, x1, h1, rfl⟩⟩
    · exact ⟨child, hw, Or.inr ⟨hd, hs⟩⟩
  · cases hs

/-- what kernel code of its own can do -/
theorem Inv.run_kernel {o : Op} (h : Inv cpuLocal x) (hloc : cpuLocal.toNat + 16 ≤ 2 ^ 64) (hsc : x.s.scheduling = false)
    (hp : x.here = .kernel) (hs : run cpuLocal fpu x o .kernel = some x') : Inv cpuLocal x' := by
  have hk : x.c.kernelGsBase = cpuLocal := by
    have ha := h.active
    unfold Active at ha
    rw [hp] at ha
    exact ha
  cases o with
  | exit code => exact h.yields (by simp) rfl hk (Or.inl hp) hs
  | yield => exact h.yields (by simp) rfl hk (Or.inl hp) hs
  | timer vector =>
    have hs' : (if x.c.rflags &&& RFLAGS_IF ≠ 0 then x.sched cpuLocal .timer else none) = some x' := hs
    split_ifs at hs'
    exact h.yields (by simp) rfl hk (Or.inl hp) hs'
  | spawn p stack =>
    have hs' : (if x.freshStack cpuLocal stack STACK_SIZE then (x.sched cpuLocal (.spawn p (stackTop stack STACK_SIZE))).map
      fun x => x.newTask p stack fpu none else none) = some x' := hs
    split_ifs at hs' with hf
    obtain ⟨x1, h1, rfl⟩ := Option.map_eq_some_iff.1 hs'
    exact h.addTask (by simp) rfl rfl hf (fun _ hn => by cases hn) (Or.inl hp) h1
  | spawnFromElf p stack =>
    have hs' : (if x.freshStack cpuLocal stack STACK_SIZE then
      (x.sched cpuLocal (.spawnFromElf p (stackTop stack STACK_SIZE))).map
        fun x => x.newTask p stack fpu none else none) = some x' := hs
    split_ifs at hs' with hf
    obtain ⟨x1, h1, rfl⟩ := Option.map_eq_some_iff.1 hs'
    exact h.addTask (by simp) rfl rfl hf (fun _ hn => by cases hn) (Or.inl hp) h1
  | store a v => exact h.stores hloc hp Point.noConfusion (fun _ => Point.noConfusion) hs
  | enter rip rsp a regs =>
    obtain ⟨hon, rfl⟩ := run_enter hs
    obtain ⟨h1, h2, h3, h4⟩ := enterRing3_spec rip rsp (c := { x.c with reg := regs }) hon rfl
    exact h.enters hloc hsc (h1.trans hk) h3 hon h4 h2
  | forkEnter a rsp regs =>
    obtain ⟨F, harg, ⟨ha, hb, h40, hle⟩, rfl⟩ := run_forkEnter hs
    obtain ⟨h1, h2, h3, h4⟩ := forkChildEntry_spec (c := { x.c with reg := regs }) (f := F) ha hb h40 hle rfl
    exact h.enters hloc hsc (h1.trans hk) (by rw [h3]; exact h.forkFlags harg) ha h4 h2
  | _ => cases hs

/-- what ring-3 code can do -/
theorem Inv.run_user {o : Op} (h : Inv cpuLocal x) (hloc : cpuLocal.toNat + 16 ≤ 2 ^ 64) (hp : x.here = .user)
    (hs : run cpuLocal fpu x o .user = some x') : Inv cpuLocal x' := by
  cases o with
  | user u gs =>
    have hs' : (if userFlags u.rflags ∧ u.rflags &&& RFLAGS_IF = x.c.rflags &&& RFLAGS_IF then
      some { x with c := { x.c with toUser := u, gsBase := gs } } else none) = some x' := hs
    split_ifs at hs' with hu
    cases hs'
    have hl : Local cpuLocal x { x with c := { x.c with toUser := u, gsBase := gs } } :=
      ⟨rfl, fun _ _ => ⟨rfl, rfl, rfl, rfl⟩, rfl, rfl, fun _ _ _ => rfl, fun _ hb => Or.inr hb⟩
    refine ⟨h.toBase.local hloc hl, h.mine, ?_⟩
    have ha := h.active
    unfold Active at ha ⊢
    rw [hp] at ha
    rw [show ({ x with c := { x.c with toUser := u, gsBase := gs } } : Kernel).here = .user from hp]
    exact ⟨ha.1, ha.2.1, hu.1⟩
  | syscall =>
    cases hs
    exact h.enterSyscall hloc hp
  | timer vector =>
    have hs' : (if x.c.rflags &&& RFLAGS_IF ≠ 0 then ((x.interrupt vector).sched cpuLocal .timer).map
      fun x => if x.s.scheduling then x else x.resume cpuLocal else none) = some x' := hs
    split_ifs at hs'
    obtain ⟨x1, h1, rfl⟩ := Option.map_eq_some_iff.1 hs'
    exact h.timer hloc hp h1
  | _ => cases hs

/-- interrupts are off in a system call -/
theorem Inv.no_timer (h : Inv cpuLocal x) (hp : (∃ f, x.here = .handler f) ∨ ∃ f saved, x.here = .blocked f saved)
    {e : Option Kernel} (hs : (if x.c.rflags &&& RFLAGS_IF ≠ 0 then e else none) = some x') : False := by
  have ha := h.active
  unfold Active at ha
  have hif : x.c.rflags &&& RFLAGS_IF = 0 := by
    rcases hp with ⟨f, hp⟩ | ⟨f, saved, hp⟩
    · rw [hp] at ha
      exact ha.2.2.1
    · rw [hp] at ha
      exact ha.2.1
  rw [if_neg (not_not.2 hif)] at hs
  cases hs

/-- what a loop around `yield_blocking` can do -/
theorem Inv.run_blocked {o : Op} {saved : U64} (h : Inv cpuLocal x) (hloc : cpuLocal.toNat + 16 ≤ 2 ^ 64)
    (hsc : x.s.scheduling = false) (hp : x.here = .blocked f saved)
    (hs : run cpuLocal fpu x o (.blocked f saved) = some x') : Inv cpuLocal x' := by
  cases o with
  | readAgain => exact (h.pinKernelGs hloc hp).yields (by simp) rfl rfl (Or.inr ⟨f, saved, hp⟩) hs
  | readDone =>
    have hs' : (if x.s.cont x.s.current = .own then some ((x.setUserRsp cpuLocal saved).moveTo (.handler f)) else none) =
      some x' := hs
    split_ifs at hs'
    cases hs'
    exact h.unblock hloc hsc hp
  | wait4Again =>
    obtain ⟨child, hw, ⟨hd, x1, h1, rfl⟩ | ⟨hd, hs'⟩⟩ := run_wait4Again hs
    · have hn : ¬ (Enters x.s .wait4Again ∨ ∃ code, Event.wait4Again = .exit code) := by
        rintro ((he | ⟨he, -⟩ | ⟨-, c, hc, hnd⟩) | ⟨code, he⟩)
        · cases he
        · cases he
        · rw [hw] at hc
          cases hc
          exact hnd hd
        · cases he
      obtain ⟨h2, g, hsc'⟩ := h.calls (by simp) rfl hn (Or.inr ⟨f, saved, hp⟩) h1
      exact h2.unblock hloc hsc' (g.here.trans hp)
    · exact (h.pinKernelGs hloc hp).yields (by simp) rfl rfl (Or.inr ⟨f, saved, hp⟩) hs'
  | store a v => exact h.stores hloc hp Point.noConfusion (fun _ => Point.noConfusion) hs
  | timer vector => exact (h.no_timer (Or.inr ⟨f, saved, hp⟩) hs).elim
  | _ => cases hs

/-- handler work goes into `schedule` only from a loop -/
theorem isCall_spec {e : Event} {s : Sys} (h : isCall e = true) : e ≠ .switch ∧ e.adds s = none ∧
    ¬ (Enters s e ∨ ∃ code, e = .exit code) := by
  refine ⟨?_, ?_, ?_⟩
  · rintro rfl
    cases h
  · cases e <;> first | rfl | cases h
  · rintro ((rfl | ⟨rfl, -⟩ | ⟨rfl, -⟩) | ⟨code, rfl⟩) <;> cases h

/-- what a handler can do -/
theorem Inv.run_handler {o : Op} (h : Inv cpuLocal x) (hloc : cpuLocal.toNat + 16 ≤ 2 ^ 64) (hsc : x.s.scheduling = false)
    (hp : x.here = .handler f) (hs : run cpuLocal fpu x o (.handler f) = some x') : Inv cpuLocal x' := by
  cases o with
  | sysret regs =>
    obtain ⟨c, hc, rfl⟩ := Option.map_eq_some_iff.1 hs
    exact h.sysret hloc hsc hp hc
  | read =>
    cases hs
    exact h.block hloc hsc hp
  | wait4 pid =>
    obtain ⟨x1, h1, hx⟩ := Option.map_eq_some_iff.1 hs
    have hn : ¬ (Enters x.s (.wait4 pid) ∨ ∃ code, Event.wait4 pid = .exit code) := by
      rintro ((he | ⟨he, -⟩ | ⟨he, -⟩) | ⟨code, he⟩) <;> cases he
    obtain ⟨h2, g, hsc'⟩ := h.calls (by simp) rfl hn (Or.inl ⟨f, hp⟩) h1
    split at hx
    · cases hx
      exact h2.block hloc hsc' (g.here.trans hp)
    · cases hx
      exact h2
  | fork p stack =>
    have hs' : (if x.freshStack cpuLocal stack STACK_SIZE then
      (x.sched cpuLocal (.fork p (stackTop stack STACK_SIZE))).map fun x' =>
        x'.newTask p stack fpu (some (ForkFrame.ofFrame x.c.mem f)) else none) = some x' := hs
    split_ifs at hs' with hf
    obtain ⟨x1, h1, rfl⟩ := Option.map_eq_some_iff.1 hs'
    refine h.addTask (by simp) rfl rfl hf (fun g hg => ?_) (Or.inr ⟨f, hp⟩) h1
    have hm := h.mine
    rw [hp] at hm
    cases hg
    rw [ofFrame_frameWords hm.words]
    exact hm.flags
  | call e =>
    have hs' : (if isCall e then x.sched cpuLocal e else none) = some x' := hs
    split_ifs at hs' with hc
    obtain ⟨h1, h2, h3⟩ := isCall_spec hc
    exact (h.calls h1 h2 h3 (Or.inl ⟨f, hp⟩) hs').1
  | execveCommit highest mmapBase rip rsp a regs =>
    have hs' : (if x.onStack a 5 then (x.sched cpuLocal (.execveCommit highest mmapBase)).map fun x =>
      { x with c := enterRing3 ({ x.c with reg := regs }.exec .swapgs) rip rsp a }.moveTo .user else none) = some x' := hs
    split_ifs at hs' with hon
    obtain ⟨x1, h1, rfl⟩ := Option.map_eq_some_iff.1 hs'
    have hn : ¬ (Enters x.s (.execveCommit highest mmapBase) ∨ ∃ code, Event.execveCommit highest mmapBase = .exit code) := by
      rintro ((he | ⟨he, -⟩ | ⟨he, -⟩) | ⟨code, he⟩) <;> cases he
    obtain ⟨hi1, g, hsc'⟩ := h.calls (by simp) rfl hn (Or.inl ⟨f, hp⟩) h1
    have hon' : x1.onStack a 5 = true := by
      have hb : x1.stackBase = x.stackBase := by rw [g.eq]
      unfold Kernel.onStack at hon ⊢
      rw [g.current, g.top, hb]
      exact hon
    obtain ⟨k1, k2, k3, k4⟩ := enterRing3_spec rip rsp (x := x1) (c := { x1.c with reg := regs }.exec .swapgs)
      hon' rfl
    exact hi1.enters hloc hsc' (k1.trans (hi1.handler_gs (g.here.trans hp))) k3 hon' k4 k2
  | exit code => exact (h.leave hloc hp).yields (by simp) rfl (h.handler_gs hp) (Or.inl moveTo_here) hs
  | store a v => exact h.stores hloc hp Point.noConfusion (fun _ => Point.noConfusion) hs
  | timer vector => exact (h.no_timer (Or.inl ⟨f, hp⟩) hs).elim
  | _ => cases hs

/-- a step outside `schedule` -/
theorem step_run {o : Op} (ho : o ≠ .switch) (hs : x.step cpuLocal fpu o = some x') :
    x.s.scheduling = false ∧ run cpuLocal fpu x o x.here = some x' := by
  have hs' : (if x.s.scheduling then none else run cpuLocal fpu x o x.here) = some x' := by
    cases o <;> first | exact hs | exact absurd rfl ho
  split_ifs at hs' with hsc
  exact ⟨Bool.not_eq_true _ ▸ hsc, hs'⟩

/-- **One step keeps the invariant.** -/
theorem step_inv {o : Op} (h : Inv cpuLocal x) (hloc : cpuLocal.toNat + 16 ≤ 2 ^ 64)
    (hs : x.step cpuLocal fpu o = some x') : Inv cpuLocal x' := by
  by_cases ho : o = .switch
  · subst ho
    exact h.finish hloc hs
  obtain ⟨hsc, hs⟩ := step_run ho hs
  cases hp : x.here with
  | kernel => exact h.run_kernel hloc hsc hp (hp ▸ hs)
  | user => exact h.run_user hloc hp (hp ▸ hs)
  | irq f =>
    have ha := h.active
    unfold Active at ha
    rw [hp] at ha
    rw [hsc] at ha
    exact absurd ha.1 (by decide)
  | handler f => exact h.run_handler hloc hsc hp (hp ▸ hs)
  | blocked f saved => exact h.run_blocked hloc hsc hp (hp ▸ hs)

end Ops

/-! ## Runs -/

section Runs

variable {cpuLocal idleStack : U64} {boot idle : Ptr} {m : Vmm.Machine} {cpu : Sched.Cpu} {c : Core} {fpu : FxImage}
  {x : Kernel}

/-- after `sched::init` and `cpu::init`: boot runs with whatever is in its registers -/
def start (cpuLocal idleStack : U64) (boot idle : Ptr) (m : Vmm.Machine) (cpu : Sched.Cpu) (c : Core) (fpu : FxImage) :
    Kernel where
  s := init boot idle (stackTop idleStack IDLE_STACK_SIZE) m cpu
  c := { c with kernelGsBase := cpuLocal, mem := Function.update c.mem cpuLocal cpu.kernelRsp, seen := [] }
  point := fun _ => .kernel
  stackBase := fun _ => idleStack
  rflags := fun _ => INITIAL_RFLAGS
  fpu := fun _ => fpu
  forkArg := fun _ => none
  issued := fun _ => c.toUser
  interrupted := fun _ => c.toUser

/-- `g_cpu_local` and the stack of the idle task are two blocks of memory -/
def Placed (cpuLocal idleStack : U64) : Prop :=
  cpuLocal.toNat + 16 ≤ 2 ^ 64 ∧ idleStack.toNat + IDLE_STACK_SIZE.toNat < 2 ^ 64 ∧
    (cpuLocal.toNat + 16 ≤ idleStack.toNat ∨ idleStack.toNat + IDLE_STACK_SIZE.toNat ≤ cpuLocal.toNat)

instance (cpuLocal idleStack : U64) : Decidable (Placed cpuLocal idleStack) := inferInstanceAs (Decidable (_ ∧ _))

theorem start_inv (hne : boot ≠ idle) (hpl : Placed cpuLocal idleStack) :
    Inv cpuLocal (start cpuLocal idleStack boot idle m cpu c fpu) := by
  obtain ⟨-, hlt, hcl⟩ := hpl
  obtain ⟨hb1, hb2⟩ := stackTop_bounds hlt
  have hsize : IDLE_STACK_SIZE.toNat = 0x1000 := rfl
  have hboot : (start cpuLocal idleStack boot idle m cpu c fpu).top boot = 0 := by
    show ((init boot idle _ m cpu).tb.task boot).kernelStackTop = 0
    rw [init_boot hne]
    rfl
  have hidle : (start cpuLocal idleStack boot idle m cpu c fpu).top idle = stackTop idleStack IDLE_STACK_SIZE := by
    show ((init boot idle _ m cpu).tb.task idle).kernelStackTop = _
    rw [init_idle]
    rfl
  -- only idle has a stack
  have honly : ∀ {q}, q ∈ (start cpuLocal idleStack boot idle m cpu c fpu).s.tb.live →
      (start cpuLocal idleStack boot idle m cpu c fpu).top q ≠ 0 → q = idle := by
    intro q hq h0
    rcases init_live hq with rfl | rfl
    · rfl
    · exact absurd hboot h0
  refine ⟨⟨⟨_, init_queue hne⟩, ⟨fun {q} hq h0 => ?_, fun {p q} hp hq hpq hp0 hq0 => ?_, fun {q} hq h0 => ?_⟩,
    fun h0 => absurd hboot h0, Function.update_self .., fun b hb => (by cases hb), fun _ _ => trivial,
    fun _ _ => trivial, fun hf => (by cases hf)⟩, trivial, rfl⟩
  · rw [honly hq h0, hidle]
    show idleStack.toNat + 8 * 22 ≤ _
    omega
  · exact absurd ((honly hp hp0).trans (honly hq hq0).symm) hpq
  · rw [honly hq h0, hidle]
    show cpuLocal.toNat + 16 ≤ idleStack.toNat ∨ _
    omega

/-- **Every run.** -/
theorem run_inv_of_start (hne : boot ≠ idle) (hpl : Placed cpuLocal idleStack) {os : List Op}
    (hrun : os.foldlM (Kernel.step cpuLocal fpu) (start cpuLocal idleStack boot idle m cpu c fpu) = some x) :
    Inv cpuLocal x :=
  run_inv (fun _ _ _ h hs => step_inv h hpl.1 hs) (start_inv hne hpl) hrun

/-- **System calls return to the right context.** In every state of every run from boot: every `[gs:]` access of the
entry stub so far has hit `g_cpu_local`; a system call made now has GS_BASE there after its first swapgs; and a SYSRET
made now goes back to the registers the task had when it made the system call. -/
theorem syscall_returns (hne : boot ≠ idle) (hpl : Placed cpuLocal idleStack) (os : List Op)
    (hrun : os.foldlM (Kernel.step cpuLocal fpu) (start cpuLocal idleStack boot idle m cpu c fpu) = some x) :
    (∀ b ∈ x.c.seen, b = cpuLocal) ∧ ∀ o x', x.step cpuLocal fpu o = some x' →
      (o = .syscall → (x.c.syscall.exec .swapgs).gsBase = cpuLocal) ∧
      ∀ regs, o = .sysret regs → Restored (x.issued x.s.current) x'.c := by
  have h := run_inv_of_start hne hpl hrun
  refine ⟨h.seen, fun o x' hs => ⟨?_, ?_⟩⟩
  · rintro rfl
    obtain ⟨-, hs⟩ := step_run Op.noConfusion hs
    have ha := h.active
    unfold Active at ha
    cases hp : x.here with
    | user =>
      rw [hp] at ha
      exact ha.2.1
    | _ =>
      rw [hp] at hs
      cases hs
  · rintro regs rfl
    obtain ⟨-, hs⟩ := step_run Op.noConfusion hs
    cases hp : x.here with
    | handler f =>
      rw [hp] at hs
      obtain ⟨c', hc, rfl⟩ := Option.map_eq_some_iff.1 hs
      exact (h.sysret_spec hp hc).1
    | _ =>
      rw [hp] at hs
      cases hs

end Runs

/-- registers of no interest -/
def someCore : Core where
  reg := fun _ => 0
  rip := 0x400000
  rflags := INITIAL_RFLAGS
  fpu := 0
  gsBase := 0
  kernelGsBase := 0
  mem := fun _ => 0
  seen := []

/-- a task enters ring 3 and reads from an empty keyboard; idle and boot run before it goes on -/
def blockingRead : List Op :=
  [.spawn 3 0x20000, .yield, .switch, .enter 0x400000 0x7FFFF000 0x21000 (fun _ => 7), .syscall, .read, .readAgain, .switch,
   .yield, .switch, .yield, .switch, .readDone]

theorem syscall_returns_read : ∃ x x', blockingRead.foldlM (Kernel.step 0x1000 0)
      (start 0x1000 0x10000 1 2 Vmm.bootMachine ⟨0, 0, 0⟩ someCore 0) = some x ∧
    x.step 0x1000 0 (.sysret fun _ => 9) = some x' ∧ (∀ b ∈ x.c.seen, b = 0x1000) ∧
    Restored (x.issued x.s.current) x'.c := by
  have hrun : ((blockingRead ++ [Op.sysret fun _ => 9]).foldlM (Kernel.step 0x1000 0)
      (start 0x1000 0x10000 1 2 Vmm.bootMachine ⟨0, 0, 0⟩ someCore 0)).isSome = true := by decide +kernel
  obtain ⟨x', hx'⟩ := Option.isSome_iff_exists.1 hrun
  obtain ⟨x, hx, hlast⟩ := run_split hx'
  have hs := of_run_one hlast
  obtain ⟨hseen, hstep⟩ := syscall_returns (by decide) (by decide) blockingRead hx
  exact ⟨x, x', hx, hs, hseen, (hstep _ x' hs).2 _ rfl⟩

end Retux.Ring3
