/-
Tasks and the scheduler (`task/task.cpp`, `task/sched.cpp`, `task/fork.cpp`, and of `task/user.cpp` what execve and
spawn do to a task).

A `Task` lives at the address the heap gave it; `Table` is the set of Task blocks that are allocated now. Following a
pointer to a freed block gives `none`. Loops around the ring run on fuel: one round more than there are tasks, so
running out is a ring that does not close.

`Sys` is the whole machine as the scheduler sees it: the task table, the scheduler's variables, the registers
`schedule` writes, and the memory system with the loaded CR3 (`Sys.m`). `step` takes one event of the running task.
`schedule` is two events, `yield` (or `tick`, or another caller of it) up to the end of `reap_zombie`, and `switch` for
the rest, so that the state between them is a state of the run. `cont` is what the kernel stack of a task holds when it
is not in its own code: the loop of wait4, or execve between loading the new space and giving up the old one.

Ghost: `dead`, the roots handed to `destroy_address_space` and not handed out again since.
-/
import Mathlib.Tactic
import Retux.Mem.Spaces

namespace Retux.Sched

open Retux.Word Retux.Pmm Retux.Vmm

/-! ## Tasks -/

/-- address of a heap block; 0 is null -/
abbrev Ptr := ℕ

inductive State where
  | Ready
  | Running
  | Dead
deriving DecidableEq, Repr

def MAX_FDS : ℕ := 16

/-- `task::Task`, without the saved stack pointer, the FXSAVE area, the entry function and the name -/
structure Task where
  kernelStackTop : U64
  id : ℕ
  state : State
  fsBase : U64
  /-- 0 for a kernel-only task -/
  cr3 : U64
  brkStart : U64
  brkCur : U64
  mmapNext : U64
  parent : Option Ptr
  exitCode : U64
  fds : Fin MAX_FDS → Option Ptr
  next : Ptr

/-- `task::create` -/
def create (id : ℕ) (kernelStackTop cr3 : U64) : Task :=
  { kernelStackTop := kernelStackTop, id := id, state := .Ready, fsBase := 0, cr3 := cr3, brkStart := 0, brkCur := 0,
    mmapNext := 0, parent := none, exitCode := 0, fds := fun _ => none, next := 0 }

/-- the allocated Task blocks -/
structure Table where
  live : List Ptr
  task : Ptr → Task

namespace Table

def get (tb : Table) (p : Ptr) : Option Task := if p ∈ tb.live then some (tb.task p) else none

def set (tb : Table) (p : Ptr) (t : Task) : Table := { tb with task := Function.update tb.task p t }

def add (tb : Table) (p : Ptr) (t : Task) : Table := { live := p :: tb.live, task := Function.update tb.task p t }

/-- `kfree` of the block, with the kernel stack and the FXSAVE area that go with it -/
def free (tb : Table) (p : Ptr) : Table := { tb with live := tb.live.filter (· ≠ p) }

end Table

section Table

variable {tb : Table} {p q : Ptr} {t x : Task}

theorem get_some : tb.get p = some x ↔ p ∈ tb.live ∧ tb.task p = x := by
  unfold Table.get
  split_ifs with h <;> simp [h]

@[simp] theorem set_live : (tb.set p t).live = tb.live := rfl

theorem set_task : (tb.set p t).task q = if q = p then t else tb.task q := Function.update_apply ..

theorem add_self : (tb.add p t).task p = t := Function.update_self ..

end Table

/-! ## The machine -/

/-- `cpu_local.kernel_rsp`, `TSS.RSP0`, `IA32_FS_BASE` -/
structure Cpu where
  kernelRsp : U64
  rsp0 : U64
  fsBase : U64

inductive Cont where
  /-- in its own code, ring 3 or kernel -/
  | own
  /-- in the loop of wait4 -/
  | wait (child : Ptr)
  /-- in execve, on the new address space -/
  | execve (oldCr3 : U64)
deriving DecidableEq

structure Sys where
  tb : Table
  current : Ptr
  idle : Ptr
  boot : Ptr
  zombie : Option Ptr
  ticksLeft : ℕ
  needResched : Bool
  nextId : ℕ
  cpu : Cpu
  m : Machine
  cont : Ptr → Cont
  /-- inside `schedule`, after `reap_zombie` -/
  scheduling : Bool
  dead : List U64

def TIMESLICE_TICKS : ℕ := 20

namespace Sys

def fuel (s : Sys) : ℕ := s.tb.live.length + 1

def createAddressSpace (s : Sys) : Option (U64 × Sys) :=
  (Vmm.createAddressSpace s.m).map fun (cr3, m) => (cr3, { s with m := m, dead := s.dead.filter (· ≠ cr3) })

def destroyAddressSpace (s : Sys) (cr3 : U64) : Sys :=
  { s with m := Vmm.destroyAddressSpace cr3 s.m, dead := cr3 :: s.dead }

/-- `mov cr3` -/
def loadCr3 (s : Sys) (cr3 : U64) : Sys := { s with m := { s.m with cr3 := cr3 } }

def setTask (s : Sys) (p : Ptr) (t : Task) : Sys := { s with tb := s.tb.set p t }

def setCont (s : Sys) (c : Cont) : Sys := { s with cont := Function.update s.cont s.current c }

end Sys

/-! ## The ring -/

/-- the loop of `unlink_from_ring`: the task before t -/
def prevOf (tb : Table) (t : Ptr) : ℕ → Ptr → Option Ptr
  | 0, _ => none
  | fuel + 1, prev => (tb.get prev).bind fun x => if x.next = t then some prev else prevOf tb t fuel x.next

def unlinkFromRing (s : Sys) (t : Ptr) : Option Sys := do
  let prev ← prevOf s.tb t s.fuel s.current
  let x ← s.tb.get t
  let y ← s.tb.get prev
  return s.setTask prev { y with next := x.next }

def freeTask (s : Sys) (t : Ptr) : Option Sys :=
  (s.tb.get t).map fun x =>
    let s := if x.cr3 = 0 then s else s.destroyAddressSpace x.cr3
    { s with tb := s.tb.free t }

def reapZombie (s : Sys) : Option Sys :=
  match s.zombie with
  | none => some s
  | some z =>
    if z = s.current then some s else do
      let s ← unlinkFromRing s z
      let s ← freeTask s z
      return { s with zombie := none }

/-- the loop of `next_ready_after`: `some none` is null -/
def nextReadyAfter (tb : Table) (start : Ptr) : ℕ → Ptr → Option (Option Ptr)
  | 0, _ => none
  | fuel + 1, t =>
    if t = start then some none
    else (tb.get t).bind fun x => if x.state = .Ready then some (some t) else nextReadyAfter tb start fuel x.next

/-- what `schedule` picks -/
def pick (s : Sys) : Option Ptr := do
  let old ← s.tb.get s.current
  let next ← nextReadyAfter s.tb s.current s.fuel old.next
  return next.getD (if old.state = .Running then s.current else s.idle)

/-- `if (old->state == Running) old->state = Ready; next->state = Running; current_ = next; ...` -/
def switchTo (s : Sys) (next : Ptr) : Option Sys := do
  let old ← s.tb.get s.current
  let s := s.setTask s.current { old with state := if old.state = .Running then .Ready else old.state }
  let x ← s.tb.get next
  let s := s.setTask next { x with state := .Running }
  return { s with
    current := next
    cpu :=
      { kernelRsp := if x.kernelStackTop = 0 then s.cpu.kernelRsp else x.kernelStackTop
        rsp0 := if x.kernelStackTop = 0 then s.cpu.rsp0 else x.kernelStackTop
        fsBase := x.fsBase }
    m := if x.cr3 = 0 then s.m else { s.m with cr3 := x.cr3 } }

/-- `schedule` from `reap_zombie` on -/
def finishSchedule (s : Sys) : Option Sys := do
  let next ← pick s
  let s := { s with ticksLeft := TIMESLICE_TICKS, needResched := false, scheduling := false }
  if next = s.current then some s else switchTo s next

/-- `schedule` up to `reap_zombie` -/
def startSchedule (s : Sys) : Option Sys := (reapZombie s).map fun s => { s with scheduling := true }

def schedule (s : Sys) : Option Sys := (startSchedule s).bind finishSchedule

/-- the loop of `find_task`: `some none` is null -/
def findTask (tb : Table) (id : ℕ) (start : Ptr) : ℕ → Ptr → Option (Option Ptr)
  | 0, _ => none
  | fuel + 1, t => (tb.get t).bind fun x =>
    if x.id = id then some (some t) else if x.next = start then some none else findTask tb id start fuel x.next

/-! ## What a running task can do -/

def spawn (s : Sys) (p : Ptr) (kernelStackTop cr3 : U64) : Option Sys :=
  (s.tb.get s.current).map fun c =>
    { s with
      tb := (s.tb.add p { create s.nextId kernelStackTop cr3 with next := c.next }).set s.current { c with next := p }
      nextId := s.nextId + 1
      cont := Function.update s.cont p .own }

def spawnFromElf (s : Sys) (p : Ptr) (kernelStackTop : U64) : Option Sys := do
  let (cr3, s) ← s.createAddressSpace
  spawn s p kernelStackTop cr3

/-- the address space of a forked child -/
def forkSpace (s : Sys) : Option (U64 × Sys) := do
  let parent ← s.tb.get s.current
  let (childCr3, s) ← s.createAddressSpace
  let m ← cloneAddressSpace childCr3 parent.cr3 s.m
  return (childCr3, { s with m := m })

def sysFork (s : Sys) (p : Ptr) (kernelStackTop : U64) : Option Sys := do
  let parent ← s.tb.get s.current
  let (childCr3, s) ← forkSpace s
  let s ← spawn s p kernelStackTop childCr3
  let child ← s.tb.get p
  return s.setTask p { child with
    fds := parent.fds
    brkStart := parent.brkStart
    brkCur := parent.brkCur
    mmapNext := parent.mmapNext
    fsBase := parent.fsBase
    parent := some s.current }

/-- the two `-ENOMEM` exits: the child's space is given back -/
def sysForkFail (s : Sys) : Option Sys := (forkSpace s).map fun (childCr3, s) => s.destroyAddressSpace childCr3

/-- execve up to the load of the new CR3 -/
def execveStart (s : Sys) : Option Sys := do
  let self ← s.tb.get s.current
  let (newCr3, s) ← s.createAddressSpace
  let s := s.setTask s.current { self with cr3 := newCr3 }
  return (s.loadCr3 newCr3).setCont (.execve self.cr3)

/-- `self->brk_start = self->brk_cur = result.highest_addr; self->mmap_next = LINUX_MMAP_BASE` -/
def setImage (t : Task) (highest mmapBase : U64) : Task :=
  { t with brkStart := highest, brkCur := highest, mmapNext := mmapBase }

def withImage (t : Task) : Option (U64 × U64) → Task
  | none => t
  | some (highest, mmapBase) => setImage t highest mmapBase

/-- back to the old space: after a failed load, or (`image`) after the argument block did not fit -/
def execveFail (s : Sys) (image : Option (U64 × U64)) : Option Sys := do
  let .execve oldCr3 := s.cont s.current | none
  let self ← s.tb.get s.current
  let s := s.setTask s.current { withImage self image with cr3 := oldCr3 }
  return ((s.loadCr3 oldCr3).destroyAddressSpace self.cr3).setCont .own

/-- committed: the old space goes -/
def execveCommit (s : Sys) (highest mmapBase : U64) : Option Sys := do
  let .execve oldCr3 := s.cont s.current | none
  let self ← s.tb.get s.current
  let s := s.setTask s.current (setImage self highest mmapBase)
  return (if oldCr3 = 0 then s else s.destroyAddressSpace oldCr3).setCont .own

def exitCurrent (s : Sys) (exitCode : U64) : Option Sys := do
  let c ← s.tb.get s.current
  let s := s.setTask s.current { c with exitCode := exitCode, state := .Dead }
  startSchedule { s with zombie := if c.parent = none then some s.current else s.zombie }

/-- wait4 up to its loop; the caller goes on at once if pid is not its child -/
def wait4Start (s : Sys) (pid : ℕ) : Option Sys := do
  let child ← findTask s.tb pid s.current s.fuel s.current
  match child with
  | none => some s
  | some child =>
    let x ← s.tb.get child
    if x.parent = some s.current then some (s.setCont (.wait child)) else some s

/-- one round of the loop of wait4: collect the child, or yield -/
def wait4Again (s : Sys) : Option Sys := do
  let .wait child := s.cont s.current | none
  let x ← s.tb.get child
  if x.state = .Dead then do
    let s ← unlinkFromRing s child
    let s ← freeTask s child
    return s.setCont .own
  else startSchedule s

/-- the timer: `tick`, then `maybe_reschedule` -/
def tick (s : Sys) : Sys :=
  if s.ticksLeft = 0 then s
  else { s with ticksLeft := s.ticksLeft - 1, needResched := s.needResched || s.ticksLeft == 1 }

def timer (s : Sys) : Option Sys :=
  let s := tick s
  if s.needResched then startSchedule s else some s

def archSetFs (s : Sys) (addr : U64) : Option Sys :=
  (s.tb.get s.current).map fun c =>
    { s.setTask s.current { c with fsBase := addr } with cpu := { s.cpu with fsBase := addr } }

/-- a task's edits of its own private pages: what the ELF loader, brk, mmap, munmap, mprotect and stores do -/
inductive Edit where
  | map (v fl : U64)
  | write (v : U64) (g : Idx → U64)
  | protect (v fl : U64)
  | unmap (v : U64)

def Edit.apply (m : Machine) : Edit → Option Machine
  | .map v fl => if isPrivate v = true ∧ LeafFlags fl then (mapFresh m v fl).map Prod.snd else none
  | .write v g => if isPrivate v = true then (translate m.mem (getPml4 m) v).map fun x => m.fill (frameOf x.1) g else none
  | .protect v fl => if isPrivate v = true ∧ LeafFlags fl then Vmm.protect m v fl else none
  | .unmap v => if isPrivate v = true then unmapAndFree m v else none

/-! ## Steps -/

inductive Event where
  | spawn (p : Ptr) (kernelStackTop : U64)
  | spawnFromElf (p : Ptr) (kernelStackTop : U64)
  | fork (p : Ptr) (kernelStackTop : U64)
  | forkFail
  | execve
  | execveFail (image : Option (U64 × U64))
  | execveCommit (highest mmapBase : U64)
  | exit (exitCode : U64)
  | wait4 (pid : ℕ)
  | wait4Again
  | yield
  | timer
  | switch
  | archSetFs (addr : U64)
  | setLayout (brkStart brkCur mmapNext : U64)
  | edit (e : Edit)

/-- system calls come from Linux tasks; boot and idle never exit; a new Task block is one the heap has free -/
def Event.allowed (s : Sys) (self : Task) : Event → Bool
  | .spawn p _ => p ≠ 0 ∧ p ∉ s.tb.live
  | .spawnFromElf p _ => p ≠ 0 ∧ p ∉ s.tb.live
  | .fork p _ => self.cr3 ≠ 0 ∧ p ≠ 0 ∧ p ∉ s.tb.live
  | .exit _ => s.current ≠ s.idle ∧ s.current ≠ s.boot
  | .yield | .timer | .switch => true
  | _ => self.cr3 ≠ 0

/-- where the running task has to be -/
def Event.atCont (c : Cont) (scheduling : Bool) : Event → Bool
  | .switch => scheduling
  | .wait4Again => !scheduling && (match c with | .wait _ => true | _ => false)
  | .execveFail _ | .execveCommit _ _ => !scheduling && (match c with | .execve _ => true | _ => false)
  | .edit _ => !scheduling && (match c with | .wait _ => false | _ => true)
  | _ => !scheduling && c == .own

def run (s : Sys) (self : Task) : Event → Option Sys
  | .spawn p top => Sched.spawn s p top 0
  | .spawnFromElf p top => Sched.spawnFromElf s p top
  | .fork p top => sysFork s p top
  | .forkFail => sysForkFail s
  | .execve => execveStart s
  | .execveFail image => Sched.execveFail s image
  | .execveCommit highest mmapBase => Sched.execveCommit s highest mmapBase
  | .exit code => exitCurrent s code
  | .wait4 pid => wait4Start s pid
  | .wait4Again => Sched.wait4Again s
  | .yield => startSchedule s
  | .timer => Sched.timer s
  | .switch => finishSchedule s
  | .archSetFs addr => Sched.archSetFs s addr
  | .setLayout b c n => some (s.setTask s.current { self with brkStart := b, brkCur := c, mmapNext := n })
  | .edit e => (e.apply s.m).map fun m => { s with m := m }

/-- **One event of the running task.** -/
def step (s : Sys) (e : Event) : Option Sys :=
  (s.tb.get s.current).bind fun self =>
    if e.allowed s self && e.atCont (s.cont s.current) s.scheduling then run s self e else none

/-- `sched::init`: boot runs, idle is ready, and the kernel's own tables are loaded -/
def init (boot idle : Ptr) (idleStackTop : U64) (m : Machine) (cpu : Cpu) : Sys :=
  { tb := (⟨[], fun _ => create 0 0 0⟩ : Table).add boot { create 0 0 0 with state := .Running, next := idle }
      |>.add idle { create 1 idleStackTop 0 with next := boot }
    current := boot
    idle := idle
    boot := boot
    zombie := none
    ticksLeft := TIMESLICE_TICKS
    needResched := false
    nextId := 2
    cpu := cpu
    m := m
    cont := fun _ => .own
    scheduling := false
    dead := [] }

end Retux.Sched
