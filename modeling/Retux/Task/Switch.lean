/-
Context switches (`task/switch.asm`, `task::create`), with any number of tasks.

`switch_to` is a list of instructions in the order of the source, run on the memory that holds all stacks and FXSAVE
areas. A task's own memory is its stack, its FXSAVE area and the field `rsp` of its Task (`Layout`). Between two switches
the running task does what it likes (`run`), to all registers and to any memory it is not kept from by `Fair`.

- `Held`: what lies in the memory of a task that is switched out; `plant_held` for a new one, `switchTo_spec` for one
  that calls `switch_to`, and for what the call gives to the task it switches to;
- `context_preserved`: over any run in which the task is left alone, it comes back as it went, or as it was planted.

FXSAVE images are 512 bytes, as 64 words. A task's flags are `Ordinary` when it calls: RF, VM, VIF and VIP are never set
in 64-bit kernel code.
-/
import Mathlib.Tactic
import Retux.Lib.Stack
import Retux.Lib.Run
import Retux.Cpu.Stubs

namespace Retux.Switch

open Retux.Word Retux.Stack Retux.Cpu Retux.Run

/-! ## Instructions -/

/-- the flags POPFQ loads at CPL 0; RF is cleared, the others stay -/
def POPFQ_FLAGS : U64 := 0x247FD5
def RFLAGS_RF : U64 := 0x10000
/-- PUSHFQ clears RF and VM in what it pushes -/
def PUSHFQ_FLAGS : U64 := 0xFCFFFF

def fxWords (f : FxImage) : List U64 := wordsOf f.toNat 64

def fxImage (m : Mem) (a : U64) : FxImage := BitVec.ofNat 4096 (ofWords (readWords m a 64))

inductive Op where
  | plain (i : Instr)
  | fxsave (r : Reg)
  | fxrstor (r : Reg)
  | pushfq
  | popfq
  /-- `mov [b], s` -/
  | store (b s : Reg)
  | ret

def exec (c : Core) : Op → Core
  | .plain i => c.exec i
  | .fxsave r => { c with mem := put c.mem (c.reg r) (fxWords c.fpu) }
  | .fxrstor r => { c with fpu := fxImage c.mem (c.reg r) }
  | .pushfq => c.pushWord (c.rflags &&& PUSHFQ_FLAGS)
  | .popfq =>
    { c.set .rsp (c.reg .rsp + 8#64) with
      rflags := (c.mem (c.reg .rsp) &&& POPFQ_FLAGS) ||| (c.rflags &&& ~~~(POPFQ_FLAGS ||| RFLAGS_RF)) }
  | .store b s => { c with mem := Function.update c.mem (c.reg b) (c.reg s) }
  | .ret => { c.set .rsp (c.reg .rsp + 8#64) with rip := c.mem (c.reg .rsp) }

def execAll (c : Core) (l : List Op) : Core := l.foldl exec c

def SWITCH_TO : List Op :=
  [.fxsave .rdx,
   .pushfq, .plain (.push .rbp), .plain (.push .rbx), .plain (.push .r12), .plain (.push .r13), .plain (.push .r14),
   .plain (.push .r15),
   .store .rdi .rsp, .plain (.mov .rsp .rsi),
   .plain (.pop .r15), .plain (.pop .r14), .plain (.pop .r13), .plain (.pop .r12), .plain (.pop .rbx),
   .plain (.pop .rbp), .popfq,
   .fxrstor .rcx,
   .ret]

/-! ## Tasks -/

/-- where a task's memory is: &t->rsp, and what kmalloc gave -/
structure Layout where
  rspAt : U64
  stack : U64
  stackSize : U64
  fpuRaw : U64

namespace Layout

def stackTop (l : Layout) : U64 := (l.stack + l.stackSize) &&& ~~~0xF
def fpuState (l : Layout) : U64 := (l.fpuRaw + 15) &&& ~~~15

def OnStack (l : Layout) (a : U64) : Prop := l.stack.toNat ≤ a.toNat ∧ a.toNat < l.stack.toNat + l.stackSize.toNat

/-- a is in the task's own memory -/
def Owns (l : Layout) (a : U64) : Prop := l.OnStack a ∨ Within a l.fpuState 64 ∨ a = l.rspAt

/-- blocks that do not wrap or overlap, and a stack that a frame fits on -/
structure Ok (l : Layout) : Prop where
  stack : l.stack.toNat + l.stackSize.toNat < 2 ^ 64
  fpu : l.fpuRaw.toNat + 527 < 2 ^ 64
  size : 96 ≤ l.stackSize.toNat
  area : ∀ a, l.OnStack a → ¬ Within a l.fpuState 64
  slot : ¬ l.OnStack l.rspAt ∧ ¬ Within l.rspAt l.fpuState 64

end Layout

/-- the frame `task::create` plants, low to high -/
structure InitialFrame where
  r15 : U64
  r14 : U64
  r13 : U64
  r12 : U64
  rbx : U64
  rbp : U64
  rflags : U64
  returnAddr : U64

def InitialFrame.words (f : InitialFrame) : List U64 :=
  [f.r15, f.r14, f.r13, f.r12, f.rbx, f.rbp, f.rflags, f.returnAddr]

/-- what the kernel image fixes -/
structure Image where
  taskTrampoline : U64
  defaultState : FxImage

section Model

variable {ι : Type} [DecidableEq ι] (k : Image) (L : ι → Layout)

/-- what `task::create` writes into the new task's memory -/
def plant (m : Mem) (l : Layout) : Mem :=
  let m := put m l.fpuState (fxWords k.defaultState)
  let frameAddr := l.stackTop - 64#64 - 8#64
  let frame : InitialFrame := ⟨0, 0, 0, 0, 0, 0, 0x202, k.taskTrampoline⟩
  Function.update (put m frameAddr frame.words) l.rspAt frameAddr

/-- `switch_to(&old->rsp, next->rsp, old->fpu_state, next->fpu_state)`, called with the return address ret -/
def switchTo (c : Core) (old next : Layout) (ret : U64) : Core :=
  let c := (((c.set .rdi old.rspAt).set .rsi (c.mem next.rspAt)).set .rdx old.fpuState).set .rcx next.fpuState
  execAll (c.pushWord ret) SWITCH_TO

structure State (ι : Type) where
  core : Core
  current : ι

inductive Event (ι : Type) where
  /-- the running task computes, and leaves the CPU like this -/
  | run (c : Core)
  | create (t : ι)
  | switch (next : ι) (ret : U64)

/-- `schedule` calls `switch_to` for another task only -/
def step (s : State ι) : Event ι → Option (State ι)
  | .run c => some { s with core := c }
  | .create t => some { s with core := { s.core with mem := plant k s.core.mem (L t) } }
  | .switch next ret => if next = s.current then none else some ⟨switchTo s.core (L s.current) (L next) ret, next⟩

/-! ## What should be preserved -/

def CALLEE : List Reg := [.r15, .r14, .r13, .r12, .rbx, .rbp]

structure Context where
  callee : List U64
  rflags : U64
  rip : U64
  rsp : U64
  fpu : FxImage

/-- what a task that goes on at rip sees -/
def context (c : Core) (rip : U64) : Context := ⟨CALLEE.map c.reg, c.rflags, rip, c.reg .rsp, c.fpu⟩

/-- as if `task_trampoline` had just been called -/
def Image.first (l : Layout) : Context := ⟨List.replicate 6 0, 0x202, k.taskTrampoline, l.stackTop - 8#64, k.defaultState⟩

/-- e switches t out, or makes it: the context t should come back with -/
inductive Leaves (s : State ι) (t : ι) : Event ι → Context → Prop
  | switch {next : ι} {ret : U64} : s.current = t → Leaves s t (.switch next ret) (context s.core ret)
  | create : Leaves s t (.create t) (k.first (L t))

def Ordinary (rflags : U64) : Prop := rflags &&& ~~~POPFQ_FLAGS = 2

/-- room for the call and the frame -/
def Room (l : Layout) (rsp : U64) : Prop :=
  l.stack.toNat + 64 ≤ rsp.toNat ∧ rsp.toNat ≤ l.stack.toNat + l.stackSize.toNat

/-- only t writes to t's memory: the others keep off it, and call on their own stacks -/
def Fair (t : ι) (s : State ι) : Event ι → Prop
  | .run c => s.current ≠ t → ∀ a, (L t).Owns a → c.mem a = s.core.mem a
  | .create u => u ≠ s.current
  | .switch _ _ => Room (L s.current) (s.core.reg .rsp) ∧ Ordinary s.core.rflags

/-- e is about other tasks -/
def Event.Other (t : ι) : Event ι → Prop
  | .run _ => True
  | .create u => u ≠ t
  | .switch next _ => next ≠ t

end Model

/-! ## Flags and images -/

section Flags

variable {f old : U64} {m : Mem} {a : U64} {x : FxImage}

theorem Ordinary.split (h : Ordinary f) : (f &&& POPFQ_FLAGS) ||| 2 = f := by
  rw [← h, ← BitVec.and_or_distrib_left, BitVec.or_not_self, BitVec.and_allOnes]

/-- PUSHFQ pushes the flags as they are -/
theorem Ordinary.pushfq (h : Ordinary f) : f &&& PUSHFQ_FLAGS = f := by
  have hmask : POPFQ_FLAGS &&& PUSHFQ_FLAGS = POPFQ_FLAGS ∧ (2 : U64) &&& PUSHFQ_FLAGS = 2 := by decide
  conv_lhs => rw [← h.split, BitVec.and_or_distrib_right, BitVec.and_assoc, hmask.1, hmask.2]
  exact h.split

/-- POPFQ restores them -/
theorem Ordinary.popfq (h : Ordinary f) (hold : Ordinary old) :
    (f &&& POPFQ_FLAGS) ||| (old &&& ~~~(POPFQ_FLAGS ||| RFLAGS_RF)) = f := by
  have hmask : (2 : U64) &&& ~~~RFLAGS_RF = 2 := by decide
  rw [BitVec.not_or, ← BitVec.and_assoc, hold, hmask, h.split]

/-- FXRSTOR loads what FXSAVE stored -/
theorem fxImage_fxWords (h : Words m a (fxWords x)) : fxImage m a = x := by
  have hread := h.read
  have hlen : (fxWords x).length = 64 := wordsOf_length
  rw [hlen] at hread
  rw [fxImage, hread, fxWords, ofNat_ofWords x rfl]

end Flags

/-! ## Layouts -/

section Layout

variable {l l' : Layout} {a : U64}

theorem Layout.Ok.top (h : l.Ok) : l.stack.toNat + 81 ≤ l.stackTop.toNat ∧
    l.stackTop.toNat ≤ l.stack.toNat + l.stackSize.toNat ∧ l.stackTop.toNat % 16 = 0 := by
  have hsum : (l.stack + l.stackSize).toNat = l.stack.toNat + l.stackSize.toNat := by
    rw [BitVec.toNat_add, Nat.mod_eq_of_lt h.stack]
  have htop : l.stackTop.toNat = (l.stack.toNat + l.stackSize.toNat) / 16 * 16 := by
    rw [← hsum]
    exact and_not_low _ 4
  have hsize := h.size
  omega

theorem Layout.Ok.area_fits (h : l.Ok) : l.fpuState.toNat + 8 * 64 ≤ 2 ^ 64 := by
  have hfpu := h.fpu
  have hsum : (l.fpuRaw + 15).toNat = l.fpuRaw.toNat + 15 := by
    rw [BitVec.toNat_add, show (15 : U64).toNat = 15 from rfl]
    omega
  have hdown : l.fpuState.toNat = (l.fpuRaw.toNat + 15) / 16 * 16 := by
    rw [← hsum]
    exact and_not_low _ 4
  omega

theorem Room.frame {rsp : U64} (h : Room l rsp) : (rsp - 64#64).toNat = rsp.toNat - 64 := by
  have hroom := h.1
  exact sub_words (n := 8) (by omega)

/-- the eight words below rsp are on the stack -/
theorem Room.onStack {rsp : U64} (h : Room l rsp) (ha : Within a (rsp - 64#64) 8) : l.OnStack a := by
  have hroom := h.2
  have hlow := h.1
  unfold Within at ha
  rw [h.frame] at ha
  exact ⟨by omega, by omega⟩

end Layout

/-! ## A task that is switched out -/

/-- ctx lies in the memory of the task -/
structure Held (l : Layout) (x : Context) (m : Mem) : Prop where
  slot : m l.rspAt = x.rsp - 64#64
  frame : Words m (x.rsp - 64#64) (x.callee ++ [x.rflags, x.rip])
  fpu : Words m l.fpuState (fxWords x.fpu)
  room : Room l x.rsp
  flags : Ordinary x.rflags
  callee : x.callee.length = 6

section Held

variable {l l' : Layout} {x : Context} {m m' : Mem} {c : Core} {k : Image} {ret : U64}

theorem fxWords_length {f : FxImage} : (fxWords f).length = 64 := wordsOf_length

/-- writes to other memory -/
theorem Held.congr (h : Held l x m) (hl : l.Ok) (hm : ∀ a, l.Owns a → m' a = m a) : Held l x m' := by
  have hlt := x.rsp.isLt
  have hroom := h.room.1
  have hlen : (x.callee ++ [x.rflags, x.rip]).length = 8 := by rw [List.length_append, h.callee]; rfl
  refine ⟨(hm _ (Or.inr (Or.inr rfl))).trans h.slot, h.frame.congr ?_ fun a ha => ?_, h.fpu.congr ?_ fun a ha => ?_,
    h.room, h.flags, h.callee⟩
  · rw [hlen, h.room.frame]
    omega
  · rw [hlen] at ha
    exact hm a (Or.inl (h.room.onStack ha))
  · rw [fxWords_length]
    exact hl.area_fits
  · rw [fxWords_length] at ha
    exact hm a (Or.inr (Or.inl ha))

/-- where `task::create` puts the frame -/
theorem Layout.Ok.first (hl : l.Ok) : Room l (k.first l).rsp ∧ (k.first l).rsp.toNat = l.stackTop.toNat - 8 ∧
    l.stackTop - 64#64 - 8#64 = (k.first l).rsp - 64#64 := by
  obtain ⟨hlow, hhigh, -⟩ := hl.top
  have hrsp : (k.first l).rsp.toNat = l.stackTop.toNat - 8 := sub_words (n := 1) (by omega)
  refine ⟨⟨by omega, by omega⟩, hrsp, ?_⟩
  show l.stackTop - 64#64 - 8#64 = l.stackTop - 8#64 - 64#64
  rw [BitVec.sub_sub, BitVec.sub_sub, BitVec.add_comm]

theorem first_spec (hl : l.Ok) : (k.first l).rflags.getLsbD 9 = true ∧ (k.first l).rsp.toNat % 16 = 8 := by
  obtain ⟨hlow, -, halign⟩ := hl.top
  have hrsp := (hl.first (k := k)).2.1
  refine ⟨?_, by omega⟩
  show (0x202 : U64).getLsbD 9 = true
  decide

/-- **A new task** holds the context of a call to `task_trampoline`. -/
theorem plant_held (hl : l.Ok) : Held l (k.first l) (plant k m l) := by
  obtain ⟨hroom, -, haddr⟩ := hl.first (k := k)
  have hwrap : ((k.first l).rsp - 64#64).toNat + 8 * 8 ≤ 2 ^ 64 := by
    have hlt := (k.first l).rsp.isLt
    have hlow := hroom.1
    rw [hroom.frame]
    omega
  have harea := hl.area_fits
  have hflags : Ordinary (k.first l).rflags := by
    show Ordinary 0x202
    unfold Ordinary
    decide
  unfold plant
  dsimp only
  rw [haddr]
  refine ⟨Function.update_self .., ?_, ?_, hroom, hflags, rfl⟩
  · refine Words.congr (put_words (put m l.fpuState (fxWords k.defaultState)) hwrap) hwrap fun a ha => ?_
    have hne : a ≠ l.rspAt := fun hs => hl.slot.1 (hs ▸ hroom.onStack ha)
    exact Function.update_of_ne hne _ _
  · have hput : Words (put m l.fpuState (fxWords k.defaultState)) l.fpuState (fxWords k.defaultState) :=
      put_words m (by rw [fxWords_length]; exact harea)
    refine hput.congr (by rw [fxWords_length]; exact harea) fun a ha => ?_
    rw [fxWords_length] at ha
    have hne : a ≠ l.rspAt := fun hs => hl.slot.2 (hs ▸ ha)
    refine (Function.update_of_ne hne _ _).trans ?_
    exact put_mem _ hwrap fun hs => hl.area a (hroom.onStack hs) ha

theorem plant_mem (hl : l.Ok) {a : U64} (ha : ¬ l.Owns a) : plant k m l a = m a := by
  obtain ⟨hroom, -, haddr⟩ := hl.first (k := k)
  obtain ⟨hstack, harea, hslot⟩ : ¬ l.OnStack a ∧ ¬ Within a l.fpuState 64 ∧ a ≠ l.rspAt := by
    simpa only [Layout.Owns, not_or] using ha
  have hwrap : ((k.first l).rsp - 64#64).toNat + 8 * 8 ≤ 2 ^ 64 := by
    have hlt := (k.first l).rsp.isLt
    have hlow := hroom.1
    rw [hroom.frame]
    omega
  unfold plant
  rw [haddr, Function.update_of_ne hslot]
  refine (put_mem _ hwrap fun hs => hstack (hroom.onStack hs)).trans ?_
  exact put_mem _ (by rw [fxWords_length]; exact hl.area_fits) (by rwa [fxWords_length])

end Held

/-! ## The switch -/

section Switch

variable {l l' : Layout} {x : Context} {c c' : Core} {rs : List Reg} {ret : U64}

theorem execAll_append (c : Core) (l l' : List Op) : execAll c (l ++ l') = execAll (execAll c l) l' :=
  List.foldl_append ..

theorem execAll_plain (c : Core) (is : List Instr) : execAll c (is.map .plain) = c.execAll is := by
  induction is generalizing c with
  | nil => rfl
  | cons i is ih => exact ih (c.exec i)

theorem pushWord_rsp_eq (c : Core) (v : U64) : (c.pushWord v).reg .rsp = c.reg .rsp - 8#64 := by
  simp only [Core.pushWord, Core.set, Function.update_self]

theorem pushWord_reg (c : Core) (v : U64) {r : Reg} (hr : r ≠ .rsp) : (c.pushWord v).reg r = c.reg r := by
  simp only [Core.pushWord, Core.set, Function.update_of_ne hr]

theorem pop_rsp {r : Reg} (hr : r ≠ .rsp) : (c.exec (.pop r)).reg .rsp = c.reg .rsp + 8#64 := by
  simp only [Core.exec, Core.set, Function.update_of_ne hr.symm, Function.update_self]

theorem execAll_pops_rsp (hr : Reg.rsp ∉ rs) :
    (c.execAll (rs.map .pop)).reg .rsp = c.reg .rsp + BitVec.ofNat 64 (8 * rs.length) := by
  induction rs generalizing c with
  | nil => exact (BitVec.add_zero _).symm
  | cons r rs ih =>
    have hrr : r ≠ .rsp := fun he => hr (he ▸ List.mem_cons_self ..)
    calc ((c.exec (.pop r)).execAll (rs.map .pop)).reg .rsp
        = c.reg .rsp + 8#64 + BitVec.ofNat 64 (8 * rs.length) := by
          rw [ih fun hm => hr (List.mem_cons_of_mem _ hm), pop_rsp hrr]
      _ = c.reg .rsp + BitVec.ofNat 64 (8 * (r :: rs).length) := by
          rw [BitVec.add_assoc, List.length_cons, Nat.mul_succ, Nat.add_comm, BitVec.ofNat_add]

/-- the registers in the order they are pushed -/
def PUSHED : List Reg := [.rbp, .rbx, .r12, .r13, .r14, .r15]

def SAVE : List Op := ([.fxsave .rdx, .pushfq] : List Op) ++ (PUSHED.map Instr.push).map .plain

def LOAD : List Op := (CALLEE.map Instr.pop).map .plain ++ ([.popfq, .fxrstor .rcx, .ret] : List Op)

/-- after the pushes of the outgoing task, called at c -/
structure Saved (l : Layout) (c : Core) (ret : U64) (c' : Core) : Prop where
  frame : Words c'.mem (c.reg .rsp - 64#64) (CALLEE.map c.reg ++ [c.rflags, ret])
  fpu : Words c'.mem l.fpuState (fxWords c.fpu)
  rsp : c'.reg .rsp = c.reg .rsp - 64#64
  regs : ∀ r, r ≠ .rsp → c'.reg r = c.reg r
  rest : c'.rflags = c.rflags
  mem : ∀ a, ¬ l.Owns a → c'.mem a = c.mem a

theorem save_spec (hl : l.Ok) (hroom : Room l (c.reg .rsp)) (hflags : Ordinary c.rflags)
    (hrdx : c.reg .rdx = l.fpuState) : Saved l c ret (execAll (c.pushWord ret) SAVE) := by
  have hlow := hroom.1
  have hlt := (c.reg .rsp).isLt
  have harea := hl.area_fits
  -- the call, then FXSAVE
  obtain ⟨c1, hc1⟩ : ∃ c1, exec (c.pushWord ret) (.fxsave .rdx) = c1 := ⟨_, rfl⟩
  have hmem1 : c1.mem = put (Function.update c.mem (c.reg .rsp - 8#64) ret) l.fpuState (fxWords c.fpu) := by
    rw [← hrdx, ← hc1]
    rfl
  have hrsp1 : c1.reg .rsp = c.reg .rsp - 8#64 := by
    rw [← hc1]
    exact pushWord_rsp_eq c ret
  have hreg1 {r : Reg} (hr : r ≠ .rsp) : c1.reg r = c.reg r := by
    rw [← hc1]
    exact pushWord_reg c ret hr
  have hrest1 : c1.rflags = c.rflags := by rw [← hc1]; rfl
  have hnat1 : (c1.reg .rsp).toNat = (c.reg .rsp).toNat - 8 := by
    rw [hrsp1]
    exact sub_words (n := 1) (by omega)
  have hret : Words c1.mem (c1.reg .rsp) [ret] := by
    refine ⟨?_, trivial⟩
    have hon : l.OnStack (c.reg .rsp - 8#64) := by
      rw [← hrsp1]
      exact ⟨by omega, by have := hroom.2; omega⟩
    rw [hmem1, hrsp1, put_mem _ (by rw [fxWords_length]; exact harea)
      (by rw [fxWords_length]; exact hl.area _ hon), Function.update_self]
  -- PUSHFQ and the pushes
  have hpush : execAll (c.pushWord ret) SAVE = c1.pushAll (c.rflags :: PUSHED.map c.reg) := by
    have hregs : PUSHED.map (c1.pushWord c.rflags).reg = PUSHED.map c.reg := by
      have hne : ∀ r ∈ PUSHED, r ≠ .rsp := by decide
      refine List.map_congr_left fun r hr => ?_
      exact (pushWord_reg c1 _ (hne r hr)).trans (hreg1 (hne r hr))
    have hhead : execAll (c.pushWord ret) [.fxsave .rdx, .pushfq] = c1.pushWord c.rflags := by
      rw [← hflags.pushfq, ← hrest1, ← hc1]
      rfl
    rw [SAVE, execAll_append, execAll_plain, hhead, execAll_pushes (by decide), hregs]
    exact (List.foldl_cons ..).symm
  have hlen : (c.rflags :: PUSHED.map c.reg).length = 7 := rfl
  have hrev : (c.rflags :: PUSHED.map c.reg).reverse ++ [ret] = CALLEE.map c.reg ++ [c.rflags, ret] := rfl
  rw [hpush]
  generalize c.rflags :: PUSHED.map c.reg = vs at hlen hrev
  have hle : 8 * vs.length ≤ (c1.reg .rsp).toNat := by
    rw [hlen]
    omega
  have hrsp : (c1.pushAll vs).reg .rsp = c.reg .rsp - 64#64 := by
    rw [pushAll_rsp, hrsp1, hlen, BitVec.sub_sub]
    rfl
  have hwords := pushAll_words hret hle (by rw [List.length_singleton]; omega)
  rw [hrev, hrsp] at hwords
  have hsub : c1.reg .rsp - BitVec.ofNat 64 (8 * vs.length) = c.reg .rsp - 64#64 := by
    rw [← hrsp, pushAll_rsp]
  have hbelow {a : U64} (ha : Within a (c.reg .rsp - 64#64) 7) : l.OnStack a :=
    hroom.onStack ⟨ha.1, lt_trans ha.2 (by omega)⟩
  obtain ⟨m, hrest⟩ := pushAll_rest c1 vs
  refine ⟨hwords, ?_, hrsp, fun r hr => ?_, ?_, fun a ha => ?_⟩
  · have hput : Words c1.mem l.fpuState (fxWords c.fpu) := by
      rw [hmem1]
      exact put_words _ (by rw [fxWords_length]; exact harea)
    refine hput.congr (by rw [fxWords_length]; exact harea) fun a ha => ?_
    rw [fxWords_length] at ha
    refine pushAll_mem hle ?_
    rw [hsub, hlen]
    exact fun hw => hl.area a (hbelow hw) ha
  · exact (pushAll_reg c1 vs hr).trans (hreg1 hr)
  · rw [hrest]
    exact hrest1
  · obtain ⟨hstack, hfar, -⟩ : ¬ l.OnStack a ∧ ¬ Within a l.fpuState 64 ∧ a ≠ l.rspAt := by
      simpa only [Layout.Owns, not_or] using ha
    have hne : a ≠ c.reg .rsp - 8#64 := fun h8 => hstack (by
      rw [h8, ← hrsp1]
      exact ⟨by omega, by have := hroom.2; omega⟩)
    rw [pushAll_mem hle (by rw [hsub, hlen]; exact fun hw => hstack (hbelow hw)), hmem1,
      put_mem _ (by rw [fxWords_length]; exact harea) (by rwa [fxWords_length]), Function.update_of_ne hne]

/-- the pops of the incoming task -/
theorem load_spec (h : Held l x c.mem) (hrsp : c.reg .rsp = x.rsp - 64#64) (hrcx : c.reg .rcx = l.fpuState)
    (hflags : Ordinary c.rflags) :
    context (execAll c LOAD) (execAll c LOAD).rip = x ∧ (execAll c LOAD).mem = c.mem := by
  have hframe := h.frame
  rw [← hrsp] at hframe
  have p := execAll_pops (show CALLEE.Nodup by decide) (by decide) h.callee.symm hframe
  have hrsp2 : (c.execAll (CALLEE.map .pop)).reg .rsp = c.reg .rsp + 48#64 := execAll_pops_rsp (by decide)
  rw [LOAD, execAll_append, execAll_plain]
  generalize c.execAll (CALLEE.map .pop) = c2 at p hrsp2
  have hmem : c2.mem = c.mem := by rw [p.same]
  have hfl : c2.rflags = c.rflags := by rw [p.same]
  have hrcx2 : c2.reg .rcx = l.fpuState := (p.others .rcx (by decide) (by decide)).trans hrcx
  obtain ⟨hflagsAt, hripAt, -⟩ := p.words
  set c3 := execAll c2 [.popfq, .fxrstor .rcx, .ret] with hc3
  have hcallee : CALLEE.map c3.reg = x.callee := by
    rw [← p.vals]
    have hne : ∀ r ∈ CALLEE, r ≠ .rsp := by decide
    refine List.map_congr_left fun r hr => ?_
    exact (Function.update_of_ne (hne r hr) _ _).trans (Function.update_of_ne (hne r hr) _ _)
  have hrflags : c3.rflags = x.rflags := by
    show (c2.mem (c2.reg .rsp) &&& POPFQ_FLAGS) ||| (c2.rflags &&& ~~~(POPFQ_FLAGS ||| RFLAGS_RF)) = x.rflags
    rw [hflagsAt, hfl, h.flags.popfq hflags]
  have hrsp3 : c3.reg .rsp = x.rsp := by
    show c2.reg .rsp + 8#64 + 8#64 = x.rsp
    rw [hrsp2, hrsp, BitVec.add_assoc, BitVec.add_assoc]
    exact BitVec.sub_add_cancel ..
  have hfpu : c3.fpu = x.fpu := by
    show fxImage c2.mem (c2.reg .rcx) = x.fpu
    rw [hmem, hrcx2, fxImage_fxWords h.fpu]
  have hrip : c3.rip = x.rip := hripAt
  refine ⟨?_, hmem⟩
  rw [context, hcallee, hrflags, hrip, hrsp3, hfpu]

/-- the registers at the call -/
def args (c : Core) (old next : Layout) : Core :=
  (((c.set .rdi old.rspAt).set .rsi (c.mem next.rspAt)).set .rdx old.fpuState).set .rcx next.fpuState

theorem args_reg {r : Reg} (h : r ∈ Reg.rsp :: CALLEE) : (args c l l').reg r = c.reg r := by
  have hne : r ≠ .rdi ∧ r ≠ .rsi ∧ r ≠ .rdx ∧ r ≠ .rcx := by
    revert r
    decide
  simp only [args, Core.set, Function.update_of_ne hne.1, Function.update_of_ne hne.2.1, Function.update_of_ne hne.2.2.1,
    Function.update_of_ne hne.2.2.2]

/-- the two instructions in the middle -/
theorem middle_spec (hs : Saved l (args c l l') ret c') :
    ∃ c2, execAll c' [.store .rdi .rsp, .plain (.mov .rsp .rsi)] = c2 ∧
      c2.mem = Function.update c'.mem l.rspAt (c.reg .rsp - 64#64) ∧ c2.reg .rsp = c.mem l'.rspAt ∧
      c2.reg .rcx = l'.fpuState ∧ c2.rflags = c.rflags := by
  have hrdi : c'.reg .rdi = l.rspAt := hs.regs _ (by decide)
  have hrsi : c'.reg .rsi = c.mem l'.rspAt := hs.regs _ (by decide)
  have hrcx : c'.reg .rcx = l'.fpuState := hs.regs _ (by decide)
  have hrsp : c'.reg .rsp = c.reg .rsp - 64#64 := hs.rsp.trans (by rw [args_reg (List.mem_cons_self ..)])
  refine ⟨_, rfl, ?_, ?_, ?_, hs.rest⟩
  · rw [← hrdi, ← hrsp]
    rfl
  · exact hrsi
  · exact hrcx

/-- **The switch.** The outgoing task's context is kept, the incoming one's is back. -/
theorem switchTo_spec (hl : l.Ok) (hroom : Room l (c.reg .rsp)) (hflags : Ordinary c.rflags) :
    (∀ a, ¬ l.Owns a → (switchTo c l l' ret).mem a = c.mem a) ∧
      Held l (context c ret) (switchTo c l l' ret).mem ∧
      ∀ x, Held l' x c.mem → l'.Ok → (∀ a, l'.Owns a → ¬ l.Owns a) →
        context (switchTo c l l' ret) (switchTo c l l' ret).rip = x := by
  have hrsp : (args c l l').reg .rsp = c.reg .rsp := args_reg (List.mem_cons_self ..)
  have hcallee : CALLEE.map (args c l l').reg = CALLEE.map c.reg :=
    List.map_congr_left fun r hr => args_reg (List.mem_cons_of_mem _ hr)
  have hs : Saved l (args c l l') ret (execAll ((args c l l').pushWord ret) SAVE) :=
    save_spec hl (by rwa [hrsp]) hflags rfl
  have hframe := hs.frame
  rw [hrsp, hcallee] at hframe
  have hwhole : switchTo c l l' ret = execAll (execAll (execAll ((args c l l').pushWord ret) SAVE)
      [.store .rdi .rsp, .plain (.mov .rsp .rsi)]) LOAD := by
    rw [← execAll_append, ← execAll_append]
    rfl
  obtain ⟨c2, hc2, hmem, hrsp2, hrcx, hfl⟩ := middle_spec hs
  rw [hwhole, hc2]
  generalize execAll ((args c l l').pushWord ret) SAVE = c1 at hs hframe hmem
  have hkeep : ∀ a, ¬ l.Owns a → c2.mem a = c.mem a := fun a ha => by
    have hne : a ≠ l.rspAt := fun h => ha (Or.inr (Or.inr h))
    rw [hmem, Function.update_of_ne hne]
    exact hs.mem a ha
  have hload : (execAll c2 LOAD).mem = c2.mem := rfl
  refine ⟨fun a ha => by rw [hload]; exact hkeep a ha, ?_, fun x hx hl' hap => ?_⟩
  · rw [hload, hmem]
    have hlow := hroom.1
    have hlt := (c.reg .rsp).isLt
    have hstack : (c.reg .rsp - 64#64).toNat + 8 * 8 ≤ 2 ^ 64 := by
      rw [hroom.frame]
      omega
    refine ⟨Function.update_self .., hframe.congr hstack fun a ha => ?_, hs.fpu.congr ?_ fun a ha => ?_, hroom, hflags, rfl⟩
    · have hne : a ≠ l.rspAt := fun h => hl.slot.1 (h ▸ hroom.onStack ha)
      exact Function.update_of_ne hne _ _
    · rw [fxWords_length]
      exact hl.area_fits
    · rw [fxWords_length] at ha
      have hne : a ≠ l.rspAt := fun h => hl.slot.2 (h ▸ ha)
      exact Function.update_of_ne hne _ _
  · have hx2 : Held l' x c2.mem := hx.congr hl' fun a ha => hkeep a (hap a ha)
    exact (load_spec hx2 (by rw [hrsp2, hx.slot]) hrcx (by rwa [hfl])).1

end Switch

/-! ## Runs -/

section Run

variable {ι : Type} [DecidableEq ι] {k : Image} {L : ι → Layout} {s s' s0 s1 s2 s3 : State ι} {t : ι} {x : Context}
  {e e0 : Event ι} {es : List (Event ι)} {ret : U64}

/-- pairwise disjoint memory -/
structure Apart (L : ι → Layout) : Prop where
  ok : ∀ t, (L t).Ok
  apart : ∀ t u, t ≠ u → ∀ a, (L t).Owns a → ¬ (L u).Owns a

theorem step_switch {next : ι} (hs : step k L s (.switch next ret) = some s') :
    next ≠ s.current ∧ s' = ⟨switchTo s.core (L s.current) (L next) ret, next⟩ := by
  rw [step] at hs
  split_ifs at hs with hne
  exact ⟨hne, (Option.some.inj hs).symm⟩

/-- t is out, and x lies in its memory -/
def Out (L : ι → Layout) (t : ι) (x : Context) (s : State ι) : Prop := s.current ≠ t ∧ Held (L t) x s.core.mem

/-- **One event**, about other tasks. -/
theorem step_out (hL : Apart L) (h : Out L t x s) (hf : Fair L t s e) (ho : e.Other t) (hs : step k L s e = some s') :
    Out L t x s' := by
  cases e with
  | run c =>
    cases hs
    exact ⟨h.1, h.2.congr (hL.ok t) (hf h.1)⟩
  | create u =>
    cases hs
    exact ⟨h.1, h.2.congr (hL.ok t) fun a ha => plant_mem (hL.ok u) (hL.apart t u (Ne.symm ho) a ha)⟩
  | switch next ret =>
    obtain ⟨-, rfl⟩ := step_switch hs
    refine ⟨ho, h.2.congr (hL.ok t) fun a ha => ?_⟩
    exact (switchTo_spec (hL.ok s.current) hf.1 hf.2).1 a (hL.apart t s.current h.1.symm a ha)

/-- the event that takes t out -/
theorem step_leaves (hL : Apart L) (hl : Leaves k L s t e x) (hf : Fair L t s e) (hs : step k L s e = some s') :
    Out L t x s' := by
  cases hl with
  | switch hcur =>
    obtain ⟨hne, rfl⟩ := step_switch hs
    subst hcur
    exact ⟨hne, (switchTo_spec (hL.ok s.current) hf.1 hf.2).2.1⟩
  | create =>
    cases hs
    exact ⟨Ne.symm hf, plant_held (hL.ok t)⟩

/-- while t is left alone -/
theorem run_out (hL : Apart L) (h : Out L t x s) (hf : Each (step k L) (Fair L t) s es) (ho : ∀ e ∈ es, e.Other t)
    (hs : es.foldlM (step k L) s = some s') : Out L t x s' := by
  have halways : Always (step k L) (Out L t x) s es :=
    always_of_each (fun _ h => h) (fun _ _ _ hout hg hs => step_out hL hout hg.1 hg.2 hs) h (hf.and (each_of_forall ho))
  exact halways.last hs

/-- **Context switches.** A task that is switched out, or made, and then left alone by any number of other tasks, comes
back with its context: where its own call of `switch_to` returns, or, if it is new, as if `task_trampoline` had just been
called, with interrupts on. -/
theorem context_preserved (hL : Apart L) (hleave : Leaves k L s0 t e0 x) (h0 : step k L s0 e0 = some s1)
    (hmid : es.foldlM (step k L) s1 = some s2) (hother : ∀ e ∈ es, e.Other t)
    (hback : step k L s2 (.switch t ret) = some s3) (hfair : Each (step k L) (Fair L t) s0 (e0 :: es ++ [.switch t ret])) :
    s3.current = t ∧ context s3.core s3.core.rip = x ∧
      (e0 = .create t → x.rip = k.taskTrampoline ∧ x.rflags.getLsbD 9 = true ∧ x.rsp = (L t).stackTop - 8#64 ∧
        x.rsp.toNat % 16 = 8) := by
  have hout1 : Out L t x s1 := step_leaves hL hleave hfair.1 h0
  have hrest := hfair.2 s1 h0
  obtain ⟨hne, hheld⟩ : Out L t x s2 := run_out hL hout1 hrest.left hother hmid
  obtain ⟨hroom, hflags⟩ := (hrest.right hmid).1
  obtain ⟨-, rfl⟩ := step_switch hback
  obtain ⟨-, -, hload⟩ := @switchTo_spec (L s2.current) (L t) s2.core ret (hL.ok s2.current) hroom hflags
  refine ⟨rfl, hload x hheld (hL.ok t) (hL.apart t s2.current hne.symm), fun hcreate => ?_⟩
  rw [hcreate] at hleave
  cases hleave
  obtain ⟨hif, halign⟩ := @first_spec (L t) k (hL.ok t)
  exact ⟨rfl, hif, rfl, halign⟩

/-- two tasks, with stacks of a page -/
def twoTasks : Bool → Layout
  | true => ⟨0x10000, 0x1000, 0x1000, 0x3000⟩
  | false => ⟨0x20000, 0x5000, 0x1000, 0x7000⟩

theorem twoTasks_owns {t : Bool} {a : U64} (h : (twoTasks t).Owns a) :
    if t then a = 0x10000 ∨ 0x1000 ≤ a.toNat ∧ a.toNat < 0x4000 else a = 0x20000 ∨ 0x5000 ≤ a.toNat ∧ a.toNat < 0x8000 := by
  cases t <;> simp [twoTasks, Layout.Owns, Layout.OnStack, Layout.fpuState, Within] at h ⊢
  all_goals
    rcases h with h | h | h
    · exact Or.inr (by omega)
    · exact Or.inr (by omega)
    · exact Or.inl h

theorem twoTasks_apart : Apart twoTasks := by
  refine ⟨fun t => ?_, fun t u htu a ha hb => ?_⟩
  · cases t <;> refine ⟨by decide, by decide, by decide, fun a ha hw => ?_, by unfold Layout.OnStack Within; decide⟩
    all_goals
      simp [twoTasks, Layout.fpuState, Layout.OnStack, Within] at ha hw
      omega
  · have ha' := twoTasks_owns ha
    have hb' := twoTasks_owns hb
    cases t <;> cases u <;> simp at htu ha' hb'
    all_goals
      rcases ha' with rfl | ha' <;> rcases hb' with hb' | hb'
      · exact absurd hb' (by decide)
      · exact absurd hb'.2 (by decide)
      · rw [hb'] at ha'
        exact absurd ha'.2 (by decide)
      · omega

/-- the boot task, on its own stack -/
def bootCore : Core where
  reg := fun _ => 0x1800
  rip := 0
  rflags := 2
  fpu := 0
  gsBase := 0
  kernelGsBase := 0
  mem := fun _ => 0
  seen := []

/-- the first switch to a new task -/
theorem context_preserved_sample : ∃ s : State Bool,
    ([.create false, .switch false 0x100] : List (Event Bool)).foldlM (step ⟨0x400, 0⟩ twoTasks) ⟨bootCore, true⟩ = some s ∧
      s.current = false ∧ context s.core s.core.rip = Image.first ⟨0x400, 0⟩ (twoTasks false) := by
  have hfair : Each (step ⟨0x400, 0⟩ twoTasks) (Fair twoTasks false) ⟨bootCore, true⟩
      [.create false, .switch false 0x100] := by
    refine ⟨Bool.false_ne_true, fun s1 h1 => ⟨?_, fun _ _ => trivial⟩⟩
    cases h1
    unfold Fair Room Ordinary
    decide
  obtain ⟨s1, h1⟩ : ∃ s1, step ⟨0x400, 0⟩ twoTasks ⟨bootCore, true⟩ (.create false) = some s1 := ⟨_, rfl⟩
  have hcur : s1.current = true := by
    cases h1
    rfl
  obtain ⟨s, hs⟩ : ∃ s, step ⟨0x400, 0⟩ twoTasks s1 (.switch false 0x100) = some s :=
    ⟨_, if_neg (by rw [hcur]; decide)⟩
  have hmid : ([] : List (Event Bool)).foldlM (step ⟨0x400, 0⟩ twoTasks) s1 = some s1 := rfl
  obtain ⟨hnow, hctx, -⟩ := context_preserved twoTasks_apart Leaves.create h1 hmid (by simp) hs hfair
  exact ⟨s, run_append (run_one h1) (run_one hs), hnow, hctx⟩

end Run

end Retux.Switch
