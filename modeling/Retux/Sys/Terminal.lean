/-
The terminal: the keyboard, line editing and the consoles together (`io/keyboard.cpp`, `sys_read_stdin` and `sys_write` of
`cpu/syscall.cpp`, `tty/tty.cpp`).

An interrupt takes a scancode and may come between any two rounds of a reader; system calls run with interrupts masked, so
a round is whole. Any task may write, and any task inside `sys_read(0)` may take the next round.

Abstract model: modifier keys, the characters typed ahead, the line being typed, what is left of a finished line, and the
sheets that the consoles are windows on.

- `handler_press`: what one scancode means;
- `Key_sim`, `copyOut_sim`: one round of a reader;
- `terminal_refines`: over whole runs, whatever the order of keys, reads and writes, the kernel behaves as the model does.
-/
import Mathlib.Tactic
import Retux.Io.Keyboard
import Retux.Lib.Refine
import Retux.Sys.Stdin
import Retux.Tty.Sheet

namespace Retux.Terminal

open Retux.Run Retux.Tty

/-! ## The kernel -/

/-- the consoles are those of `kbd`; `stdin.tty` is where a round of the reader finds them -/
structure St where
  kbd : Keyboard.Kbd
  stdin : Stdin.St
  /-- what went to the serial port -/
  serial : List U8

/-- a round of the loop of `sys_read_stdin`, or what follows the loop -/
def turn (s : St) (task : ℕ) : St :=
  match s.stdin.reading task with
  | none => s
  | some len =>
    if s.stdin.stdinLineReady then
      { s with stdin := Stdin.copyOut { s.stdin with reading := Function.update s.stdin.reading task none } len }
    else
      let (c, ring) := Keyboard.getchar s.kbd.ring
      let stdin := Stdin.key { s.stdin with tty := s.kbd.tty } c
      { s with kbd := { s.kbd with ring := ring, tty := stdin.tty }, stdin := stdin }

/-- one round of `sys_write` -/
def putc (s : St) (c : U8) : St :=
  { s with kbd := { s.kbd with tty := print s.kbd.tty c }, serial := s.serial ++ [c] }

def sysWrite (s : St) (fd : BitVec 64) (buf : List U8) : St := if fd ≠ 1 ∧ fd ≠ 2 then s else buf.foldl putc s

inductive Event where
  | irq (scancode : U8)
  /-- a task calls `sys_read(0, buf, len)` -/
  | read (task : ℕ) (len : BitVec 64)
  | turn (task : ℕ)
  | write (fd : BitVec 64) (buf : List U8)

def next (s : St) : Event → St
  | .irq scancode => { s with kbd := Keyboard.keyboardHandler s.kbd scancode }
  | .read task len => { s with stdin := Stdin.next s.stdin (.read task len) }
  | .turn task => turn s task
  | .write fd buf => sysWrite s fd buf

def step (s : St) (e : Event) : Option St := some (next s e)

/-- after `tty::init` -/
def start (tty : Tty.St) : St :=
  ⟨⟨⟨fun _ => 0, 0, 0⟩, false, false, false, false, init tty⟩, Stdin.start (init tty), []⟩

/-! ## The model -/

structure Mods where
  alt : Bool
  ctrl : Bool
  shift : Bool
  caps : Bool

/-- what a key stands for -/
inductive Key where
  | none
  | char (c : U8)
  | console (n : U8)

/-- a key pressed or released -/
def Mods.press (m : Mods) (scancode : U8) : Mods × Key :=
  let released := decide (scancode &&& 0x80 ≠ 0)
  let key := scancode &&& 0x7F
  if key = 0x2A ∨ key = 0x36 then ({ m with shift := !released }, .none)
  else if key = 0x3A then ({ m with caps := !m.caps }, .none)
  else if key = 0x38 then ({ m with alt := !released }, .none)
  else if key = 0x1D then ({ m with ctrl := !released }, .none)
  else if released then (m, .none)
  else if key = 0x0E then (m, .char Stdin.BACKSPACE)
  else if key = 0x1C then (m, .char Stdin.NEWLINE)
  else if m.alt ∧ 0x3B ≤ key ∧ key ≤ 0x3E then (m, .console (key - 0x3B))
  else
    let c := Keyboard.scancodeToAscii key
    if c = 0 then (m, .none)
    else if 0x61 ≤ c ∧ c ≤ 0x7A ∧ (m.shift ^^ m.caps) then (m, .char (c - 0x20))
    else (m, .char c)

structure Model where
  mods : Mods
  /-- typed ahead -/
  queue : List U8
  line : List U8
  /-- the rest of the finished line -/
  ready : List U8
  reading : ℕ → Option (BitVec 64)
  returned : List U8
  desk : Desk
  serial : List U8

namespace Model

/-- how many characters may be typed ahead -/
def AHEAD : ℕ := Keyboard.BUFFER_SIZE - 1

def start : Model := ⟨⟨false, false, false, false⟩, [], [], [], fun _ => none, [], Desk.start, []⟩

def irq (a : Model) (scancode : U8) : Model :=
  let (mods, key) := a.mods.press scancode
  let a := { a with mods := mods }
  match key with
  | .none => a
  | .char c => if a.queue.length < AHEAD then { a with queue := a.queue ++ [c] } else a
  | .console n => { a with desk := a.desk.switchTo n }

/-- a character goes on the line, and on the sheet that is shown -/
def type (a : Model) (c : U8) : Model :=
  if a.line.length < Stdin.STDIN_LINE_CAP - 1 then { a with line := a.line ++ [c], desk := a.desk.print c } else a

def key (a : Model) (c : U8) : Model :=
  if c = 0 then a
  else if c = Stdin.BACKSPACE then
    if a.line = [] then a else { a with line := a.line.dropLast, desk := a.desk.print Stdin.BACKSPACE }
  else if c = Stdin.NEWLINE then { a.type c with ready := (a.type c).line, line := [] }
  else a.type c

/-- a reader's turn: it returns a piece of the finished line, or takes a character -/
def turn (a : Model) (task : ℕ) : Model :=
  match a.reading task with
  | none => a
  | some len =>
    if a.ready = [] then { a with queue := a.queue.tail }.key (a.queue.headD 0)
    else
      { a with
        reading := Function.update a.reading task none
        returned := a.returned ++ a.ready.take len.toNat
        ready := a.ready.drop len.toNat }

def write (a : Model) (fd : BitVec 64) (buf : List U8) : Model :=
  if fd ≠ 1 ∧ fd ≠ 2 then a else { a with desk := buf.foldl Desk.print a.desk, serial := a.serial ++ buf }

def step (a : Model) : Event → Model
  | .irq scancode => a.irq scancode
  | .read task len =>
    if (a.reading task).isSome then a else { a with reading := Function.update a.reading task (some len) }
  | .turn task => a.turn task
  | .write fd buf => a.write fd buf

end Model

/-! ## Refinement -/

def mods (k : Keyboard.Kbd) : Mods := ⟨k.altPressed, k.ctrlPressed, k.shiftPressed, k.capsLock⟩

/-- the line buffer -/
structure Edits (s : Stdin.St) (line ready : List U8) : Prop where
  typing : s.stdinLineReady = false →
    s.stdinLinePos = 0 ∧ Stdin.slice s.stdinLine 0 s.stdinLineLen = line ∧ ready = []
  waiting : s.stdinLineReady = true → s.stdinLinePos < s.stdinLineLen ∧
    Stdin.slice s.stdinLine s.stdinLinePos (s.stdinLineLen - s.stdinLinePos) = ready ∧ line = []
  fits : s.stdinLineLen ≤ Stdin.STDIN_LINE_CAP - 1

/-- **Refinement relation.** -/
structure Rel (s : St) (a : Model) : Prop where
  shows : Shows s.kbd.tty a.desk
  ring : s.kbd.ring.Holds a.queue
  mods : mods s.kbd = a.mods
  edits : Edits s.stdin a.line a.ready
  reading : s.stdin.reading = a.reading
  returned : s.stdin.returned = a.returned
  serial : s.serial = a.serial

/-- no backspace is printed in the corner -/
def Clear (t : Tty.St) (cs : List U8) : Prop :=
  Each Tty.step (fun t c => c = .print 0x08 → ¬ Home t.active) t (cs.map Call.print)

/-- what is echoed or written is clear -/
def Quiet (s : St) : Event → Prop
  | .irq _ => True
  | .read _ _ => True
  | .turn task => (s.stdin.reading task).isSome → s.stdin.stdinLineReady = false →
    (Keyboard.getchar s.kbd.ring).1 = Stdin.BACKSPACE → 0 < s.stdin.stdinLineLen → ¬ Home s.kbd.tty.active
  | .write fd buf => (fd = 1 ∨ fd = 2) → Clear s.kbd.tty buf

/-- what a key does to the ring and the consoles -/
inductive Pressed (k k' : Keyboard.Kbd) : Mods × Key → Prop
  | none (hr : k'.ring = k.ring) (ht : k'.tty = k.tty) : Pressed k k' (mods k', .none)
  | char {c} (hc : c ≠ 0) (hr : k'.ring = Keyboard.pushChar k.ring c) (ht : k'.tty = k.tty) : Pressed k k' (mods k', .char c)
  | console {n} (hr : k'.ring = k.ring) (ht : k'.tty = switchTo k.tty n) : Pressed k k' (mods k', .console n)

section Sim

variable {s : St} {a : Model} {k : Keyboard.Kbd} {c : U8}

/-- **One scancode.** -/
theorem handler_press (k : Keyboard.Kbd) (scancode : U8) :
    Pressed k (Keyboard.keyboardHandler k scancode) ((mods k).press scancode) := by
  unfold Keyboard.keyboardHandler Mods.press mods
  simp only
  by_cases h1 : scancode &&& 0x7F = 0x2A ∨ scancode &&& 0x7F = 0x36
  · simp only [if_pos h1]
    exact .none rfl rfl
  simp only [if_neg h1]
  by_cases h2 : scancode &&& 0x7F = 0x3A
  · simp only [if_pos h2]
    exact .none rfl rfl
  simp only [if_neg h2]
  by_cases h3 : scancode &&& 0x7F = 0x38
  · simp only [if_pos h3]
    exact .none rfl rfl
  simp only [if_neg h3]
  by_cases h4 : scancode &&& 0x7F = 0x1D
  · simp only [if_pos h4]
    exact .none rfl rfl
  simp only [if_neg h4]
  by_cases h5 : decide (scancode &&& 0x80 ≠ 0) = true
  · simp only [if_pos h5]
    exact .none rfl rfl
  simp only [if_neg h5]
  by_cases h6 : scancode &&& 0x7F = 0x0E
  · simp only [if_pos h6]
    exact .char (by decide) rfl rfl
  simp only [if_neg h6]
  by_cases h7 : scancode &&& 0x7F = 0x1C
  · simp only [if_pos h7]
    exact .char (by decide) rfl rfl
  simp only [if_neg h7]
  by_cases h8 : k.altPressed = true ∧ 0x3B ≤ scancode &&& 0x7F ∧ scancode &&& 0x7F ≤ 0x3E
  · simp only [if_pos h8]
    exact .console rfl rfl
  simp only [if_neg h8]
  generalize Keyboard.scancodeToAscii (scancode &&& 0x7F) = c
  by_cases h9 : c = 0
  · simp only [if_pos h9]
    exact .none rfl rfl
  simp only [if_neg h9]
  by_cases h10 : 0x61 ≤ c ∧ c ≤ 0x7A ∧ (k.shiftPressed ^^ k.capsLock) = true
  · simp only [if_pos h10]
    have hupper : c - 0x61 + 0x41 = c - 0x20 := by bv_omega
    have hlow := h10.1
    exact .char (by bv_omega) (by rw [hupper]) rfl
  · simp only [if_neg h10]
    exact .char h9 rfl rfl

theorem Rel.irq (h : Rel s a) (scancode : U8) :
    Rel { s with kbd := Keyboard.keyboardHandler s.kbd scancode } (a.irq scancode) := by
  have hpress := handler_press s.kbd scancode
  rw [h.mods] at hpress
  unfold Model.irq
  generalize a.mods.press scancode = p at hpress
  generalize Keyboard.keyboardHandler s.kbd scancode = k at hpress
  cases hpress with
  | none hring htty =>
    refine ⟨?_, ?_, rfl, h.edits, h.reading, h.returned, h.serial⟩
    · rw [htty]
      exact h.shows
    · rw [hring]
      exact h.ring
  | char hc hring htty =>
    simp only
    split_ifs with hroom
    · refine ⟨?_, ?_, rfl, h.edits, h.reading, h.returned, h.serial⟩
      · rw [htty]
        exact h.shows
      · rw [hring]
        exact (Keyboard.pushChar_room h.ring hc (Nat.ne_of_lt hroom)).2
    · refine ⟨?_, ?_, rfl, h.edits, h.reading, h.returned, h.serial⟩
      · rw [htty]
        exact h.shows
      · have hfull : a.queue.length = Keyboard.BUFFER_SIZE - 1 := by
          have hlt := h.ring.room
          unfold Model.AHEAD at hroom
          omega
        rw [hring, Keyboard.pushChar_full h.ring (Or.inr hfull)]
        exact h.ring
  | console hring htty =>
    refine ⟨?_, ?_, rfl, h.edits, h.reading, h.returned, h.serial⟩
    · rw [htty]
      exact h.shows.switchTo
    · rw [hring]
      exact h.ring

/-- the kernel after a reader took the character c -/
def keyed (s : St) (c : U8) : St :=
  { s with
    kbd := { s.kbd with tty := (Stdin.key { s.stdin with tty := s.kbd.tty } c).tty }
    stdin := Stdin.key { s.stdin with tty := s.kbd.tty } c }

/-- a character that finds room, or does not, and ends the line, or does not -/
theorem key_char (x : Stdin.St) (h0 : c ≠ 0) (hb : c ≠ Stdin.BACKSPACE) : Stdin.key x c =
    if x.stdinLineLen < Stdin.STDIN_LINE_CAP - 1 then
      { x with
        typed := x.typed ++ [c]
        stdinLine := Function.update x.stdinLine x.stdinLineLen c
        stdinLineLen := x.stdinLineLen + 1
        tty := print x.tty c
        stdinLineReady := if c = Stdin.NEWLINE then true else x.stdinLineReady }
    else { x with typed := x.typed ++ [c], stdinLineReady := if c = Stdin.NEWLINE then true else x.stdinLineReady } := by
  unfold Stdin.key
  simp only
  rw [if_neg h0, if_neg hb]
  split_ifs <;> rfl

/-- **A key.** -/
theorem Rel.key (h : Rel s a) (hr : s.stdin.stdinLineReady = false)
    (hq : c = Stdin.BACKSPACE → 0 < s.stdin.stdinLineLen → ¬ Home s.kbd.tty.active) : Rel (keyed s c) (a.key c) := by
  obtain ⟨hpos, hline, hready⟩ := h.edits.typing hr
  have hlen : a.line.length = s.stdin.stdinLineLen := by rw [← hline, Stdin.length_slice]
  have hfits := h.edits.fits
  unfold Model.key
  by_cases h0 : c = 0
  · have hkey : Stdin.key { s.stdin with tty := s.kbd.tty } c =
        { s.stdin with tty := s.kbd.tty, typed := s.stdin.typed ++ [c] } := by
      unfold Stdin.key
      rw [if_pos h0]
    rw [keyed, hkey, if_pos h0]
    exact ⟨h.shows, h.ring, h.mods, ⟨h.edits.typing, h.edits.waiting, hfits⟩, h.reading, h.returned, h.serial⟩
  rw [if_neg h0]
  by_cases hb : c = Stdin.BACKSPACE
  · rw [if_pos hb]
    by_cases hnil : a.line = []
    · have hzero : s.stdin.stdinLineLen = 0 := by rw [← hlen, hnil]; rfl
      have hkey : Stdin.key { s.stdin with tty := s.kbd.tty } c =
          { s.stdin with tty := s.kbd.tty, typed := s.stdin.typed ++ [c] } := by
        unfold Stdin.key
        simp only
        rw [if_neg h0, if_pos hb, if_neg (by omega)]
      rw [keyed, hkey, if_pos hnil]
      exact ⟨h.shows, h.ring, h.mods, ⟨h.edits.typing, h.edits.waiting, hfits⟩, h.reading, h.returned, h.serial⟩
    · have hlt : 0 < s.stdin.stdinLineLen := by
        rw [← hlen]
        exact List.length_pos_iff.2 hnil
      have hkey : Stdin.key { s.stdin with tty := s.kbd.tty } c =
          { s.stdin with
            typed := s.stdin.typed ++ [c]
            stdinLineLen := s.stdin.stdinLineLen - 1
            tty := print s.kbd.tty Stdin.BACKSPACE } := by
        unfold Stdin.key
        simp only
        rw [if_neg h0, if_pos hb, if_pos hlt]
      rw [keyed, hkey, if_neg hnil]
      refine ⟨h.shows.print fun _ => hq hb hlt, h.ring, h.mods, ⟨fun _ => ⟨hpos, ?_, hready⟩, fun hr' => ?_, ?_⟩, h.reading,
        h.returned, h.serial⟩
      · obtain ⟨n, hn⟩ := Nat.exists_eq_succ_of_ne_zero (Nat.ne_of_gt hlt)
        rw [← hline]
        simp only [hn, Stdin.slice_succ, List.dropLast_concat]
        rfl
      · rw [show s.stdin.stdinLineReady = true from hr'] at hr
        cases hr
      · exact le_trans (Nat.sub_le _ _) hfits
  rw [if_neg hb, keyed, key_char _ h0 hb]
  have hshows := h.shows.print fun hc : c = 0x08 => absurd hc hb
  unfold Model.type
  rw [hlen]
  by_cases hroom : s.stdin.stdinLineLen < Stdin.STDIN_LINE_CAP - 1
  · simp only [if_pos hroom]
    have hpush : Stdin.slice (Function.update s.stdin.stdinLine s.stdin.stdinLineLen c) 0 (s.stdin.stdinLineLen + 1) =
        a.line ++ [c] := by
      rw [Stdin.slice_push, hline]
    by_cases hn : c = Stdin.NEWLINE
    · simp only [if_pos hn]
      refine ⟨hshows, h.ring, h.mods, ⟨fun hr' => absurd hr' (by simp), fun _ => ⟨?_, ?_, rfl⟩, hroom⟩, h.reading, h.returned,
        h.serial⟩
      · show s.stdin.stdinLinePos < s.stdin.stdinLineLen + 1
        omega
      · show Stdin.slice _ s.stdin.stdinLinePos (s.stdin.stdinLineLen + 1 - s.stdin.stdinLinePos) = _
        rw [hpos, Nat.sub_zero]
        exact hpush
    · simp only [if_neg hn]
      refine ⟨hshows, h.ring, h.mods, ⟨fun _ => ⟨hpos, hpush, hready⟩, fun hr' => ?_, hroom⟩, h.reading, h.returned, h.serial⟩
      rw [show s.stdin.stdinLineReady = true from hr'] at hr
      cases hr
  · simp only [if_neg hroom]
    by_cases hn : c = Stdin.NEWLINE
    · simp only [if_pos hn]
      refine ⟨h.shows, h.ring, h.mods, ⟨fun hr' => absurd hr' (by simp), fun _ => ⟨?_, ?_, rfl⟩, hfits⟩, h.reading, h.returned,
        h.serial⟩
      · show s.stdin.stdinLinePos < s.stdin.stdinLineLen
        unfold Stdin.STDIN_LINE_CAP at *
        omega
      · show Stdin.slice s.stdin.stdinLine s.stdin.stdinLinePos (s.stdin.stdinLineLen - s.stdin.stdinLinePos) = a.line
        rw [hpos, Nat.sub_zero]
        exact hline
    · simp only [if_neg hn]
      exact ⟨h.shows, h.ring, h.mods, ⟨h.edits.typing, h.edits.waiting, hfits⟩, h.reading, h.returned, h.serial⟩

/-- **A read that returns.** -/
theorem Rel.copyOut (h : Rel s a) (hr : s.stdin.stdinLineReady = true) (task : ℕ) (len : BitVec 64) :
    Rel { s with stdin := Stdin.copyOut { s.stdin with reading := Function.update s.stdin.reading task none } len }
      { a with
        reading := Function.update a.reading task none
        returned := a.returned ++ a.ready.take len.toNat
        ready := a.ready.drop len.toNat } := by
  obtain ⟨hlt, hready, hline⟩ := h.edits.waiting hr
  have hfits := h.edits.fits
  have hreading : Function.update s.stdin.reading task none = Function.update a.reading task none := by rw [h.reading]
  have hlen : a.ready.length = s.stdin.stdinLineLen - s.stdin.stdinLinePos := by rw [← hready, Stdin.length_slice]
  unfold Stdin.copyOut
  simp only
  generalize hn : (if len.toNat < s.stdin.stdinLineLen - s.stdin.stdinLinePos then len.toNat
    else s.stdin.stdinLineLen - s.stdin.stdinLinePos) = n
  have hle : n ≤ s.stdin.stdinLineLen - s.stdin.stdinLinePos := by
    rw [← hn]
    split_ifs with hl
    · exact Nat.le_of_lt hl
    · exact le_rfl
  -- the piece and the rest
  have hsplit : Stdin.slice s.stdin.stdinLine s.stdin.stdinLinePos n ++
      Stdin.slice s.stdin.stdinLine (s.stdin.stdinLinePos + n) (s.stdin.stdinLineLen - (s.stdin.stdinLinePos + n)) =
        a.ready := by
    rw [← Stdin.slice_split, ← hready]
    congr 1
    omega
  have hnlen : n = min len.toNat a.ready.length := by
    rw [hlen, ← hn]
    split_ifs <;> omega
  have htake : a.ready.take len.toNat = Stdin.slice s.stdin.stdinLine s.stdin.stdinLinePos n := by
    rw [List.take_eq_take_min, ← hnlen, ← hsplit]
    exact List.take_left' Stdin.length_slice
  have hdrop : a.ready.drop len.toNat =
      Stdin.slice s.stdin.stdinLine (s.stdin.stdinLinePos + n) (s.stdin.stdinLineLen - (s.stdin.stdinLinePos + n)) := by
    refine (List.append_right_inj (a.ready.take len.toNat)).1 ?_
    rw [List.take_append_drop, htake, hsplit]
  rw [htake, hdrop, ← h.returned]
  split_ifs with hdone
  · refine ⟨h.shows, h.ring, h.mods, ⟨fun _ => ⟨rfl, hline.symm, ?_⟩, fun hr' => absurd hr' (by simp), Nat.zero_le _⟩,
      hreading, rfl, h.serial⟩
    rw [show s.stdin.stdinLineLen - (s.stdin.stdinLinePos + n) = 0 by omega]
    rfl
  · refine ⟨h.shows, h.ring, h.mods, ⟨fun hr' => ?_, fun _ => ⟨not_le.1 hdone, rfl, hline⟩, hfits⟩, hreading, rfl, h.serial⟩
    rw [show s.stdin.stdinLineReady = false from hr'] at hr
    cases hr

/-- **A reader's turn.** -/
theorem Rel.turn (h : Rel s a) (task : ℕ) (hq : Quiet s (.turn task)) : Rel (turn s task) (a.turn task) := by
  unfold Terminal.turn Model.turn
  rw [← h.reading]
  cases hlen : s.stdin.reading task with
  | none => exact h
  | some len =>
    simp only
    by_cases hr : s.stdin.stdinLineReady = true
    · obtain ⟨hlt, hready, -⟩ := h.edits.waiting hr
      have hne : a.ready ≠ [] := by
        rw [← List.length_pos_iff, ← hready, Stdin.length_slice]
        omega
      rw [if_pos hr, if_neg hne]
      have hcopy := h.copyOut hr task len
      rw [← h.reading] at hcopy
      exact hcopy
    · have hr' : s.stdin.stdinLineReady = false := Bool.eq_false_iff.2 hr
      obtain ⟨hfront, hrest⟩ := Keyboard.getchar_spec h.ring
      have hready := (h.edits.typing hr').2.2
      rw [if_neg hr, if_pos hready, ← hfront]
      have htaken : Rel { s with kbd := { s.kbd with ring := (Keyboard.getchar s.kbd.ring).2 } }
          { a with queue := a.queue.tail, reading := s.stdin.reading } :=
        ⟨h.shows, hrest, h.mods, h.edits, rfl, h.returned, h.serial⟩
      exact htaken.key hr' fun hb => hq (by rw [hlen]; rfl) hr' hb

theorem Rel.putc (h : Rel s a) (hh : c = 0x08 → ¬ Home s.kbd.tty.active) :
    Rel (putc s c) { a with desk := a.desk.print c, serial := a.serial ++ [c] } :=
  ⟨h.shows.print hh, h.ring, h.mods, h.edits, h.reading, h.returned, congrArg (· ++ [c]) h.serial⟩

theorem Rel.puts {buf : List U8} (h : Rel s a) (hc : Clear s.kbd.tty buf) :
    Rel (buf.foldl Terminal.putc s) { a with desk := buf.foldl Desk.print a.desk, serial := a.serial ++ buf } := by
  induction buf generalizing s a with
  | nil =>
    rw [List.append_nil]
    exact h
  | cons c buf ih =>
    have hone := h.putc fun hb : c = 0x08 => hc.1 (by rw [hb])
    have hrest := ih hone (hc.2 _ rfl)
    rw [List.append_assoc] at hrest
    exact hrest

/-- **One event.** -/
theorem Rel.step {s' : St} {e : Event} (h : Rel s a) (hq : Quiet s e) (hs : step s e = some s') : Rel s' (a.step e) := by
  cases hs
  cases e with
  | irq scancode => exact h.irq scancode
  | read task len =>
    unfold next Stdin.next Model.step
    simp only
    rw [← h.reading]
    split_ifs
    · exact h
    · exact ⟨h.shows, h.ring, h.mods, ⟨h.edits.typing, h.edits.waiting, h.edits.fits⟩, rfl, h.returned, h.serial⟩
  | turn task => exact h.turn task hq
  | write fd buf =>
    unfold next sysWrite Model.step Model.write
    simp only
    split_ifs with hfd
    · exact h
    · exact h.puts (hq (by tauto))

theorem start_rel (tty : Tty.St) : Rel (start tty) Model.start := by
  refine ⟨init_shows tty, Fifo.IsFifo.empty (by decide), rfl, ⟨fun _ => ⟨rfl, rfl, rfl⟩, fun hr => ?_, Nat.zero_le _⟩, rfl, rfl,
    rfl⟩
  exact absurd hr (by simp [start, Stdin.start])

end Sim

/-- **The terminal.** Over any sequence of scancodes, reads, readers' turns and writes, in any order, in which no backspace is
echoed or written in the corner, the kernel does what the model does: typed characters wait in a queue of 63, a reader
edits a line of at most 255 and gets what it asked for of a finished line only, and what is echoed or written is on the
sheet that was shown. -/
theorem terminal_refines (tty : Tty.St) (es : List Event) (s : St) (hq : Each step Quiet (start tty) es)
    (hr : es.foldlM step (start tty) = some s) : Rel s (es.foldl Model.step Model.start) :=
  Refine.sim_run (fun _ _ _ _ h hq hs => h.step hq hs) (start_rel tty) hq hr

theorem run_total (es : List Event) (s : St) : ∃ s', es.foldlM step s = some s' := by
  induction es generalizing s with
  | nil => exact ⟨s, rfl⟩
  | cons e es ih => exact ih (next s e)

/-- a task reads while "hi" and enter are typed, the i with shift -/
def greeting : List Event :=
  [.read 7 5, .irq 0x23, .turn 7, .irq 0x2A, .irq 0x17, .irq 0xAA, .turn 7, .irq 0x1C, .turn 7, .turn 7]

theorem greeting_quiet : Each step Quiet (start (atColumn 0)) greeting := by
  have hskip : ∀ s : St, (Keyboard.getchar s.kbd.ring).1 ≠ Stdin.BACKSPACE → Quiet s (.turn 7) :=
    fun s hne _ _ hb => absurd hb hne
  refine each_cons rfl trivial (each_cons rfl trivial (each_cons rfl (hskip _ (by decide +kernel)) ?_))
  refine each_cons rfl trivial (each_cons rfl trivial (each_cons rfl trivial (each_cons rfl (hskip _ (by decide +kernel)) ?_)))
  refine each_cons rfl trivial (each_cons rfl (hskip _ (by decide +kernel)) (each_cons rfl ?_ trivial))
  exact hskip _ (by decide +kernel)

theorem terminal_refines_greeting : ∃ s, greeting.foldlM step (start (atColumn 0)) = some s ∧
    s.stdin.returned = [0x68, 0x49, 0x0A] := by
  obtain ⟨s, hr⟩ := run_total greeting (start (atColumn 0))
  have hrel := terminal_refines (atColumn 0) greeting s greeting_quiet hr
  exact ⟨s, hr, hrel.returned⟩

end Retux.Terminal
