/-
The keyboard ring (`push_char`, `keyboard_handler`, `keyboard::getchar` in `io/keyboard.cpp`).

The interrupt pushes, `getchar` pops, and nothing locks the ring. `head` and `tail` are volatile, so `getchar` reads or
writes memory each time its text names them. Here a call takes one access at a time, and between any two of them
interrupts may come, each whole: the gate masks them, and the handler runs to its end. One call is under way at a time,
since a system call runs with interrupts masked on the one CPU and `getchar` does not yield. Which of the two reads in
`head == tail` comes first is up to the compiler; both orders are runs.

- `getchar_steps`: a call that nothing interrupts is `getchar` as written;
- `handler_push`: an interrupt is one `push_char`;
- `keyboard_fifo`: over every run, the ring is a queue of 63 characters.
-/
import Mathlib.Tactic
import Retux.Lib.Fifo
import Retux.Lib.Run
import Retux.Tty.Console

namespace Retux.Keyboard

open Retux.Fifo Retux.Run Retux.Tty

/-! ## Model -/

def BUFFER_SIZE : ℕ := 64

structure Ring where
  buffer : ℤ → U8
  head : ℤ
  tail : ℤ

def pushChar (r : Ring) (c : U8) : Ring :=
  if c = 0 then r
  else
    let next := (r.head + 1).tmod BUFFER_SIZE
    if next ≠ r.tail then { r with buffer := Function.update r.buffer r.head c, head := next } else r

def getchar (r : Ring) : U8 × Ring :=
  if r.head = r.tail then (0, r) else (r.buffer r.tail, { r with tail := (r.tail + 1).tmod BUFFER_SIZE })

/-- scancode set 1; the rest of the array is 0 -/
def scancodeToAscii (key : U8) : U8 :=
  let table := ['\x00', '\x00', '1', '2', '3', '4', '5', '6', '7', '8', '9', '0', '-', '=', '\x00', '\x00',
    'q', 'w', 'e', 'r', 't', 'y', 'u', 'i', 'o', 'p', '[', ']', '\x00', '\x00',
    'a', 's', 'd', 'f', 'g', 'h', 'j', 'k', 'l', ';', '\x27', '\x60', '\x00', '\x5c',
    'z', 'x', 'c', 'v', 'b', 'n', 'm', ',', '.', '/', '\x00', '*', '\x00', ' ']
  BitVec.ofNat 8 (table.getD key.toNat '\x00').toNat

/-- the statics of `keyboard.cpp`, and the consoles that Alt+F1..F4 switch -/
structure Kbd where
  ring : Ring
  altPressed : Bool
  ctrlPressed : Bool
  shiftPressed : Bool
  capsLock : Bool
  tty : Tty.St

/-- `keyboard_handler`, with the byte from port 0x60 -/
def keyboardHandler (k : Kbd) (scancode : U8) : Kbd :=
  let released := decide (scancode &&& 0x80 ≠ 0)
  let key := scancode &&& 0x7F
  if key = 0x2A ∨ key = 0x36 then { k with shiftPressed := !released }
  else if key = 0x3A then { k with capsLock := !k.capsLock }
  else if key = 0x38 then { k with altPressed := !released }
  else if key = 0x1D then { k with ctrlPressed := !released }
  else if released then k
  else if key = 0x0E then { k with ring := pushChar k.ring 0x08 }
  else if key = 0x1C then { k with ring := pushChar k.ring 0x0A }
  else if k.altPressed ∧ 0x3B ≤ key ∧ key ≤ 0x3E then { k with tty := switchTo k.tty (key - 0x3B) }
  else
    let ascii := scancodeToAscii key
    if ascii = 0 then k
    else if 0x61 ≤ ascii ∧ ascii ≤ 0x7A ∧ (k.shiftPressed ^^ k.capsLock) then
      { k with ring := pushChar k.ring (ascii - 0x61 + 0x41) }
    else { k with ring := pushChar k.ring ascii }

/-- where a call of `getchar` stands, with what it has read -/
inductive Point where
  | out
  | entered
  | headRead (head : ℤ)
  | tailRead (tail : ℤ)
  /-- behind the test -/
  | nonempty
  | index (tail : ℤ)
  | char (c : U8)
  | next (c : U8) (tail : ℤ)
deriving DecidableEq

structure Sys where
  kbd : Kbd
  point : Point
  /-- the characters that head moved past, and the results of the finished calls (ghosts) -/
  accepted : List U8
  returned : List U8

namespace Sys

def ring (s : Sys) : Ring := s.kbd.ring

def setTail (s : Sys) (tail : ℤ) : Sys := { s with kbd := { s.kbd with ring := { s.ring with tail := tail } } }

def ret (s : Sys) (c : U8) : Sys := { s with point := .out, returned := s.returned ++ [c] }

/-- what an interrupt leaves -/
def interrupted (s : Sys) (kbd : Kbd) : Sys :=
  { s with
    kbd := kbd
    accepted := if kbd.ring.head = s.ring.head then s.accepted else s.accepted ++ [kbd.ring.buffer s.ring.head] }

end Sys

/-- the next access of the call, and what the call does up to the one after; the last one returns -/
def access (s : Sys) (headFirst : Bool) : Option Sys :=
  match s.point with
  | .out => none
  | .entered => some { s with point := if headFirst then .headRead s.ring.head else .tailRead s.ring.tail }
  | .headRead head => some (if head = s.ring.tail then s.ret 0 else { s with point := .nonempty })
  | .tailRead tail => some (if s.ring.head = tail then s.ret 0 else { s with point := .nonempty })
  | .nonempty => some { s with point := .index s.ring.tail }
  | .index tail => some { s with point := .char (s.ring.buffer tail) }
  | .char c => some { s with point := .next c s.ring.tail }
  | .next c tail => some ((s.setTail ((tail + 1).tmod BUFFER_SIZE)).ret c)

inductive Event where
  /-- an interrupt that calls `push_char(c)` -/
  | push (c : U8)
  /-- an interrupt, with the scancode -/
  | irq (scancode : U8)
  /-- `getchar` is called -/
  | call
  /-- its next access; the flag says which read of `head == tail` comes first -/
  | access (headFirst : Bool)
deriving DecidableEq

def step (s : Sys) : Event → Option Sys
  | .push c => some (s.interrupted { s.kbd with ring := pushChar s.ring c })
  | .irq scancode => some (s.interrupted (keyboardHandler s.kbd scancode))
  | .call => if s.point = .out then some { s with point := .entered } else none
  | .access headFirst => Keyboard.access s headFirst

def boot (tty : Tty.St) : Sys := ⟨⟨⟨fun _ => 0, 0, 0⟩, false, false, false, false, tty⟩, .out, [], []⟩

/-! ## What should hold -/

namespace Sys

/-- the characters that `getchar` gave out -/
def chars (s : Sys) : List U8 := s.returned.filter (· ≠ 0)

/-- accepted, but not given out yet -/
def pending (s : Sys) : List U8 := s.accepted.drop s.chars.length

end Sys

/-- nothing was pending at some moment of the call under way -/
def Lull (tty : Tty.St) (es : List Event) : Prop := ∃ es1 es2 s, es = es1 ++ es2 ∧ Event.call ∉ es2 ∧
  es1.foldlM step (boot tty) = some s ∧ s.point ≠ .out ∧ s.pending = []

/-- accesses that a call has left, at most -/
def Point.left : Point → ℕ
  | .out => 0
  | .entered => 6
  | .headRead _ | .tailRead _ => 5
  | .nonempty => 4
  | .index _ => 3
  | .char _ => 2
  | .next _ _ => 1

/-- a queue of 63 characters, after es -/
structure Bounded (tty : Tty.St) (es : List Event) (s : Sys) : Prop where
  head : 0 ≤ s.ring.head ∧ s.ring.head < BUFFER_SIZE
  tail : 0 ≤ s.ring.tail ∧ s.ring.tail < BUFFER_SIZE
  /-- those given out are those accepted, in order, each once -/
  order : s.chars ++ s.pending = s.accepted
  nonzero : 0 ∉ s.accepted
  /-- `push_char` drops a character only if 63 are pending -/
  push : ∀ c s', step s (.push c) = some s' →
    s'.accepted = if c = 0 ∨ s.pending.length = BUFFER_SIZE - 1 then s.accepted else s.accepted ++ [c]
  /-- an interrupt is one push -/
  irq : ∀ scancode s', step s (.irq scancode) = some s' →
    ∃ c s1, step s (.push c) = some s1 ∧ s'.ring = s1.ring ∧ s'.accepted = s1.accepted
  /-- a call that nothing interrupts takes the front of the queue -/
  front : s.point = .out → (getchar s.ring).1 = s.pending.headD 0 ∧ ∀ headFirst, ∃ n s',
    (Event.call :: List.replicate n (.access headFirst)).foldlM step s = some s' ∧ s'.ring = (getchar s.ring).2 ∧
    s'.returned = s.returned ++ [(getchar s.ring).1]
  /-- 0 is returned only if nothing was pending -/
  empty : ∀ e s', step s e = some s' → s'.returned = s.returned ++ [0] → Lull tty es
  /-- a call comes to its end -/
  ends : s.point ≠ .out → ∀ headFirst, ∃ s', step s (.access headFirst) = some s' ∧ s'.point.left < s.point.left

/-! ## The ring -/

section Ring

variable {r : Ring} {q : List U8} {c : U8} {k : Kbd}

def Ring.Holds (r : Ring) (q : List U8) : Prop := IsFifo BUFFER_SIZE r.buffer r.head r.tail q

/-- no index is negative, so the remainder of C is the modulus -/
theorem tmod_size {i : ℤ} (h : 0 ≤ i) : (i + 1).tmod BUFFER_SIZE = (i + 1) % BUFFER_SIZE :=
  Int.tmod_eq_emod_of_nonneg (by omega)

theorem pushChar_full (h : r.Holds q) (hc : c = 0 ∨ q.length = BUFFER_SIZE - 1) : pushChar r c = r := by
  rw [pushChar, tmod_size h.last_mem.1]
  by_cases h0 : c = 0
  · rw [if_pos h0]
  · have hfull := h.full_iff.2 (by rw [hc.resolve_left h0]; rfl)
    rw [if_neg h0, if_neg (not_not.2 hfull)]

theorem pushChar_room (h : r.Holds q) (hc : c ≠ 0) (hq : q.length ≠ BUFFER_SIZE - 1) :
    pushChar r c = ⟨Function.update r.buffer r.head c, (r.head + 1) % BUFFER_SIZE, r.tail⟩ ∧
      (pushChar r c).Holds (q ++ [c]) := by
  have hroom : q.length + 1 ≠ BUFFER_SIZE := fun hlen => hq (by omega)
  have hpush : pushChar r c = ⟨Function.update r.buffer r.head c, (r.head + 1) % BUFFER_SIZE, r.tail⟩ := by
    rw [pushChar, tmod_size h.last_mem.1, if_neg hc, if_pos fun hfull => hroom (h.full_iff.1 hfull)]
  refine ⟨hpush, ?_⟩
  rw [hpush]
  exact IsFifo.push h (lt_of_le_of_ne h.room hroom)

theorem getchar_spec (h : r.Holds q) : (getchar r).1 = q.headD 0 ∧ (getchar r).2.Holds q.tail := by
  cases q with
  | nil =>
    rw [getchar, if_pos (h.empty_iff.2 rfl)]
    exact ⟨rfl, h⟩
  | cons c q =>
    have hne : r.head ≠ r.tail := fun he => List.cons_ne_nil c q (h.empty_iff.1 he)
    rw [getchar, if_neg hne, tmod_size h.first.1]
    exact ⟨h.front, h.pop⟩

/-- **An interrupt** pushes once; 0 stands for nothing to push. -/
theorem handler_push (k : Kbd) (scancode : U8) : ∃ c, (keyboardHandler k scancode).ring = pushChar k.ring c := by
  have hnone : ∀ {k' : Kbd}, k'.ring = k.ring → ∃ c, k'.ring = pushChar k.ring c :=
    fun hk => ⟨0, hk.trans (if_pos rfl).symm⟩
  have hpush : ∀ x, ∃ c, ({ k with ring := pushChar k.ring x } : Kbd).ring = pushChar k.ring c := fun x => ⟨x, rfl⟩
  have hite : ∀ {p : Prop} [Decidable p] {x y : Kbd}, (∃ c, x.ring = pushChar k.ring c) →
      (∃ c, y.ring = pushChar k.ring c) → ∃ c, (if p then x else y).ring = pushChar k.ring c := by
    intro p _ x y hx hy
    by_cases hp : p
    · rwa [if_pos hp]
    · rwa [if_neg hp]
  -- shift, caps lock, alt, ctrl, a key released
  refine hite (hnone rfl) (hite (hnone rfl) (hite (hnone rfl) (hite (hnone rfl) (hite (hnone rfl) ?_))))
  -- backspace, enter, a console switched
  refine hite (hpush _) (hite (hpush _) (hite (hnone rfl) ?_))
  -- the table
  exact hite (hnone rfl) (hite (hpush _) (hpush _))

end Ring

/-! ## Calls -/

section Calls

variable {s s' : Sys} {c : U8} {kbd : Kbd} {p : Point} {b : Bool} {q : List U8}

/-- **A call that nothing interrupts** is `getchar`. -/
theorem getchar_steps (hp : s.point = .out) (b : Bool) :
    ∃ n, (Event.call :: List.replicate n (.access b)).foldlM step s =
      some ({ s with kbd := { s.kbd with ring := (getchar s.ring).2 } }.ret (getchar s.ring).1) := by
  obtain ⟨kbd, point, accepted, returned⟩ := s
  cases hp
  by_cases he : kbd.ring.head = kbd.ring.tail
  · refine ⟨2, ?_⟩
    cases b <;> simp [List.foldlM, List.replicate, step, access, getchar, Sys.ring, Sys.ret, he]
  · refine ⟨6, ?_⟩
    cases b <;> simp [List.foldlM, List.replicate, step, access, getchar, Sys.ring, Sys.ret, Sys.setTail, he]

theorem pending_zero : (s.ret 0).pending = s.pending := by
  simp [Sys.pending, Sys.chars, Sys.ret]

theorem chars_ret (hc : c ≠ 0) : (s.ret c).chars = s.chars ++ [c] := by
  have hlast : [c].filter (· ≠ 0) = [c] := List.filter_cons_of_pos (decide_eq_true hc)
  rw [Sys.chars, Sys.ret, List.filter_append, hlast, Sys.chars]

theorem pending_ret (hc : c ≠ 0) : (s.ret c).pending = s.pending.tail := by
  rw [Sys.pending, chars_ret hc, List.length_append, List.length_singleton, ← List.drop_one, Sys.pending,
    List.drop_drop]
  rfl

/-- what a call knows at each of its points; interrupts cannot change it -/
def At (s : Sys) : Point → Prop
  | .out | .entered => True
  | .headRead head => head ≠ s.ring.tail → s.pending ≠ []
  | .tailRead tail => tail = s.ring.tail
  | .nonempty => s.pending ≠ []
  | .index tail => tail = s.ring.tail ∧ s.pending ≠ []
  | .char c => s.pending.head? = some c
  | .next c tail => tail = s.ring.tail ∧ s.pending.head? = some c

structure Inv (s : Sys) : Prop where
  holds : s.ring.Holds s.pending
  order : s.chars ++ s.pending = s.accepted
  nonzero : 0 ∉ s.accepted
  point : At s s.point

/-- pushes leave the tail and the front of the queue -/
theorem At.mono (h : At s p) (htail : s'.ring.tail = s.ring.tail) (hpend : s.pending <+: s'.pending) : At s' p := by
  obtain ⟨l, hl⟩ := hpend
  have hne : s.pending ≠ [] → s'.pending ≠ [] := fun hn he => hn (List.append_eq_nil_iff.1 (hl.trans he)).1
  have hhead : ∀ {c}, s.pending.head? = some c → s'.pending.head? = some c := fun {c} hc => by
    rw [← hl, List.head?_append, hc]
    rfl
  cases p with
  | out => trivial
  | entered => trivial
  | headRead head => exact fun hn => hne (h (htail ▸ hn))
  | tailRead tail => exact (show tail = s.ring.tail from h).trans htail.symm
  | nonempty => exact hne h
  | index tail => exact ⟨h.1.trans htail.symm, hne h.2⟩
  | char c => exact hhead h
  | next c tail => exact ⟨h.1.trans htail.symm, hhead h.2⟩

/-- what a push does to the two lists -/
theorem interrupted_eq (h : Inv s) (hk : kbd.ring = pushChar s.ring c) :
    (s.interrupted kbd).accepted =
      (if c = 0 ∨ s.pending.length = BUFFER_SIZE - 1 then s.accepted else s.accepted ++ [c]) ∧
    (s.interrupted kbd).pending =
      (if c = 0 ∨ s.pending.length = BUFFER_SIZE - 1 then s.pending else s.pending ++ [c]) ∧
    (s.interrupted kbd).ring.Holds (s.interrupted kbd).pending ∧ (s.interrupted kbd).ring.tail = s.ring.tail := by
  have hring : (s.interrupted kbd).ring = pushChar s.ring c := hk
  have hchars : (s.interrupted kbd).chars = s.chars := rfl
  have hle : s.chars.length ≤ s.accepted.length := by rw [← h.order]; simp
  by_cases hc : c = 0 ∨ s.pending.length = BUFFER_SIZE - 1
  · have hsame := pushChar_full h.holds hc
    have hacc : (s.interrupted kbd).accepted = s.accepted := if_pos (by rw [hk, hsame])
    have hpend : (s.interrupted kbd).pending = s.pending := by rw [Sys.pending, hchars, hacc]; rfl
    rw [if_pos hc, if_pos hc, hpend, hring, hsame]
    exact ⟨hacc, rfl, h.holds, rfl⟩
  · obtain ⟨hc0, hlen⟩ := not_or.1 hc
    obtain ⟨hpush, hholds⟩ := pushChar_room h.holds hc0 hlen
    have hmoved : kbd.ring.head ≠ s.ring.head := by
      have hmem := h.holds.last_mem
      rw [hk, hpush]
      unfold BUFFER_SIZE at hmem ⊢
      show (s.ring.head + 1) % 64 ≠ s.ring.head
      omega
    have hacc : (s.interrupted kbd).accepted = s.accepted ++ [c] := by
      have hcell : kbd.ring.buffer s.ring.head = c := by
        rw [hk, hpush]
        exact Function.update_self ..
      show (if _ then _ else _) = _
      rw [if_neg hmoved, hcell]
    have hpend : (s.interrupted kbd).pending = s.pending ++ [c] := by
      rw [Sys.pending, hchars, hacc, List.drop_append_of_le_length hle]
      rfl
    rw [if_neg hc, if_neg hc, hpend, hring]
    exact ⟨hacc, rfl, hholds, by rw [hpush]⟩

theorem irq_push {scancode : U8} (hs : step s (.irq scancode) = some s') :
    ∃ c s1, step s (.push c) = some s1 ∧ s'.ring = s1.ring ∧ s'.accepted = s1.accepted := by
  obtain ⟨c, hc⟩ := handler_push s.kbd scancode
  cases hs
  refine ⟨c, _, rfl, hc, ?_⟩
  unfold Sys.interrupted
  dsimp only
  rw [hc]
  rfl

/-- **An interrupt.** -/
theorem Inv.interrupted (h : Inv s) (hk : kbd.ring = pushChar s.ring c) : Inv (s.interrupted kbd) := by
  obtain ⟨hacc, hpend, hholds, htail⟩ := interrupted_eq h hk
  have hchars : (s.interrupted kbd).chars = s.chars := rfl
  refine ⟨hholds, ?_, ?_, h.point.mono htail ?_⟩
  · rw [hchars, hpend, hacc]
    split_ifs
    · exact h.order
    · rw [← List.append_assoc, h.order]
  · rw [hacc]
    split_ifs with hc
    · exact h.nonzero
    · rw [List.mem_append, List.mem_singleton]
      exact not_or.2 ⟨h.nonzero, fun h0 => hc (Or.inl h0.symm)⟩
  · rw [hpend]
    split_ifs
    · exact List.prefix_refl _
    · exact List.prefix_append _ _

/-- a step of the call that changes nothing but its point -/
theorem Inv.moveTo (h : Inv s) (hp : At s p) : Inv { s with point := p } :=
  ⟨h.holds, h.order, h.nonzero, by cases p <;> exact hp⟩

/-- the call returns 0 -/
theorem Inv.retZero (h : Inv s) : Inv (s.ret 0) := by
  have hchars : (s.ret 0).chars = s.chars := by simp [Sys.chars, Sys.ret]
  refine ⟨?_, ?_, h.nonzero, trivial⟩
  · rw [pending_zero]
    exact h.holds
  · rw [pending_zero, hchars]
    exact h.order

theorem Inv.front_ne (h : Inv s) (hc : s.pending.head? = some c) : c ≠ 0 := by
  rintro rfl
  refine h.nonzero ?_
  rw [← h.order]
  exact List.mem_append_right _ (List.mem_of_mem_head? hc)

/-- **The last access**: the front of the queue is given out. -/
theorem Inv.retChar (h : Inv s) (hc : s.pending.head? = some c) :
    Inv ((s.setTail ((s.ring.tail + 1).tmod BUFFER_SIZE)).ret c) := by
  have hc0 := h.front_ne hc
  have hq : s.pending = c :: s.pending.tail := List.eq_cons_of_mem_head? hc
  have hholds := h.holds
  rw [hq] at hholds
  have hpend : ((s.setTail ((s.ring.tail + 1).tmod BUFFER_SIZE)).ret c).pending = s.pending.tail := pending_ret hc0
  have hchars : ((s.setTail ((s.ring.tail + 1).tmod BUFFER_SIZE)).ret c).chars = s.chars ++ [c] := chars_ret hc0
  refine ⟨?_, ?_, h.nonzero, trivial⟩
  · rw [hpend, tmod_size h.holds.first.1]
    exact hholds.pop
  · rw [hpend, hchars, List.append_assoc, List.singleton_append, ← hq]
    exact h.order

theorem Inv.access (h : Inv s) (hs : access s b = some s') : Inv s' := by
  have hpt := h.point
  unfold Keyboard.access at hs
  cases hp : s.point with
  | out => rw [hp] at hs; cases hs
  | entered =>
    rw [hp] at hs
    cases hs
    cases b with
    | true => exact h.moveTo fun hne he => hne (h.holds.empty_iff.2 he)
    | false => exact h.moveTo rfl
  | headRead head =>
    rw [hp] at hs hpt
    cases hs
    split_ifs with he
    · exact h.retZero
    · exact h.moveTo (hpt he)
  | tailRead tail =>
    rw [hp] at hs hpt
    cases hs
    split_ifs with he
    · exact h.retZero
    · exact h.moveTo fun hn => he ((h.holds.empty_iff.2 hn).trans hpt.symm)
  | nonempty =>
    rw [hp] at hs hpt
    cases hs
    exact h.moveTo ⟨rfl, hpt⟩
  | index tail =>
    rw [hp] at hs hpt
    cases hs
    obtain ⟨rfl, hne⟩ := hpt
    obtain ⟨c, q, hq⟩ := List.exists_cons_of_ne_nil hne
    have hholds := h.holds
    rw [hq] at hholds
    refine h.moveTo ?_
    show s.pending.head? = some (s.ring.buffer s.ring.tail)
    rw [hq, hholds.front]
    rfl
  | char c =>
    rw [hp] at hs hpt
    cases hs
    exact h.moveTo ⟨rfl, hpt⟩
  | next c tail =>
    rw [hp] at hs hpt
    cases hs
    obtain ⟨rfl, hc⟩ := hpt
    exact h.retChar hc

theorem step_inv {e : Event} (h : Inv s) (hs : step s e = some s') : Inv s' := by
  cases e with
  | push c =>
    cases hs
    exact h.interrupted rfl
  | irq scancode =>
    cases hs
    obtain ⟨c, hc⟩ := handler_push s.kbd scancode
    exact h.interrupted hc
  | call =>
    rw [step] at hs
    split_ifs at hs
    cases hs
    exact h.moveTo trivial
  | access b => exact h.access hs

end Calls

/-! ## Runs -/

section Runs

variable {tty : Tty.St} {es : List Event} {s s' : Sys} {b : Bool} {e : Event}

theorem boot_inv (tty : Tty.St) : Inv (boot tty) := ⟨IsFifo.empty (by decide), rfl, List.not_mem_nil, trivial⟩

theorem run_snoc (hr : (es ++ [e]).foldlM step (boot tty) = some s') :
    ∃ s, es.foldlM step (boot tty) = some s ∧ step s e = some s' := by
  rw [List.foldlM_append] at hr
  obtain ⟨s, h1, h2⟩ := Option.bind_eq_some_iff.1 hr
  obtain ⟨s1, h3, h4⟩ := Option.bind_eq_some_iff.1 h2
  cases h4
  exact ⟨s, h1, h3⟩

/-- the call goes on -/
theorem Lull.snoc (h : Lull tty es) (he : e ≠ .call) : Lull tty (es ++ [e]) := by
  obtain ⟨es1, es2, s, rfl, hno, hrun⟩ := h
  refine ⟨es1, es2 ++ [e], s, List.append_assoc .., ?_, hrun⟩
  rw [List.mem_append, List.mem_singleton]
  exact not_or.2 ⟨hno, fun hc => he hc.symm⟩

theorem access_headRead {head : ℤ} (hs : access s b = some s') (hp : s'.point = .headRead head) :
    s.point = .entered ∧ s.ring.head = head ∧ s'.ring.tail = s.ring.tail := by
  unfold access at hs
  cases hpt : s.point with
  | out => rw [hpt] at hs; cases hs
  | entered =>
    rw [hpt] at hs
    cases hs
    cases b with
    | true => exact ⟨rfl, Point.headRead.inj hp, rfl⟩
    | false => cases hp
  | headRead _ | tailRead _ =>
    rw [hpt] at hs
    cases hs
    split_ifs at hp
    cases hp
  | _ =>
    rw [hpt] at hs
    cases hs
    cases hp

/-- a call that is about to find head = tail has seen the ring empty -/
theorem lull_headRead (hr : es.foldlM step (boot tty) = some s) (hp : s.point = .headRead s.ring.tail) :
    Lull tty es := by
  induction es using List.reverseRecOn generalizing s with
  | nil =>
    cases hr
    cases hp
  | append_singleton es e ih =>
    obtain ⟨s0, h0, hs⟩ := run_snoc hr
    have hinv : Inv s0 := run_inv (fun _ _ _ h hst => step_inv h hst) (boot_inv tty) h0
    have hpush : ∀ {kbd c}, kbd.ring = pushChar s0.ring c → s0.interrupted kbd = s → Lull tty es := by
      rintro kbd c hk rfl
      exact ih h0 (hp.trans (congrArg _ (interrupted_eq hinv hk).2.2.2))
    cases e with
    | push c => exact (hpush rfl (Option.some.inj hs)).snoc Event.noConfusion
    | irq scancode =>
      obtain ⟨c, hc⟩ := handler_push s0.kbd scancode
      exact (hpush hc (Option.some.inj hs)).snoc Event.noConfusion
    | call =>
      rw [step] at hs
      split_ifs at hs
      cases hs
      cases hp
    | access b =>
      obtain ⟨hpt, he, htail⟩ := access_headRead hs hp
      refine ⟨es, [.access b], s0, rfl, by simp, h0, ?_, hinv.holds.empty_iff.1 (he.trans htail)⟩
      rw [hpt]
      exact Point.noConfusion

theorem returned_ne (c : U8) : s.returned ≠ s.returned ++ [c] := fun h => by
  have hlen := congrArg List.length h
  rw [List.length_append, List.length_singleton] at hlen
  omega

/-- **0 only when none is pending.** -/
theorem lull_zero (hr : es.foldlM step (boot tty) = some s) (hs : step s e = some s')
    (hret : s'.returned = s.returned ++ [0]) : Lull tty es := by
  have hinv : Inv s := run_inv (fun _ _ _ h hst => step_inv h hst) (boot_inv tty) hr
  have hpt := hinv.point
  cases e with
  | push c =>
    cases hs
    exact absurd hret (returned_ne 0)
  | irq scancode =>
    cases hs
    exact absurd hret (returned_ne 0)
  | call =>
    rw [step] at hs
    split_ifs at hs
    cases hs
    exact absurd hret (returned_ne 0)
  | access b =>
    unfold step access at hs
    cases hp : s.point with
    | out => rw [hp] at hs; cases hs
    | headRead head =>
      rw [hp] at hs
      cases hs
      split_ifs at hret with he
      · exact lull_headRead hr (hp.trans (congrArg _ he))
      · exact absurd hret (returned_ne 0)
    | tailRead tail =>
      rw [hp] at hs hpt
      cases hs
      split_ifs at hret with he
      · exact ⟨es, [], s, (List.append_nil es).symm, List.not_mem_nil, hr, by rw [hp]; exact Point.noConfusion,
          hinv.holds.empty_iff.1 (he.trans hpt)⟩
      · exact absurd hret (returned_ne 0)
    | next c tail =>
      -- a character is never 0
      rw [hp] at hs hpt
      cases hs
      have hc : c = 0 := List.singleton_inj.1 (List.append_cancel_left hret)
      exact absurd hc (hinv.front_ne hpt.2)
    | _ =>
      rw [hp] at hs
      cases hs
      exact absurd hret (returned_ne 0)

theorem access_left (hp : s.point ≠ .out) (b : Bool) :
    ∃ s', step s (.access b) = some s' ∧ s'.point.left < s.point.left := by
  show ∃ s', access s b = some s' ∧ _
  unfold access
  cases hpt : s.point with
  | out => exact absurd hpt hp
  | entered => exact ⟨_, rfl, by cases b <;> exact Nat.lt_succ_self 5⟩
  | headRead head =>
    refine ⟨_, rfl, ?_⟩
    split_ifs
    · exact Nat.zero_lt_succ 4
    · exact Nat.lt_succ_self 4
  | tailRead tail =>
    refine ⟨_, rfl, ?_⟩
    split_ifs
    · exact Nat.zero_lt_succ 4
    · exact Nat.lt_succ_self 4
  | nonempty => exact ⟨_, rfl, Nat.lt_succ_self 3⟩
  | index tail => exact ⟨_, rfl, Nat.lt_succ_self 2⟩
  | char c => exact ⟨_, rfl, Nat.lt_succ_self 1⟩
  | next c tail => exact ⟨_, rfl, Nat.zero_lt_succ 0⟩

/-- **A bounded queue.** Over every run of interrupts and calls, wherever a call is interrupted: the indices stay in the
array, the characters given out are those accepted, in order and each once, 0 stands for an empty ring, and a character
is dropped only if 63 are pending. -/
theorem keyboard_fifo (tty : Tty.St) (es : List Event) (s : Sys) (hr : es.foldlM step (boot tty) = some s) :
    Bounded tty es s := by
  have hinv : Inv s := run_inv (fun _ _ _ h hst => step_inv h hst) (boot_inv tty) hr
  refine ⟨hinv.holds.last_mem, hinv.holds.first, hinv.order, hinv.nonzero, fun c s' hs => ?_,
    fun scancode s' hs => irq_push hs, fun hout => ⟨(getchar_spec hinv.holds).1, fun b => ?_⟩,
    fun e s' hs hret => lull_zero hr hs hret, access_left⟩
  · cases hs
    exact (interrupted_eq hinv rfl).1
  · obtain ⟨n, hn⟩ := getchar_steps hout b
    exact ⟨n, _, hn, rfl, rfl⟩

/-- a letter typed between the two reads of the test -/
theorem keyboard_fifo_typed : ∃ tty s,
    [Event.call, .access true, .irq 0x1E, .access true].foldlM step (boot tty) = some s ∧
    s.returned = [0] ∧ s.pending = [0x61] ∧ Bounded tty [.call, .access true, .irq 0x1E, .access true] s :=
  ⟨⟨fun _ => ⟨fun _ => 0, 0, 0⟩, 0, false, fun _ => 0, (0, 0), []⟩, _, rfl, rfl, rfl, keyboard_fifo _ _ _ rfl⟩

end Runs

end Retux.Keyboard
