/-
Canonical stdin (`sys_read_stdin` in `cpu/syscall.cpp`).

All readers share one line buffer and three variables. A reader goes round the loop, one key a round, until the line is
ready, then copies out what it asked for; it may lose the CPU between rounds. Here any task inside `sys_read(0)` may
take the next turn, with any character from `keyboard::getchar` (0 is no key), so that every interleaving is a run.
Tasks outside take no turn.

- `cook`: what a typed stream should read as, with its backspaces applied and every line ended by its newline;
- `cook_lines`: it is a sequence of lines;
- `delivered_iff`: over whole runs, what the readers got and what is held for them is the cooked stream, exactly when no
  newline is typed onto a full line. Such a newline ends the line but is not stored.
-/
import Mathlib.Tactic
import Retux.Lib.Run
import Retux.Tty.Console

namespace Retux.Stdin

open Retux.Run Retux.Tty

/-! ## Model -/

def STDIN_LINE_CAP : ℕ := 256
def BACKSPACE : U8 := 0x08
def NEWLINE : U8 := 0x0A

structure St where
  stdinLine : ℕ → U8
  stdinLineLen : ℕ
  stdinLinePos : ℕ
  stdinLineReady : Bool
  tty : Tty.St
  /-- tasks inside the call, with the length they asked for -/
  reading : ℕ → Option (BitVec 64)
  /-- the bytes returned so far by all reads, and the characters taken from the keyboard (ghosts) -/
  returned : List U8
  typed : List U8

/-- bytes i to i + n of a buffer -/
def slice (buf : ℕ → U8) (i n : ℕ) : List U8 := (List.range n).map fun k => buf (i + k)

/-- one round of the loop, with the character `getchar` gave -/
def key (s : St) (c : U8) : St :=
  let s := { s with typed := s.typed ++ [c] }
  if c = 0 then s
  else if c = BACKSPACE then
    if s.stdinLineLen > 0 then { s with stdinLineLen := s.stdinLineLen - 1, tty := print s.tty BACKSPACE } else s
  else
    let s :=
      if s.stdinLineLen < STDIN_LINE_CAP - 1 then
        { s with
          stdinLine := Function.update s.stdinLine s.stdinLineLen c
          stdinLineLen := s.stdinLineLen + 1
          tty := print s.tty c }
      else s
    if c = NEWLINE then { s with stdinLineReady := true } else s

/-- what follows the loop: `memcpy` to the caller, and a reset once the line is drained -/
def copyOut (s : St) (len : BitVec 64) : St :=
  let avail := s.stdinLineLen - s.stdinLinePos
  let n := if len.toNat < avail then len.toNat else avail
  let s := { s with returned := s.returned ++ slice s.stdinLine s.stdinLinePos n, stdinLinePos := s.stdinLinePos + n }
  if s.stdinLinePos ≥ s.stdinLineLen then
    { s with stdinLineLen := 0, stdinLinePos := 0, stdinLineReady := false }
  else s

inductive Event where
  /-- a task calls `sys_read(0, buf, len)` -/
  | read (task : ℕ) (len : BitVec 64)
  /-- it is at the head of the loop; c is the next character -/
  | turn (task : ℕ) (c : U8)

def next (s : St) : Event → St
  | .read task len =>
    if (s.reading task).isSome then s else { s with reading := Function.update s.reading task (some len) }
  | .turn task c =>
    match s.reading task with
    | none => s
    | some len =>
      if s.stdinLineReady then copyOut { s with reading := Function.update s.reading task none } len else key s c

def step (s : St) (e : Event) : Option St := some (next s e)

def start (tty : Tty.St) : St := ⟨fun _ => 0, 0, 0, false, tty, fun _ => none, [], []⟩

/-! ## What should be read -/

/-- the finished lines, and the one being typed -/
structure Cooked where
  done : List U8
  line : List U8

def Cooked.key (k : Cooked) (c : U8) : Cooked :=
  if c = 0 then k
  else if c = BACKSPACE then { k with line := k.line.dropLast }
  else if c = NEWLINE then ⟨k.done ++ (k.line ++ [NEWLINE]), []⟩
  else if k.line.length < STDIN_LINE_CAP - 1 then { k with line := k.line ++ [c] }
  else k

def cook (cs : List U8) : Cooked := cs.foldl Cooked.key ⟨[], []⟩

theorem cook_snoc (cs : List U8) (c : U8) : cook (cs ++ [c]) = (cook cs).key c := by
  simp [cook, List.foldl_append]

/-- a typed line: it fits in the buffer and has no newline in it -/
def IsLine (l : List U8) : Prop := l.length ≤ STDIN_LINE_CAP - 1 ∧ NEWLINE ∉ l

/-- **Lines.** The cooked stream is a sequence of typed lines, each with its newline. -/
theorem cook_lines (cs : List U8) : IsLine (cook cs).line ∧
    ∃ ls : List (List U8), (∀ l ∈ ls, IsLine l) ∧ (cook cs).done = ls.flatMap (· ++ [NEWLINE]) := by
  induction cs using List.reverseRecOn with
  | nil => exact ⟨⟨Nat.zero_le _, List.not_mem_nil⟩, [], by simp, rfl⟩
  | append_singleton cs c ih =>
    obtain ⟨⟨hlen, hno⟩, ls, hls, hdone⟩ := ih
    rw [cook_snoc, Cooked.key]
    split_ifs with h0 hb hn hroom
    · exact ⟨⟨hlen, hno⟩, ls, hls, hdone⟩
    · refine ⟨⟨?_, fun h => hno (List.mem_of_mem_dropLast h)⟩, ls, hls, hdone⟩
      rw [List.length_dropLast]
      omega
    · refine ⟨⟨Nat.zero_le _, List.not_mem_nil⟩, ls ++ [(cook cs).line], fun l hl => ?_, ?_⟩
      · rcases List.mem_append.1 hl with hl | hl
        · exact hls l hl
        · rw [List.mem_singleton.1 hl]
          exact ⟨hlen, hno⟩
      · simp [hdone]
    · refine ⟨⟨?_, fun h => ?_⟩, ls, hls, hdone⟩
      · rw [List.length_append, List.length_singleton]
        omega
      · rcases List.mem_append.1 h with h | h
        · exact hno h
        · exact hn (List.mem_singleton.1 h).symm
    · exact ⟨⟨hlen, hno⟩, ls, hls, hdone⟩

/-! ## The readers -/

/-- finished bytes that no read has fetched yet -/
def St.held (s : St) : List U8 :=
  if s.stdinLineReady then slice s.stdinLine s.stdinLinePos (s.stdinLineLen - s.stdinLinePos) else []

/-- no byte is lost, repeated, or delivered before its line is finished -/
def Delivered (s : St) : Prop := s.returned ++ s.held = (cook s.typed).done

/-- a newline finds room -/
def Room (s : St) : Event → Prop
  | .read _ _ => True
  | .turn task c => (s.reading task).isSome → s.stdinLineReady = false → c = NEWLINE →
    s.stdinLineLen < STDIN_LINE_CAP - 1

structure Inv (s : St) : Prop where
  delivered : Delivered s
  typing : s.stdinLineReady = false → s.stdinLinePos = 0 ∧ slice s.stdinLine 0 s.stdinLineLen = (cook s.typed).line
  waiting : s.stdinLineReady = true → s.stdinLinePos < s.stdinLineLen ∧ (cook s.typed).line = []
  fits : s.stdinLineLen ≤ STDIN_LINE_CAP - 1

section Readers

variable {s : St} {buf : ℕ → U8} {i n : ℕ} {c : U8} {len : BitVec 64}

theorem length_slice : (slice buf i n).length = n := by simp [slice]

theorem slice_succ : slice buf i (n + 1) = slice buf i n ++ [buf (i + n)] := by simp [slice, List.range_succ]

theorem slice_split (k : ℕ) : slice buf i (k + n) = slice buf i k ++ slice buf (i + k) n := by
  simp [slice, List.range_add, Nat.add_assoc]

/-- a byte stored behind the line becomes its last -/
theorem slice_push : slice (Function.update buf n c) 0 (n + 1) = slice buf 0 n ++ [c] := by
  have hfront : slice (Function.update buf n c) 0 n = slice buf 0 n := by
    refine List.map_congr_left fun k hk => ?_
    have hkn := List.mem_range.1 hk
    exact Function.update_of_ne (by omega) _ _
  rw [slice_succ, hfront, Nat.zero_add, Function.update_self]

/-- while a line is typed, all finished bytes have been fetched -/
theorem Inv.typing_done (h : Inv s) (hr : s.stdinLineReady = false) : s.returned = (cook s.typed).done := by
  have hd := h.delivered
  rwa [Delivered, St.held, hr, if_neg (by decide), List.append_nil] at hd

/-- **A key.** -/
theorem Inv.key (h : Inv s) (hr : s.stdinLineReady = false)
    (hroom : c = NEWLINE → s.stdinLineLen < STDIN_LINE_CAP - 1) : Inv (key s c) := by
  have hdone := h.typing_done hr
  obtain ⟨hpos, hline⟩ := h.typing hr
  have hlen : (cook s.typed).line.length = s.stdinLineLen := by rw [← hline, length_slice]
  have hfits := h.fits
  have hcook := cook_snoc s.typed c
  unfold Stdin.key
  simp only
  by_cases h0 : c = 0
  · -- no key: the reader yields
    rw [if_pos h0]
    rw [Cooked.key, if_pos h0] at hcook
    refine ⟨?_, fun _ => ⟨hpos, by rw [hcook]; exact hline⟩, fun hr' => ?_, hfits⟩
    · simp [Delivered, St.held, hr, hcook, hdone]
    · rw [show s.stdinLineReady = true from hr'] at hr
      cases hr
  rw [if_neg h0]
  rw [Cooked.key, if_neg h0] at hcook
  by_cases hb : c = BACKSPACE
  · rw [if_pos hb]
    rw [if_pos hb] at hcook
    split_ifs with hpos'
    · refine ⟨?_, fun _ => ⟨hpos, ?_⟩, fun hr' => ?_, by simp only; omega⟩
      · simp [Delivered, St.held, hr, hcook, hdone]
      · obtain ⟨n, hn⟩ := Nat.exists_eq_succ_of_ne_zero (Nat.ne_of_gt hpos')
        rw [hcook, ← hline]
        simp only [hn, slice_succ, List.dropLast_concat]
        rfl
      · rw [show s.stdinLineReady = true from hr'] at hr
        cases hr
    · -- at the line start the key does nothing
      have hempty : s.stdinLineLen = 0 := by omega
      have hnil : (cook s.typed).line = [] := by rw [← List.length_eq_zero_iff, hlen, hempty]
      refine ⟨?_, fun _ => ⟨hpos, ?_⟩, fun hr' => ?_, hfits⟩
      · simp [Delivered, St.held, hr, hcook, hdone]
      · rw [hcook, hnil, hempty]
        rfl
      · rw [show s.stdinLineReady = true from hr'] at hr
        cases hr
  rw [if_neg hb]
  rw [if_neg hb] at hcook
  by_cases hn : c = NEWLINE
  · rw [if_pos (hroom hn), if_pos hn]
    rw [if_pos hn] at hcook
    have hr1 := hroom hn
    refine ⟨?_, fun hr' => ?_, fun _ => ⟨?_, ?_⟩, ?_⟩
    · unfold Delivered St.held
      simp only [if_true, hpos, Nat.sub_zero]
      rw [slice_push, hcook, hdone, ← hline, hn]
    · cases hr'
    · simp only [hpos]
      omega
    · rw [hcook]
    · simp only
      omega
  · rw [if_neg hn]
    rw [if_neg hn] at hcook
    split_ifs with hroom'
    · rw [if_pos (hlen ▸ hroom')] at hcook
      refine ⟨?_, fun _ => ⟨hpos, ?_⟩, fun hr' => ?_, ?_⟩
      · simp [Delivered, St.held, hr, hcook, hdone]
      · simp only
        rw [hcook, ← hline]
        exact slice_push
      · rw [show s.stdinLineReady = true from hr'] at hr
        cases hr
      · simp only
        omega
    · rw [if_neg (hlen ▸ hroom')] at hcook
      refine ⟨?_, fun _ => ⟨hpos, by rw [hcook]; exact hline⟩, fun hr' => ?_, hfits⟩
      · simp [Delivered, St.held, hr, hcook, hdone]
      · rw [show s.stdinLineReady = true from hr'] at hr
        cases hr

/-- **A read that returns.** -/
theorem Inv.copyOut (h : Inv s) (hr : s.stdinLineReady = true) : Inv (copyOut s len) := by
  obtain ⟨hlt, hnil⟩ := h.waiting hr
  have hd : s.returned ++ slice s.stdinLine s.stdinLinePos (s.stdinLineLen - s.stdinLinePos) = (cook s.typed).done := by
    have := h.delivered
    rwa [Delivered, St.held, hr, if_pos rfl] at this
  have hfits := h.fits
  unfold Stdin.copyOut
  simp only
  generalize hn : (if len.toNat < s.stdinLineLen - s.stdinLinePos then len.toNat
    else s.stdinLineLen - s.stdinLinePos) = n
  have hle : n ≤ s.stdinLineLen - s.stdinLinePos := by
    rw [← hn]
    split_ifs with hl
    · exact Nat.le_of_lt hl
    · exact le_rfl
  split_ifs with hdrained
  · -- the last of the line
    have hall : n = s.stdinLineLen - s.stdinLinePos := by omega
    refine ⟨?_, fun _ => ⟨rfl, ?_⟩, fun hr' => ?_, Nat.zero_le _⟩
    · unfold Delivered St.held
      simp only [Bool.false_eq_true, if_false, List.append_nil, hall]
      exact hd
    · rw [hnil]
      rfl
    · cases hr'
  · have hrest : s.stdinLineLen - s.stdinLinePos = n + (s.stdinLineLen - (s.stdinLinePos + n)) := by omega
    refine ⟨?_, fun hr' => ?_, fun _ => ⟨?_, hnil⟩, hfits⟩
    · rw [hrest, slice_split, ← List.append_assoc] at hd
      unfold Delivered St.held
      simp only [hr, if_true]
      exact hd
    · rw [show s.stdinLineReady = false from hr'] at hr
      cases hr
    · simp only
      omega

theorem Inv.setReading (h : Inv s) (r : ℕ → Option (BitVec 64)) : Inv { s with reading := r } :=
  ⟨h.delivered, h.typing, h.waiting, h.fits⟩

theorem next_turn {task : ℕ} (h : s.reading task = some len) : next s (.turn task c) =
    if s.stdinLineReady then copyOut { s with reading := Function.update s.reading task none } len else key s c := by
  simp only [next, h]

theorem next_inv {e : Event} (h : Inv s) (hg : Room s e) : Inv (next s e) := by
  cases e with
  | read task len =>
    simp only [next]
    split_ifs
    · exact h
    · exact h.setReading _
  | turn task c =>
    cases hreads : s.reading task with
    | none => simpa only [next, hreads] using h
    | some len =>
      rw [next_turn hreads]
      split_ifs with hr
      · exact (h.setReading _).copyOut hr
      · exact h.key (Bool.eq_false_iff.2 hr) (hg (by rw [hreads]; rfl) (Bool.eq_false_iff.2 hr))

/-- a newline on a full line is lost -/
theorem key_full (h : Inv s) (hr : s.stdinLineReady = false) (hfull : ¬ s.stdinLineLen < STDIN_LINE_CAP - 1) :
    ¬ Delivered (key s NEWLINE) := by
  have hdone := h.typing_done hr
  obtain ⟨hpos, hline⟩ := h.typing hr
  intro hd
  have hkey : key s NEWLINE = { s with typed := s.typed ++ [NEWLINE], stdinLineReady := true } := by
    simp [key, hfull, NEWLINE, BACKSPACE]
  have hcook : (cook (s.typed ++ [NEWLINE])).done = (cook s.typed).done ++ ((cook s.typed).line ++ [NEWLINE]) := by
    rw [cook_snoc]
    simp [Cooked.key, NEWLINE, BACKSPACE]
  rw [hkey, Delivered, St.held] at hd
  simp only [if_true, hpos, Nat.sub_zero] at hd
  rw [hcook, hdone, ← hline] at hd
  have hlen := congrArg List.length (List.append_cancel_left hd)
  rw [List.length_append, List.length_singleton] at hlen
  omega

end Readers

/-! ## Runs -/

theorem start_inv (tty : Tty.St) : Inv (start tty) := by
  refine ⟨rfl, fun _ => ⟨rfl, rfl⟩, fun hr => ?_, Nat.zero_le _⟩
  cases hr

theorem run_isSome (es : List Event) (s : St) : (es.foldlM step s).isSome := by
  induction es generalizing s with
  | nil => rfl
  | cons e es ih => exact ih (next s e)

/-- **Canonical stdin, exactly when.** Over any interleaving of any reads with any keys, the bytes delivered are the
cooked stream, less what is held of a finished line, if and only if no newline is typed onto a full line. -/
theorem delivered_iff (tty : Tty.St) (es : List Event) :
    Always step Delivered (start tty) es ↔ Each step Room (start tty) es := by
  refine always_iff_each (I := Inv) (fun _ h => h.delivered) ?_ ?_ (start_inv tty) (run_isSome es _)
  · intro s e s' h hg hs
    cases hs
    exact next_inv h hg
  · intro s e s' h hg hs
    cases hs
    cases e with
    | read task len => exact absurd trivial hg
    | turn task c =>
      simp only [Room] at hg
      push Not at hg
      obtain ⟨hreads, hr, rfl, hfull⟩ := hg
      obtain ⟨len, hlen⟩ := Option.isSome_iff_exists.1 hreads
      rw [next_turn hlen, hr]
      exact key_full h hr (not_lt.2 hfull)

/-- letters typed into a read, as many as fit -/
theorem letters_run {s : St} {len : BitVec 64} (h : Inv s) (hreads : s.reading 0 = some len)
    (hr : s.stdinLineReady = false) (k : ℕ) (hk : s.stdinLineLen + k ≤ STDIN_LINE_CAP - 1) :
    ∃ s', (List.replicate k (Event.turn 0 0x61)).foldlM step s = some s' ∧ Inv s' ∧ s'.reading 0 = some len ∧
      s'.stdinLineReady = false ∧ s'.stdinLineLen = s.stdinLineLen + k := by
  induction k generalizing s with
  | zero => exact ⟨s, rfl, h, hreads, hr, rfl⟩
  | succ k ih =>
    have hroom : s.stdinLineLen < STDIN_LINE_CAP - 1 := by omega
    have hinv : Inv (next s (.turn 0 0x61)) := next_inv h fun _ _ hc => absurd hc (by decide)
    have hnext : (next s (.turn 0 0x61)).reading 0 = some len ∧ (next s (.turn 0 0x61)).stdinLineReady = false ∧
        (next s (.turn 0 0x61)).stdinLineLen = s.stdinLineLen + 1 := by
      simp [next, hreads, hr, key, hroom, BACKSPACE, NEWLINE]
    obtain ⟨s', hs, h', hreads', hr', hlen⟩ := ih hinv hnext.1 hnext.2.1 (by rw [hnext.2.2]; omega)
    exact ⟨s', hs, h', hreads', hr', by rw [hlen, hnext.2.2]; omega⟩

/-- **The lost newline.** 255 letters, then Enter. -/
theorem newline_lost : ¬ ∀ (tty : Tty.St) (es : List Event), Always step Delivered (start tty) es := by
  intro hall
  have tty : Tty.St := ⟨fun _ => ⟨fun _ => 0, 0, 0⟩, 0, false, fun _ => 0, (0, 0), []⟩
  have h0 : Inv (next (start tty) (.read 0 1000)) := next_inv (start_inv tty) trivial
  have hlen0 : (next (start tty) (.read 0 1000)).stdinLineLen = 0 := rfl
  obtain ⟨s, hs, h, hreads, hr, hlen⟩ := letters_run h0 rfl rfl 255 (by rw [hlen0]; decide)
  have hlast : step s (.turn 0 NEWLINE) = some (key s NEWLINE) := by
    rw [step, next_turn hreads, hr]
    rfl
  have hrun : ([Event.read 0 1000] ++ (List.replicate 255 (Event.turn 0 0x61) ++ [Event.turn 0 NEWLINE])).foldlM step
      (start tty) = some (key s NEWLINE) := run_append rfl (run_append hs (run_one hlast))
  exact key_full h hr (by rw [hlen, hlen0]; decide) ((hall tty _).last hrun)

end Retux.Stdin
