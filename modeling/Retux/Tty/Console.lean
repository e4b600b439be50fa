/-
The virtual consoles (`tty/tty.cpp`).

Four text buffers of 25 rows by 80 columns, one of them on the VGA screen. `row` and `col` are bytes and wrap as bytes do;
a cell's position is an int. Buffers and VGA memory are functions of the index, so that an index outside is a value of
the model like any other, and `log` keeps every index the code reads or writes (ghost).

- `Home`: the cursor in the corner, where a backspace steps back to row 255;
- `init_spec`: the state after `tty::init`;
- `onScreen_iff`: over whole runs, the cursors stay on screen exactly when no backspace is printed at `Home`;
- `backspace_undoes_iff`: a backspace undoes the character before it exactly when that did not fill its row.
-/
import Mathlib.Tactic
import Retux.Lib.Run

namespace Retux.Tty

open Retux.Run

abbrev U8 := BitVec 8
abbrev U16 := BitVec 16

/-! ## Model -/

def COLOR : U8 := 0x0F
def VGA_WIDTH : ℕ := 80
def VGA_HEIGHT : ℕ := 25
abbrev NUM_CONSOLES : ℕ := 4

instance consolesNeZero : NeZero NUM_CONSOLES := ⟨by decide⟩

structure Console where
  buffer : ℕ → U16
  row : U8
  col : U8

/-- a cell the code touches: in a console's buffer, or on the screen -/
inductive Access where
  | buffer (console : Fin NUM_CONSOLES) (pos : ℕ)
  | vga (pos : ℕ)

def Access.pos : Access → ℕ
  | .buffer _ pos => pos
  | .vga pos => pos

structure St where
  consoles : Fin NUM_CONSOLES → Console
  activeConsole : Fin NUM_CONSOLES
  initialized : Bool
  vga : ℕ → U16
  /-- the hardware cursor: registers 0x0E and 0x0F of the CRT controller -/
  cursor : U8 × U8
  log : List Access

/-- `COLOR << 8 | c` -/
def cell (c : U8) : U16 := (COLOR.zeroExtend 16 <<< 8) ||| c.zeroExtend 16

def blank : U16 := cell 0x20

namespace Console

/-- `con.row * VGA_WIDTH + con.col` -/
def pos (con : Console) : ℕ := con.row.toNat * VGA_WIDTH + con.col.toNat

end Console

namespace St

def active (t : St) : Console := t.consoles t.activeConsole

def setConsole (t : St) (i : Fin NUM_CONSOLES) (con : Console) : St :=
  { t with consoles := Function.update t.consoles i con }

/-- `con.row = row; con.col = col` -/
def moveTo (t : St) (i : Fin NUM_CONSOLES) (row col : U8) : St :=
  t.setConsole i { t.consoles i with row := row, col := col }

/-- `con.buffer[pos]` -/
def read (t : St) (i : Fin NUM_CONSOLES) (pos : ℕ) : U16 × St :=
  ((t.consoles i).buffer pos, { t with log := .buffer i pos :: t.log })

/-- `con.buffer[pos] = x` -/
def write (t : St) (i : Fin NUM_CONSOLES) (pos : ℕ) (x : U16) : St :=
  { t.setConsole i { t.consoles i with buffer := Function.update (t.consoles i).buffer pos x } with
    log := .buffer i pos :: t.log }

/-- `vga[pos] = x` -/
def writeVga (t : St) (pos : ℕ) (x : U16) : St :=
  { t with vga := Function.update t.vga pos x, log := .vga pos :: t.log }

end St

def updateCursor (t : St) : St :=
  let pos := t.active.pos
  { t with cursor := (BitVec.ofNat 8 (pos / 256), BitVec.ofNat 8 pos) }

/-- one round of `render_console` -/
def renderCell (idx : Fin NUM_CONSOLES) (t : St) (i : ℕ) : St :=
  let (x, t) := t.read idx i
  t.writeVga i x

def renderConsole (t : St) (idx : Fin NUM_CONSOLES) : St :=
  let t := (List.range (VGA_WIDTH * VGA_HEIGHT)).foldl (renderCell idx) t
  if idx = t.activeConsole then updateCursor t else t

/-- one cell up a row -/
def scrollCell (i : Fin NUM_CONSOLES) (row : ℕ) (t : St) (col : ℕ) : St :=
  let (x, t) := t.read i (row * VGA_WIDTH + col)
  t.write i ((row - 1) * VGA_WIDTH + col) x

def scrollRow (i : Fin NUM_CONSOLES) (t : St) (row : ℕ) : St := (List.range VGA_WIDTH).foldl (scrollCell i row) t

def clearCell (i : Fin NUM_CONSOLES) (start : ℕ) (t : St) (col : ℕ) : St := t.write i (start + col) blank

def scroll (t : St) (i : Fin NUM_CONSOLES) : St :=
  let t := (List.range' 1 (VGA_HEIGHT - 1)).foldl (scrollRow i) t
  let t := (List.range VGA_WIDTH).foldl (clearCell i ((VGA_HEIGHT - 1) * VGA_WIDTH)) t
  t.moveTo i 24 0

def initConsole (t : St) (i : Fin NUM_CONSOLES) : St :=
  ((List.range (VGA_WIDTH * VGA_HEIGHT)).foldl (clearCell i 0) t).moveTo i 0 0

/-- `tty::init`, from any state of the memory it sets up; the log starts here -/
def init (t : St) : St :=
  let t := (List.finRange NUM_CONSOLES).foldl initConsole { t with log := [] }
  let t := t.write 0 0 (cell 0x31)
  let t := t.write 1 0 (cell 0x32)
  let t := t.write 2 0 (cell 0x33)
  let t := t.write 3 0 (cell 0x34)
  { renderConsole { t with activeConsole := 0 } 0 with initialized := true }

/-- `if (++con.row >= VGA_HEIGHT)` and what follows, with the column already 0 -/
def nextRow (t : St) : St :=
  let row := t.active.row + 1
  let t := t.moveTo t.activeConsole row t.active.col
  if row.toNat ≥ VGA_HEIGHT then
    let t := scroll t t.activeConsole
    updateCursor (renderConsole t t.activeConsole)
  else updateCursor t

def printBackspace (t : St) : St :=
  if t.active.col = 0 then
    -- `if (con.row < 0) con.row = 0` tests a u8: it never fires
    t.moveTo t.activeConsole (t.active.row - 1) 79
  else
    let t := t.moveTo t.activeConsole t.active.row (t.active.col - 1)
    let pos := t.active.pos
    updateCursor ((t.write t.activeConsole pos blank).writeVga pos blank)

/-- `tty::print(char)` -/
def print (t : St) (c : U8) : St :=
  if t.initialized = false then t
  else if c = 0x08 then printBackspace t
  else if c = 0x0A then nextRow (t.moveTo t.activeConsole t.active.row 0)
  else
    let pos := t.active.pos
    let t := (t.write t.activeConsole pos (cell c)).writeVga pos (cell c)
    let col := t.active.col + 1
    if col.toNat ≥ VGA_WIDTH then nextRow (t.moveTo t.activeConsole t.active.row 0)
    else updateCursor (t.moveTo t.activeConsole t.active.row col)

def switchTo (t : St) (n : U8) : St :=
  if h : n.toNat < NUM_CONSOLES then renderConsole { t with activeConsole := ⟨n.toNat, h⟩ } ⟨n.toNat, h⟩ else t

inductive Call where
  | print (c : U8)
  | switchTo (n : U8)

def step (t : St) : Call → Option St
  | .print c => some (print t c)
  | .switchTo n => some (switchTo t n)

/-! ## On screen -/

structure OnScreen (t : St) : Prop where
  row : ∀ i, (t.consoles i).row.toNat < VGA_HEIGHT
  col : ∀ i, (t.consoles i).col.toNat < VGA_WIDTH
  cells : ∀ x ∈ t.log, x.pos < VGA_WIDTH * VGA_HEIGHT
  ready : t.initialized = true

/-- the cursor in the top left corner -/
def Home (con : Console) : Prop := con.row = 0 ∧ con.col = 0

section OnScreen

variable {t : St} {i : Fin NUM_CONSOLES} {pos : ℕ} {x : U16} {row col : U8}

theorem pos_lt (h : OnScreen t) : (t.consoles i).pos < VGA_WIDTH * VGA_HEIGHT := by
  have hr := h.row i
  have hc := h.col i
  unfold Console.pos VGA_WIDTH VGA_HEIGHT at *
  omega

theorem setConsole_apply (con : Console) (j : Fin NUM_CONSOLES) :
    (t.setConsole i con).consoles j = if j = i then con else t.consoles j := Function.update_apply ..

theorem OnScreen.read (h : OnScreen t) (hp : pos < VGA_WIDTH * VGA_HEIGHT) : OnScreen (t.read i pos).2 := by
  refine ⟨h.row, h.col, fun a ha => ?_, h.ready⟩
  rcases List.mem_cons.1 ha with rfl | ha
  · exact hp
  · exact h.cells a ha

theorem OnScreen.write (h : OnScreen t) (hp : pos < VGA_WIDTH * VGA_HEIGHT) : OnScreen (t.write i pos x) := by
  refine ⟨fun j => ?_, fun j => ?_, fun a ha => ?_, h.ready⟩
  · show ((t.setConsole i _).consoles j).row.toNat < _
    rw [setConsole_apply]
    split_ifs
    · exact h.row i
    · exact h.row j
  · show ((t.setConsole i _).consoles j).col.toNat < _
    rw [setConsole_apply]
    split_ifs
    · exact h.col i
    · exact h.col j
  · rcases List.mem_cons.1 ha with rfl | ha
    · exact hp
    · exact h.cells a ha

theorem OnScreen.writeVga (h : OnScreen t) (hp : pos < VGA_WIDTH * VGA_HEIGHT) : OnScreen (t.writeVga pos x) := by
  refine ⟨h.row, h.col, fun a ha => ?_, h.ready⟩
  rcases List.mem_cons.1 ha with rfl | ha
  · exact hp
  · exact h.cells a ha

theorem OnScreen.moveTo (h : OnScreen t) (hr : row.toNat < VGA_HEIGHT) (hc : col.toNat < VGA_WIDTH) :
    OnScreen (t.moveTo i row col) := by
  refine ⟨fun j => ?_, fun j => ?_, h.cells, h.ready⟩
  · show ((t.setConsole i _).consoles j).row.toNat < _
    rw [setConsole_apply]
    split_ifs
    · exact hr
    · exact h.row j
  · show ((t.setConsole i _).consoles j).col.toNat < _
    rw [setConsole_apply]
    split_ifs
    · exact hc
    · exact h.col j

theorem OnScreen.updateCursor (h : OnScreen t) : OnScreen (updateCursor t) := ⟨h.row, h.col, h.cells, h.ready⟩

theorem OnScreen.renderConsole (h : OnScreen t) : OnScreen (renderConsole t i) := by
  have hcells : OnScreen ((List.range (VGA_WIDTH * VGA_HEIGHT)).foldl (renderCell i) t) := by
    refine List.foldlRecOn _ _ h fun t ht k hk => ?_
    have hk' := List.mem_range.1 hk
    exact (ht.read hk').writeVga hk'
  unfold Tty.renderConsole
  simp only
  split_ifs
  · exact hcells.updateCursor
  · exact hcells

theorem OnScreen.scroll (h : OnScreen t) : OnScreen (scroll t i) := by
  have hrows : OnScreen ((List.range' 1 (VGA_HEIGHT - 1)).foldl (scrollRow i) t) := by
    refine List.foldlRecOn _ _ h fun t ht row hrow => ?_
    refine List.foldlRecOn _ _ ht fun t ht col hcol => ?_
    have hr := List.mem_range'_1.1 hrow
    have hc := List.mem_range.1 hcol
    unfold VGA_WIDTH VGA_HEIGHT at *
    refine (ht.read ?_).write ?_ <;> unfold VGA_WIDTH VGA_HEIGHT <;> omega
  refine OnScreen.moveTo (List.foldlRecOn _ _ hrows fun t ht col hcol => ht.write ?_) (by decide) (by decide)
  have hc := List.mem_range.1 hcol
  unfold VGA_WIDTH VGA_HEIGHT at *
  omega

theorem write_moveTo (i : Fin NUM_CONSOLES) (pos : ℕ) (x : U16) :
    (t.moveTo i row col).write i pos x = (t.write i pos x).moveTo i row col := by
  simp [St.moveTo, St.write, St.setConsole]

theorem moveTo_moveTo {row' col' : U8} : (t.moveTo i row col).moveTo i row' col' = t.moveTo i row' col' := by
  simp [St.moveTo, St.setConsole]

/-- `scroll` sets the cursor itself -/
theorem scroll_moveTo : scroll (t.moveTo i row col) i = scroll t i := by
  have hcell : ∀ r (u : St) c, scrollCell i r (u.moveTo i row col) c = (scrollCell i r u c).moveTo i row col := by
    intro r u c
    simp [scrollCell, St.read, St.moveTo, St.write, St.setConsole]
  have hrow : ∀ (u : St) r, scrollRow i (u.moveTo i row col) r = (scrollRow i u r).moveTo i row col := by
    intro u r
    exact List.foldl_hom (fun v : St => v.moveTo i row col) (fun v c => hcell r v c)
  have hrows : ∀ (u : St) (l : List ℕ), l.foldl (scrollRow i) (u.moveTo i row col) = (l.foldl (scrollRow i) u).moveTo i row col :=
    fun u l => List.foldl_hom (fun v : St => v.moveTo i row col) hrow
  have hclear : ∀ (u : St) k (l : List ℕ), l.foldl (clearCell i k) (u.moveTo i row col) =
      (l.foldl (clearCell i k) u).moveTo i row col :=
    fun u k l => List.foldl_hom (fun v : St => v.moveTo i row col) fun v c => write_moveTo i (k + c) blank
  unfold scroll
  simp only
  rw [hrows, hclear, moveTo_moveTo]

/-- down a row, scrolling at the bottom -/
theorem OnScreen.nextRow (h : OnScreen t) : OnScreen (nextRow t) := by
  unfold Tty.nextRow
  simp only
  split_ifs with hr
  · rw [show (t.moveTo t.activeConsole (t.active.row + 1) t.active.col).activeConsole = t.activeConsole from rfl,
      scroll_moveTo]
    exact h.scroll.renderConsole.updateCursor
  · exact (h.moveTo (not_le.1 hr) (h.col _)).updateCursor

theorem OnScreen.printBackspace (h : OnScreen t) (hh : ¬ Home t.active) : OnScreen (printBackspace t) := by
  have hr := h.row t.activeConsole
  have hc := h.col t.activeConsole
  unfold Tty.printBackspace
  split_ifs with h0
  · -- not in the corner: there is a row above
    have hrow : t.active.row ≠ 0 := fun hz => hh ⟨hz, h0⟩
    refine h.moveTo ?_ (by decide)
    unfold St.active at *
    unfold VGA_HEIGHT at *
    bv_omega
  · have hmv : OnScreen (t.moveTo t.activeConsole t.active.row (t.active.col - 1)) := by
      refine h.moveTo hr ?_
      unfold St.active at *
      unfold VGA_WIDTH at *
      bv_omega
    exact ((hmv.write (pos_lt hmv)).writeVga (pos_lt hmv)).updateCursor

/-- **One character**, other than a backspace in the corner. -/
theorem OnScreen.print {c : U8} (h : OnScreen t) (hh : c = 0x08 → ¬ Home t.active) : OnScreen (print t c) := by
  have hr := h.row t.activeConsole
  unfold Tty.print
  rw [if_neg (by rw [h.ready]; decide)]
  split_ifs with hb hn
  · exact h.printBackspace (hh hb)
  · exact (h.moveTo hr (by decide)).nextRow
  · have hw : OnScreen ((t.write t.activeConsole t.active.pos (cell c)).writeVga t.active.pos (cell c)) :=
      (h.write (pos_lt h)).writeVga (pos_lt h)
    simp only
    split_ifs with hc
    · exact (hw.moveTo (hw.row _) (by decide)).nextRow
    · exact (hw.moveTo (hw.row _) (not_le.1 hc)).updateCursor

theorem OnScreen.switchTo {n : U8} (h : OnScreen t) : OnScreen (switchTo t n) := by
  unfold Tty.switchTo
  split_ifs with hn
  · have hact : OnScreen { t with activeConsole := ⟨n.toNat, hn⟩ } := ⟨h.row, h.col, h.cells, h.ready⟩
    exact hact.renderConsole
  · exact h

/-- a backspace in the corner leaves the screen -/
theorem home_off (h : OnScreen t) (hh : Home t.active) : ¬ OnScreen (print t 0x08) := by
  intro h'
  have hrow := h'.row t.activeConsole
  unfold Tty.print at hrow
  rw [if_neg (by rw [h.ready]; decide), if_pos rfl, Tty.printBackspace, if_pos hh.2, St.moveTo, setConsole_apply,
    if_pos rfl, hh.1] at hrow
  exact absurd (show (0 - 1 : U8).toNat < VGA_HEIGHT from hrow) (by decide)

end OnScreen

/-! ## Setup -/

section Init

variable {t : St}

theorem write_home (i : Fin NUM_CONSOLES) (pos : ℕ) (x : U16) {j : Fin NUM_CONSOLES} (h : Home (t.consoles j)) :
    Home ((t.write i pos x).consoles j) := by
  show Home ((t.setConsole i _).consoles j)
  rw [setConsole_apply]
  split_ifs with hij
  · rw [hij] at h
    exact h
  · exact h

/-- what is set up so far: the consoles in js are at home -/
structure Setup (js : List (Fin NUM_CONSOLES)) (t : St) : Prop where
  home : ∀ j ∈ js, Home (t.consoles j)
  cells : ∀ x ∈ t.log, x.pos < VGA_WIDTH * VGA_HEIGHT

theorem Setup.write {js : List (Fin NUM_CONSOLES)} (h : Setup js t) {pos : ℕ} (hp : pos < VGA_WIDTH * VGA_HEIGHT)
    (i : Fin NUM_CONSOLES) (x : U16) : Setup js (t.write i pos x) := by
  refine ⟨fun j hj => write_home i pos x (h.home j hj), fun a ha => ?_⟩
  rcases List.mem_cons.1 ha with rfl | ha
  · exact hp
  · exact h.cells a ha

theorem Setup.moveTo {js : List (Fin NUM_CONSOLES)} (h : Setup js t) (i : Fin NUM_CONSOLES) :
    Setup (i :: js) (t.moveTo i 0 0) := by
  refine ⟨fun j hj => ?_, h.cells⟩
  rw [St.moveTo, setConsole_apply]
  split_ifs with hij
  · exact ⟨rfl, rfl⟩
  · exact h.home j ((List.mem_cons.1 hj).resolve_left hij)

theorem Setup.initConsole {js : List (Fin NUM_CONSOLES)} (h : Setup js t) (i : Fin NUM_CONSOLES) :
    Setup (i :: js) (initConsole t i) := by
  unfold Tty.initConsole
  refine Setup.moveTo (List.foldlRecOn _ _ h fun t ht k hk => ht.write ?_ i blank) i
  rw [Nat.zero_add]
  exact List.mem_range.1 hk

/-- drawing does not look at the flag -/
theorem render_initialized (i : Fin NUM_CONSOLES) :
    { renderConsole t i with initialized := true } = renderConsole { t with initialized := true } i := by
  have hloop : ∀ l : List ℕ, l.foldl (renderCell i) { t with initialized := true } =
      { l.foldl (renderCell i) t with initialized := true } := fun l =>
    List.foldl_hom (fun v : St => { v with initialized := true }) fun v k => rfl
  unfold renderConsole
  rw [hloop]
  generalize (List.range (VGA_WIDTH * VGA_HEIGHT)).foldl (renderCell i) t = u
  simp only
  split_ifs <;> rfl

/-- drawing leaves the consoles -/
theorem render_consoles (i : Fin NUM_CONSOLES) : (renderConsole t i).consoles = t.consoles := by
  have hloop : ((List.range (VGA_WIDTH * VGA_HEIGHT)).foldl (renderCell i) t).consoles = t.consoles :=
    List.foldlRecOn (motive := fun u : St => u.consoles = t.consoles) _ _ rfl fun u hu k _ => hu
  unfold renderConsole
  generalize (List.range (VGA_WIDTH * VGA_HEIGHT)).foldl (renderCell i) t = u at hloop
  simp only
  split_ifs
  · exact hloop
  · exact hloop

/-- **Setup.** From any memory, `tty::init` leaves four consoles with the cursor in the corner. -/
theorem init_spec (t : St) : OnScreen (init t) ∧ ∀ i, Home ((init t).consoles i) := by
  have h0 : Setup [] { t with log := [] } :=
    ⟨fun j hj => absurd hj List.not_mem_nil, fun x hx => absurd hx List.not_mem_nil⟩
  have h4 : Setup [3, 2, 1, 0] ((List.finRange NUM_CONSOLES).foldl initConsole { t with log := [] }) := by
    rw [show List.finRange NUM_CONSOLES = [0, 1, 2, 3] from rfl]
    simp only [List.foldl_cons, List.foldl_nil]
    exact (((h0.initConsole 0).initConsole 1).initConsole 2).initConsole 3
  have hzero : 0 < VGA_WIDTH * VGA_HEIGHT := by decide
  have hlabel := (((h4.write hzero 0 (cell 0x31)).write hzero 1 (cell 0x32)).write hzero 2 (cell 0x33)).write hzero 3
    (cell 0x34)
  unfold init
  simp only
  rw [render_initialized]
  have hhome := fun i => hlabel.home i (by revert i; decide)
  refine ⟨OnScreen.renderConsole ⟨fun i => ?_, fun i => ?_, hlabel.cells, rfl⟩, fun i => ?_⟩
  · rw [(hhome i).1]
    decide
  · rw [(hhome i).2]
    decide
  · rw [render_consoles]
    exact hhome i

end Init

/-! ## Runs -/

/-- **On screen, exactly when.** After `tty::init`, over any sequence of calls, every console's cursor and every cell
touched stay on screen if and only if no backspace is printed while the active console's cursor is in the corner. -/
theorem onScreen_iff (t : St) (cs : List Call) : Always step OnScreen (init t) cs ↔
    Each step (fun t c => c = .print 0x08 → ¬ Home t.active) (init t) cs := by
  have hrun : ∀ (cs : List Call) (t : St), (cs.foldlM step t).isSome := by
    intro cs
    induction cs with
    | nil => exact fun t => rfl
    | cons c cs ih =>
      intro t
      cases c with
      | print c => exact ih (print t c)
      | switchTo n => exact ih (switchTo t n)
  refine always_iff_each (I := OnScreen) (fun _ h => h) ?_ ?_ (init_spec t).1 (hrun cs _)
  · intro t c t' h hg hs
    cases c with
    | print c =>
      cases hs
      exact h.print fun hc => hg (by rw [hc])
    | switchTo n =>
      cases hs
      exact h.switchTo
  · intro t c t' h hg hs
    push Not at hg
    obtain ⟨rfl, hh⟩ := hg
    cases hs
    exact home_off h hh

/-- **Row 255.** A backspace on a fresh console. -/
theorem backspace_off_screen : ¬ ∀ (t : St) (cs : List Call), Always step OnScreen (init t) cs := by
  intro hall
  have t0 : St := ⟨fun _ => ⟨fun _ => 0, 0, 0⟩, 0, false, fun _ => 0, (0, 0), []⟩
  have h := hall t0 [.print 0x08]
  exact home_off h.head ((init_spec t0).2 _) (h.2 _ rfl)

/-! ## Undo -/

/-- a character printed here scrolls -/
def Scrolls (t : St) : Prop := t.active.row = 24 ∧ t.active.col = 79

instance (t : St) : Decidable (Scrolls t) := by
  unfold Scrolls; infer_instance

/-- the state after the scroll alone, where there is one -/
def scrolled (t : St) : St :=
  if Scrolls t then renderConsole (scroll t t.activeConsole) t.activeConsole else t

/-- the row that shows the printed character -/
def printedRow (t : St) : ℕ := if Scrolls t then 23 else t.active.row.toNat

def printedCell (t : St) : ℕ := printedRow t * VGA_WIDTH + t.active.col.toNat

/-- t' is t with the printed character undone: the cursor on its cell, the cell blank, the rest as the scroll left it -/
structure Undone (t t' : St) : Prop where
  active : t'.activeConsole = t.activeConsole
  row : t'.active.row.toNat = printedRow t
  col : t'.active.col = t.active.col
  buffer : t'.active.buffer = Function.update (scrolled t).active.buffer (printedCell t) blank
  vga : t'.vga = Function.update (scrolled t).vga (printedCell t) blank
  others : ∀ j ≠ t.activeConsole, t'.consoles j = t.consoles j
  cursor : t'.cursor = (BitVec.ofNat 8 (printedCell t / 256), BitVec.ofNat 8 (printedCell t))

/-- a cell of the active console and of the screen -/
def St.put (t : St) (pos : ℕ) (x : U16) : St := (t.write t.activeConsole pos x).writeVga pos x

section Undo

variable {t : St} {c : U8} {pos : ℕ} {x : U16}

theorem put_active : (t.put pos x).active = { t.active with buffer := Function.update t.active.buffer pos x } :=
  (setConsole_apply _ _).trans (if_pos rfl)

theorem updateCursor_active : (updateCursor t).active = t.active := rfl

theorem updateCursor_consoles : (updateCursor t).consoles = t.consoles := rfl

theorem updateCursor_cursor :
    (updateCursor t).cursor = (BitVec.ofNat 8 (t.active.pos / 256), BitVec.ofNat 8 t.active.pos) := rfl

theorem put_other {j : Fin NUM_CONSOLES} (h : j ≠ t.activeConsole) : (t.put pos x).consoles j = t.consoles j :=
  (setConsole_apply _ _).trans (if_neg h)

theorem moveTo_other {i j : Fin NUM_CONSOLES} {row col : U8} (h : j ≠ i) :
    (t.moveTo i row col).consoles j = t.consoles j := (setConsole_apply _ _).trans (if_neg h)

theorem moveTo_active (row col : U8) :
    (t.moveTo t.activeConsole row col).active = { t.active with row := row, col := col } := by
  unfold St.active St.moveTo
  exact (setConsole_apply _ _).trans (if_pos rfl)

/-- what a loop over cells leaves alone -/
def SameScreen (t u : St) : Prop := u.activeConsole = t.activeConsole ∧ u.initialized = t.initialized

theorem scroll_sameScreen (i : Fin NUM_CONSOLES) : SameScreen t (scroll t i) := by
  have hrows : ∀ l : List ℕ, SameScreen t (l.foldl (scrollRow i) t) := fun l =>
    List.foldlRecOn _ _ ⟨rfl, rfl⟩ fun _ hu _ _ => List.foldlRecOn (motive := SameScreen t) _ _ hu fun _ hv _ _ => hv
  have hclear : ∀ (u : St) k (l : List ℕ), SameScreen t u → SameScreen t (l.foldl (clearCell i k) u) := fun u k l hu =>
    List.foldlRecOn _ _ hu fun _ hv _ _ => hv
  have hmove : ∀ u : St, SameScreen t u → SameScreen t (u.moveTo i 24 0) := fun _ hu => hu
  unfold scroll
  exact hmove _ (hclear _ _ _ (hrows _))

theorem render_sameScreen (i : Fin NUM_CONSOLES) : SameScreen t (renderConsole t i) := by
  have hloop : SameScreen t ((List.range (VGA_WIDTH * VGA_HEIGHT)).foldl (renderCell i) t) :=
    List.foldlRecOn _ _ ⟨rfl, rfl⟩ fun _ hu _ _ => hu
  unfold renderConsole
  generalize (List.range (VGA_WIDTH * VGA_HEIGHT)).foldl (renderCell i) t = u at hloop
  simp only
  split_ifs
  · exact hloop
  · exact hloop

/-- after a scroll the cursor is at the left end of the last row -/
theorem scroll_active : (scroll t t.activeConsole).active.row = 24 ∧ (scroll t t.activeConsole).active.col = 0 := by
  unfold St.active
  rw [(scroll_sameScreen _).1]
  unfold scroll
  simp only [St.moveTo]
  rw [setConsole_apply, if_pos rfl]
  exact ⟨rfl, rfl⟩

theorem nextRow_initialized : (nextRow t).initialized = t.initialized := by
  have hrender : ∀ u : St, SameScreen t u →
      (updateCursor (renderConsole u u.activeConsole)).initialized = t.initialized :=
    fun u hu => (render_sameScreen u.activeConsole).2.trans hu.2
  unfold nextRow
  simp only
  split_ifs
  · rw [show (t.moveTo t.activeConsole (t.active.row + 1) t.active.col).activeConsole = t.activeConsole from rfl,
      scroll_moveTo]
    exact hrender _ (scroll_sameScreen _)
  · rfl

/-- a row down: the cursor is at the left end, and the registers say so -/
theorem nextRow_cursor (h : t.active.col = 0) (hr : t.active.row.toNat < VGA_HEIGHT) :
    (nextRow t).active.row.toNat = min (t.active.row.toNat + 1) 24 ∧ (nextRow t).active.col = 0 ∧
      (nextRow t).cursor = (BitVec.ofNat 8 ((nextRow t).active.pos / 256), BitVec.ofNat 8 (nextRow t).active.pos) := by
  have hsucc : (t.active.row + 1).toNat = t.active.row.toNat + 1 := by
    unfold VGA_HEIGHT at hr
    bv_omega
  unfold nextRow
  simp only
  split_ifs with hrow
  · have hact : (renderConsole (scroll t t.activeConsole) t.activeConsole).active = (scroll t t.activeConsole).active := by
      unfold St.active
      rw [(render_sameScreen _).1, render_consoles]
    rw [show (t.moveTo t.activeConsole (t.active.row + 1) t.active.col).activeConsole = t.activeConsole from rfl,
      scroll_moveTo, (scroll_sameScreen _).1]
    refine ⟨?_, ?_, rfl⟩
    · show (renderConsole (scroll t t.activeConsole) t.activeConsole).active.row.toNat = _
      rw [hact, scroll_active.1]
      unfold VGA_HEIGHT at hrow hr
      rw [hsucc] at hrow
      have h24 : t.active.row.toNat = 24 := by omega
      rw [h24]
      rfl
    · show (renderConsole (scroll t t.activeConsole) t.activeConsole).active.col = 0
      rw [hact, scroll_active.2]
  · have hact := moveTo_active (t := t) (t.active.row + 1) t.active.col
    refine ⟨?_, ?_, rfl⟩
    · calc (t.moveTo t.activeConsole (t.active.row + 1) t.active.col).active.row.toNat
          = (t.active.row + 1).toNat := by rw [hact]
        _ = min (t.active.row.toNat + 1) 24 := by
          unfold VGA_HEIGHT at hrow
          omega
    · calc (t.moveTo t.activeConsole (t.active.row + 1) t.active.col).active.col = t.active.col := by rw [hact]
        _ = 0 := h

/-- two neighbouring positions are told apart by the low register -/
theorem cursor_ne (p : ℕ) : BitVec.ofNat 8 (p + 1) ≠ BitVec.ofNat 8 p := by
  intro h
  have hmod := congrArg BitVec.toNat h
  simp only [BitVec.toNat_ofNat] at hmod
  omega

/-- the row after the printed one, when the column is the last -/
theorem printedRow_succ (hr : t.active.row.toNat < VGA_HEIGHT) (hc : t.active.col = 79) :
    printedRow t + 1 = min (t.active.row.toNat + 1) 24 := by
  unfold printedRow Scrolls
  unfold VGA_HEIGHT at hr
  have h24 : t.active.row = 24 ↔ t.active.row.toNat = 24 := by
    constructor
    · exact fun h => congrArg BitVec.toNat h
    · exact fun h => BitVec.eq_of_toNat_eq h
  simp only [hc, and_true, h24]
  split_ifs <;> omega

theorem put_moveTo_active (row col : U8) : ((t.put pos x).moveTo t.activeConsole row col).active =
    ⟨Function.update t.active.buffer pos x, row, col⟩ := by
  calc ((t.put pos x).moveTo t.activeConsole row col).active
      = { (t.put pos x).active with row := row, col := col } := moveTo_active _ _
    _ = ⟨Function.update t.active.buffer pos x, row, col⟩ := by rw [put_active]

theorem printChar_eq (hi : t.initialized = true) (hb : c ≠ 0x08) (hn : c ≠ 0x0A) : print t c =
    if (t.active.col + 1).toNat ≥ VGA_WIDTH then
      nextRow ((t.put t.active.pos (cell c)).moveTo t.activeConsole t.active.row 0)
    else updateCursor ((t.put t.active.pos (cell c)).moveTo t.activeConsole t.active.row (t.active.col + 1)) := by
  unfold print
  rw [if_neg (by rw [hi]; decide), if_neg hb, if_neg hn]
  simp only
  rw [show (t.write t.activeConsole t.active.pos (cell c)).writeVga t.active.pos (cell c) =
    t.put t.active.pos (cell c) from rfl, put_active]
  rfl

theorem printBackspace_cursor (h : t.active.col = 0) : (printBackspace t).cursor = t.cursor := by
  unfold printBackspace
  rw [if_pos h]
  rfl

/-- off the left end a backspace blanks the cell it steps back to -/
theorem printBackspace_eq (h : t.active.col ≠ 0) {row col : U8} (hr : t.active.row = row) (hc : t.active.col - 1 = col)
    (hp : row.toNat * VGA_WIDTH + col.toNat = pos) :
    printBackspace t = updateCursor ((t.moveTo t.activeConsole row col).put pos blank) := by
  have hpos : (t.moveTo t.activeConsole row col).active.pos = pos := by
    rw [moveTo_active]
    exact hp
  unfold printBackspace
  rw [if_neg h]
  simp only
  rw [hr, hc, hpos]
  rfl

/-- before the last column the backspace writes its blank over the character -/
theorem undone_of_lt (hi : t.initialized = true) (hc : t.active.col.toNat < 79) (hb : c ≠ 0x08) (hn : c ≠ 0x0A) :
    Undone t (print (print t c) 0x08) := by
  have hscroll : ¬ Scrolls t := by
    intro h
    rw [h.2] at hc
    exact absurd hc (by decide)
  have hcell : printedCell t = t.active.pos := by
    unfold printedCell printedRow
    rw [if_neg hscroll]
    rfl
  have hprint := printChar_eq hi hb hn
  rw [if_neg (by unfold VGA_WIDTH; bv_omega)] at hprint
  have hact : (print t c).active =
      ⟨Function.update t.active.buffer t.active.pos (cell c), t.active.row, t.active.col + 1⟩ := by
    rw [hprint, updateCursor_active, put_moveTo_active]
  have hback : print (print t c) 0x08 =
      updateCursor (((print t c).moveTo t.activeConsole t.active.row t.active.col).put t.active.pos blank) := by
    have hinit : (print t c).initialized = true := by
      rw [hprint]
      exact hi
    have hcons : (print t c).activeConsole = t.activeConsole := by
      rw [hprint]
      rfl
    have hcol : (print t c).active.col - 1 = t.active.col := by
      rw [hact]
      bv_omega
    generalize print t c = u at hact hinit hcol hcons
    have hne : u.active.col ≠ 0 := by
      rw [hact]
      bv_omega
    have hstep := printBackspace_eq hne (congrArg Console.row hact) hcol rfl
    rw [← hcons, print, if_neg (by rw [hinit]; decide), if_pos rfl]
    exact hstep
  rw [hback]
  have hres : (((print t c).moveTo t.activeConsole t.active.row t.active.col).put t.active.pos blank).active =
      ⟨Function.update t.active.buffer t.active.pos blank, t.active.row, t.active.col⟩ := by
    have hmove : ((print t c).moveTo t.activeConsole t.active.row t.active.col).active =
        ⟨Function.update t.active.buffer t.active.pos (cell c), t.active.row, t.active.col⟩ := by
      rw [hprint]
      exact (moveTo_active _ _).trans (by rw [← hprint, hact])
    rw [put_active, hmove]
    simp only [Function.update_idem]
  have hbase : scrolled t = t := if_neg hscroll
  refine ⟨by rw [hprint]; rfl, ?_, ?_, ?_, ?_, fun j hj => ?_, ?_⟩
  · rw [updateCursor_active, hres, printedRow, if_neg hscroll]
  · rw [updateCursor_active, hres]
  · rw [updateCursor_active, hres, hbase, hcell]
  · rw [hbase, hcell, hprint]
    exact Function.update_idem _ _ _
  · have hcons : (print t c).activeConsole = t.activeConsole := by
      rw [hprint]
      rfl
    calc (((print t c).moveTo t.activeConsole t.active.row t.active.col).put t.active.pos blank).consoles j
        = ((print t c).moveTo t.activeConsole t.active.row t.active.col).consoles j := put_other (hcons ▸ hj)
      _ = (print t c).consoles j := moveTo_other hj
      _ = ((t.put t.active.pos (cell c)).moveTo t.activeConsole t.active.row (t.active.col + 1)).consoles j := by
        rw [hprint, updateCursor_consoles]
      _ = (t.put t.active.pos (cell c)).consoles j := moveTo_other hj
      _ = t.consoles j := put_other hj
  · rw [updateCursor_cursor, hres, hcell]
    rfl

/-- in the last column the hardware cursor stays on the next row -/
theorem not_undone (hi : t.initialized = true) (hr : t.active.row.toNat < VGA_HEIGHT) (h79 : t.active.col = 79)
    (hb : c ≠ 0x08) (hn : c ≠ 0x0A) : ¬ Undone t (print (print t c) 0x08) := by
  intro h
  have hprint := printChar_eq hi hb hn
  rw [if_pos (by rw [h79]; decide)] at hprint
  have hact : ((t.put t.active.pos (cell c)).moveTo t.activeConsole t.active.row 0).active =
    ⟨Function.update t.active.buffer t.active.pos (cell c), t.active.row, 0⟩ := put_moveTo_active _ _
  obtain ⟨hrow, hcol, hcur⟩ := nextRow_cursor (congrArg Console.col hact) (by rw [hact]; exact hr)
  have hinit : (print t c).initialized = true := by
    rw [hprint, nextRow_initialized]
    exact hi
  have hcursor := h.cursor
  rw [← hprint] at hrow hcol hcur
  -- one past the cell, in both outcomes
  have hpos : (print t c).active.pos = printedCell t + 1 := by
    unfold Console.pos printedCell
    rw [hrow, hcol, hact, ← printedRow_succ hr h79, h79]
    unfold VGA_WIDTH
    simp only [BitVec.reduceToNat]
    omega
  generalize print t c = u at hinit hcol hcur hpos hcursor
  rw [print, if_neg (by rw [hinit]; decide), if_pos rfl, printBackspace_cursor hcol, hcur, hpos] at hcursor
  exact cursor_ne _ (congrArg Prod.snd hcursor)

end Undo

/-- **Undo, exactly when.** A character and then a backspace leave the cursor on the character's cell, the cell blank in
the buffer and on the screen, and the hardware cursor on it, if and only if the cell is not in the last column. There the
print has gone on to the next row, and the backspace only moves the console's own cursor. -/
theorem backspace_undoes_iff (t : St) (c : U8) (hi : t.initialized = true) (hr : t.active.row.toNat < VGA_HEIGHT)
    (hc : t.active.col.toNat < VGA_WIDTH) (hb : c ≠ 0x08) (hn : c ≠ 0x0A) :
    Undone t (print (print t c) 0x08) ↔ t.active.col.toNat < 79 := by
  constructor
  · intro h
    by_contra hlast
    have h79 : t.active.col = 79 := by
      unfold VGA_WIDTH at hc
      bv_omega
    exact not_undone hi hr h79 hb hn h
  · exact fun hlt => undone_of_lt hi hlt hb hn

/-- a blank screen with the cursor in row 3 -/
def atColumn (col : U8) : St := ⟨fun _ => ⟨fun _ => blank, 3, col⟩, 0, true, fun _ => blank, (0, 0), []⟩

theorem backspace_undoes_sample : (atColumn 5).initialized = true ∧
    (Undone (atColumn 5) (print (print (atColumn 5) 0x78) 0x08) ↔ (atColumn 5).active.col.toNat < 79) :=
  ⟨rfl, backspace_undoes_iff (atColumn 5) 0x78 rfl (by decide) (by decide) (by decide) (by decide)⟩

/-- **The last column.** An x printed there is still on the screen after the backspace. -/
theorem backspace_leaves_last : ¬ ∀ (t : St) (c : U8), t.initialized = true → t.active.row.toNat < VGA_HEIGHT →
    t.active.col.toNat < VGA_WIDTH → c ≠ 0x08 → c ≠ 0x0A → Undone t (print (print t c) 0x08) := by
  intro hall
  have h := hall (atColumn 79) 0x78 rfl (by decide) (by decide) (by decide) (by decide)
  exact not_undone rfl (by decide) rfl (by decide) (by decide) h

end Retux.Tty
