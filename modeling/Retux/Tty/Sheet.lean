/-
What the consoles are for (`tty/tty.cpp`): each is a window on an endless sheet.

Abstract model: a sheet of rows of 80 cells without end, a pen, and a window of 25 rows that follows the pen down. Text
goes on the sheet and stays there; a row that leaves the window at the top is still on it. Four sheets, one of them shown.

- `Fits`: a console's buffer is the window of its sheet, and below the window the sheet is blank;
- `print_shows`, `switch_shows`: one call;
- `sheets_refine`: over whole runs of prints and switches, whatever their order, each buffer is the window of its own sheet
  and VGA memory is the window of the one that is shown.
-/
import Mathlib.Tactic
import Retux.Lib.Refine
import Retux.Tty.Console

namespace Retux.Tty

open Retux.Run

/-! ## Sheets -/

/-- the cell at p is in row p / 80; the window starts at row `top` -/
structure Sheet where
  cells : ℕ → U16
  top : ℕ
  pen : ℕ

namespace Sheet

/-- the window's rows -/
def window (s : Sheet) (k : ℕ) : U16 := s.cells (s.top * VGA_WIDTH + k)

/-- the first cell below the window -/
def bottom (s : Sheet) : ℕ := (s.top + VGA_HEIGHT) * VGA_WIDTH

/-- the window goes down with the pen -/
def follow (s : Sheet) : Sheet := if s.bottom ≤ s.pen then { s with top := s.top + 1 } else s

def mark (s : Sheet) (x : U16) : Sheet := { s with cells := Function.update s.cells s.pen x }

def newline (s : Sheet) : Sheet := { s with pen := (s.pen / VGA_WIDTH + 1) * VGA_WIDTH }.follow

def type (s : Sheet) (c : U8) : Sheet := { s.mark (cell c) with pen := s.pen + 1 }.follow

/-- a step back, which blanks the cell only within its row -/
def back (s : Sheet) : Sheet :=
  let t := { s with pen := s.pen - 1 }
  if s.pen % VGA_WIDTH = 0 then t else t.mark blank

/-- the pen's place in the window -/
def offset (s : Sheet) : ℕ := s.pen - s.top * VGA_WIDTH

end Sheet

/-- the sheets, the one shown, and where the hardware cursor was last put -/
structure Desk where
  sheets : Fin NUM_CONSOLES → Sheet
  shown : Fin NUM_CONSOLES
  cursor : ℕ

namespace Desk

def sheet (d : Desk) : Sheet := d.sheets d.shown

def setSheet (d : Desk) (s : Sheet) : Desk := { d with sheets := Function.update d.sheets d.shown s }

/-- the hardware cursor goes to the pen -/
def mind (d : Desk) : Desk := { d with cursor := d.sheet.offset }

def print (d : Desk) (c : U8) : Desk :=
  if c = 0x08 then
    -- over the end of a row the hardware cursor stays behind
    if d.sheet.pen % VGA_WIDTH = 0 then d.setSheet d.sheet.back else (d.setSheet d.sheet.back).mind
  else if c = 0x0A then (d.setSheet d.sheet.newline).mind
  else (d.setSheet (d.sheet.type c)).mind

def switchTo (d : Desk) (n : U8) : Desk :=
  if h : n.toNat < NUM_CONSOLES then { d with shown := ⟨n.toNat, h⟩ : Desk }.mind else d

def step (d : Desk) : Call → Desk
  | .print c => d.print c
  | .switchTo n => d.switchTo n

/-- each sheet blank but for its number, the pen on it -/
def start : Desk where
  sheets := fun i => ⟨Function.update (fun _ => blank) 0 (cell (0x31 + BitVec.ofNat 8 i)), 0, 0⟩
  shown := 0
  cursor := 0

end Desk

/-! ## Loops over cells -/

section Loops

variable {t : St} {i j : Fin NUM_CONSOLES}

theorem write_buffer (t : St) (i : Fin NUM_CONSOLES) (pos : ℕ) (x : U16) (k : ℕ) :
    ((t.write i pos x).consoles i).buffer k = if k = pos then x else (t.consoles i).buffer k := by
  have hcon : (t.write i pos x).consoles i = { t.consoles i with buffer := Function.update (t.consoles i).buffer pos x } :=
    (setConsole_apply _ _).trans (if_pos rfl)
  rw [hcon]
  exact Function.update_apply ..

theorem write_other (h : j ≠ i) (pos : ℕ) (x : U16) : (t.write i pos x).consoles j = t.consoles j :=
  (setConsole_apply _ _).trans (if_neg h)

theorem moveTo_buffer (t : St) (i : Fin NUM_CONSOLES) (row col : U8) :
    ((t.moveTo i row col).consoles i).buffer = (t.consoles i).buffer := by
  rw [St.moveTo, setConsole_apply, if_pos rfl]

theorem clear_buffer (i : Fin NUM_CONSOLES) (start n : ℕ) (t : St) (k : ℕ) :
    (((List.range n).foldl (clearCell i start) t).consoles i).buffer k =
      if start ≤ k ∧ k < start + n then blank else (t.consoles i).buffer k := by
  induction n with
  | zero =>
    rw [if_neg (by omega)]
    rfl
  | succ n ih =>
    rw [List.range_succ, List.foldl_append, List.foldl_cons, List.foldl_nil, clearCell, write_buffer, ih]
    split_ifs <;> first | rfl | omega

/-- a row's cells go to the row above -/
theorem scrollRow_buffer (i : Fin NUM_CONSOLES) (r : ℕ) (t : St) (k : ℕ) :
    ((scrollRow i t (r + 1)).consoles i).buffer k =
      if r * VGA_WIDTH ≤ k ∧ k < (r + 1) * VGA_WIDTH then (t.consoles i).buffer (k + VGA_WIDTH)
      else (t.consoles i).buffer k := by
  have hcols : ∀ n ≤ VGA_WIDTH, ∀ k, (((List.range n).foldl (scrollCell i (r + 1)) t).consoles i).buffer k =
      if r * VGA_WIDTH ≤ k ∧ k < r * VGA_WIDTH + n then (t.consoles i).buffer (k + VGA_WIDTH)
      else (t.consoles i).buffer k := by
    intro n
    induction n with
    | zero =>
      intro _ k
      rw [if_neg (by omega)]
      rfl
    | succ n ih =>
      intro hn k
      rw [List.range_succ, List.foldl_append, List.foldl_cons, List.foldl_nil]
      generalize hu : (List.range n).foldl (scrollCell i (r + 1)) t = u at ih
      -- the cell read is one row below those written so far
      have hread : (u.consoles i).buffer ((r + 1) * VGA_WIDTH + n) = (t.consoles i).buffer ((r + 1) * VGA_WIDTH + n) := by
        rw [ih (by omega), if_neg (by rw [Nat.succ_mul]; omega)]
      have hcell : ∀ k, ((scrollCell i (r + 1) u n).consoles i).buffer k =
          if k = r * VGA_WIDTH + n then (u.consoles i).buffer ((r + 1) * VGA_WIDTH + n) else (u.consoles i).buffer k :=
        fun k => write_buffer _ i _ _ k
      rw [hcell, hread, ih (by omega)]
      split_ifs with h1 h2 h3 h4 <;> first | rfl | omega | skip
      rw [h1, Nat.succ_mul]
      congr 1
      omega
  have h := hcols VGA_WIDTH le_rfl k
  rw [← Nat.succ_mul] at h
  exact h

/-- **Scrolling.** Every row moves up, and the last one is blank. -/
theorem scroll_buffer (t : St) (i : Fin NUM_CONSOLES) {k : ℕ} (hk : k < VGA_WIDTH * VGA_HEIGHT) :
    ((scroll t i).consoles i).buffer k =
      if k < (VGA_HEIGHT - 1) * VGA_WIDTH then (t.consoles i).buffer (k + VGA_WIDTH) else blank := by
  have hrows : ∀ n k, (((List.range' 1 n).foldl (scrollRow i) t).consoles i).buffer k =
      if k < n * VGA_WIDTH then (t.consoles i).buffer (k + VGA_WIDTH) else (t.consoles i).buffer k := by
    intro n
    induction n with
    | zero =>
      intro k
      rw [if_neg (by omega)]
      rfl
    | succ n ih =>
      intro k
      rw [List.range'_1_concat, List.foldl_append, List.foldl_cons, List.foldl_nil, Nat.add_comm 1 n, scrollRow_buffer,
        ih, ih, Nat.succ_mul]
      split_ifs <;> first | rfl | omega
  unfold scroll
  simp only
  rw [moveTo_buffer, clear_buffer, hrows]
  unfold VGA_WIDTH VGA_HEIGHT at *
  split_ifs <;> first | rfl | omega

theorem scroll_other (h : j ≠ i) : (scroll t i).consoles j = t.consoles j := by
  have hrows : ∀ l : List ℕ, (l.foldl (scrollRow i) t).consoles j = t.consoles j := fun l =>
    List.foldlRecOn (motive := fun u : St => u.consoles j = t.consoles j) _ _ rfl fun u hu r _ =>
      List.foldlRecOn (motive := fun u : St => u.consoles j = t.consoles j) _ _ hu fun _ hv _ _ =>
        (write_other h _ _).trans hv
  have hclear : ∀ (u : St) k (l : List ℕ), (l.foldl (clearCell i k) u).consoles j = u.consoles j := fun u k l =>
    List.foldlRecOn (motive := fun v : St => v.consoles j = u.consoles j) _ _ rfl fun _ hv _ _ =>
      (write_other h _ _).trans hv
  unfold scroll
  simp only
  rw [moveTo_other h, hclear, hrows]

/-- **Drawing.** The buffer is on the screen. -/
theorem render_vga (t : St) (i : Fin NUM_CONSOLES) {k : ℕ} (hk : k < VGA_WIDTH * VGA_HEIGHT) :
    (renderConsole t i).vga k = (t.consoles i).buffer k := by
  have hloop : ∀ n, ((List.range n).foldl (renderCell i) t).consoles = t.consoles ∧
      ∀ k < n, ((List.range n).foldl (renderCell i) t).vga k = (t.consoles i).buffer k := by
    intro n
    induction n with
    | zero => exact ⟨rfl, fun k hk => absurd hk (Nat.not_lt_zero k)⟩
    | succ n ih =>
      rw [List.range_succ, List.foldl_append, List.foldl_cons, List.foldl_nil]
      generalize (List.range n).foldl (renderCell i) t = u at ih
      refine ⟨ih.1, fun k hk => ?_⟩
      show Function.update u.vga n ((u.consoles i).buffer n) k = _
      rw [Function.update_apply]
      split_ifs with h
      · rw [h, ih.1]
      · exact ih.2 k (by omega)
  have h := (hloop (VGA_WIDTH * VGA_HEIGHT)).2 k hk
  unfold renderConsole
  generalize (List.range (VGA_WIDTH * VGA_HEIGHT)).foldl (renderCell i) t = u at h
  simp only
  split_ifs
  · exact h
  · exact h

theorem render_cursor (h : t.activeConsole = i) : (renderConsole t i).cursor =
    (BitVec.ofNat 8 ((t.consoles i).pos / 256), BitVec.ofNat 8 (t.consoles i).pos) := by
  have hloop : SameScreen t ((List.range (VGA_WIDTH * VGA_HEIGHT)).foldl (renderCell i) t) ∧
      ((List.range (VGA_WIDTH * VGA_HEIGHT)).foldl (renderCell i) t).consoles = t.consoles :=
    List.foldlRecOn (motive := fun u : St => SameScreen t u ∧ u.consoles = t.consoles) _ _ ⟨⟨rfl, rfl⟩, rfl⟩
      fun _ hu _ _ => hu
  unfold renderConsole
  generalize (List.range (VGA_WIDTH * VGA_HEIGHT)).foldl (renderCell i) t = u at hloop
  simp only
  rw [if_pos (by rw [hloop.1.1, h]), updateCursor_cursor, St.active, hloop.1.1, hloop.2, h]

end Loops

/-! ## Windows -/

/-- the buffer is the window of the sheet -/
structure Framed (s : Sheet) (buffer : ℕ → U16) : Prop where
  cells : ∀ k < VGA_WIDTH * VGA_HEIGHT, buffer k = s.window k
  below : ∀ p, s.bottom ≤ p → s.cells p = blank

/-- and the console's cursor is the pen -/
structure Fits (s : Sheet) (con : Console) : Prop where
  framed : Framed s con.buffer
  pen : s.pen = s.top * VGA_WIDTH + con.pos

/-- what the two cursor registers hold -/
def regs (pos : ℕ) : U8 × U8 := (BitVec.ofNat 8 (pos / 256), BitVec.ofNat 8 pos)

theorem updateCursor_vga (t : St) : (updateCursor t).vga = t.vga := rfl

theorem updateCursor_regs (t : St) : (updateCursor t).cursor = regs (updateCursor t).active.pos := rfl

/-- **Refinement relation.** -/
structure Shows (t : St) (d : Desk) : Prop where
  on : OnScreen t
  active : t.activeConsole = d.shown
  fits : ∀ i, Fits (d.sheets i) (t.consoles i)
  vga : ∀ k < VGA_WIDTH * VGA_HEIGHT, t.vga k = d.sheet.window k
  cursor : t.cursor = regs d.cursor

/-- t' is t but for the active console -/
def Others (t t' : St) : Prop := t'.activeConsole = t.activeConsole ∧ ∀ j ≠ t.activeConsole, t'.consoles j = t.consoles j

/-- the active console's buffer is the window of s, and it is on the screen -/
structure Inked (t : St) (s : Sheet) : Prop where
  framed : Framed s t.active.buffer
  vga : ∀ k < VGA_WIDTH * VGA_HEIGHT, t.vga k = t.active.buffer k

/-- and so are the cursors -/
structure Drawn (t : St) (s : Sheet) : Prop where
  fits : Fits s t.active
  vga : ∀ k < VGA_WIDTH * VGA_HEIGHT, t.vga k = t.active.buffer k
  cursor : t.cursor = regs t.active.pos

section Windows

variable {t t' u : St} {s : Sheet} {d : Desk} {pos : ℕ} {x : U16} {row col : U8}

theorem Others.trans (h : Others t t') (h' : Others t' u) : Others t u := by
  refine ⟨h'.1.trans h.1, fun j hj => ?_⟩
  rw [h'.2 j (by rw [h.1]; exact hj), h.2 j hj]

theorem others_put : Others t (t.put pos x) := ⟨rfl, fun _ hj => put_other hj⟩

theorem others_moveTo : Others t (t.moveTo t.activeConsole row col) := ⟨rfl, fun _ hj => moveTo_other hj⟩

theorem Others.updateCursor (h : Others t t') : Others t (updateCursor t') := h

theorem others_render (i : Fin NUM_CONSOLES) : Others t (renderConsole t i) :=
  ⟨(render_sameScreen i).1, fun j _ => congrFun (render_consoles i) j⟩

theorem others_scroll : Others t (scroll t t.activeConsole) :=
  ⟨(scroll_sameScreen _).1, fun _ hj => scroll_other hj⟩

theorem others_nextRow : Others t (nextRow t) := by
  unfold nextRow
  simp only
  split_ifs
  · rw [show (t.moveTo t.activeConsole (t.active.row + 1) t.active.col).activeConsole = t.activeConsole from rfl,
      scroll_moveTo]
    exact (others_scroll.trans (others_render _)).updateCursor
  · exact others_moveTo.updateCursor

theorem Framed.mark (h : Framed s t.active.buffer) (hp : pos < VGA_WIDTH * VGA_HEIGHT)
    (hpen : s.pen = s.top * VGA_WIDTH + pos) (x : U16) : Framed (s.mark x) (Function.update t.active.buffer pos x) := by
  constructor
  · intro k hk
    show _ = Function.update s.cells s.pen x (s.top * VGA_WIDTH + k)
    rw [Function.update_apply, Function.update_apply, hpen]
    by_cases hkp : k = pos
    · rw [if_pos hkp, if_pos (by rw [hkp])]
    · rw [if_neg hkp, if_neg (by omega)]
      exact h.cells k hk
  · intro p hb
    show Function.update s.cells s.pen x p = blank
    have hlt : s.pen < p := by
      refine lt_of_lt_of_le ?_ hb
      rw [hpen]
      show _ < (s.top + VGA_HEIGHT) * VGA_WIDTH
      rw [Nat.add_mul, Nat.mul_comm VGA_HEIGHT]
      omega
    rw [Function.update_apply, if_neg (by omega)]
    exact h.below p hb

theorem Inked.penAt (h : Inked t s) (p : ℕ) : Inked t { s with pen := p } :=
  ⟨⟨h.framed.cells, h.framed.below⟩, h.vga⟩

theorem Inked.moveTo (h : Inked t s) (row col : U8) : Inked (t.moveTo t.activeConsole row col) s := by
  have hact := moveTo_active (t := t) row col
  refine ⟨?_, fun k hk => ?_⟩
  · rw [hact]
    exact h.framed
  · rw [hact]
    exact h.vga k hk

theorem Inked.put (h : Inked t s) (hp : pos < VGA_WIDTH * VGA_HEIGHT) (hpen : s.pen = s.top * VGA_WIDTH + pos) (x : U16) :
    Inked (t.put pos x) (s.mark x) := by
  refine ⟨?_, fun k hk => ?_⟩
  · rw [put_active]
    exact h.framed.mark hp hpen x
  · rw [put_active]
    show Function.update t.vga pos x k = Function.update t.active.buffer pos x k
    rw [Function.update_apply, Function.update_apply, h.vga k hk]

theorem Inked.updateCursor (h : Inked t s) (hpen : s.pen = s.top * VGA_WIDTH + t.active.pos) :
    Drawn (updateCursor t) s :=
  ⟨⟨h.framed, hpen⟩, h.vga, rfl⟩

/-- the pen goes to the left end of the next row -/
theorem Inked.nextRow (h : Inked t s) (hc : t.active.col = 0) (hr : t.active.row.toNat < VGA_HEIGHT)
    (hpen : s.pen = (s.top + (t.active.row.toNat + 1)) * VGA_WIDTH) : Drawn (nextRow t) s.follow := by
  have hsucc : (t.active.row + 1).toNat = t.active.row.toNat + 1 := by
    unfold VGA_HEIGHT at hr
    bv_omega
  unfold Tty.nextRow
  simp only
  split_ifs with hrow
  · rw [show (t.moveTo t.activeConsole (t.active.row + 1) t.active.col).activeConsole = t.activeConsole from rfl,
      scroll_moveTo]
    have h24 : t.active.row.toNat + 1 = VGA_HEIGHT := by omega
    rw [h24] at hpen
    have hfollow : s.follow = { s with top := s.top + 1 } := if_pos hpen.ge
    have hsame := (scroll_sameScreen (t := t) t.activeConsole).1
    have hact : (renderConsole (scroll t t.activeConsole) (scroll t t.activeConsole).activeConsole).active =
        (scroll t t.activeConsole).active := by
      unfold St.active
      rw [(render_sameScreen _).1, render_consoles]
    have hbuf : ∀ k < VGA_WIDTH * VGA_HEIGHT, (scroll t t.activeConsole).active.buffer k =
        if k < (VGA_HEIGHT - 1) * VGA_WIDTH then t.active.buffer (k + VGA_WIDTH) else blank := by
      intro k hk
      unfold St.active
      rw [hsame]
      exact scroll_buffer t t.activeConsole hk
    refine ⟨⟨⟨fun k hk => ?_, fun p hp => ?_⟩, ?_⟩, fun k hk => ?_, updateCursor_regs _⟩
    · rw [updateCursor_active, hact, hbuf k hk, hfollow]
      show _ = s.cells ((s.top + 1) * VGA_WIDTH + k)
      split_ifs with hlast
      · rw [h.framed.cells _ (by unfold VGA_WIDTH VGA_HEIGHT at *; omega), Sheet.window, Nat.add_mul]
        exact congrArg s.cells (by omega)
      · refine (h.framed.below _ ?_).symm
        unfold Sheet.bottom VGA_WIDTH VGA_HEIGHT at *
        omega
    · rw [hfollow] at hp ⊢
      refine h.framed.below p (le_trans ?_ hp)
      unfold Sheet.bottom
      exact Nat.mul_le_mul_right _ (by simp only; omega)
    · rw [updateCursor_active, hact, hfollow]
      show s.pen = (s.top + 1) * VGA_WIDTH + Console.pos _
      rw [Console.pos, scroll_active.1, scroll_active.2, hpen]
      unfold VGA_WIDTH VGA_HEIGHT
      simp only [BitVec.reduceToNat]
      omega
    · rw [updateCursor_vga, updateCursor_active, hact, render_vga _ _ hk, St.active]
  · rw [hsucc] at hrow
    have hfollow : s.follow = s := by
      refine if_neg ?_
      rw [hpen]
      unfold Sheet.bottom VGA_WIDTH VGA_HEIGHT at *
      omega
    rw [hfollow]
    refine (h.moveTo _ _).updateCursor ?_
    rw [moveTo_active, hpen, Console.pos, hsucc, hc, Nat.add_mul]
    rfl

/-- a call that draws -/
theorem Shows.draw (h : Shows t d) (hon : OnScreen t') (ho : Others t t') (hs : Drawn t' s) :
    Shows t' (d.setSheet s).mind := by
  have hshown : t'.activeConsole = d.shown := ho.1.trans h.active
  have hsheet : (d.setSheet s).sheet = s := Function.update_self ..
  have hact : t'.consoles d.shown = t'.active := by rw [← hshown]; rfl
  refine ⟨hon, hshown, fun i => ?_, fun k hk => ?_, ?_⟩
  · show Fits (Function.update d.sheets d.shown s i) _
    by_cases hi : i = d.shown
    · rw [hi, Function.update_self, hact]
      exact hs.fits
    · rw [Function.update_of_ne hi, ho.2 i (by rw [h.active]; exact hi)]
      exact h.fits i
  · rw [hs.vga k hk, hs.fits.framed.cells k hk]
    exact congrArg (fun x : Sheet => x.window k) hsheet.symm
  · rw [hs.cursor]
    show _ = regs (d.setSheet s).sheet.offset
    rw [hsheet, Sheet.offset, hs.fits.pen, Nat.add_sub_cancel_left]

/-! ## Calls -/

theorem Shows.fit (h : Shows t d) : Fits d.sheet t.active := by
  rw [St.active, h.active]
  exact h.fits d.shown

theorem Shows.inked (h : Shows t d) : Inked t d.sheet :=
  ⟨h.fit.framed, fun k hk => (h.vga k hk).trans (h.fit.framed.cells k hk).symm⟩

theorem Shows.backspace (h : Shows t d) (hh : ¬ Home t.active) : Shows (printBackspace t)
    (if d.sheet.pen % VGA_WIDTH = 0 then d.setSheet d.sheet.back else (d.setSheet d.sheet.back).mind) := by
  have hcol := h.on.col t.activeConsole
  have hon := h.on.printBackspace hh
  have hpen := h.fit.pen
  have hmod : d.sheet.pen % VGA_WIDTH = t.active.col.toNat := by
    unfold St.active Console.pos VGA_WIDTH at *
    omega
  unfold Sheet.back
  simp only
  rw [hmod]
  by_cases h0 : t.active.col = 0
  · have hz : t.active.col.toNat = 0 := by rw [h0]; rfl
    -- not in the corner: there is a row above
    have hrow : t.active.row ≠ 0 := fun hr => hh ⟨hr, h0⟩
    have hsucc : (t.active.row - 1).toNat + 1 = t.active.row.toNat := by
      unfold St.active at *
      bv_omega
    rw [printBackspace, if_pos h0] at hon ⊢
    rw [if_pos hz, if_pos hz]
    refine ⟨hon, h.active, fun i => ?_, fun k hk => ?_, h.cursor⟩
    · show Fits (Function.update d.sheets d.shown _ i) _
      by_cases hi : i = d.shown
      · rw [hi, Function.update_self, ← h.active]
        show Fits _ (t.moveTo t.activeConsole (t.active.row - 1) 79).active
        refine ⟨((h.inked.penAt _).moveTo _ _).framed, ?_⟩
        rw [moveTo_active]
        show d.sheet.pen - 1 = d.sheet.top * VGA_WIDTH + ((t.active.row - 1).toNat * VGA_WIDTH + 79)
        rw [hpen]
        unfold Console.pos VGA_WIDTH
        omega
      · rw [Function.update_of_ne hi, moveTo_other (by rw [h.active]; exact hi)]
        exact h.fits i
    · refine (h.vga k hk).trans ?_
      show _ = Sheet.window (Function.update d.sheets d.shown _ d.shown) k
      rw [Function.update_self]
      rfl
  · have hz : t.active.col.toNat ≠ 0 := fun hc => h0 (BitVec.eq_of_toNat_eq hc)
    have hpred : (t.active.col - 1).toNat + 1 = t.active.col.toNat := by
      unfold St.active at *
      bv_omega
    have hlt : t.active.pos < VGA_WIDTH * VGA_HEIGHT := pos_lt h.on
    have hpos : d.sheet.pen - 1 =
        d.sheet.top * VGA_WIDTH + (t.active.row.toNat * VGA_WIDTH + (t.active.col - 1).toNat) := by
      rw [hpen, Console.pos, ← hpred]
      omega
    rw [printBackspace_eq h0 rfl rfl rfl] at hon ⊢
    rw [if_neg hz, if_neg hz]
    refine h.draw hon (others_moveTo.trans others_put).updateCursor ?_
    refine (((h.inked.penAt _).moveTo _ _).put ?_ hpos blank).updateCursor ?_
    · unfold Console.pos at hlt
      omega
    · rw [put_active, moveTo_active]
      exact hpos

theorem Shows.newline (h : Shows t d) : Shows (nextRow (t.moveTo t.activeConsole t.active.row 0))
    (d.setSheet d.sheet.newline).mind := by
  have hrow := h.on.row t.activeConsole
  have hcol := h.on.col t.activeConsole
  have hact := moveTo_active (t := t) t.active.row 0
  refine h.draw (h.on.moveTo hrow (by decide)).nextRow (others_moveTo.trans others_nextRow) ?_
  refine Inked.nextRow ((h.inked.penAt _).moveTo _ _) (by rw [hact]) (by rw [hact]; exact hrow) ?_
  rw [hact]
  show (d.sheet.pen / VGA_WIDTH + 1) * VGA_WIDTH = (d.sheet.top + (t.active.row.toNat + 1)) * VGA_WIDTH
  rw [h.fit.pen, Console.pos]
  unfold St.active VGA_WIDTH at *
  congr 1
  omega

theorem Shows.type {c : U8} (h : Shows t d) (hb : c ≠ 0x08) (hn : c ≠ 0x0A) :
    Shows (print t c) (d.setSheet (d.sheet.type c)).mind := by
  have hrow := h.on.row t.activeConsole
  have hcol := h.on.col t.activeConsole
  have hon := h.on.print fun hc : c = 0x08 => absurd hc hb
  have hink := h.inked.put (pos_lt h.on) h.fit.pen (cell c)
  have hpen := h.fit.pen
  rw [printChar_eq h.on.ready hb hn] at hon ⊢
  have hact : ∀ row col, ((t.put t.active.pos (cell c)).moveTo t.activeConsole row col).active =
      ⟨Function.update t.active.buffer t.active.pos (cell c), row, col⟩ := fun row col => put_moveTo_active row col
  split_ifs at hon ⊢ with hlast
  · refine h.draw hon ((others_put.trans others_moveTo).trans others_nextRow) ?_
    refine Inked.nextRow ((hink.penAt _).moveTo _ _) (by rw [hact]) (by rw [hact]; exact hrow) ?_
    rw [hact]
    show d.sheet.pen + 1 = (d.sheet.top + (t.active.row.toNat + 1)) * VGA_WIDTH
    have h79 : t.active.col.toNat + 1 = VGA_WIDTH := by
      unfold St.active VGA_WIDTH at *
      bv_omega
    rw [hpen, Console.pos, Nat.add_mul, Nat.succ_mul]
    omega
  · have hsucc : (t.active.col + 1).toNat = t.active.col.toNat + 1 := by
      unfold St.active VGA_WIDTH at *
      bv_omega
    have hfollow : d.sheet.type c = { d.sheet.mark (cell c) with pen := d.sheet.pen + 1 } := by
      refine if_neg ?_
      show ¬ (d.sheet.top + VGA_HEIGHT) * VGA_WIDTH ≤ d.sheet.pen + 1
      rw [hpen, Console.pos]
      unfold St.active VGA_WIDTH VGA_HEIGHT at *
      omega
    rw [hfollow]
    refine h.draw hon (others_put.trans others_moveTo).updateCursor ?_
    refine ((hink.penAt _).moveTo _ _).updateCursor ?_
    show d.sheet.pen + 1 = d.sheet.top * VGA_WIDTH +
      ((t.put t.active.pos (cell c)).moveTo t.activeConsole t.active.row (t.active.col + 1)).active.pos
    rw [hact]
    show d.sheet.pen + 1 = d.sheet.top * VGA_WIDTH + (t.active.row.toNat * VGA_WIDTH + (t.active.col + 1).toNat)
    rw [hpen, hsucc, Console.pos]
    omega

/-- **One character.** -/
theorem Shows.print {c : U8} (h : Shows t d) (hh : c = 0x08 → ¬ Home t.active) : Shows (print t c) (d.print c) := by
  by_cases hb : c = 0x08
  · have hp : Tty.print t c = printBackspace t := by
      unfold Tty.print
      rw [if_neg (by rw [h.on.ready]; decide), if_pos hb]
    rw [hp, Desk.print, if_pos hb]
    exact h.backspace (hh hb)
  · by_cases hn : c = 0x0A
    · have hp : Tty.print t c = nextRow (t.moveTo t.activeConsole t.active.row 0) := by
        unfold Tty.print
        rw [if_neg (by rw [h.on.ready]; decide), if_neg hb, if_pos hn]
      rw [hp, Desk.print, if_neg hb, if_pos hn]
      exact h.newline
    · rw [Desk.print, if_neg hb, if_neg hn]
      exact h.type hb hn

theorem Shows.switchTo {n : U8} (h : Shows t d) : Shows (switchTo t n) (d.switchTo n) := by
  have hon := h.on.switchTo (n := n)
  unfold Tty.switchTo Desk.switchTo at *
  split_ifs at hon ⊢ with hn
  · refine ⟨hon, (render_sameScreen _).1, fun i => ?_, fun k hk => ?_, ?_⟩
    · rw [render_consoles]
      exact h.fits i
    · rw [render_vga _ _ hk]
      exact (h.fits ⟨n.toNat, hn⟩).framed.cells k hk
    · rw [render_cursor rfl]
      show regs (t.consoles ⟨n.toNat, hn⟩).pos = regs (Sheet.offset (d.sheets ⟨n.toNat, hn⟩))
      rw [Sheet.offset, (h.fits ⟨n.toNat, hn⟩).pen, Nat.add_sub_cancel_left]
  · exact h

end Windows

/-! ## Setup -/

section Start

variable {t : St} {i j : Fin NUM_CONSOLES}

theorem initConsole_buffer (t : St) (i : Fin NUM_CONSOLES) {k : ℕ} (hk : k < VGA_WIDTH * VGA_HEIGHT) :
    ((initConsole t i).consoles i).buffer k = blank := by
  unfold initConsole
  rw [moveTo_buffer, clear_buffer, if_pos ⟨Nat.zero_le k, by omega⟩]

theorem initConsole_other (h : j ≠ i) : (initConsole t i).consoles j = t.consoles j := by
  have hclear : ∀ l : List ℕ, (l.foldl (clearCell i 0) t).consoles j = t.consoles j := fun l =>
    List.foldlRecOn (motive := fun u : St => u.consoles j = t.consoles j) _ _ rfl fun _ hu _ _ =>
      (write_other h _ _).trans hu
  exact (moveTo_other h).trans (hclear _)

/-- the consoles in is are blank -/
theorem inits_buffer (is : List (Fin NUM_CONSOLES)) (hj : j ∈ is) {k : ℕ} (hk : k < VGA_WIDTH * VGA_HEIGHT) :
    ((is.foldl initConsole t).consoles j).buffer k = blank := by
  induction is using List.reverseRecOn with
  | nil => exact absurd hj List.not_mem_nil
  | append_singleton is i ih =>
    rw [List.foldl_append, List.foldl_cons, List.foldl_nil]
    by_cases hij : j = i
    · rw [hij]
      exact initConsole_buffer _ i hk
    · rw [initConsole_other hij]
      refine ih ((List.mem_append.1 hj).resolve_right ?_)
      rw [List.mem_singleton]
      exact hij

/-- a blank console with its number on it -/
def label (i : Fin NUM_CONSOLES) (k : ℕ) : U16 := if k = 0 then cell (0x31 + BitVec.ofNat 8 i) else blank

theorem init_buffer (t : St) (i : Fin NUM_CONSOLES) {k : ℕ} (hk : k < VGA_WIDTH * VGA_HEIGHT) :
    ((init t).consoles i).buffer k = label i k := by
  have hblank : ∀ j, (((List.finRange NUM_CONSOLES).foldl initConsole { t with log := [] }).consoles j).buffer k =
      blank := fun j => inits_buffer _ (List.mem_finRange j) hk
  unfold init
  simp only
  rw [render_consoles]
  generalize (List.finRange NUM_CONSOLES).foldl initConsole { t with log := [] } = u at hblank
  have hwrite : ∀ (v : St) (l : Fin NUM_CONSOLES) x, ((v.write l 0 x).consoles i).buffer k =
      if i = l ∧ k = 0 then x else (v.consoles i).buffer k := by
    intro v l x
    by_cases hil : i = l
    · rw [hil, write_buffer]
      simp only [true_and]
    · rw [write_other hil, if_neg fun h => hil h.1]
  show ((((((u.write 0 0 (cell 0x31)).write 1 0 (cell 0x32)).write 2 0 (cell 0x33)).write 3 0 (cell 0x34)).consoles
    i).buffer k) = label i k
  rw [hwrite, hwrite, hwrite, hwrite, hblank]
  unfold label
  by_cases h0 : k = 0
  · simp only [h0, and_true, if_true]
    clear hwrite
    revert i
    decide
  · rw [if_neg h0, if_neg (fun h => h0 h.2), if_neg (fun h => h0 h.2), if_neg (fun h => h0 h.2),
      if_neg (fun h => h0 h.2)]

/-- the first console is on the screen -/
theorem init_render (t : St) : (init t).activeConsole = 0 ∧
    (∀ k < VGA_WIDTH * VGA_HEIGHT, (init t).vga k = ((init t).consoles 0).buffer k) ∧
    (init t).cursor = (BitVec.ofNat 8 (((init t).consoles 0).pos / 256), BitVec.ofNat 8 ((init t).consoles 0).pos) := by
  unfold init
  simp only
  generalize (((List.finRange NUM_CONSOLES).foldl initConsole { t with log := [] }).write 0 0 (cell 0x31)).write 1 0
    (cell 0x32) = u
  rw [render_consoles]
  exact ⟨(render_sameScreen 0).1, fun k hk => render_vga _ 0 hk, render_cursor rfl⟩

/-- **Setup.** -/
theorem init_shows (t : St) : Shows (init t) Desk.start := by
  obtain ⟨hon, hhome⟩ := init_spec t
  have hsheet : ∀ i p, (Desk.start.sheets i).cells p = label i p := by
    intro i p
    show Function.update (fun _ => blank) 0 (cell (0x31 + BitVec.ofNat 8 i)) p = label i p
    exact Function.update_apply ..
  have hwindow : ∀ i k, (Desk.start.sheets i).window k = label i k := by
    intro i k
    rw [Sheet.window, hsheet]
    exact congrArg (label i) (by show 0 * VGA_WIDTH + k = k; omega)
  have hpos : ∀ i, ((init t).consoles i).pos = 0 := by
    intro i
    rw [Console.pos, (hhome i).1, (hhome i).2]
    rfl
  have hbuf : ∀ i, ∀ k < VGA_WIDTH * VGA_HEIGHT, ((init t).consoles i).buffer k = label i k :=
    fun i k hk => init_buffer t i hk
  obtain ⟨hact, hvga, hcursor⟩ := init_render t
  refine ⟨hon, hact, fun i => ⟨⟨fun k hk => ?_, fun p hp => ?_⟩, ?_⟩, fun k hk => ?_, ?_⟩
  · rw [hbuf i k hk, hwindow]
  · have hp0 : p ≠ 0 := by
      rintro rfl
      exact absurd (show 25 * 80 ≤ 0 from hp) (by decide)
    rw [hsheet, label, if_neg hp0]
  · rw [hpos]
    rfl
  · exact (hvga k hk).trans ((hbuf 0 k hk).trans (hwindow 0 k).symm)
  · rw [hcursor, hpos]
    rfl

end Start

/-! ## Runs -/

/-- **Four sheets.** Over any sequence of prints and switches in which no backspace is printed in the corner, every
console's buffer is the window of its own sheet, the screen is the window of the sheet shown last, and a character goes to
the sheet that is shown as it is printed. -/
theorem sheets_refine (t t' : St) (cs : List Call) (hh : Each step (fun t c => c = .print 0x08 → ¬ Home t.active) (init t) cs)
    (hr : cs.foldlM step (init t) = some t') : Shows t' (cs.foldl Desk.step Desk.start) := by
  refine Refine.sim_run ?_ (init_shows t) hh hr
  intro t d c t' h hg hs
  cases c with
  | print c =>
    cases hs
    exact h.print fun hc => hg (by rw [hc])
  | switchTo n =>
    cases hs
    exact h.switchTo

theorem run_total (cs : List Call) (t : St) : ∃ t', cs.foldlM step t = some t' := by
  induction cs generalizing t with
  | nil => exact ⟨t, rfl⟩
  | cons c cs ih =>
    cases c with
    | print c => exact ih (print t c)
    | switchTo n => exact ih (switchTo t n)

/-- two words on two consoles -/
def twoWords : List Call := [.print 0x68, .print 0x69, .switchTo 2, .print 0x79, .print 0x0A, .switchTo 0]

theorem sheets_refine_words : ∃ t', twoWords.foldlM step (init (atColumn 0)) = some t' ∧
    Shows t' (twoWords.foldl Desk.step Desk.start) := by
  obtain ⟨t', hr⟩ := run_total twoWords (init (atColumn 0))
  have hne : ∀ c ∈ twoWords, c ≠ .print 0x08 := by simp [twoWords]
  exact ⟨t', hr, sheets_refine (atColumn 0) t' twoWords
    (each_of_each (fun _ _ _ _ _ _ => trivial) (fun _ _ _ hc h => absurd h hc) trivial (each_of_forall hne)) hr⟩

end Retux.Tty
