/-
Circular buffers with one free cell. Nothing here names a particular program.

Elements go in at head and come out at tail; both step round an array of n cells. `IsFifo n buf head tail q` says that the
cells from tail up to head hold the queue q. One cell stays free, so that the two indices tell the length of q.

- `empty_iff`, `full_iff`: head meets tail when q is empty; the cell behind head is tail when n - 1 elements wait;
- `IsFifo.push`, `IsFifo.pop`: one element in, one element out;
- `IsFifo.write`: what is stored in the free cell does not count.
-/
import Mathlib.Tactic

namespace Retux.Fifo

structure IsFifo {α : Type} (n : ℕ) (buf : ℤ → α) (head tail : ℤ) (q : List α) : Prop where
  room : q.length < n
  first : 0 ≤ tail ∧ tail < n
  last : head = (tail + q.length) % n
  cells : ∀ (i : ℕ) (hi : i < q.length), buf ((tail + i) % n) = q[i]

variable {α : Type} {n : ℕ} {buf : ℤ → α} {head tail : ℤ} {q : List α} {c : α}

/-- an index that went round at most once -/
theorem wrap {x : ℤ} (h0 : 0 ≤ x) (h : x < 2 * n) : x % n = if x < n then x else x - n := by
  split_ifs with hx
  · exact Int.emod_eq_of_lt h0 hx
  · rw [← Int.sub_emod_right, Int.emod_eq_of_lt (by omega) (by omega)]

namespace IsFifo

theorem empty (hn : 0 < n) : IsFifo n buf 0 0 [] :=
  ⟨hn, ⟨le_rfl, by omega⟩, by simp, fun i hi => absurd hi (Nat.not_lt_zero i)⟩

theorem last_wrap (h : IsFifo n buf head tail q) :
    head = if tail + q.length < n then tail + q.length else tail + q.length - n := by
  have hroom := h.room
  have hfirst := h.first
  rw [h.last, wrap (by omega) (by omega)]

theorem last_mem (h : IsFifo n buf head tail q) : 0 ≤ head ∧ head < n := by
  have hroom := h.room
  rw [h.last]
  exact ⟨Int.emod_nonneg _ (by omega), Int.emod_lt_of_pos _ (by omega)⟩

theorem empty_iff (h : IsFifo n buf head tail q) : head = tail ↔ q = [] := by
  have hroom := h.room
  have hfirst := h.first
  have hlast := h.last_wrap
  rw [← List.length_eq_zero_iff]
  split_ifs at hlast <;> omega

/-- the cell behind head -/
theorem succ_wrap (h : IsFifo n buf head tail q) :
    (head + 1) % n = (tail + (q.length + 1 : ℕ)) % n := by
  rw [h.last, Int.emod_add_emod, Nat.cast_add, Nat.cast_one, add_assoc]

theorem full_iff (h : IsFifo n buf head tail q) : (head + 1) % n = tail ↔ q.length + 1 = n := by
  have hroom := h.room
  have hfirst := h.first
  rw [h.succ_wrap, wrap (by omega) (by omega)]
  split_ifs <;> omega

/-- a cell of the queue is not the free one -/
theorem cell_ne (h : IsFifo n buf head tail q) {i : ℕ} (hi : i < q.length) : (tail + i) % n ≠ head := by
  have hroom := h.room
  have hfirst := h.first
  have hlast := h.last_wrap
  rw [wrap (by omega) (by omega)]
  split_ifs at hlast ⊢ <;> omega

/-- **A store in the free cell.** -/
theorem write (h : IsFifo n buf head tail q) : IsFifo n (Function.update buf head c) head tail q :=
  ⟨h.room, h.first, h.last, fun i hi => by rw [Function.update_of_ne (h.cell_ne hi), h.cells i hi]⟩

/-- **In.** -/
theorem push (h : IsFifo n buf head tail q) (hroom : q.length + 1 < n) :
    IsFifo n (Function.update buf head c) ((head + 1) % n) tail (q ++ [c]) := by
  have hlen : (q ++ [c]).length = q.length + 1 := by simp
  refine ⟨by omega, h.first, by rw [h.succ_wrap, hlen], fun i hi => ?_⟩
  by_cases hq : i < q.length
  · rw [h.write.cells i hq, List.getElem_append_left hq]
  · -- the new element is the last
    have hi' : i = q.length := by omega
    subst hi'
    rw [← h.last, Function.update_self, List.getElem_concat_length rfl]

/-- what comes out next -/
theorem front (h : IsFifo n buf head tail (c :: q)) : buf tail = c := by
  have hfirst := h.first
  have hcell := h.cells 0 (by simp)
  rwa [Nat.cast_zero, add_zero, Int.emod_eq_of_lt hfirst.1 hfirst.2] at hcell

/-- **Out.** -/
theorem pop (h : IsFifo n buf head tail (c :: q)) : IsFifo n buf head ((tail + 1) % n) q := by
  have hroom := h.room
  rw [List.length_cons] at hroom
  have hshift : ∀ i : ℕ, ((tail + 1) % n + i) % n = (tail + (i + 1 : ℕ)) % n := by
    intro i
    rw [Int.emod_add_emod, Nat.cast_add, Nat.cast_one, add_assoc, add_comm 1]
  refine ⟨by omega, ⟨Int.emod_nonneg _ (by omega), Int.emod_lt_of_pos _ (by omega)⟩, ?_, fun i hi => ?_⟩
  · rw [hshift, h.last, List.length_cons]
  · rw [hshift, h.cells (i + 1) (by rw [List.length_cons]; omega), List.getElem_cons_succ]

end IsFifo

end Retux.Fifo
