/-
Trees of numbered nodes, each with a name and a list of children. Nothing here names a particular program.

A labelling gives every node the list of the names on the way to it. `Labelled` says that the labelling is right and
that no two nodes share a label: a node is then found by its label, one name at a time.

- `Labelled.find`: searching the children by name finds the node with the longer label, if there is one;
- `Labelled.node_above`: labels are closed under prefixes;
- `Labelled.add`: a new node is hung in as the first child of a node that has no child of its name.
-/
import Mathlib.Tactic

namespace Retux.Tree

variable {α : Type}

structure Labelled (n : ℕ) (kids : ℕ → List ℕ) (name : ℕ → α) (label : ℕ → List α) : Prop where
  pos : 0 < n
  root : label 0 = []
  kid : ∀ i < n, ∀ c ∈ kids i, c < n ∧ label c = label i ++ [name c]
  inj : ∀ i < n, ∀ j < n, label i = label j → i = j
  parent : ∀ j < n, label j ≠ [] → ∃ i < n, j ∈ kids i

section Tree

variable {n i j : ℕ} {kids : ℕ → List ℕ} {name : ℕ → α} {label : ℕ → List α} {x : α} {p q : List α}

theorem Labelled.eq_root (h : Labelled n kids name label) (hi : i < n) (hl : label i = []) : i = 0 :=
  h.inj i hi 0 h.pos (hl.trans h.root.symm)

/-- one name further down -/
theorem Labelled.mem_kids (h : Labelled n kids name label) (hi : i < n) :
    j ∈ kids i ∧ name j = x ↔ j < n ∧ label j = label i ++ [x] := by
  constructor
  · intro hj
    obtain ⟨hlt, hl⟩ := h.kid i hi j hj.1
    exact ⟨hlt, by rw [hl, hj.2]⟩
  · intro hj
    obtain ⟨i', hi', hmem⟩ := h.parent j hj.1 (by simp [hj.2])
    have hl : label i' ++ [name j] = label i ++ [x] := (h.kid i' hi' j hmem).2.symm.trans hj.2
    obtain ⟨hpre, hname⟩ := List.append_inj' hl rfl
    have heq : i' = i := h.inj i' hi' i hi hpre
    exact ⟨heq ▸ hmem, by simpa using hname⟩

theorem Labelled.find [DecidableEq α] (h : Labelled n kids name label) (hi : i < n) :
    ((kids i).find? fun c => name c = x) = some j ↔ j < n ∧ label j = label i ++ [x] := by
  rw [← h.mem_kids hi]
  constructor
  · intro hfound
    exact ⟨List.mem_of_find?_eq_some hfound, by simpa using List.find?_some hfound⟩
  · intro hj
    cases hfound : (kids i).find? fun c => decide (name c = x) with
    | none => exact absurd hj.2 (by simpa using List.find?_eq_none.1 hfound j hj.1)
    | some j' =>
      have hj' : j' ∈ kids i ∧ name j' = x := ⟨List.mem_of_find?_eq_some hfound, by simpa using List.find?_some hfound⟩
      rw [h.mem_kids hi] at hj hj'
      rw [h.inj j' hj'.1 j hj.1 (hj'.2.trans hj.2.symm)]

theorem Labelled.node_above (h : Labelled n kids name label) (hj : j < n) (hl : label j = p ++ q) :
    ∃ i < n, label i = p := by
  induction q using List.reverseRecOn generalizing j with
  | nil => exact ⟨j, hj, by rw [hl, List.append_nil]⟩
  | append_singleton q y ih =>
    obtain ⟨i, hi, hmem⟩ := h.parent j hj (by simp [hl])
    have heq : label i ++ [name j] = (p ++ q) ++ [y] := by rw [← (h.kid i hi j hmem).2, hl, List.append_assoc]
    exact ih hi (List.append_inj' heq rfl).1

theorem Labelled.add (h : Labelled n kids name label) (hi : i < n) (hnew : ∀ j < n, label j ≠ label i ++ [x]) :
    Labelled (n + 1) (Function.update (Function.update kids n []) i (n :: kids i)) (Function.update name n x)
      (Function.update label n (label i ++ [x])) := by
  have hold {j : ℕ} {β : Type} {f : ℕ → β} {y : β} (hj : j < n) : Function.update f n y j = f j :=
    Function.update_of_ne (Nat.ne_of_lt hj) _ _
  refine ⟨Nat.succ_pos n, (hold h.pos).trans h.root, fun k hk c hc => ?_, fun k hk j hj heq => ?_,
    fun j hj hl => ?_⟩
  · by_cases hki : k = i
    · subst hki
      rw [Function.update_self, List.mem_cons] at hc
      rcases hc with rfl | hc
      · rw [Function.update_self, Function.update_self, hold hi]
        exact ⟨Nat.lt_succ_self _, rfl⟩
      · obtain ⟨hlt, hl⟩ := h.kid k hi c hc
        rw [hold hlt, hold hlt, hold hi]
        exact ⟨Nat.lt_succ_of_lt hlt, hl⟩
    · rw [Function.update_of_ne hki] at hc
      rcases Nat.lt_succ_iff_lt_or_eq.1 hk with hlt | rfl
      · rw [hold hlt] at hc
        obtain ⟨hc', hl⟩ := h.kid k hlt c hc
        rw [hold hc', hold hc', hold hlt]
        exact ⟨Nat.lt_succ_of_lt hc', hl⟩
      · rw [Function.update_self] at hc
        exact absurd hc (by simp)
  · rcases Nat.lt_succ_iff_lt_or_eq.1 hk with hk | rfl
    · rcases Nat.lt_succ_iff_lt_or_eq.1 hj with hj | rfl
      · rw [hold hk, hold hj] at heq
        exact h.inj k hk j hj heq
      · rw [hold hk, Function.update_self] at heq
        exact absurd heq (hnew k hk)
    · rcases Nat.lt_succ_iff_lt_or_eq.1 hj with hj | rfl
      · rw [hold hj, Function.update_self] at heq
        exact absurd heq.symm (hnew j hj)
      · rfl
  · rcases Nat.lt_succ_iff_lt_or_eq.1 hj with hj | rfl
    · rw [hold hj] at hl
      obtain ⟨k, hk, hmem⟩ := h.parent j hj hl
      refine ⟨k, Nat.lt_succ_of_lt hk, ?_⟩
      by_cases hki : k = i
      · subst hki
        rw [Function.update_self]
        exact List.mem_cons_of_mem _ hmem
      · rwa [Function.update_of_ne hki, hold hk]
    · exact ⟨i, Nat.lt_succ_of_lt hi, by rw [Function.update_self]; exact List.mem_cons_self ..⟩

end Tree

end Retux.Tree
