/-
Cells that several holders may refer to, without a count of the references. Nothing here names a particular program.

Every holder has slots, each with a reference to a cell or empty. `Safe` says that the slots of the holders alive refer
to cells that are allocated, and that no cell was given back twice. `Sound` is the invariant behind it: it is kept by
everything but the release of a cell that a holder still refers to.

- `Sound.holders`: holders come and go, with slots of their own, copied or empty;
- `Sound.alloc`, `Sound.point`, `Sound.clear`, `Sound.release`: the operations;
- `not_safe_release`: a release under a reference leaves it dangling.
-/
import Mathlib.Tactic

namespace Retux.Refs

structure Pool (η ι γ : Type) where
  live : η → Prop
  ref : η → ι → Option γ
  cells : List γ
  /-- given back, and not handed out since -/
  freed : List γ

variable {η ι γ : Type}

namespace Pool

def alloc [DecidableEq γ] (P : Pool η ι γ) (c : γ) : Pool η ι γ :=
  { P with cells := c :: P.cells, freed := P.freed.filter (· ≠ c) }

def release [DecidableEq γ] (P : Pool η ι γ) (c : γ) : Pool η ι γ := { P with cells := P.cells.erase c, freed := c :: P.freed }

/-- slot i of h, set -/
def point [DecidableEq η] [DecidableEq ι] (P : Pool η ι γ) (h : η) (i : ι) (v : Option γ) : Pool η ι γ :=
  { P with ref := Function.update P.ref h (Function.update (P.ref h) i v) }

end Pool

/-- no reference dangles, and nothing was given back twice -/
structure Safe (P : Pool η ι γ) : Prop where
  valid : ∀ {h i c}, P.live h → P.ref h i = some c → c ∈ P.cells
  once : P.freed.Nodup

structure Sound (P : Pool η ι γ) : Prop extends Safe P where
  /-- no holder refers to a cell twice -/
  own : ∀ {h i j c}, P.live h → P.ref h i = some c → P.ref h j = some c → i = j
  nodup : P.cells.Nodup
  apart : ∀ {c}, c ∈ P.cells → c ∉ P.freed

/-- no holder alive refers to c -/
def Unheld (P : Pool η ι γ) (c : γ) : Prop := ∀ h i, P.live h → P.ref h i ≠ some c

section Operations

variable {P P' : Pool η ι γ} {h h' : η} {i j : ι} {c d : γ} {v : Option γ}

/-- the slots of the holders alive are empty, or those of one that was alive -/
theorem Sound.holders (hs : Sound P) (hcells : P'.cells = P.cells) (hfreed : P'.freed = P.freed)
    (hrefs : ∀ h, P'.live h → (∃ h0, P.live h0 ∧ P'.ref h = P.ref h0) ∨ ∀ i, P'.ref h i = none) : Sound P' := by
  refine ⟨⟨fun {h i c} hl hr => ?_, hfreed ▸ hs.once⟩, fun {h i j c} hl hi hj => ?_, hcells ▸ hs.nodup, fun {c} hc => ?_⟩
  · rcases hrefs h hl with ⟨h0, hl0, heq⟩ | hnone
    · rw [heq] at hr
      exact hcells ▸ hs.valid hl0 hr
    · simp [hnone] at hr
  · rcases hrefs h hl with ⟨h0, hl0, heq⟩ | hnone
    · rw [heq] at hi hj
      exact hs.own hl0 hi hj
    · simp [hnone] at hi
  · rw [hfreed]
    exact hs.apart (hcells ▸ hc)

/-- nothing refers to a cell that is not allocated -/
theorem Sound.unheld_fresh (hs : Sound P) (hc : c ∉ P.cells) : Unheld P c := fun _ _ hl hr => hc (hs.valid hl hr)

section Cells

variable [DecidableEq γ]

theorem Sound.alloc (hs : Sound P) (hc : c ∉ P.cells) : Sound (P.alloc c) := by
  refine ⟨⟨fun hl hr => List.mem_cons_of_mem _ (hs.valid hl hr), hs.once.filter _⟩, hs.own,
    List.nodup_cons.2 ⟨hc, hs.nodup⟩, fun {d} hd hf => ?_⟩
  obtain ⟨hf, hdc⟩ := List.mem_filter.1 hf
  rcases List.mem_cons.1 hd with rfl | hd
  · simp at hdc
  · exact hs.apart hd hf

/-- a cell without references is given back -/
theorem Sound.release (hs : Sound P) (hc : c ∈ P.cells) (hu : Unheld P c) : Sound (P.release c) := by
  refine ⟨⟨fun {h i d} hl hr => ?_, List.nodup_cons.2 ⟨hs.apart hc, hs.once⟩⟩, hs.own, hs.nodup.erase _, fun {d} hd hf => ?_⟩
  · have hdc : d ≠ c := by
      rintro rfl
      exact hu h i hl hr
    exact (List.mem_erase_of_ne hdc).2 (hs.valid hl hr)
  · obtain ⟨hdc, hd⟩ := hs.nodup.mem_erase_iff.1 hd
    rcases List.mem_cons.1 hf with heq | hf
    · exact hdc heq
    · exact hs.apart hd hf

/-- **A dangling reference.** -/
theorem not_safe_release (hnd : P.cells.Nodup) (hl : P.live h) (hr : P.ref h i = some c) : ¬ Safe (P.release c) := by
  intro hsafe
  have hc : c ∈ P.cells.erase c := hsafe.valid hl hr
  exact (hnd.mem_erase_iff.1 hc).1 rfl

end Cells

section Slots

variable [DecidableEq η] [DecidableEq ι]

/-- a slot that was set: this one, or as before -/
theorem point_some (hp : (P.point h i v).ref h' j = some d) : h' = h ∧ j = i ∧ v = some d ∨ P.ref h' j = some d := by
  have hp' : Function.update P.ref h (Function.update (P.ref h) i v) h' j = some d := hp
  by_cases hh : h' = h
  · subst hh
    rw [Function.update_self] at hp'
    by_cases hj : j = i
    · subst hj
      rw [Function.update_self] at hp'
      exact Or.inl ⟨rfl, rfl, hp'⟩
    · rw [Function.update_of_ne hj] at hp'
      exact Or.inr hp'
  · rw [Function.update_of_ne hh] at hp'
    exact Or.inr hp'

theorem point_other (hh : h' ≠ h) : (P.point h i v).ref h' = P.ref h' := Function.update_of_ne hh _ _

/-- a reference to a cell that h does not hold yet -/
theorem Sound.point (hs : Sound P) (hc : c ∈ P.cells) (hnew : ∀ j, P.ref h j ≠ some c) :
    Sound (P.point h i (some c)) := by
  refine ⟨⟨fun {h' j d} hl hr => ?_, hs.once⟩, fun {h' j k d} hl hj hk => ?_, hs.nodup, hs.apart⟩
  · rcases point_some hr with ⟨-, -, heq⟩ | hr
    · cases heq
      exact hc
    · exact hs.valid hl hr
  · rcases point_some hj with ⟨rfl, rfl, heq⟩ | hj0
    · cases heq
      rcases point_some hk with ⟨-, rfl, -⟩ | hk0
      · rfl
      · exact absurd hk0 (hnew k)
    · rcases point_some hk with ⟨rfl, rfl, heq⟩ | hk0
      · cases heq
        exact absurd hj0 (hnew j)
      · exact hs.own hl hj0 hk0

theorem Sound.clear (hs : Sound P) : Sound (P.point h i none) := by
  have hold : ∀ {h' j d}, (P.point h i none).ref h' j = some d → P.ref h' j = some d := by
    intro h' j d hr
    rcases point_some hr with ⟨-, -, heq⟩ | hr
    · cases heq
    · exact hr
  exact ⟨⟨fun hl hr => hs.valid hl (hold hr), hs.once⟩, fun hl hj hk => hs.own hl (hold hj) (hold hk), hs.nodup, hs.apart⟩

/-- the one slot of h that refers to c is emptied, and nobody else refers to c -/
theorem Sound.unheld (hs : Sound P) (hl : P.live h) (hr : P.ref h i = some c)
    (hsole : ∀ h', h' ≠ h → P.live h' → ∀ j, P.ref h' j ≠ some c) : Unheld (P.point h i none) c := by
  intro h' j hl' hr'
  by_cases hh : h' = h
  · subst hh
    have hr' : Function.update P.ref h' (Function.update (P.ref h') i none) h' j = some c := hr'
    rw [Function.update_self] at hr'
    by_cases hj : j = i
    · subst hj
      simp at hr'
    · rw [Function.update_of_ne hj] at hr'
      exact hj (hs.own hl hr' hr)
  · rw [point_other hh] at hr'
    exact hsole h' hh hl' j hr'

end Slots

end Operations

end Retux.Refs
