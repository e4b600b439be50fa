/-
Loops that may halt: a small logic for computations in `Option`, where `none` is a halt.

`Runs B x Q` says two things about a computation x: if it returns, its result satisfies Q; and under B it does return. B
is a side condition on resources, fixed for a whole computation. The rules are the usual ones (`pure`, `bind`, `mono`);
`foldlM_finRange` is the loop rule: an invariant indexed by the number of rounds.
-/
import Mathlib.Tactic

namespace Retux.Loop

variable {σ τ : Type} {B : Prop}

structure Runs (B : Prop) (x : Option σ) (Q : σ → Prop) : Prop where
  post : ∀ {s}, x = some s → Q s
  returns : B → ∃ s, x = some s

theorem Runs.pure {s : σ} {Q : σ → Prop} (h : Q s) : Runs B (some s) Q :=
  ⟨fun hs => Option.some.inj hs ▸ h, fun _ => ⟨s, rfl⟩⟩

theorem Runs.mono {x : Option σ} {P Q : σ → Prop} (h : Runs B x P) (hpq : ∀ s, P s → Q s) : Runs B x Q :=
  ⟨fun hs => hpq _ (h.post hs), h.returns⟩

theorem Runs.bind {x : Option σ} {f : σ → Option τ} {P : σ → Prop} {Q : τ → Prop} (hx : Runs B x P)
    (hf : ∀ s, P s → Runs B (f s) Q) : Runs B (x.bind f) Q := by
  constructor
  · intro t ht
    obtain ⟨s, hs, ht⟩ := Option.bind_eq_some_iff.1 ht
    exact (hf s (hx.post hs)).post ht
  · intro hB
    obtain ⟨s, hs⟩ := hx.returns hB
    obtain ⟨t, ht⟩ := (hf s (hx.post hs)).returns hB
    exact ⟨t, by rw [hs, Option.bind_some, ht]⟩

/-- **Loop rule.** An invariant of n rounds, from 0 to n. -/
theorem Runs.foldlM_finRange {n : ℕ} {f : σ → Fin n → Option σ} {P : ℕ → σ → Prop} {s : σ} (h0 : P 0 s)
    (hstep : ∀ (i : Fin n) s, P i s → Runs B (f s i) (P (i + 1))) : Runs B ((List.finRange n).foldlM f s) (P n) := by
  -- the rounds from k on, counted down
  have hrest : ∀ k j s, k + j = n → P k s → Runs B (((List.finRange n).drop k).foldlM f s) (P n) := by
    intro k j
    induction j generalizing k with
    | zero =>
      intro s hk hP
      rw [List.drop_eq_nil_of_le (by simp; omega)]
      have : k = n := by omega
      subst this
      exact Runs.pure hP
    | succ j ih =>
      intro s hk hP
      have hlt : k < (List.finRange n).length := by simp; omega
      rw [List.drop_eq_getElem_cons hlt, List.foldlM_cons, List.getElem_finRange]
      exact Runs.bind (hstep _ s hP) fun s' hs' => ih (k + 1) s' (by omega) hs'
  exact hrest 0 n s (by omega) h0

/-- the rule for a list of rounds that are all alike -/
theorem Runs.foldlM {α : Type} {f : σ → α → Option σ} {P : List α → σ → Prop} {l : List α} {s : σ} (h0 : P [] s)
    (hstep : ∀ done x s, done ++ [x] <+: l → P done s → Runs B (f s x) (P (done ++ [x]))) :
    Runs B (l.foldlM f s) (P l) := by
  have hrest : ∀ done rest s, done ++ rest = l → P done s → Runs B (rest.foldlM f s) (P l) := by
    intro done rest
    induction rest generalizing done with
    | nil =>
      intro s hl hP
      rw [List.append_nil] at hl
      subst hl
      exact Runs.pure hP
    | cons x rest ih =>
      intro s hl hP
      rw [List.foldlM_cons]
      refine Runs.bind (hstep done x s ⟨rest, by simpa using hl⟩ hP) fun s' hs' => ?_
      exact ih (done ++ [x]) s' (by simpa using hl) hs'
  exact hrest [] l s rfl h0

end Retux.Loop
