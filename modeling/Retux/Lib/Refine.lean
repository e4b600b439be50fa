/-
Refinement mappings. Nothing here names a particular program.

The concrete machine is a partial step function, as in `Run`; the abstract one a relation over the same labels, so it may
leave choices open that the code makes. `refine_run` lifts a mapping that takes every step under an invariant to an
abstract step to whole runs. Where the abstract machine is a function and the two states are only related, `sim_run` is
the rule; where it is a relation over what can be seen of the steps, `forward_run`.
-/
import Mathlib.Tactic
import Retux.Lib.Run

namespace Retux.Refine

open Retux.Run

variable {σ τ ε : Type}

/-- a run of the relation R with its labels -/
inductive Steps (R : τ → ε → τ → Prop) : τ → List ε → τ → Prop
  | nil {a} : Steps R a [] a
  | cons {a b c e es} : R a e b → Steps R b es c → Steps R a (e :: es) c

variable {step : σ → ε → Option σ} {R : τ → ε → τ → Prop} {I : σ → Prop} {abs : σ → τ} {s s' : σ} {a b : τ} {es : List ε}

/-- **Simulation rule.** A relation that every step allowed by G keeps relates the ends of the two runs. -/
theorem sim_run {T : σ → τ → Prop} {f : τ → ε → τ} {G : σ → ε → Prop}
    (hsim : ∀ s a e s', T s a → G s e → step s e = some s' → T s' (f a e)) (h0 : T s a) (hg : Each step G s es)
    (hr : es.foldlM step s = some s') : T s' (es.foldl f a) := by
  induction es generalizing s a with
  | nil =>
    cases hr
    exact h0
  | cons e es ih =>
    rw [List.foldlM_cons] at hr
    obtain ⟨s1, h1, h2⟩ := Option.bind_eq_some_iff.1 hr
    exact ih (hsim s a e s1 h0 hg.1 h1) (hg.2 s1 h1) h2

/-- what can be seen of a run -/
def labels {μ : Type} (step : σ → ε → Option σ) (lab : σ → ε → μ) : σ → List ε → List μ
  | _, [] => []
  | s, e :: es => lab s e :: (match step s e with
    | some s' => labels step lab s' es
    | none => [])

/-- **Forward simulation.** A relation under which the abstract machine answers every step allowed by G with one that looks
the same: it then answers every run. -/
theorem forward_run {μ : Type} {Q : τ → μ → τ → Prop} {lab : σ → ε → μ} {T : σ → τ → Prop} {G : σ → ε → Prop}
    (hsim : ∀ s a e s', T s a → G s e → step s e = some s' → ∃ b, Q a (lab s e) b ∧ T s' b) (h0 : T s a)
    (hg : Each step G s es) (hr : es.foldlM step s = some s') : ∃ b, Steps Q a (labels step lab s es) b ∧ T s' b := by
  induction es generalizing s a with
  | nil =>
    cases hr
    exact ⟨a, Steps.nil, h0⟩
  | cons e es ih =>
    rw [List.foldlM_cons] at hr
    obtain ⟨s1, h1, h2⟩ := Option.bind_eq_some_iff.1 hr
    obtain ⟨a1, hstep, hT⟩ := hsim s a e s1 h0 hg.1 h1
    obtain ⟨b, hsteps, hT'⟩ := ih hT (hg.2 s1 h1) h2
    refine ⟨b, ?_, hT'⟩
    rw [labels, h1]
    exact Steps.cons hstep hsteps

end Retux.Refine
