/-
Runs of a machine that takes one event at a time. Nothing here names a particular program.

`step s e = some s'` is one step; `none` means that event e cannot happen in s. `Always P` says that P holds in every
state of a run, `Each G` that G holds of every state and event as the event is taken.

`always_iff_each` is the rule for a machine that is safe exactly as long as its steps are good: an invariant kept by
good steps, and a bad step that leaves P.
-/
import Mathlib.Tactic

namespace Retux.Run

variable {σ ε : Type} (step : σ → ε → Option σ)

/-- P holds in every state of the run -/
def Always (P : σ → Prop) : σ → List ε → Prop
  | s, [] => P s
  | s, e :: es => P s ∧ ∀ s', step s e = some s' → Always P s' es

/-- every event of the run is taken in a state where G allows it -/
def Each (G : σ → ε → Prop) : σ → List ε → Prop
  | _, [] => True
  | s, e :: es => G s e ∧ ∀ s', step s e = some s' → Each G s' es

variable {step} {P I : σ → Prop} {G : σ → ε → Prop} {s : σ} {es : List ε}

theorem Always.head (h : Always step P s es) : P s := by
  cases es with
  | nil => exact h
  | cons e es => exact h.1

/-- runs compose -/
theorem run_append {s1 s2 : σ} {es' : List ε} (h : es.foldlM step s = some s1) (h' : es'.foldlM step s1 = some s2) :
    (es ++ es').foldlM step s = some s2 := by
  rw [List.foldlM_append, h]
  exact h'

theorem run_one {s1 : σ} {e : ε} (h : step s e = some s1) : [e].foldlM step s = some s1 := by
  rw [List.foldlM_cons, h]
  rfl

/-- a run passes through the state between its parts -/
theorem run_split {s2 : σ} {es' : List ε} (h : (es ++ es').foldlM step s = some s2) :
    ∃ s1, es.foldlM step s = some s1 ∧ es'.foldlM step s1 = some s2 := by
  rw [List.foldlM_append] at h
  exact Option.bind_eq_some_iff.1 h

theorem of_run_one {s1 : σ} {e : ε} (h : [e].foldlM step s = some s1) : step s e = some s1 := by
  rw [List.foldlM_cons] at h
  obtain ⟨s2, h1, h2⟩ := Option.bind_eq_some_iff.1 h
  cases h2
  exact h1

/-- **Run rule.** What every step keeps holds where a run ends. -/
theorem run_inv {s' : σ} (hstep : ∀ s e s', I s → step s e = some s' → I s') (h0 : I s)
    (hr : es.foldlM step s = some s') : I s' := by
  induction es generalizing s with
  | nil =>
    cases hr
    exact h0
  | cons e es ih =>
    rw [List.foldlM_cons] at hr
    obtain ⟨s1, h1, h2⟩ := Option.bind_eq_some_iff.1 hr
    exact ih (hstep s e s1 h0 h1) h2

/-- P holds where the run ends -/
theorem Always.last {s' : σ} (h : Always step P s es) (hr : es.foldlM step s = some s') : P s' := by
  induction es generalizing s with
  | nil =>
    cases hr
    exact h
  | cons e es ih =>
    rw [List.foldlM_cons] at hr
    obtain ⟨s1, h1, h2⟩ := Option.bind_eq_some_iff.1 hr
    exact ih (h.2 s1 h1) h2

theorem Each.append {es' : List ε} (h : Each step G s es)
    (h' : ∀ s', es.foldlM step s = some s' → Each step G s' es') : Each step G s (es ++ es') := by
  induction es generalizing s with
  | nil => exact h' s rfl
  | cons e es ih =>
    refine ⟨h.1, fun s1 h1 => ih (h.2 s1 h1) fun s' hs => h' s' ?_⟩
    rw [List.foldlM_cons, h1]
    exact hs

theorem Each.left {es' : List ε} (h : Each step G s (es ++ es')) : Each step G s es := by
  induction es generalizing s with
  | nil => trivial
  | cons e es ih => exact ⟨h.1, fun s1 h1 => ih (h.2 s1 h1)⟩

theorem Each.right {s' : σ} {es' : List ε} (h : Each step G s (es ++ es')) (hr : es.foldlM step s = some s') :
    Each step G s' es' := by
  induction es generalizing s with
  | nil =>
    cases hr
    exact h
  | cons e es ih =>
    rw [List.foldlM_cons] at hr
    obtain ⟨s1, h1, h2⟩ := Option.bind_eq_some_iff.1 hr
    exact ih (h.2 s1 h1) h2

theorem Each.and {H : σ → ε → Prop} (h : Each step G s es) (h' : Each step H s es) :
    Each step (fun s e => G s e ∧ H s e) s es := by
  induction es generalizing s with
  | nil => trivial
  | cons e es ih => exact ⟨⟨h.1, h'.1⟩, fun s1 h1 => ih (h.2 s1 h1) (h'.2 s1 h1)⟩

/-- **Invariant rule.** -/
theorem always_of_each (hP : ∀ s, I s → P s) (hstep : ∀ s e s', I s → G s e → step s e = some s' → I s') (h0 : I s)
    (hg : Each step G s es) : Always step P s es := by
  induction es generalizing s with
  | nil => exact hP s h0
  | cons e es ih => exact ⟨hP s h0, fun s' hs => ih (hstep s e s' h0 hg.1 hs) (hg.2 s' hs)⟩

/-- the rule for an invariant that every step keeps -/
theorem always_of_inv (hP : ∀ s, I s → P s) (hstep : ∀ s e s', I s → step s e = some s' → I s') (h0 : I s) :
    Always step P s es := by
  induction es generalizing s with
  | nil => exact hP s h0
  | cons e es ih => exact ⟨hP s h0, fun s' hs => ih (hstep s e s' h0 hs)⟩

/-- what an invariant says of each good step -/
theorem each_of_each {H : σ → ε → Prop} (hstep : ∀ s e s', I s → G s e → step s e = some s' → I s')
    (hH : ∀ s e, I s → G s e → H s e) (h0 : I s) (hg : Each step G s es) : Each step H s es := by
  induction es generalizing s with
  | nil => trivial
  | cons e es ih => exact ⟨hH s e h0 hg.1, fun s' hs => ih (hstep s e s' h0 hg.1 hs) (hg.2 s' hs)⟩

theorem each_cons {s' : σ} {e : ε} (hs : step s e = some s') (hG : G s e) (h : Each step G s' es) :
    Each step G s (e :: es) := by
  refine ⟨hG, fun s1 h1 => ?_⟩
  rw [hs] at h1
  cases h1
  exact h

/-- a condition on the events alone -/
theorem each_of_forall {H : ε → Prop} (h : ∀ e ∈ es, H e) : Each step (fun _ e => H e) s es := by
  induction es generalizing s with
  | nil => trivial
  | cons e es ih => exact ⟨h e (List.mem_cons_self ..), fun s' _ => ih fun e he => h e (List.mem_cons_of_mem _ he)⟩

/-- conditions that agree under an invariant -/
theorem each_congr {H : σ → ε → Prop} (hstep : ∀ s e s', I s → step s e = some s' → I s')
    (hGH : ∀ s e, I s → (G s e ↔ H s e)) (h0 : I s) : Each step G s es ↔ Each step H s es := by
  induction es generalizing s with
  | nil => exact Iff.rfl
  | cons e es ih =>
    exact and_congr (hGH s e h0) (forall_congr' fun s' => forall_congr' fun hs => ih (hstep s e s' h0 hs))

theorem always_cons {e : ε} {s1 : σ} (hP : P s) (hs : step s e = some s1) (h : Always step P s1 es) :
    Always step P s (e :: es) := by
  refine ⟨hP, fun x hx => ?_⟩
  rw [hs] at hx
  cases hx
  exact h

theorem Always.append {es' : List ε} {s1 : σ} (h : Always step P s es) (hr : es.foldlM step s = some s1)
    (h' : Always step P s1 es') : Always step P s (es ++ es') := by
  induction es generalizing s with
  | nil =>
    cases hr
    exact h'
  | cons e es ih =>
    rw [List.foldlM_cons] at hr
    obtain ⟨s2, h1, h2⟩ := Option.bind_eq_some_iff.1 hr
    exact always_cons h.1 h1 (ih (h.2 s2 h1) h2)

/-- **First exception.** Either P holds all along, or there is a first step out of it. -/
theorem always_or_first {s' : σ} (h0 : P s) (hr : es.foldlM step s = some s') : Always step P s es ∨
    ∃ es1 e es2 s1 s2, es = es1 ++ e :: es2 ∧ es1.foldlM step s = some s1 ∧ Always step P s es1 ∧
      step s1 e = some s2 ∧ ¬ P s2 := by
  induction es generalizing s with
  | nil => exact Or.inl h0
  | cons e es ih =>
    rw [List.foldlM_cons] at hr
    obtain ⟨s1, h1, h2⟩ := Option.bind_eq_some_iff.1 hr
    by_cases hP : P s1
    · rcases ih hP h2 with ha | ⟨es1, e', es2, x1, x2, rfl, hx1, ha, hx2, hn⟩
      · exact Or.inl (always_cons h0 h1 ha)
      · refine Or.inr ⟨e :: es1, e', es2, x1, x2, rfl, ?_, always_cons h0 h1 ha, hx2, hn⟩
        rw [List.foldlM_cons, h1]
        exact hx1
    · exact Or.inr ⟨[], e, es, s, s1, rfl, rfl, h0, h1, hP⟩

/-- **Potential rule.** W s n: s has n to spend. If every step spends its cost out of that and of its own gain, so does
every run. -/
theorem run_potential {W : σ → ℕ → Prop} {cost gain : ε → ℕ} {s' : σ} {n : ℕ}
    (hstep : ∀ s n e s', W s n → P s' → step s e = some s' → ∃ n', W s' n' ∧ n' + cost e = n + gain e)
    (h0 : W s n) (hP : Always step P s es) (hr : es.foldlM step s = some s') :
    ∃ n', W s' n' ∧ n' + (es.map cost).sum = n + (es.map gain).sum := by
  induction es generalizing s n with
  | nil =>
    cases hr
    exact ⟨n, h0, rfl⟩
  | cons e es ih =>
    rw [List.foldlM_cons] at hr
    obtain ⟨s1, h1, h2⟩ := Option.bind_eq_some_iff.1 hr
    obtain ⟨n1, hw1, heq1⟩ := hstep s n e s1 h0 (hP.2 s1 h1).head h1
    obtain ⟨n', hw', heq'⟩ := ih hw1 (hP.2 s1 h1) h2
    refine ⟨n', hw', ?_⟩
    simp only [List.map_cons, List.sum_cons]
    omega

/-- **Exactness rule.** -/
theorem always_iff_each (hP : ∀ s, I s → P s) (hstep : ∀ s e s', I s → G s e → step s e = some s' → I s')
    (hbad : ∀ s e s', I s → ¬ G s e → step s e = some s' → ¬ P s') (h0 : I s) (hrun : (es.foldlM step s).isSome) :
    Always step P s es ↔ Each step G s es := by
  refine ⟨fun h => ?_, always_of_each hP hstep h0⟩
  induction es generalizing s with
  | nil => trivial
  | cons e es ih =>
    rw [List.foldlM_cons] at hrun
    obtain ⟨sn, hsn⟩ := Option.isSome_iff_exists.1 hrun
    obtain ⟨s1, h1, hrest⟩ := Option.bind_eq_some_iff.1 hsn
    have hG : G s e := by
      by_contra hn
      exact hbad s e s1 h0 hn h1 (h.2 s1 h1).head
    refine ⟨hG, fun s' hs => ?_⟩
    rw [h1] at hs
    cases hs
    exact ih (hstep s e s1 h0 hG h1) (by rw [hrest]; rfl) (h.2 s1 h1)

end Retux.Run
