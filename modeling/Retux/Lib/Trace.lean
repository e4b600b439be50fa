/-
Computations that write down what they do. Nothing here names a particular program.

A `Traced ε α` is a list of events, oldest first, and a result; `none` is a halt, and what was written down before it
stands. `Safe P x` says that every event of x satisfies P, and `Clean P x` that there is a result, too. The rules follow
the ways to build a computation (`pure`, `emit`, `lift`, `bind`, a choice, the page loop), and `val` forgets the events.
-/
import Mathlib.Tactic
import Retux.Lib.Word

namespace Retux.Trace

open Retux.Word

structure Traced (ε α : Type) where
  log : List ε
  val : Option α

namespace Traced

variable {ε α β σ : Type}

def emit (e : ε) : Traced ε Unit := ⟨[e], some ()⟩

/-- a computation without events -/
def lift (x : Option α) : Traced ε α := ⟨[], x⟩

protected def pure (a : α) : Traced ε α := ⟨[], some a⟩

protected def bind (x : Traced ε α) (f : α → Traced ε β) : Traced ε β :=
  match x.val with
  | none => ⟨x.log, none⟩
  | some a => ⟨x.log ++ (f a).log, (f a).val⟩

instance : Monad (Traced ε) where
  pure := Traced.pure
  bind := Traced.bind

/-- every event satisfies P -/
def Safe (P : ε → Prop) (x : Traced ε α) : Prop := ∀ e ∈ x.log, P e

/-- `for (va = start; va < stop; va += 4096) s = f(s, va)`, as `Word.forPages` has it -/
def forPages (f : σ → U64 → Traced ε σ) (stop : U64) : ℕ → U64 → σ → Traced ε σ
  | 0, _, _ => ⟨[], none⟩
  | fuel + 1, va, s => if va < stop then (f s va).bind (forPages f stop fuel (va + 4096#64)) else Traced.pure s

/-! ## Results -/

section Val

variable {x : Traced ε α} {f : α → Traced ε β} {e : ε} {a : α}

@[simp] theorem val_pure : (pure a : Traced ε α).val = some a := rfl

@[simp] theorem val_emit : (emit e).val = some () := rfl

@[simp] theorem val_lift {y : Option α} : (lift y : Traced ε α).val = y := rfl

@[simp] theorem val_bind : (x >>= f).val = x.val.bind fun a => (f a).val := by
  obtain ⟨log, val⟩ := x
  cases val <;> rfl

@[simp] theorem val_ite {c : Prop} [Decidable c] {y : Traced ε α} :
    (if c then x else y).val = if c then x.val else y.val := apply_ite _ _ _ _

theorem forPages_val {g : σ → U64 → Option σ} {h : σ → U64 → Traced ε σ} (hg : ∀ s va, (h s va).val = g s va)
    (stop : U64) (fuel : ℕ) (va : U64) (s : σ) : (forPages h stop fuel va s).val = Word.forPages g stop fuel va s := by
  induction fuel generalizing va s with
  | zero => rfl
  | succ fuel ih =>
    rw [forPages, Word.forPages, val_ite]
    refine if_congr Iff.rfl (val_bind.trans ?_) rfl
    rw [hg]
    exact congrArg _ (funext fun s => ih _ s)

end Val

/-! ## Events -/

section Safe

variable {P : ε → Prop} {x y : Traced ε α} {f : α → Traced ε β}

@[simp] theorem safe_pure {a : α} : Safe P (pure a : Traced ε α) := fun _ h => absurd h List.not_mem_nil

@[simp] theorem safe_lift {z : Option α} : Safe P (lift z : Traced ε α) := fun _ h => absurd h List.not_mem_nil

@[simp] theorem safe_emit {e : ε} : Safe P (emit e) ↔ P e := by simp [Safe, emit]

/-- events of a first part that does not halt, and of the rest -/
theorem log_bind {a : α} (h : x.val = some a) : (x >>= f).log = x.log ++ (f a).log := by
  obtain ⟨log, val⟩ := x
  obtain rfl : val = some a := h
  rfl

theorem safe_bind : Safe P (x >>= f) ↔ Safe P x ∧ ∀ a, x.val = some a → Safe P (f a) := by
  obtain ⟨log, val⟩ := x
  cases val with
  | none => exact ⟨fun h => ⟨h, fun a ha => (by cases ha)⟩, fun h => h.1⟩
  | some a =>
    constructor
    · intro h
      refine ⟨fun e he => h e (List.mem_append_left _ he), fun b hb e he => ?_⟩
      cases hb
      exact h e (List.mem_append_right _ he)
    · rintro ⟨h1, h2⟩ e he
      rcases List.mem_append.1 he with he | he
      · exact h1 e he
      · exact h2 a rfl e he

theorem Safe.bind (hx : Safe P x) (hf : ∀ a, x.val = some a → Safe P (f a)) : Safe P (x >>= f) :=
  safe_bind.2 ⟨hx, hf⟩

theorem Safe.ite {c : Prop} [Decidable c] (h1 : c → Safe P x) (h2 : ¬ c → Safe P y) :
    Safe P (if c then x else y) := by
  split_ifs with h
  · exact h1 h
  · exact h2 h

/-- **The page loop.** Rounds that are safe on the pages it visits. -/
theorem Safe.forPages {g : σ → U64 → Traced ε σ} {start stop : U64} (ha : start.toNat % 4096 = 0)
    (hb : stop.toNat % 4096 = 0) (hg : ∀ s, ∀ va ∈ pages start stop, Safe P (g s va)) (fuel : ℕ) (s : σ) :
    Safe P (Traced.forPages g stop fuel start s) := by
  induction fuel generalizing start s with
  | zero => exact fun _ h => absurd h List.not_mem_nil
  | succ fuel ih =>
    rw [Traced.forPages]
    refine Safe.ite (fun hlt => ?_) fun _ => safe_pure
    rw [pages_cons ha hb hlt] at hg
    have hnext := add_page ha hb (BitVec.lt_def.1 hlt)
    refine Safe.bind (hg s start (List.mem_cons_self ..)) fun s' _ => ?_
    exact ih (by omega) (fun s va hva => hg s va (List.mem_cons_of_mem _ hva)) s'

end Safe

/-! ## Clean runs -/

/-- every event satisfies P, and there is no halt -/
def Clean (P : ε → Prop) (x : Traced ε α) : Prop := Safe P x ∧ x.val.isSome

section Clean

variable {P : ε → Prop} {x y : Traced ε α} {f : α → Traced ε β}

@[simp] theorem clean_pure {a : α} : Clean P (pure a : Traced ε α) := ⟨safe_pure, rfl⟩

@[simp] theorem clean_emit {e : ε} : Clean P (emit e) ↔ P e :=
  ⟨fun h => safe_emit.1 h.1, fun h => ⟨safe_emit.2 h, rfl⟩⟩

@[simp] theorem clean_lift {z : Option α} : Clean P (lift z : Traced ε α) ↔ z.isSome :=
  ⟨fun h => h.2, fun h => ⟨safe_lift, h⟩⟩

theorem clean_bind : Clean P (x >>= f) ↔ Clean P x ∧ ∀ a, x.val = some a → Clean P (f a) := by
  unfold Clean
  rw [safe_bind, val_bind]
  cases hx : x.val with
  | none => simp
  | some a =>
    simp only [Option.bind_some, Option.isSome_some, and_true, Option.some.injEq, forall_eq']
    exact and_assoc

theorem clean_ite {c : Prop} [Decidable c] : Clean P (if c then x else y) ↔ (c → Clean P x) ∧ (¬ c → Clean P y) := by
  by_cases hc : c <;> simp [hc]

end Clean

end Traced

end Retux.Trace
