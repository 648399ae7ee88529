import Mathlib

/-! # Labelled transition systems

Finite executions of a labelled step relation, and the rules that carry a predicate
along every execution. No fairness is assumed: these are safety rules. A step function that may
have no result has runs of its own. -/
namespace Transition

variable {σ τ ε δ : Type*}

inductive Execution (step : σ → ε → σ → Prop) : σ → σ → Prop where
  | refl (s) : Execution step s s
  | tail {s t u e} : Execution step s t → step t e u → Execution step s u

variable {step : σ → ε → σ → Prop}

theorem Execution.single {s t : σ} {e : ε} (h : step s e t) : Execution step s t :=
  .tail (.refl s) h

theorem Execution.trans {s t u : σ} (h : Execution step s t) (k : Execution step t u) :
    Execution step s u := by
  induction k with
  | refl => exact h
  | tail _ hk ih => exact .tail ih hk

/-- A predicate kept by every step holds in every state of an execution that starts in it. -/
theorem Execution.invariant {I : σ → Prop} (keep : ∀ s e t, I s → step s e t → I t)
    {s t : σ} (h : Execution step s t) (hs : I s) : I t := by
  induction h with
  | refl => exact hs
  | tail _ hk ih => exact keep _ _ _ ih hk

/-! ## Traces -/

/-- An execution with its labels in order. -/
inductive Trace (step : σ → ε → σ → Prop) : σ → List ε → σ → Prop where
  | nil (s : σ) : Trace step s [] s
  | cons {s t u : σ} {e : ε} {es : List ε} (h : step s e t) (k : Trace step t es u) :
    Trace step s (e :: es) u

theorem Trace.invariant {I : σ → Prop} (keep : ∀ s e t, I s → step s e t → I t) {s t : σ}
    {es : List ε} (h : Trace step s es t) (hs : I s) : I t := by
  induction h with
  | nil => exact hs
  | cons h _ ih => exact ih (keep _ _ _ hs h)

/-- Where every step keeps `I` and is a step of the specification under `f`, every trace is a trace
of the specification. -/
theorem Trace.refines {step' : τ → ε → τ → Prop} {I : σ → Prop} {f : σ → τ}
    (keep : ∀ s e t, I s → step s e t → I t ∧ step' (f s) e (f t)) {s t : σ} {es : List ε}
    (h : Trace step s es t) (hs : I s) : I t ∧ Trace step' (f s) es (f t) := by
  induction h with
  | nil s => exact ⟨hs, .nil _⟩
  | cons h _ ih =>
    obtain ⟨ht, hstep⟩ := keep _ _ _ hs h
    obtain ⟨hu, htrace⟩ := ih ht
    exact ⟨hu, .cons hstep htrace⟩

/-! ## Partial step functions -/

/-- The run has a result, and `P` holds in all its states. -/
inductive Runs (next : σ → ε → Option σ) (P : σ → Prop) : σ → List ε → σ → Prop where
  | nil {s : σ} (hs : P s) : Runs next P s [] s
  | cons {s t u : σ} {e : ε} {es : List ε} (hs : P s) (hnext : next s e = some t)
      (h : Runs next P t es u) : Runs next P s (e :: es) u

namespace Runs

variable {next : σ → ε → Option σ} {P : σ → Prop} {s t u : σ} {e : ε} {es fs : List ε}

theorem single (hs : P s) (hnext : next s e = some t) (ht : P t) : Runs next P s [e] t :=
  .cons hs hnext (.nil ht)

theorem append (h : Runs next P s es t) (k : Runs next P t fs u) : Runs next P s (es ++ fs) u := by
  induction h with
  | nil => exact k
  | cons hs hnext _ ih => exact .cons hs hnext (ih k)

/-- A label that changes nothing may come any number of times. -/
theorem idle (hs : P s) (hnext : next s e = some s) (n : ℕ) :
    Runs next P s (List.replicate n e) s := by
  induction n with
  | zero => exact .nil hs
  | succ n ih => exact .cons hs hnext ih

theorem foldlM_eq (h : Runs next P s es t) : es.foldlM next s = some t := by
  induction h with
  | nil => rfl
  | cons _ hnext _ ih =>
    rw [List.foldlM_cons, hnext]
    exact ih

theorem last (h : Runs next P s es t) : P t := by
  induction h with
  | nil hs => exact hs
  | cons _ _ _ ih => exact ih

end Runs

end Transition
