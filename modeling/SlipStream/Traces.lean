import Mathlib.Data.List.Basic

namespace SlipStream.Traces

variable {σ α : Type} {step : σ → α → σ → Prop}

/-- A run of a labelled transition relation, with its labels in order. -/
inductive Trace (step : σ → α → σ → Prop) : σ → List α → σ → Prop
  | nil (s : σ) : Trace step s [] s
  | cons {s t u : σ} {a : α} {as : List α} (h : step s a t) (ht : Trace step t as u) :
      Trace step s (a :: as) u

theorem Trace.single {s t : σ} {a : α} (h : step s a t) : Trace step s [a] t := .cons h (.nil t)

theorem Trace.append {s t u : σ} {as bs : List α} (h : Trace step s as t) (h' : Trace step t bs u) :
    Trace step s (as ++ bs) u := by
  induction h with
  | nil s => exact h'
  | cons hstep _ ih => exact .cons hstep (ih h')

/-- What every step keeps, every run keeps. -/
theorem Trace.invariant {I : σ → Prop} (hstep : ∀ s a t, step s a t → I s → I t) {s t : σ}
    {as : List α} (h : Trace step s as t) (hs : I s) : I t := by
  induction h with
  | nil s => exact hs
  | cons hone _ ih => exact ih (hstep _ _ _ hone hs)

end SlipStream.Traces
