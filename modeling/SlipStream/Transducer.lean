import Mathlib.Data.List.Basic

namespace SlipStream.Transducer

variable {σ τ ι κ ο π μ : Type}

/-- Feed a list of inputs to a step function, collecting what it emits. -/
def run (step : σ → ι → σ × List ο) : σ → List ι → σ × List ο
  | s, [] => (s, [])
  | s, x :: xs => ((run step (step s x).1 xs).1, (step s x).2 ++ (run step (step s x).1 xs).2)

@[simp] theorem run_nil (step : σ → ι → σ × List ο) (s : σ) : run step s [] = (s, []) := rfl

@[simp] theorem run_cons (step : σ → ι → σ × List ο) (s : σ) (x : ι) (xs : List ι) :
    run step s (x :: xs) =
      ((run step (step s x).1 xs).1, (step s x).2 ++ (run step (step s x).1 xs).2) := rfl

theorem run_append (step : σ → ι → σ × List ο) (s : σ) (xs ys : List ι) :
    run step s (xs ++ ys) =
      ((run step (run step s xs).1 ys).1,
        (run step s xs).2 ++ (run step (run step s xs).1 ys).2) := by
  induction xs generalizing s with
  | nil => simp
  | cons x xs ih => simp [ih]

/-- Lockstep simulation: related states stay related, and what an observer
sees of the two outputs is the same. -/
theorem run_simulates {step : σ → ι → σ × List ο} {step' : τ → κ → τ × List π}
    {R : σ → τ → Prop} (f : ι → κ) (p : ο → Option μ) (q : π → Option μ)
    (hstep : ∀ s t x, R s t → R (step s x).1 (step' t (f x)).1 ∧
      (step s x).2.filterMap p = (step' t (f x)).2.filterMap q)
    (xs : List ι) {s : σ} {t : τ} (h : R s t) :
    R (run step s xs).1 (run step' t (xs.map f)).1 ∧
      (run step s xs).2.filterMap p = (run step' t (xs.map f)).2.filterMap q := by
  induction xs generalizing s t with
  | nil => exact ⟨h, rfl⟩
  | cons x xs ih =>
    obtain ⟨hR, hout⟩ := hstep s t x h
    obtain ⟨hR', hout'⟩ := ih hR
    refine ⟨hR', ?_⟩
    simp only [run_cons, List.map_cons, List.filterMap_append, hout, hout']

end SlipStream.Transducer
