import Mathlib.Logic.Relation

namespace SlipStream.Iteration

variable {σ ρ : Type} (turn : σ → ρ ⊕ σ) (μ : σ → Nat)

/-- Run a loop on fuel, one unit for each turn. A turn ends the loop with a
result or goes on with a new state. -/
def loop : Nat → σ → Option ρ
  | 0, _ => none
  | fuel + 1, s =>
    match turn s with
    | .inl r => some r
    | .inr t => loop fuel t

def GoesOn (s t : σ) : Prop := turn s = .inr t

/-- Every turn of the loop from `s` on ends it or makes the measure smaller. -/
def Progresses (s : σ) : Prop :=
  ∀ t u, Relation.ReflTransGen (GoesOn turn) s t → GoesOn turn t u → μ u < μ t

variable {turn μ}

theorem loop_of_goesOn {s t : σ} (h : GoesOn turn s t) (fuel : Nat) :
    loop turn (fuel + 1) s = loop turn fuel t := by
  simp only [loop]
  rw [h]

theorem progresses_of_goesOn {s t : σ} (hs : Progresses turn μ s) (h : GoesOn turn s t) :
    Progresses turn μ t :=
  fun u v hu hv => hs u v (Relation.ReflTransGen.head h hu) hv

theorem loop_of_progresses {s : σ} (h : Progresses turn μ s) {fuel : Nat} (hf : μ s < fuel) :
    ∃ r, loop turn fuel s = some r := by
  induction fuel generalizing s with
  | zero => omega
  | succ fuel ih =>
    cases hs : turn s with
    | inl r => exact ⟨r, by simp only [loop, hs]⟩
    | inr t =>
      have hlt := h s t .refl hs
      rw [loop_of_goesOn hs]
      exact ih (progresses_of_goesOn h hs) (by omega)

theorem progresses_of_invariant {I : σ → Prop}
    (hturn : ∀ s t, I s → GoesOn turn s t → I t ∧ μ t < μ s) {s : σ} (hs : I s) :
    Progresses turn μ s := by
  intro t u ht
  have hI : I t := by
    induction ht with
    | refl => exact hs
    | tail _ hlast ih => exact (hturn _ _ ih hlast).1
  exact fun hu => (hturn t u hI hu).2

theorem progresses_of_stops {s : σ} (h : ∀ t, ¬ GoesOn turn s t) : Progresses turn μ s := by
  intro t u ht hu
  obtain rfl | ⟨v, hv, -⟩ := Relation.ReflTransGen.cases_head ht
  · exact absurd hu (h u)
  · exact absurd hv (h v)

theorem not_progresses_of_goesOn {s t : σ} (h : GoesOn turn s t) (hle : μ s ≤ μ t) :
    ¬ Progresses turn μ s :=
  fun hs => Nat.not_lt.mpr hle (hs s t .refl h)

/-- A loop that can always go on never returns, however much fuel it gets. -/
theorem loop_of_endless {I : σ → Prop} (hturn : ∀ s, I s → ∃ t, GoesOn turn s t ∧ I t) {s : σ}
    (hs : I s) (fuel : Nat) : loop turn fuel s = none := by
  induction fuel generalizing s with
  | zero => rfl
  | succ fuel ih =>
    obtain ⟨t, ht, hI⟩ := hturn s hs
    rw [loop_of_goesOn ht]
    exact ih hI

end SlipStream.Iteration
