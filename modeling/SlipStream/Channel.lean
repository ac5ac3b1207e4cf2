import Mathlib.Data.List.Basic

namespace SlipStream.Channel

variable {α β : Type}

/-- Symbols on their way to a sink: those waiting, and every call of the sink
so far with its answer. -/
structure Link (α β : Type) where
  queue : List α
  calls : List (α × β)

/-- A sink answers each symbol by what it has been through before. -/
abbrev Sink (α β : Type) := List (α × β) → α → β

def push (c : Link α β) (xs : List α) : Link α β := ⟨c.queue ++ xs, c.calls⟩

/-- The channel once the sink has taken `k` symbols. -/
def advance (ok : β) (c : Link α β) (k : Nat) : Link α β :=
  ⟨c.queue.drop k, c.calls ++ (c.queue.take k).map fun x => (x, ok)⟩

@[simp] theorem push_nil (c : Link α β) : push c [] = c := by
  simp only [push, List.append_nil]

theorem push_append (c : Link α β) (xs ys : List α) :
    push c (xs ++ ys) = push (push c xs) ys := by
  simp only [push, List.append_assoc]

@[simp] theorem advance_zero (ok : β) (c : Link α β) : advance ok c 0 = c := by simp [advance]

theorem advance_advance (ok : β) (c : Link α β) (j k : Nat) :
    advance ok (advance ok c j) k = advance ok c (j + k) := by
  simp [advance, List.take_add]

theorem advance_push (ok : β) (c : Link α β) (xs : List α) {k : Nat} (hk : k ≤ c.queue.length) :
    push (advance ok c k) xs = advance ok (push c xs) k := by
  simp [advance, push, List.take_append_of_le_length hk, List.drop_append_of_le_length hk]

theorem advance_length (ok : β) (c : Link α β) (k : Nat) :
    (advance ok c k).queue.length = c.queue.length - k := by simp [advance]

theorem advance_min (ok : β) (c : Link α β) (k : Nat) :
    advance ok c (min k c.queue.length) = advance ok c k := by
  obtain hk | hk := Nat.le_total k c.queue.length
  · rw [Nat.min_eq_left hk]
  · rw [Nat.min_eq_right hk]
    simp [advance, List.drop_eq_nil_of_le hk, List.take_of_length_le hk]

variable [DecidableEq β] (sink : Sink α β) (ok : β)

def accepted (calls : List (α × β)) : List α :=
  (calls.filter fun x => x.2 = ok).map Prod.fst

/-- All symbols that have entered the channel and were not lost. -/
def log (c : Link α β) : List α := accepted ok c.calls ++ c.queue

/-- Offer the symbols in order, at most `k` of them, until one is refused. -/
def drain : Nat → Link α β → Link α β × β
  | 0, c => (c, ok)
  | _ + 1, ⟨[], h⟩ => (⟨[], h⟩, ok)
  | k + 1, ⟨x :: q, h⟩ =>
    if sink h x = ok then drain k ⟨q, h ++ [(x, ok)]⟩
    else (⟨x :: q, h ++ [(x, sink h x)]⟩, sink h x)

/-- How many of the symbols the sink would take before it first refuses. -/
def taken : List (α × β) → List α → Nat
  | _, [] => 0
  | h, x :: q => if sink h x = ok then taken (h ++ [(x, ok)]) q + 1 else 0

theorem log_push (c : Link α β) (xs : List α) : log ok (push c xs) = log ok c ++ xs := by
  simp [log, push]

theorem log_advance (c : Link α β) (k : Nat) : log ok (advance ok c k) = log ok c := by
  have hacc (xs : List α) : accepted ok (xs.map fun x => (x, ok)) = xs := by
    induction xs with
    | nil => rfl
    | cons x xs ih => simpa [accepted] using ih
  have happ : accepted ok (c.calls ++ (c.queue.take k).map fun x => (x, ok)) =
      accepted ok c.calls ++ accepted ok ((c.queue.take k).map fun x => (x, ok)) := by
    simp [accepted]
  simp only [log, advance]
  rw [happ, hacc, List.append_assoc, List.take_append_drop]

theorem drain_log (k : Nat) (c : Link α β) : log ok (drain sink ok k c).1 = log ok c := by
  induction k generalizing c with
  | zero => rfl
  | succ k ih =>
    obtain ⟨q, h⟩ := c
    cases q with
    | nil => rfl
    | cons x q =>
      simp only [drain]
      split_ifs with hx
      · rw [ih]
        simp [log, accepted]
      · simp [log, accepted, hx]

theorem drain_length_le (k : Nat) (c : Link α β) :
    (drain sink ok k c).1.queue.length ≤ c.queue.length := by
  induction k generalizing c with
  | zero => exact Nat.le_refl _
  | succ k ih =>
    obtain ⟨q, h⟩ := c
    cases q with
    | nil => exact Nat.le_refl _
    | cons x q =>
      simp only [drain]
      split_ifs
      · exact Nat.le_succ_of_le (ih _)
      · exact Nat.le_refl _

/-- What the sink takes from the front does not depend on what follows. -/
theorem le_taken_append (h : List (α × β)) (q r : List α) {k : Nat} (hk : k ≤ q.length) :
    k ≤ taken sink ok h (q ++ r) ↔ k ≤ taken sink ok h q := by
  induction q generalizing h k with
  | nil =>
    have hz : k = 0 := Nat.le_zero.mp hk
    simp [hz]
  | cons x q ih =>
    cases k with
    | zero => simp
    | succ k =>
      simp only [List.cons_append, taken]
      split_ifs
      · rw [Nat.add_le_add_iff_right, Nat.add_le_add_iff_right]
        exact ih _ (Nat.le_of_succ_le_succ hk)
      · exact Iff.rfl

/-- How many symbols a channel will lose to its sink before the next refusal. -/
def credit (c : Link α β) : Nat := taken sink ok c.calls c.queue

theorem le_credit_push (c : Link α β) (xs : List α) {k : Nat} (hk : k ≤ c.queue.length) :
    k ≤ credit sink ok (push c xs) ↔ k ≤ credit sink ok c :=
  le_taken_append sink ok c.calls c.queue xs hk

theorem credit_of_accepting (hok : ∀ h x, sink h x = ok) (c : Link α β) :
    credit sink ok c = c.queue.length := by
  obtain ⟨q, h⟩ := c
  induction q generalizing h with
  | nil => rfl
  | cons x q ih =>
    have ht : credit sink ok ⟨x :: q, h⟩ = credit sink ok ⟨q, h ++ [(x, ok)]⟩ + 1 := by
      rw [credit, taken, if_pos (hok h x)]
      rfl
    rw [ht, ih, List.length_cons]

theorem credit_advance (c : Link α β) {k : Nat} (hk : k ≤ credit sink ok c) :
    credit sink ok (advance ok c k) = credit sink ok c - k := by
  obtain ⟨q, h⟩ := c
  induction k generalizing q h with
  | zero => simp
  | succ k ih =>
    cases q with
    | nil => simp [credit, taken] at hk
    | cons x q =>
      have ht : credit sink ok ⟨x :: q, h⟩ =
          if sink h x = ok then credit sink ok ⟨q, h ++ [(x, ok)]⟩ + 1 else 0 := rfl
      by_cases hx : sink h x = ok
      · rw [if_pos hx] at ht
        rw [ht] at hk ⊢
        have ha : advance ok ⟨x :: q, h⟩ (k + 1) = advance ok ⟨q, h ++ [(x, ok)]⟩ k := by
          simp [advance]
        rw [ha, ih q _ (Nat.le_of_succ_le_succ hk)]
        omega
      · rw [if_neg hx] at ht
        omega

theorem drain_ok_iff (k : Nat) (c : Link α β) :
    (drain sink ok k c).2 = ok ↔ min k c.queue.length ≤ credit sink ok c := by
  induction k generalizing c with
  | zero => simp [drain]
  | succ k ih =>
    obtain ⟨q, h⟩ := c
    cases q with
    | nil => simp [drain]
    | cons x q =>
      simp only [drain, credit, taken]
      split_ifs with hx
      · rw [ih]
        simp only [credit, List.length_cons, Nat.succ_min_succ]
        exact Nat.succ_le_succ_iff.symm
      · simp [hx]

theorem drain_of_ok {k : Nat} {c : Link α β} (h : (drain sink ok k c).2 = ok) :
    (drain sink ok k c).1 = advance ok c k := by
  induction k generalizing c with
  | zero => simp [drain]
  | succ k ih =>
    obtain ⟨q, hist⟩ := c
    cases q with
    | nil => simp [drain, advance]
    | cons x q =>
      simp only [drain] at h ⊢
      split_ifs at h ⊢ with hx
      · rw [ih h]
        simp [advance]
      · exact absurd h hx

end SlipStream.Channel
