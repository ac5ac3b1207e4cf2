import Mathlib.Logic.Function.Basic
import Mathlib.Data.List.Basic

namespace SlipStream.Memory

variable {α : Type}

/-- The `n` cells from address `a` on. -/
def load (m : Nat → α) : Nat → Nat → List α
  | _, 0 => []
  | a, n + 1 => m a :: load m (a + 1) n

/-- Fill the cells from address `a` on, one after the other. -/
def fill : (Nat → α) → Nat → List α → Nat → α
  | m, _, [] => m
  | m, a, x :: xs => fill (Function.update m a x) (a + 1) xs

@[simp] theorem load_zero (m : Nat → α) (a : Nat) : load m a 0 = [] := rfl

@[simp] theorem load_succ (m : Nat → α) (a n : Nat) :
    load m a (n + 1) = m a :: load m (a + 1) n := rfl

@[simp] theorem fill_nil (m : Nat → α) (a : Nat) : fill m a [] = m := rfl

@[simp] theorem length_load (m : Nat → α) (a n : Nat) : (load m a n).length = n := by
  induction n generalizing a with
  | zero => rfl
  | succ n ih => rw [load_succ, List.length_cons, ih]

theorem load_congr {m m' : Nat → α} {a n : Nat}
    (h : ∀ i, a ≤ i → i < a + n → m' i = m i) : load m' a n = load m a n := by
  induction n generalizing a with
  | zero => rfl
  | succ n ih =>
    rw [load_succ, load_succ, h a (Nat.le_refl a) (by omega),
      ih fun i hi hlt => h i (by omega) (by omega)]

theorem fill_append (m : Nat → α) (a : Nat) (xs ys : List α) :
    fill m a (xs ++ ys) = fill (fill m a xs) (a + xs.length) ys := by
  induction xs generalizing m a with
  | nil => rfl
  | cons x xs ih =>
    have hlen : a + 1 + xs.length = a + (xs.length + 1) := by omega
    rw [List.cons_append, fill, ih, fill, List.length_cons, hlen]

theorem fill_concat (m : Nat → α) (a : Nat) (xs : List α) (x : α) :
    fill m a (xs ++ [x]) = Function.update (fill m a xs) (a + xs.length) x := fill_append m a xs [x]

theorem fill_outside (m : Nat → α) {a i : Nat} {xs : List α} (h : i < a ∨ a + xs.length ≤ i) :
    fill m a xs i = m i := by
  induction xs generalizing m a with
  | nil => rfl
  | cons x xs ih =>
    rw [List.length_cons] at h
    rw [fill, ih _ (by omega), Function.update_of_ne (by omega)]

theorem load_append (m : Nat → α) (a n k : Nat) :
    load m a (n + k) = load m a n ++ load m (a + n) k := by
  induction n generalizing a with
  | zero => simp
  | succ n ih =>
    have hlen : n + 1 + k = n + k + 1 := by omega
    have haddr : a + 1 + n = a + (n + 1) := by omega
    rw [hlen, load_succ, load_succ, ih, List.cons_append, haddr]

theorem fill_cons_self (m : Nat → α) (a : Nat) (x : α) (xs : List α) : fill m a (x :: xs) a = x := by
  rw [fill, fill_outside _ (Or.inl (Nat.lt_succ_self a)), Function.update_self]

theorem load_fill (m : Nat → α) (a : Nat) (xs : List α) : load (fill m a xs) a xs.length = xs := by
  induction xs generalizing m a with
  | nil => rfl
  | cons x xs ih => rw [List.length_cons, load_succ, fill_cons_self, fill, ih]

end SlipStream.Memory
