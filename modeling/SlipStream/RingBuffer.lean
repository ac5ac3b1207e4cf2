import Mathlib.Data.List.GetD
import Mathlib.Data.List.Range

namespace SlipStream.RingBuffer

variable {α : Type}

/-- The `size` cells of a circular buffer from `head` on, oldest first. -/
def window (buf : List α) (dflt : α) (head size : Nat) : List α :=
  (List.range size).map fun i => buf.getD ((head + i) % buf.length) dflt

@[simp] theorem length_window (buf : List α) (dflt : α) (head size : Nat) :
    (window buf dflt head size).length = size := by simp [window]

theorem window_succ (buf : List α) (dflt : α) (head size : Nat) :
    window buf dflt head (size + 1) =
      window buf dflt head size ++ [buf.getD ((head + size) % buf.length) dflt] := by
  simp [window, List.range_succ]

theorem slot_ne (head : Nat) {cap i j : Nat} (hi : i < j) (hj : j < cap) :
    (head + i) % cap ≠ (head + j) % cap := by
  intro h
  have hsub : head + j - (head + i) = j - i := by omega
  have hdvd := Nat.dvd_iff_mod_eq_zero.mpr (Nat.sub_mod_eq_zero_of_mod_eq h.symm)
  rw [hsub] at hdvd
  have hz := Nat.eq_zero_of_dvd_of_lt hdvd (by omega)
  omega

theorem window_push (buf : List α) (dflt : α) (head size : Nat) (x : α)
    (hsize : size < buf.length) :
    window (buf.set ((head + size) % buf.length) x) dflt head (size + 1) =
      window buf dflt head size ++ [x] := by
  have hpos : (head + size) % buf.length < buf.length := Nat.mod_lt _ (by omega)
  rw [window_succ, List.length_set]
  congr 1
  · apply List.map_congr_left
    intro i hi
    have hne := slot_ne head (List.mem_range.mp hi) hsize
    simp only [List.length_set, List.getD_eq_getElem?_getD, List.getElem?_set_ne hne.symm]
  · simp [List.getD_eq_getElem?_getD, hpos]

theorem window_pop (buf : List α) (dflt : α) (head size : Nat) (hhead : head < buf.length) :
    window buf dflt head (size + 1) =
      buf.getD head dflt :: window buf dflt ((head + 1) % buf.length) size := by
  unfold window
  rw [List.range_succ_eq_map, List.map_cons, List.map_map]
  congr 1
  · rw [Nat.add_zero, Nat.mod_eq_of_lt hhead]
  · apply List.map_congr_left
    intro i _
    simp only [Function.comp_apply]
    congr 1
    rw [Nat.mod_add_mod]
    congr 1
    omega

inductive Op (α : Type) where
  | push (x : α)
  | pop

inductive Answer (α : Type) where
  | pushed (taken : Bool)
  | popped (x : Option α)
  deriving DecidableEq

/-- A first-in first-out queue that holds at most `cap` symbols, oldest first.
A full queue refuses a symbol and an empty one has none to give. -/
def fifo (cap : Nat) : List α → Op α → List α × List (Answer α)
  | q, .push x => if q.length < cap then (q ++ [x], [.pushed true]) else (q, [.pushed false])
  | [], .pop => ([], [.popped none])
  | x :: q, .pop => (q, [.popped (some x)])

end SlipStream.RingBuffer
