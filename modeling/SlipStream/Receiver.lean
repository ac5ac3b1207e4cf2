import SlipStream.Stuffing
import SlipStream.Transducer
import Mathlib.Algebra.Ring.Parity
import Mathlib.Data.List.Basic

namespace SlipStream.Receiver

open Stuffing Transducer

/-- A frame in the course of being received. -/
structure Partial (α : Type) where
  acc : List α
  esc : Bool
  deriving DecidableEq

inductive Signal (α : Type) where
  | message (m : List α)
  | badEscape
  | overflow
  deriving DecidableEq

def Signal.message? {α : Type} : Signal α → Option (List α)
  | .message m => some m
  | _ => none

inductive Input (α : Type) where
  | symbol (keep : Bool) (c : α)
  | clear

variable {α : Type} [DecidableEq α] (k : Code α)

def Partial.empty : Partial α := ⟨[], false⟩

def messages (out : List (Signal α)) : List (List α) := out.filterMap Signal.message?

/-- What a receiver has taken in of the current frame, as it stood on the wire. -/
def wire (s : Partial α) : List α := stuff k s.acc ++ if s.esc then [k.esc] else []

/-- A receiver without a length limit. A broken escape throws away what has
been received so far and nothing else. -/
def assemble (s : Partial α) (c : α) : Partial α × List (Signal α) :=
  if s.esc then
    if c = k.stopMark then (⟨s.acc ++ [k.stop], false⟩, [])
    else if c = k.escMark then (⟨s.acc ++ [k.esc], false⟩, [])
    else (.empty, [.badEscape])
  else if c = k.stop then (.empty, [.message s.acc])
  else if c = k.esc then (⟨s.acc, true⟩, [])
  else (⟨s.acc ++ [c], false⟩, [])

/-- A receiver that wants two free places out of `n` before each symbol and
starts over when they are missing. The symbol itself is kept or dropped. -/
def receive (n : Nat) (s : Partial α) : Input α → Partial α × List (Signal α)
  | .symbol keep c =>
    if n < s.acc.length + 2 then
      if keep then ((assemble k .empty c).1, .overflow :: (assemble k .empty c).2)
      else (.empty, [.overflow])
    else assemble k s c
  | .clear => (.empty, [])

/-- The receiver without a limit never holds more than the one with a limit
has places for. -/
def Fits (n : Nat) : Partial α → List α → Prop
  | _, [] => True
  | s, c :: xs => s.acc.length + 2 ≤ n ∧ Fits n (assemble k s c).1 xs

def feed (keep : Bool) (xs : List α) : List (Input α) := xs.map (.symbol keep)

theorem fits_append (n : Nat) (s : Partial α) (xs ys : List α) :
    Fits k n s (xs ++ ys) ↔ Fits k n s xs ∧ Fits k n (run (assemble k) s xs).1 ys := by
  induction xs generalizing s with
  | nil => simp [Fits]
  | cons c xs ih => simp [Fits, ih, and_assoc]

theorem fits_iff (n : Nat) (s : Partial α) (xs : List α) :
    Fits k n s xs ↔
      ∀ q c r, xs = q ++ c :: r → (run (assemble k) s q).1.acc.length + 2 ≤ n := by
  constructor
  · rintro h q c r rfl
    exact ((fits_append k n s q (c :: r)).mp h).2.1
  · intro h
    induction xs generalizing s with
    | nil => trivial
    | cons c xs ih =>
      refine ⟨h [] c xs rfl, ih _ ?_⟩
      intro q d r hq
      exact h (c :: q) d r (by rw [hq, List.cons_append])

/-- As long as everything fits, the limit and the treatment of symbols that
overflow do not matter. -/
theorem run_receive_of_fits (n : Nat) (s : Partial α) (xs : List (Bool × α))
    (h : Fits k n s (xs.map Prod.snd)) :
    run (receive k n) s (xs.map fun x => .symbol x.1 x.2) =
      run (assemble k) s (xs.map Prod.snd) := by
  induction xs generalizing s with
  | nil => rfl
  | cons x xs ih =>
    obtain ⟨hn, hr⟩ := h
    have hs : receive k n s (.symbol x.1 x.2) = assemble k s x.2 := by
      simp [receive, Nat.not_lt.mpr hn]
    simp only [List.map_cons, run_cons, hs, ih _ hr]

theorem run_feed_of_fits (n : Nat) (s : Partial α) (keep : Bool) (xs : List α)
    (h : Fits k n s xs) : run (receive k n) s (feed keep xs) = run (assemble k) s xs := by
  have hm : (xs.map fun c => (keep, c)).map Prod.snd = xs := by simp [Function.comp_def]
  have hr := run_receive_of_fits k n s (xs.map fun c => (keep, c)) (by rwa [hm])
  rwa [hm, List.map_map] at hr

theorem assemble_other (w : List α) {c : α} (hs : c ≠ k.stop) (he : c ≠ k.esc) :
    assemble k ⟨w, false⟩ c = (⟨w ++ [c], false⟩, []) := by
  simp [assemble, hs, he]

theorem assemble_esc (w : List α) : assemble k ⟨w, false⟩ k.esc = (⟨w, true⟩, []) := by
  simp [assemble, k.esc_ne_stop]

theorem assemble_stop (w : List α) :
    assemble k ⟨w, false⟩ k.stop = (.empty, [.message w]) := by
  simp [assemble]

theorem assemble_stopMark (w : List α) :
    assemble k ⟨w, true⟩ k.stopMark = (⟨w ++ [k.stop], false⟩, []) := by
  simp [assemble]

theorem assemble_escMark (w : List α) :
    assemble k ⟨w, true⟩ k.escMark = (⟨w ++ [k.esc], false⟩, []) := by
  simp [assemble, k.stopMark_ne_escMark.symm]

theorem assemble_badEscape (w : List α) {c : α} (hs : c ≠ k.stopMark) (he : c ≠ k.escMark) :
    assemble k ⟨w, true⟩ c = (.empty, [.badEscape]) := by
  simp [assemble, hs, he]

theorem run_stuffOne (w : List α) (c : α) :
    run (assemble k) ⟨w, false⟩ (stuffOne k c) = (⟨w ++ [c], false⟩, []) := by
  by_cases hs : c = k.stop
  · subst hs
    simp [stuffOne_stop, assemble_esc, assemble_stopMark]
  · by_cases he : c = k.esc
    · subst he
      simp [stuffOne_esc, assemble_esc, assemble_escMark]
    · simp [stuffOne_other k hs he, assemble_other k w hs he]

theorem run_stuff (w p : List α) :
    run (assemble k) ⟨w, false⟩ (stuff k p) = (⟨w ++ p, false⟩, []) := by
  induction p generalizing w with
  | nil => simp
  | cons c p ih => simp [run_append, run_stuffOne, ih]

theorem run_frame (p : List α) :
    run (assemble k) .empty (stuff k p ++ [k.stop]) = (.empty, [.message p]) := by
  simp [run_append, Partial.empty, run_stuff, assemble_stop]

theorem run_frames (ps : List (List α)) :
    run (assemble k) .empty (ps.flatMap fun p => stuff k p ++ [k.stop]) =
      (.empty, ps.map .message) := by
  induction ps with
  | nil => rfl
  | cons p ps ih =>
    rw [List.flatMap_cons, run_append, run_frame, ih]
    rfl

theorem fits_stuffOne (n : Nat) (w : List α) (c : α) (h : w.length + 2 ≤ n) :
    Fits k n ⟨w, false⟩ (stuffOne k c) := by
  by_cases hs : c = k.stop
  · subst hs
    simp [stuffOne_stop, Fits, assemble_esc, h]
  · by_cases he : c = k.esc
    · subst he
      simp [stuffOne_esc, Fits, assemble_esc, h]
    · simp [stuffOne_other k hs he, Fits, h]

theorem fits_stuff (n : Nat) (w p : List α) (h : w.length + p.length + 2 ≤ n) :
    Fits k n ⟨w, false⟩ (stuff k p) := by
  induction p generalizing w with
  | nil => trivial
  | cons c p ih =>
    rw [List.length_cons] at h
    rw [stuff_cons, fits_append, run_stuffOne]
    refine ⟨fits_stuffOne k n w c (by omega), ih _ ?_⟩
    rw [List.length_append, List.length_singleton]
    omega

theorem fits_frame (n : Nat) (p : List α) (h : p.length + 2 ≤ n) :
    Fits k n .empty (stuff k p ++ [k.stop]) := by
  rw [fits_append, Partial.empty, run_stuff]
  exact ⟨fits_stuff k n [] p (by simpa using h), h, trivial⟩

theorem fits_frames (n : Nat) (ps : List (List α)) (h : ∀ p ∈ ps, p.length + 2 ≤ n) :
    Fits k n .empty (ps.flatMap fun p => stuff k p ++ [k.stop]) := by
  induction ps with
  | nil => trivial
  | cons p ps ih =>
    rw [List.flatMap_cons, fits_append, run_frame]
    exact ⟨fits_frame k n p (h p (by simp)), ih fun q hq => h q (by simp [hq])⟩

/-- Whole frames, and after them the beginning of one more. -/
def framed (ps : List (List α)) (q : List α) : List α :=
  (ps.flatMap fun p => stuff k p ++ [k.stop]) ++ stuff k q

theorem run_framed (ps : List (List α)) (q : List α) :
    run (assemble k) .empty (framed k ps q) = (⟨q, false⟩, ps.map .message) := by
  rw [framed, run_append, run_frames, Partial.empty, run_stuff]
  simp

theorem fits_framed (n : Nat) (ps : List (List α)) (q : List α)
    (h : ∀ p ∈ ps, p.length + 2 ≤ n) (hq : q.length + 2 ≤ n) :
    Fits k n .empty (framed k ps q) := by
  rw [framed, fits_append, run_frames]
  exact ⟨fits_frames k n ps h, fits_stuff k n [] q (by simpa using hq)⟩

theorem length_signals (s : Partial α) (c : α) (h : Signal.badEscape ∉ (assemble k s c).2) :
    (assemble k s c).2.length = if c = k.stop then 1 else 0 := by
  obtain ⟨w, e⟩ := s
  cases e with
  | false =>
    by_cases hs : c = k.stop
    · rw [hs, assemble_stop, if_pos rfl]
      rfl
    · by_cases he : c = k.esc
      · rw [if_neg hs, he, assemble_esc]
        rfl
      · rw [if_neg hs, assemble_other k w hs he]
        rfl
  | true =>
    by_cases hs : c = k.stopMark
    · rw [hs, assemble_stopMark, if_neg k.stopMark_ne_stop]
      rfl
    · by_cases he : c = k.escMark
      · rw [he, assemble_escMark, if_neg k.escMark_ne_stop]
        rfl
      · rw [assemble_badEscape k w hs he] at h
        exact absurd (List.mem_singleton.mpr rfl) h

/-- Unless an escape breaks, each `stop` ends a message and nothing else does. -/
theorem length_run (s : Partial α) (xs : List α)
    (h : Signal.badEscape ∉ (run (assemble k) s xs).2) :
    (run (assemble k) s xs).2.length = xs.count k.stop := by
  induction xs generalizing s with
  | nil => rfl
  | cons c xs ih =>
    rw [run_cons, List.mem_append, not_or] at h
    rw [run_cons, List.length_append, ih _ h.2, length_signals k s c h.1, List.count_cons]
    simp only [beq_iff_eq]
    omega

/-- A receiver that has seen the beginning of a framed stream has delivered the
frames whose `stop` it has seen. -/
theorem run_prefix {ps : List (List α)} {q r : List α} (h : r <+: framed k ps q) :
    (run (assemble k) .empty r).2 = (ps.take (r.count k.stop)).map .message := by
  obtain ⟨rest, hrest⟩ := h
  have hout := congrArg Prod.snd (run_framed k ps q)
  rw [← hrest, run_append] at hout
  simp only at hout
  have hpre : (run (assemble k) .empty r).2 <+: ps.map .message := ⟨_, hout⟩
  have hbad : Signal.badEscape ∉ (run (assemble k) .empty r).2 := by
    intro hmem
    obtain ⟨p, _, hp⟩ := List.mem_map.mp (hpre.subset hmem)
    cases hp
  rw [List.prefix_iff_eq_take.mp hpre, length_run k .empty r hbad, List.map_take]

end SlipStream.Receiver
