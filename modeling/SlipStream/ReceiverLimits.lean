import SlipStream.Receiver
import Mathlib.Data.List.Induction

namespace SlipStream.ReceiverLimits

open Stuffing Transducer Receiver

variable {α : Type} [DecidableEq α] (k : Code α)

/-- The length of the run of `c` at the end of a list. -/
def trailing (c : α) (xs : List α) : Nat := (xs.reverse.takeWhile (fun x => decide (x = c))).length

theorem esc_assemble (s : Partial α) (c : α) :
    (assemble k s c).1.esc = (!s.esc && decide (c = k.esc)) := by
  unfold assemble
  split_ifs with he hs hx hs hx
  · simp [he]
  · simp [he]
  · simp [he, Partial.empty]
  · simp [he, hs, k.esc_ne_stop.symm, Partial.empty]
  · simp [he, hx]
  · simp [he, hx]

/-- A receiver waits for the second half of an escape exactly when the
symbols since the last other one are an odd number of escapes. -/
theorem esc_run (xs : List α) :
    (run (assemble k) .empty xs).1.esc = decide (Odd (trailing k.esc xs)) := by
  induction xs using List.reverseRecOn with
  | nil => rfl
  | append_singleton xs c ih =>
    rw [run_append]
    simp only [run_cons, run_nil]
    rw [esc_assemble, ih]
    by_cases hc : c = k.esc
    · subst hc
      have ht : trailing k.esc (xs ++ [k.esc]) = trailing k.esc xs + 1 := by simp [trailing]
      simp only [ht, Nat.odd_add_one, decide_true, Bool.and_true, decide_not]
    · simp [trailing, hc]

theorem messages_assemble (s : Partial α) {c : α} (hc : c ≠ k.stop) :
    messages (assemble k s c).2 = [] := by
  unfold assemble
  split_ifs <;> rfl

omit [DecidableEq α] in
theorem messages_append (xs ys : List (Signal α)) :
    messages (xs ++ ys) = messages xs ++ messages ys := List.filterMap_append

theorem messages_run (s : Partial α) (xs : List α) (h : k.stop ∉ xs) :
    messages (run (assemble k) s xs).2 = [] := by
  induction xs generalizing s with
  | nil => rfl
  | cons c xs ih =>
    rw [List.mem_cons, not_or] at h
    rw [run_cons, messages_append, messages_assemble k s (Ne.symm h.1), ih _ h.2]
    rfl

theorem messages_stop (s : Partial α) :
    messages (assemble k s k.stop).2 = if s.esc then [] else [s.acc] := by
  obtain ⟨w, e⟩ := s
  cases e with
  | false =>
    rw [assemble_stop]
    rfl
  | true =>
    rw [assemble_badEscape k w k.stopMark_ne_stop.symm k.escMark_ne_stop.symm]
    rfl

theorem length_assemble (s : Partial α) (c : α) :
    (assemble k s c).1.acc.length ≤ s.acc.length + 1 := by
  unfold assemble
  split_ifs <;> simp [Partial.empty]

theorem fits_of_length (n : Nat) (s : Partial α) (xs : List α)
    (h : s.acc.length + xs.length + 1 ≤ n) : Fits k n s xs := by
  induction xs generalizing s with
  | nil => trivial
  | cons c xs ih =>
    rw [List.length_cons] at h
    have hc := length_assemble k s c
    exact ⟨by omega, ih _ (by omega)⟩

/-- In a receiver with room for every symbol of `xs`, the `stop` that follows
them delivers a message unless it falls into an escape. -/
theorem messages_feed_stop (n : Nat) (keep : Bool) (xs : List α) (h : k.stop ∉ xs)
    (hn : xs.length + 2 ≤ n) :
    messages (run (receive k n) .empty (feed keep (xs ++ [k.stop]))).2 = [] ↔
      Odd (trailing k.esc xs) := by
  have hfit : Fits k n .empty (xs ++ [k.stop]) := fits_of_length k n _ _ (by
    simp only [Partial.empty, List.length_nil, List.length_append, List.length_singleton]
    omega)
  rw [run_feed_of_fits k n .empty keep _ hfit, run_append, messages_append,
    messages_run k .empty xs h, run_cons, run_nil, List.append_nil, List.nil_append,
    messages_stop, esc_run]
  simp

theorem receive_stop (n : Nat) (s : Partial α) (keep : Bool) :
    (receive k n s (.symbol keep k.stop)).1 = .empty := by
  have hstop : ∀ t : Partial α, (assemble k t k.stop).1 = .empty := by
    rintro ⟨w, e⟩
    cases e with
    | false => rw [assemble_stop]
    | true => rw [assemble_badEscape k w k.stopMark_ne_stop.symm k.escMark_ne_stop.symm]
  rw [receive]
  split_ifs
  · exact hstop .empty
  · rfl
  · exact hstop s

theorem receive_empty (n : Nat) (hn : 2 ≤ n) (keep : Bool) (c : α) :
    receive k n .empty (.symbol keep c) = assemble k .empty c := by
  rw [receive, if_neg (by simp [Partial.empty]; omega)]

/-- A receiver that keeps the symbols it has no place for goes on from them
as from a fresh start. -/
theorem run_feed_overflow (n : Nat) (hn : 2 ≤ n) (s : Partial α) (h : n < s.acc.length + 2)
    (x : α) (xs : List α) :
    run (receive k n) s (feed true (x :: xs)) =
      ((run (receive k n) .empty (feed true (x :: xs))).1,
        .overflow :: (run (receive k n) .empty (feed true (x :: xs))).2) := by
  have hs : receive k n s (.symbol true x) =
      ((assemble k .empty x).1, .overflow :: (assemble k .empty x).2) := by
    rw [receive, if_pos h, if_pos rfl]
  simp only [feed, List.map_cons, run_cons, hs, receive_empty k n hn, List.cons_append]

theorem run_feed_stuffOne (n : Nat) (hn : 2 ≤ n) (w : List α) (c : α) :
    run (receive k n) ⟨w, false⟩ (feed true (stuffOne k c)) =
      if w.length + 2 ≤ n then (⟨w ++ [c], false⟩, []) else (⟨[c], false⟩, [.overflow]) := by
  have hfit : ∀ v : List α, v.length + 2 ≤ n →
      run (receive k n) ⟨v, false⟩ (feed true (stuffOne k c)) = (⟨v ++ [c], false⟩, []) := by
    intro v hv
    rw [run_feed_of_fits k n _ true _ (fits_stuffOne k n v c hv), run_stuffOne]
  split_ifs with h
  · exact hfit w h
  · obtain ⟨x, xs, hx⟩ : ∃ x xs, stuffOne k c = x :: xs := by
      unfold stuffOne
      split_ifs <;> exact ⟨_, _, rfl⟩
    have he := hfit [] hn
    rw [hx] at he ⊢
    rw [run_feed_overflow k n hn ⟨w, false⟩ (by simpa using h), Partial.empty, he]
    rfl

/-- A payload that is too long is cut into blocks of `n - 1` symbols, and all
full blocks but the last are dropped. -/
theorem run_feed_stuff (n : Nat) (hn : 2 ≤ n) (p : List α) :
    ∃ pre acc q, p = pre ++ acc ∧ pre.length = (n - 1) * q ∧ acc.length ≤ n - 1 ∧
      run (receive k n) .empty (feed true (stuff k p)) =
        (⟨acc, false⟩, List.replicate q .overflow) := by
  induction p using List.reverseRecOn with
  | nil => exact ⟨[], [], 0, rfl, rfl, Nat.zero_le _, rfl⟩
  | append_singleton p c ih =>
    obtain ⟨pre, acc, q, hp, hpre, hacc, hrun⟩ := ih
    have hone := run_feed_stuffOne k n hn acc c
    have happ : run (receive k n) .empty (feed true (stuff k (p ++ [c]))) =
        ((run (receive k n) ⟨acc, false⟩ (feed true (stuffOne k c))).1,
          List.replicate q .overflow ++
            (run (receive k n) ⟨acc, false⟩ (feed true (stuffOne k c))).2) := by
      rw [stuff_append, feed, List.map_append, run_append]
      simp only [feed] at hrun
      rw [hrun, stuff_cons, stuff_nil, List.append_nil]
      rfl
    by_cases h : acc.length + 2 ≤ n
    · refine ⟨pre, acc ++ [c], q, by simp [hp], hpre, ?_, ?_⟩
      · rw [List.length_append, List.length_singleton]
        omega
      · rw [happ, hone, if_pos h, List.append_nil]
    · refine ⟨pre ++ acc, [c], q + 1, by simp [hp], ?_, by simpa using Nat.le_pred_of_lt hn, ?_⟩
      · have hm : (n - 1) * (q + 1) = (n - 1) * q + (n - 1) := Nat.mul_succ _ _
        rw [List.length_append, hpre, hm]
        omega
      · rw [happ, hone, if_neg h, List.replicate_succ']

theorem run_feed_frame (n : Nat) (hn : 2 ≤ n) (p : List α) :
    run (receive k n) .empty (feed true (stuff k p ++ [k.stop])) =
      (.empty, List.replicate (p.length / (n - 1)) .overflow ++
        [.message (p.drop ((n - 1) * (p.length / (n - 1))))]) := by
  obtain ⟨pre, acc, q, hp, hpre, hacc, hrun⟩ := run_feed_stuff k n hn p
  have hm : 0 < n - 1 := by omega
  have hlen : p.length = (n - 1) * q + acc.length := by rw [hp, List.length_append, hpre]
  have happ : run (receive k n) .empty (feed true (stuff k p ++ [k.stop])) =
      ((receive k n ⟨acc, false⟩ (.symbol true k.stop)).1,
        List.replicate q .overflow ++ (receive k n ⟨acc, false⟩ (.symbol true k.stop)).2) := by
    rw [feed, List.map_append, run_append]
    simp only [feed] at hrun
    rw [hrun]
    simp
  by_cases h : acc.length + 2 ≤ n
  · have hq : p.length / (n - 1) = q := by
      rw [hlen, Nat.mul_add_div hm, Nat.div_eq_of_lt (by omega), Nat.add_zero]
    have hdrop : p.drop ((n - 1) * q) = acc := by rw [hp, ← hpre, List.drop_left]
    rw [happ, receive, if_neg (Nat.not_lt.mpr h), assemble_stop, hq, hdrop]
  · have ha : acc.length = n - 1 := by omega
    have hq : p.length / (n - 1) = q + 1 := by
      rw [hlen, Nat.mul_add_div hm, ha, Nat.div_self hm]
    have hdrop : p.drop ((n - 1) * (q + 1)) = [] := by
      apply List.drop_eq_nil_of_le
      rw [hlen, ha, Nat.mul_succ]
    rw [happ, receive, if_pos (Nat.not_le.mp h), if_pos rfl, Partial.empty, assemble_stop, hq,
      hdrop, List.replicate_succ']
    simp [Partial.empty]

/-- Keeping and dropping the symbols that overflow comes to the same thing. -/
def Agree (n : Nat) (s : Partial α) (xs : List α) : Prop :=
  messages (run (receive k n) s (feed true xs)).2 =
      messages (run (receive k n) s (feed false xs)).2 ∧
    (run (receive k n) s (feed true xs)).1.acc.length =
      (run (receive k n) s (feed false xs)).1.acc.length ∧
    (run (receive k n) s (feed true xs)).1.esc = (run (receive k n) s (feed false xs)).1.esc

theorem agree_of_fits (n : Nat) (s : Partial α) (xs : List α) (h : Fits k n s xs) :
    Agree k n s xs := by
  unfold Agree
  rw [run_feed_of_fits k n s true xs h, run_feed_of_fits k n s false xs h]
  exact ⟨rfl, rfl, rfl⟩

theorem not_agree_of_overflow (n : Nat) (s : Partial α) (c : α) (h : n < s.acc.length + 2) :
    ¬ Agree k n s [c] := by
  have ht : run (receive k n) s (feed true [c]) =
      ((assemble k .empty c).1, .overflow :: (assemble k .empty c).2) := by
    simp [feed, receive, h]
  have hf : run (receive k n) s (feed false [c]) = (.empty, [.overflow]) := by
    simp [feed, receive, h]
  rintro ⟨hmsg, hlen, hesc⟩
  rw [ht, hf] at hmsg hlen hesc
  by_cases hs : c = k.stop
  · subst hs
    rw [Partial.empty, assemble_stop] at hmsg
    cases hmsg
  · by_cases he : c = k.esc
    · subst he
      rw [Partial.empty, assemble_esc] at hesc
      cases hesc
    · rw [Partial.empty, assemble_other k [] hs he] at hlen
      cases hlen

theorem agree_cons (n : Nat) (s : Partial α) (c : α) (xs : List α) (h : s.acc.length + 2 ≤ n) :
    Agree k n s (c :: xs) ↔ Agree k n (assemble k s c).1 xs := by
  have hs : ∀ keep, run (receive k n) s (feed keep (c :: xs)) =
      ((run (receive k n) (assemble k s c).1 (feed keep xs)).1,
        (assemble k s c).2 ++ (run (receive k n) (assemble k s c).1 (feed keep xs)).2) := by
    intro keep
    simp [feed, receive, Nat.not_lt.mpr h]
  unfold Agree
  rw [hs true, hs false]
  simp only [messages_append, List.append_cancel_left_eq]

theorem agree_iff_fits (n : Nat) (s : Partial α) (xs : List α) :
    (∀ q, q <+: xs → Agree k n s q) ↔ Fits k n s xs := by
  constructor
  · intro h
    induction xs generalizing s with
    | nil => trivial
    | cons c xs ih =>
      have hroom : s.acc.length + 2 ≤ n := by
        by_contra hlt
        exact not_agree_of_overflow k n s c (Nat.not_le.mp hlt) (h [c] (by simp))
      refine ⟨hroom, ih _ ?_⟩
      intro q hq
      exact (agree_cons k n s c q hroom).mp (h (c :: q) (List.cons_prefix_cons.mpr ⟨rfl, hq⟩))
  · rintro h q ⟨r, rfl⟩
    exact agree_of_fits k n s q ((fits_append k n s q r).mp h).1

end SlipStream.ReceiverLimits
