import SlipStream.ReceiverLimits

namespace SlipStream.ReceiverSoundness

open Stuffing Transducer Receiver ReceiverLimits

variable {α : Type} [DecidableEq α] (k : Code α)

/-- The symbols of each message of `ms` and a `stop` stand in a row in the stream, one
message after the other and without overlap, with anything between them: the row may be
the tail of a longer frame. -/
inductive Carries : List (List α) → List α → Prop
  | nil : Carries [] []
  | skip {ms : List (List α)} {xs : List α} (h : Carries ms xs) (ys : List α) :
      Carries ms (xs ++ ys)
  | frame {ms : List (List α)} {xs : List α} (h : Carries ms xs) (m : List α) :
      Carries (ms ++ [m]) (xs ++ (stuff k m ++ [k.stop]))

/-- A receiver that has got `ms` out of `xs`, of which the last symbols make up
what it holds. -/
def Sound (ms : List (List α)) (xs : List α) (s : Partial α) : Prop :=
  ∃ ys, xs = ys ++ wire k s ∧ Carries k ms ys

variable {k} {ms : List (List α)} {xs : List α} {s : Partial α} {n : Nat}

theorem sound_empty (h : Sound k ms xs s) : Sound k ms xs .empty := by
  obtain ⟨ys, rfl, hc⟩ := h
  exact ⟨_, (List.append_nil _).symm, hc.skip _⟩

theorem sound_dropped (h : Sound k ms xs s) (zs : List α) : Sound k ms (xs ++ zs) .empty := by
  obtain ⟨ys, rfl, hc⟩ := h
  exact ⟨_, (List.append_nil _).symm, (hc.skip _).skip _⟩

theorem sound_kept {s' : Partial α} (h : Sound k ms xs s) {zs : List α}
    (hwire : wire k s' = wire k s ++ zs) : Sound k ms (xs ++ zs) s' := by
  obtain ⟨ys, rfl, hc⟩ := h
  exact ⟨ys, by rw [hwire, List.append_assoc], hc⟩

theorem sound_silent {out : List (Signal α)} (hout : messages out = []) (h : Sound k ms xs s) :
    Sound k (ms ++ messages out) xs s := by
  rw [hout, List.append_nil]
  exact h

theorem sound_assemble (h : Sound k ms xs s) (c : α) :
    Sound k (ms ++ messages (assemble k s c).2) (xs ++ [c]) (assemble k s c).1 := by
  obtain ⟨w, e⟩ := s
  cases e with
  | false =>
    by_cases hs : c = k.stop
    · subst hs
      obtain ⟨ys, rfl, hc⟩ := h
      rw [assemble_stop]
      have hframe : ys ++ wire k ⟨w, false⟩ ++ [k.stop] = ys ++ (stuff k w ++ [k.stop]) := by
        simp [wire]
      rw [hframe]
      exact ⟨_, (List.append_nil _).symm, hc.frame w⟩
    · by_cases he : c = k.esc
      · subst he
        rw [assemble_esc]
        exact sound_silent rfl (sound_kept h (by simp [wire]))
      · rw [assemble_other k w hs he]
        exact sound_silent rfl (sound_kept h (by simp [wire, stuffOne_other k hs he]))
  | true =>
    by_cases hs : c = k.stopMark
    · subst hs
      rw [assemble_stopMark]
      exact sound_silent rfl (sound_kept h (by simp [wire, stuffOne_stop]))
    · by_cases he : c = k.escMark
      · subst he
        rw [assemble_escMark]
        exact sound_silent rfl (sound_kept h (by simp [wire, stuffOne_esc]))
      · rw [assemble_badEscape k w hs he]
        exact sound_silent rfl (sound_dropped h [c])

/-- The symbol of an input, if it has one. -/
def symbol? : Input α → Option α
  | .symbol _ c => some c
  | .clear => none

theorem sound_receive (h : Sound k ms xs s) (x : Input α) :
    Sound k (ms ++ messages (receive k n s x).2) (xs ++ [x].filterMap symbol?)
      (receive k n s x).1 := by
  cases x with
  | clear =>
    have hnone : xs ++ [Input.clear].filterMap symbol? = xs := List.append_nil xs
    rw [hnone]
    exact sound_silent rfl (sound_empty h)
  | symbol keep c =>
    by_cases hfull : n < s.acc.length + 2
    · cases keep with
      | true =>
        rw [receive, if_pos hfull, if_pos rfl]
        exact sound_assemble (sound_empty h) c
      | false =>
        rw [receive, if_pos hfull, if_neg Bool.false_ne_true]
        exact sound_silent rfl (sound_dropped h [c])
    · rw [receive, if_neg hfull]
      exact sound_assemble h c

theorem sound_run (h : Sound k ms xs s) (is : List (Input α)) :
    Sound k (ms ++ messages (run (receive k n) s is).2) (xs ++ is.filterMap symbol?)
      (run (receive k n) s is).1 := by
  induction is generalizing ms xs s with
  | nil => simpa [messages] using h
  | cons i is ih =>
    have hcons : (i :: is).filterMap symbol? = [i].filterMap symbol? ++ is.filterMap symbol? :=
      List.filterMap_append (l := [i])
    have hrest := ih (sound_receive (n := n) h i)
    rw [run_cons, messages_append, ← List.append_assoc, hcons, ← List.append_assoc]
    exact hrest

theorem length_of_message {x : Input α} {m : List α}
    (h : m ∈ messages (receive k n s x).2) : m.length ≤ n - 2 := by
  have hassemble {t : Partial α} {c : α} (hm : m ∈ messages (assemble k t c).2) : m = t.acc := by
    by_cases hc : c = k.stop
    · rw [hc, messages_stop] at hm
      split_ifs at hm
      · cases hm
      · exact List.mem_singleton.mp hm
    · rw [messages_assemble k t hc] at hm
      cases hm
  cases x with
  | clear => cases h
  | symbol keep c =>
    by_cases hfull : n < s.acc.length + 2
    · cases keep with
      | true =>
        rw [receive, if_pos hfull, if_pos rfl] at h
        rw [hassemble h]
        exact Nat.zero_le _
      | false =>
        rw [receive, if_pos hfull, if_neg Bool.false_ne_true] at h
        cases h
    · rw [receive, if_neg hfull] at h
      rw [hassemble h]
      omega

theorem length_of_messages (s : Partial α) (is : List (Input α)) :
    ∀ m ∈ messages (run (receive k n) s is).2, m.length ≤ n - 2 := by
  induction is generalizing s with
  | nil => simp [messages]
  | cons i is ih =>
    intro m hm
    rw [run_cons, messages_append, List.mem_append] at hm
    exact hm.elim length_of_message (ih _ m)

/-- Whatever a receiver is fed, what it delivers was in it. -/
theorem carries_run (is : List (Input α)) :
    Carries k (messages (run (receive k n) .empty is).2) (is.filterMap symbol?) := by
  have hstart : Sound k [] [] .empty := ⟨[], rfl, .nil⟩
  obtain ⟨ys, hys, hc⟩ := sound_run (n := n) hstart is
  rw [List.nil_append] at hys hc
  rw [hys]
  exact hc.skip _

theorem length_messages_receive (keep : Bool) (c : α) :
    (messages (receive k n s (.symbol keep c)).2).length ≤ if c = k.stop then 1 else 0 := by
  have hassemble (t : Partial α) :
      (messages (assemble k t c).2).length ≤ if c = k.stop then 1 else 0 := by
    by_cases hc : c = k.stop
    · rw [if_pos hc, hc, messages_stop]
      split_ifs
      · exact Nat.zero_le 1
      · exact Nat.le_refl 1
    · rw [messages_assemble k t hc]
      exact Nat.zero_le _
  by_cases hfull : n < s.acc.length + 2
  · cases keep with
    | true =>
      rw [receive, if_pos hfull, if_pos rfl]
      exact hassemble .empty
    | false =>
      rw [receive, if_pos hfull, if_neg Bool.false_ne_true]
      exact Nat.zero_le _
  · rw [receive, if_neg hfull]
    exact hassemble s

/-- A receiver delivers at most one message for each `stop`. -/
theorem length_messages_run (s : Partial α) (keep : Bool) (xs : List α) :
    (messages (run (receive k n) s (feed keep xs)).2).length ≤ xs.count k.stop := by
  induction xs generalizing s with
  | nil => exact Nat.le_refl 0
  | cons c xs ih =>
    have hone := length_messages_receive (n := n) (s := s) (k := k) keep c
    have hrest := ih (receive k n s (.symbol keep c)).1
    have hcons : feed keep (c :: xs) = .symbol keep c :: feed keep xs := rfl
    rw [hcons, run_cons, messages_append, List.length_append, List.count_cons]
    simp only [beq_iff_eq]
    omega

/-- Whatever comes between, the frames before it and those behind the next
`stop` are received. -/
theorem messages_around (keep : Bool) {ps qs : List (List α)} (ys : List α)
    (hps : ∀ p ∈ ps, p.length + 2 ≤ n) (hqs : ∀ p ∈ qs, p.length + 2 ≤ n) :
    ∃ ms, messages (run (receive k n) .empty (feed keep
        (framed k ps [] ++ ((ys ++ [k.stop]) ++ framed k qs [])))).2 = ps ++ (ms ++ qs) ∧
      ms.length ≤ ys.count k.stop + 1 := by
  have hfeed (xs zs : List α) : feed keep (xs ++ zs) = feed keep xs ++ feed keep zs :=
    List.map_append
  have hframed {ps : List (List α)} (hps : ∀ p ∈ ps, p.length + 2 ≤ n) :
      run (receive k n) .empty (feed keep (framed k ps [])) = (.empty, ps.map .message) := by
    rw [framed, stuff_nil, List.append_nil,
      run_feed_of_fits k n .empty keep _ (fits_frames k n ps hps), run_frames]
  have hmap (ps : List (List α)) : messages (ps.map Signal.message) = ps := by
    rw [messages, List.filterMap_map]
    exact List.filterMap_some
  have hend : (run (receive k n) .empty (feed keep (ys ++ [k.stop]))).1 = .empty := by
    rw [hfeed, run_append]
    exact receive_stop k n _ keep
  refine ⟨messages (run (receive k n) .empty (feed keep (ys ++ [k.stop]))).2, ?_, ?_⟩
  · rw [hfeed, run_append, messages_append, hframed hps, hfeed, run_append, messages_append, hend,
      hframed hqs, hmap, hmap]
  · have hle := length_messages_run (n := n) (k := k) .empty keep (ys ++ [k.stop])
    rw [List.count_append, List.count_singleton_self] at hle
    exact hle

end SlipStream.ReceiverSoundness
