import SlipStream.EncoderAccepting
import SlipStream.EncoderFrames
import SlipStream.EncoderHistory

namespace SlipStream.EncoderProgress

open Channel hiding log
open Format Stuffing StreamEncoder EncoderQueue EncoderSteps EncoderPacing EncoderReachable
open EncoderFrames EncoderTurns EncoderHistory
open EncoderAccepting (flushes)

def refusals (calls : List (UInt8 × WriteStatus)) : Nat := calls.countP fun x => x.2 ≠ .ok

/-- A history that the callback can have: each answer in it is the one it gives
after the calls before. -/
def Answered (outputFn : OutputFn) (calls : List (UInt8 × WriteStatus)) : Prop :=
  ∀ pre b st post, calls = pre ++ (b, st) :: post → st = outputFn pre b

theorem refusals_append (xs ys : List (UInt8 × WriteStatus)) :
    refusals (xs ++ ys) = refusals xs + refusals ys := List.countP_append

theorem length_accepted_add_refusals (calls : List (UInt8 × WriteStatus)) :
    (accepted .ok calls).length + refusals calls = calls.length := by
  have hsplit := List.length_eq_countP_add_countP (l := calls)
    (fun x : UInt8 × WriteStatus => decide (x.2 = .ok))
  rw [hsplit, accepted, List.length_map, ← List.countP_eq_length_filter, refusals]
  simp only [ne_eq, decide_eq_true_eq]

theorem refusals_taken (xs : List UInt8) : refusals (xs.map fun x => (x, .ok)) = 0 := by
  apply List.countP_eq_zero.mpr
  intro x hx
  obtain ⟨b, _, rfl⟩ := List.mem_map.mp hx
  simp

variable {outputFn : OutputFn} {e e' : Encoder} {n : Nat} {st : WriteStatus}

/-- A call with room for an escape fails only by a refusal, and each refusal
fails a call. -/
theorem refusals_of_asks (h : Asks n e e' st) (hc : ¬ Cramped e) :
    refusals e'.calls = refusals e.calls + if st = .ok then 0 else 1 := by
  obtain ⟨xs, last, hcalls, _, hend⟩ := h
  rw [hcalls, refusals_append, refusals_append, refusals_taken, Nat.add_zero]
  cases hend with
  | taken => rfl
  | noRoom hcr => exact absurd hcr hc
  | refused b hst =>
    rw [if_neg hst]
    simp [refusals, hst]

theorem not_cramped (h : Ready e) : ¬ Cramped e := by
  have hcap := h.capacity_ge
  have hm := h.chunk_ge
  simp only [Cramped]
  omega

variable (outputFn) in
theorem ready_pushPacket (h : Ready e) (data : List UInt8) :
    Ready (pushPacket outputFn e data).1 := by
  obtain hearly | hlate :=
    Nat.lt_or_ge (taken outputFn .ok e.calls (queue e ++ packet data)) (offered e data)
  · exact (pushPacket_early h data hearly).1
  · exact (pushPacket_late h data hlate).1

variable (outputFn) in
theorem refusals_pushPacket (h : Ready e) (data : List UInt8) :
    refusals (pushPacket outputFn e data).1.calls =
      refusals e.calls + if (pushPacket outputFn e data).2.1 = .ok then 0 else 1 :=
  refusals_of_asks (asks_of_turn (turn_pushPacket outputFn h.valid data)) (not_cramped h)

/-- Every refusal costs the caller one call. -/
theorem length_of_sends {data : List UInt8} {made : List (Encoder × List UInt8)} (h : Ready e)
    (hs : Sends outputFn e data made e') :
    Ready e' ∧ made.length + refusals e.calls = 1 + refusals e'.calls := by
  induction hs with
  | @done e e' data c hcall =>
    have hr := ready_pushPacket outputFn h data
    have hcount := refusals_pushPacket outputFn h data
    rw [hcall] at hr hcount
    rw [if_pos rfl] at hcount
    refine ⟨hr, ?_⟩
    rw [hcount]
    rfl
  | @retry e e₁ e' data c made hcall _ ih =>
    have hr := ready_pushPacket outputFn h data
    have hcount := refusals_pushPacket outputFn h data
    rw [hcall] at hr hcount
    obtain ⟨hr', hlen⟩ := ih hr
    refine ⟨hr', ?_⟩
    simp only [reduceCtorEq, if_false] at hcount
    rw [List.length_cons]
    omega

theorem length_of_sendsAll {packets : List (List UInt8)} {made : List (Encoder × List UInt8)}
    (h : Ready e) (hs : SendsAll outputFn e packets made e') :
    Ready e' ∧ made.length + refusals e.calls = packets.length + refusals e'.calls := by
  induction hs with
  | nil => exact ⟨h, rfl⟩
  | cons hp _ ih =>
    obtain ⟨hr, hlen⟩ := length_of_sends h hp
    obtain ⟨hr', hlen'⟩ := ih hr
    refine ⟨hr', ?_⟩
    rw [List.length_append, List.length_cons]
    omega

/-- What a call keeps, a caller that resumes keeps. -/
theorem sends_invariant {I : Encoder → Prop}
    (hI : ∀ e data, Valid e → I e → I (pushPacket outputFn e data).1) {data : List UInt8}
    {made : List (Encoder × List UInt8)} (hs : Sends outputFn e data made e') (h : Valid e)
    (hi : I e) : Valid e' ∧ I e' := by
  induction hs with
  | @done e e' data c hcall =>
    have hv := valid_pushPacket outputFn h data
    have hi' := hI e data h hi
    rw [hcall] at hv hi'
    exact ⟨hv, hi'⟩
  | @retry e e₁ e' data c made hcall _ ih =>
    have hv := valid_pushPacket outputFn h data
    have hi' := hI e data h hi
    rw [hcall] at hv hi'
    exact ih hv hi'

theorem sendsAll_invariant {I : Encoder → Prop}
    (hI : ∀ e data, Valid e → I e → I (pushPacket outputFn e data).1)
    {packets : List (List UInt8)} {made : List (Encoder × List UInt8)}
    (hs : SendsAll outputFn e packets made e') (h : Valid e) (hi : I e) : I e' := by
  induction hs with
  | nil => exact hi
  | cons hp _ ih =>
    obtain ⟨hv, hi'⟩ := sends_invariant hI hp h hi
    exact ih hv hi'

theorem answered_of_inOrder (h : InOrder outputFn e) : Answered outputFn e.calls :=
  fun pre b st post hcalls => (h pre b st post hcalls).1

/-- A call returns an error only if the callback does. -/
theorem pushPacket_ne_error (hne : ∀ calls b, outputFn calls b ≠ .error) (h : Ready e)
    (hin : InOrder outputFn e) (data : List UInt8) : (pushPacket outputFn e data).2.1 ≠ .error := by
  have hans := answered_of_inOrder (inOrder_pushPacket h.valid hin data)
  obtain ⟨xs, last, hcalls, _, hend⟩ :=
    asks_of_turn (turn_pushPacket outputFn h.valid data)
  generalize (pushPacket outputFn e data).2.1 = st at hend
  cases hend with
  | taken => exact WriteStatus.noConfusion
  | noRoom _ => exact WriteStatus.noConfusion
  | refused b _ =>
    rw [hans _ b st [] hcalls]
    exact hne _ b

section Bounded

variable {R : Nat} (hne : ∀ calls b, outputFn calls b ≠ .error)
  (hR : ∀ calls, Answered outputFn calls → refusals calls ≤ R)
include hne hR

theorem exists_sends (h : Ready e) (hin : InOrder outputFn e) (data : List UInt8) :
    ∃ made e', Sends outputFn e data made e' := by
  -- each retry uses up one of the refusals that are left
  induction hk : R - refusals e.calls generalizing e data with
  | zero =>
    have hcount := refusals_pushPacket outputFn h data
    have hin' := inOrder_pushPacket h.valid hin data
    have hle := hR _ (answered_of_inOrder hin')
    have hok : (pushPacket outputFn e data).2.1 = .ok := by
      by_contra hst
      rw [if_neg hst] at hcount
      omega
    exact ⟨_, _, .done (Prod.ext rfl (Prod.ext hok rfl))⟩
  | succ k ih =>
    have hcount := refusals_pushPacket outputFn h data
    have hin' := inOrder_pushPacket h.valid hin data
    cases hst : (pushPacket outputFn e data).2.1 with
    | ok => exact ⟨_, _, .done (Prod.ext rfl (Prod.ext hst rfl))⟩
    | error => exact absurd hst (pushPacket_ne_error hne h hin data)
    | retryLater =>
      rw [hst] at hcount
      simp only [reduceCtorEq, if_false] at hcount
      obtain ⟨made, e', hs⟩ := ih (ready_pushPacket outputFn h data) hin'
        (data.drop (pushPacket outputFn e data).2.2) (by omega)
      exact ⟨_, e', .retry (Prod.ext rfl (Prod.ext hst rfl)) hs⟩

theorem exists_sendsAll (h : Ready e) (hin : InOrder outputFn e) (packets : List (List UInt8)) :
    ∃ made e', SendsAll outputFn e packets made e' := by
  induction packets generalizing e with
  | nil => exact ⟨[], e, .nil⟩
  | cons p ps ih =>
    obtain ⟨made, e₁, hs⟩ := exists_sends hne hR h hin p
    have hin₁ := (sends_invariant (fun _ data hv hi => inOrder_pushPacket hv hi data) hs h.valid hin).2
    obtain ⟨made', e', hs'⟩ := ih (length_of_sends h hs).1 hin₁
    exact ⟨_, e', .cons hs hs'⟩

end Bounded

theorem log_flush (h : Valid e) : log (flush outputFn e).1 = log e := by
  obtain ⟨l, hs, hl⟩ := adds_flush outputFn (shows_view h)
  rw [log_of_shows hs, hl, List.append_nil]
  rfl

variable (outputFn) in
/-- A flush that is not refused sends as much as it may. -/
theorem queued_flush (h : Valid e) :
    queued (flush outputFn e).1 ≤ queued e ∧
      ((flush outputFn e).2 = .ok → queued (flush outputFn e).1 = queued e - e.maxSendChunk) := by
  obtain ⟨hs, hst⟩ := shows_flush outputFn (shows_view h)
  have hlen : (queue e).length = queued e := length_queue (shows_view h)
  have hlen' := length_queue hs
  refine ⟨?_, ?_⟩
  · have hle := drain_length_le outputFn .ok e.maxSendChunk (view e).link
    simp only [queued] at hlen ⊢
    rw [← hlen', ← hlen]
    exact hle
  · intro hok
    rw [hok] at hst
    rw [drain_of_ok outputFn .ok hst.symm] at hlen'
    simp only [advance_length] at hlen'
    simp only [queued] at hlen ⊢
    rw [← hlen', ← hlen]
    rfl

section Drained

variable {R : Nat} (hR : ∀ calls, Answered outputFn calls → refusals calls ≤ R)
include hR

/-- Of `n` flushes all but those that are refused empty the queue. -/
theorem drained_of_flushes (h : Ready e) (hin : InOrder outputFn e) {n : Nat}
    (hq : queued e ≤ (n - (R - refusals e.calls)) * e.maxSendChunk) :
    queued (flushes outputFn n e) = 0 ∧ Valid (flushes outputFn n e) ∧
      log (flushes outputFn n e) = log e := by
  induction n generalizing e with
  | zero =>
    rw [Nat.zero_sub, Nat.zero_mul] at hq
    exact ⟨Nat.le_zero.mp hq, h.valid, rfl⟩
  | succ n ih =>
    obtain ⟨l, hs, _⟩ := adds_flush outputFn (shows_view h.valid)
    have hm : (flush outputFn e).1.maxSendChunk = e.maxSendChunk :=
      congrArg View.maxSendChunk hs.2
    have hin' := inOrder_flush h.valid hin
    have hasks : Asks e.maxSendChunk e (flush outputFn e).1 (flush outputFn e).2 :=
      asks_of_turn (turn_flush outputFn e)
    have hcount := refusals_of_asks hasks (not_cramped h)
    have hle := hR _ (answered_of_inOrder hin')
    obtain ⟨hshort, hsent⟩ := queued_flush outputFn h.valid
    have hq' : queued (flush outputFn e).1 ≤
        (n - (R - refusals (flush outputFn e).1.calls)) * (flush outputFn e).1.maxSendChunk := by
      rw [hm]
      by_cases hok : (flush outputFn e).2 = .ok
      · rw [if_pos hok, Nat.add_zero] at hcount
        rw [hsent hok, hcount]
        obtain hlt | hge := Nat.lt_or_ge n (R - refusals e.calls)
        · have hnone : n + 1 - (R - refusals e.calls) = 0 := by omega
          rw [hnone, Nat.zero_mul] at hq
          omega
        · rw [Nat.succ_sub hge, Nat.succ_mul] at hq
          omega
      · rw [if_neg hok] at hcount
        have hleft : n - (R - refusals (flush outputFn e).1.calls) =
            n + 1 - (R - refusals e.calls) := by omega
        rw [hleft]
        exact hshort.trans hq
    obtain ⟨hz, hv, hlog⟩ := ih (ready_of_shows h hs) hin' hq'
    exact ⟨hz, hv, hlog.trans (log_flush h.valid)⟩

end Drained

theorem accepted_of_drained (h : Valid e) (hz : queued e = 0) : accepted .ok e.calls = log e := by
  have hlen : (queue e).length = queued e := length_queue (shows_view h)
  rw [hz] at hlen
  rw [log, List.eq_nil_of_length_eq_zero hlen, List.append_nil]

theorem drained_of_sendsAll {R cap m : Nat} (hcap : 2 ≤ cap) (hm : 1 ≤ m)
    (hR : ∀ calls, Answered outputFn calls → refusals calls ≤ R) {packets : List (List UInt8)}
    {made : List (Encoder × List UInt8)} (hs : SendsAll outputFn (new cap m) packets made e') :
    Ready e' ∧ made.length = packets.length + refusals e'.calls ∧ refusals e'.calls ≤ R ∧
      ∀ n, queued e' ≤ (n - R) * m →
        queued (flushes outputFn n e') = 0 ∧
          accepted .ok (flushes outputFn n e').calls = log e' := by
  have hready := ready_new hcap hm
  have hin : InOrder outputFn (new cap m) := inOrder_of_reachable (.new cap m)
  obtain ⟨hready', hlen⟩ := length_of_sendsAll hready hs
  have hin' : InOrder outputFn e' :=
    sendsAll_invariant (fun _ data hv hi => inOrder_pushPacket hv hi data) hs hready.valid hin
  have hm' : e'.maxSendChunk = m :=
    sendsAll_invariant (I := fun e => e.maxSendChunk = m) (fun e data hv hi =>
      (turn_pushPacket outputFn hv data).maxSendChunk_eq.trans hi) hs hready.valid rfl
  have hle := hR _ (answered_of_inOrder hin')
  refine ⟨hready', hlen, hle, ?_⟩
  intro n hq
  have hmono : (n - R) * m ≤ (n - (R - refusals e'.calls)) * e'.maxSendChunk := by
    rw [hm']
    exact Nat.mul_le_mul_right m (by omega)
  obtain ⟨hz, hv, hlog⟩ := drained_of_flushes hR hready' hin' (hq.trans hmono)
  exact ⟨hz, (accepted_of_drained hv hz).trans hlog⟩

/-- A callback that refuses at most `R` bytes in all holds up a caller that
resumes where it was stopped for at most `R` calls, and then as many flushes. -/
theorem resuming_caller_finishes {R cap m : Nat} (hcap : 2 ≤ cap) (hm : 1 ≤ m)
    (hne : ∀ calls b, outputFn calls b ≠ .error)
    (hR : ∀ calls, Answered outputFn calls → refusals calls ≤ R) (packets : List (List UInt8)) :
    (∃ made e', SendsAll outputFn (new cap m) packets made e') ∧
    ∀ made e', SendsAll outputFn (new cap m) packets made e' →
      made.length = packets.length + refusals e'.calls ∧ made.length ≤ packets.length + R ∧
      ∀ n, queued e' ≤ (n - R) * m →
        queued (flushes outputFn n e') = 0 ∧
          accepted .ok (flushes outputFn n e').calls = log e' := by
  have hin : InOrder outputFn (new cap m) := inOrder_of_reachable (.new cap m)
  refine ⟨exists_sendsAll hne hR (ready_new hcap hm) hin packets, ?_⟩
  intro made e' hs
  obtain ⟨_, hlen, hle, hflush⟩ := drained_of_sendsAll hcap hm hR hs
  exact ⟨hlen, by omega, hflush⟩

theorem answered_of_append {xs ys : List (UInt8 × WriteStatus)}
    (h : Answered outputFn (xs ++ ys)) : Answered outputFn xs := by
  intro pre b st post hxs
  refine h pre b st (post ++ ys) ?_
  rw [hxs, List.append_assoc]
  rfl

theorem refusals_refusing {k : Nat} {calls : List (UInt8 × WriteStatus)}
    (h : Answered (refusing k) calls) : refusals calls ≤ if calls.length ≤ k then 0 else 1 := by
  induction calls using List.reverseRecOn with
  | nil => exact Nat.zero_le _
  | append_singleton calls x ih =>
    obtain ⟨b, st⟩ := x
    have hst := h calls b st [] rfl
    have hold := ih (answered_of_append h)
    rw [refusals_append, List.length_append, List.length_singleton]
    by_cases hk : calls.length = k
    · have hone : refusals [(b, st)] ≤ 1 := List.countP_le_length
      split_ifs at hold ⊢ <;> omega
    · rw [refusing, if_neg hk] at hst
      have hnone : refusals [(b, st)] = 0 := by simp [refusals, hst]
      split_ifs at hold ⊢ <;> omega

theorem refusals_refusing_le (k : Nat) :
    ∀ calls, Answered (refusing k) calls → refusals calls ≤ 1 := by
  intro calls h
  refine (refusals_refusing h).trans ?_
  split_ifs <;> omega

theorem refusing_ne_error (k : Nat) : ∀ calls b, refusing k calls b ≠ .error := by
  intro calls b
  simp only [refusing]
  split_ifs <;> simp

theorem resuming_caller_finishes_once :
    ∃ made e' n, SendsAll (refusing 1) (new 2 1) [[END, 0x01], []] made e' ∧ made.length ≤ 3 ∧
      accepted .ok (flushes (refusing 1) n e').calls = log e' := by
  obtain ⟨⟨made, e', hs⟩, hall⟩ := resuming_caller_finishes (Nat.le_refl 2) (Nat.le_refl 1)
    (refusing_ne_error 1) (refusals_refusing_le 1) [[END, 0x01], []]
  obtain ⟨_, hle, hflush⟩ := hall made e' hs
  obtain ⟨_, hacc⟩ := hflush (queued e' + 1) (Nat.mul_one _).ge
  exact ⟨made, e', queued e' + 1, hs, hle, hacc⟩

/-- A callback that takes every second byte it is offered. -/
def alternating : OutputFn := fun calls _ => if calls.length % 2 = 0 then .ok else .retryLater

theorem taken_alternating {calls : List (UInt8 × WriteStatus)} (h : calls.length % 2 = 0)
    (q : List UInt8) : taken alternating .ok calls q ≤ 1 := by
  cases q with
  | nil => exact Nat.zero_le 1
  | cons x q =>
    cases q with
    | nil =>
      simp only [taken]
      split_ifs <;> omega
    | cons y q =>
      have hodd : ¬ (calls.length + 1) % 2 = 0 := by omega
      simp [taken, alternating, h, hodd]

/-- A call with something to send makes at least two offers. -/
theorem two_le_offers (h : Ready e) {data : List UInt8} (hwork : 0 < queued e ∨ data ≠ []) :
    2 ≤ offered e data + min e.maxSendChunk (pending e data + 1) := by
  have hm := h.chunk_ge
  have hone : 1 ≤ offered e data := by
    cases data with
    | nil =>
      have hpos := hwork.resolve_right (not_not.mpr rfl)
      have hz : pending e [] = queued e - e.maxSendChunk := rfl
      simp only [offered, hz]
      omega
    | cons c cs =>
      have hw := (length_stuffOne c).1
      have hpend : pending e (c :: cs) ≤ waiting (capacity e) e.maxSendChunk
          (queued e - e.maxSendChunk) (stuffOne slip c).length + (escape cs).length :=
        backlog_le _ _ _ cs
      simp only [waiting] at hpend
      rw [offered, escape_cons, List.length_append]
      omega
  omega

/-- What a caller that resumes does with one call. -/
def resume (outputFn : OutputFn) (x : Encoder × List UInt8) : Encoder × List UInt8 :=
  ((pushPacket outputFn x.1 x.2).1, x.2.drop (pushPacket outputFn x.1 x.2).2.2)

/-- The state of a caller after `n` calls in each of which the callback took one
byte and refused the next. -/
structure Starved (n : Nat) (x : Encoder × List UInt8) : Prop where
  ready : Ready x.1
  inOrder : InOrder alternating x.1
  calls : x.1.calls.length = 2 * n
  refused : refusals x.1.calls = n
  work : 0 < queued x.1 ∨ x.2 ≠ []

theorem Starved.not_ok {n : Nat} {x : Encoder × List UInt8} (h : Starved n x) :
    (pushPacket alternating x.1 x.2).2.1 ≠ .ok := by
  intro hok
  obtain hearly | hlate :=
    Nat.lt_or_ge (taken alternating .ok x.1.calls (queue x.1 ++ packet x.2)) (offered x.1 x.2)
  · exact (pushPacket_early h.ready x.2 hearly).2.2 hok
  · have hend := (pushPacket_late h.ready x.2 hlate).2.2.2.mp hok
    have heven : x.1.calls.length % 2 = 0 := by
      rw [h.calls]
      exact Nat.mul_mod_right 2 n
    have hone := taken_alternating heven (queue x.1 ++ packet x.2)
    have htwo := two_le_offers h.ready h.work
    simp only [EndRefused] at hend
    omega

/-- The byte refused last is still there. -/
theorem queued_of_refused (h : InOrder outputFn e) {pre : List (UInt8 × WriteStatus)} {b : UInt8}
    (hv : Valid e) (hst : st ≠ .ok) (hcalls : e.calls = pre ++ [(b, st)]) : 0 < queued e := by
  obtain ⟨_, q, hpre⟩ := h pre b st [] hcalls
  have hacc : accepted .ok e.calls = accepted .ok pre := by
    rw [hcalls]
    simp [accepted, hst]
  rw [log, hacc, List.append_assoc] at hpre
  have hlen : (queue e).length = queued e := length_queue (shows_view hv)
  rw [← hlen, ← List.append_cancel_left hpre]
  exact Nat.succ_pos _

theorem Starved.next {n : Nat} {x : Encoder × List UInt8} (h : Starved n x) :
    (pushPacket alternating x.1 x.2).2.1 = .retryLater ∧
      Starved (n + 1) (resume alternating x) := by
  have hv := h.ready.valid
  have hin := inOrder_pushPacket hv h.inOrder x.2
  have hcount := refusals_pushPacket alternating h.ready x.2
  have hno := h.not_ok
  obtain ⟨xs, last, hcalls, _, hend⟩ := asks_of_turn (turn_pushPacket alternating hv x.2)
  rw [if_neg hno] at hcount
  generalize hst : (pushPacket alternating x.1 x.2).2.1 = st at hend hno
  have hans := answered_of_inOrder hin
  cases hend with
  | taken => exact absurd rfl hno
  | noRoom hc => exact absurd hc (not_cramped h.ready)
  | refused b _ =>
    have hb := hans _ b st [] hcalls
    have hlen := h.calls
    have hodd : (2 * n + xs.length) % 2 ≠ 0 := by
      intro heven
      rw [alternating, List.length_append, List.length_map, hlen, if_pos heven] at hb
      exact hno hb
    rw [alternating, List.length_append, List.length_map, hlen, if_neg hodd] at hb
    -- two bytes in a row are never taken
    have hshort : xs.length ≤ 1 := by
      cases xs with
      | nil => exact Nat.zero_le 1
      | cons y xs =>
        cases xs with
        | nil => exact Nat.le_refl 1
        | cons z ys =>
          have hz := hans (x.1.calls ++ [(y, .ok)]) z .ok (ys.map (fun x => (x, .ok)) ++ [(b, st)])
            (by rw [hcalls]; simp)
          have hodd' : ¬ (2 * n + 1) % 2 = 0 := by omega
          rw [alternating, List.length_append, List.length_singleton, hlen, if_neg hodd'] at hz
          exact WriteStatus.noConfusion hz
    refine ⟨hb, ready_pushPacket alternating h.ready x.2, hin, ?_, ?_, ?_⟩
    · have htotal := congrArg List.length hcalls
      simp only [List.length_append, List.length_map, List.length_singleton] at htotal
      simp only [resume]
      omega
    · simp only [resume]
      rw [hcount, h.refused]
    · exact Or.inl (queued_of_refused hin (valid_pushPacket alternating hv x.2) hno hcalls)

/-- A callback that takes every second byte keeps a caller that resumes from
ever being done, although each call gets one byte through. -/
theorem alternating_starves {cap m : Nat} (hcap : 2 ≤ cap) (hm : 1 ≤ m) {p : List UInt8}
    (hp : p ≠ []) (n : Nat) :
    (pushPacket alternating ((resume alternating)^[n] (new cap m, p)).1
        ((resume alternating)^[n] (new cap m, p)).2).2.1 = .retryLater ∧
      (accepted .ok ((resume alternating)^[n] (new cap m, p)).1.calls).length = n := by
  have hrun : Starved n ((resume alternating)^[n] (new cap m, p)) := by
    induction n with
    | zero =>
      exact ⟨ready_new hcap hm, inOrder_of_reachable (.new cap m), rfl, rfl, Or.inr hp⟩
    | succ n ih =>
      rw [Function.iterate_succ_apply']
      exact ih.next.2
  refine ⟨hrun.next.1, ?_⟩
  have hsplit := length_accepted_add_refusals ((resume alternating)^[n] (new cap m, p)).1.calls
  rw [hrun.calls, hrun.refused] at hsplit
  omega

theorem alternating_starves_one :
    (pushPacket alternating ((resume alternating)^[1000] (new 16 64, [0x01])).1
      ((resume alternating)^[1000] (new 16 64, [0x01])).2).2.1 = .retryLater :=
  (alternating_starves (by decide) (by decide) (List.cons_ne_nil _ _) 1000).1

end SlipStream.EncoderProgress
