import SlipStream.EncoderEx
import SlipStream.EncoderPacing
import SlipStream.Traces

namespace SlipStream.EncoderTurns

open Channel hiding log
open Format Stuffing StreamEncoder EncoderQueue EncoderSteps EncoderReachable EncoderEx Traces

/-- What an encoder does one at a time: queue a byte, offer the byte at the
front to the output callback, or change its mind about a missing `END`. -/
inductive Act where
  | queue (b : UInt8)
  | offer (b : UInt8) (st : WriteStatus)
  | pend (pending : Bool)

def Act.offered : Act → Option (UInt8 × WriteStatus)
  | .offer b st => some (b, st)
  | _ => none

def front (e : Encoder) : UInt8 := e.txBuf.getD e.txHead 0

inductive Tick (outputFn : OutputFn) : Encoder → Act → Encoder → Prop
  | queue {e : Encoder} (b : UInt8) (hroom : e.txSize < e.txBuf.length) :
      Tick outputFn e (.queue b) (queueByte e b).1
  | sent {e : Encoder} (hpos : 0 < e.txSize) (hst : outputFn e.calls (front e) = .ok) :
      Tick outputFn e (.offer (front e) .ok) (dequeueByte (output outputFn e (front e)).1).1
  | refused {e : Encoder} (hpos : 0 < e.txSize) (hst : outputFn e.calls (front e) ≠ .ok) :
      Tick outputFn e (.offer (front e) (outputFn e.calls (front e)))
        (output outputFn e (front e)).1
  | pend {e : Encoder} (b : Bool) : Tick outputFn e (.pend b) {e with endPending := b}

def offers (acts : List Act) : List (UInt8 × WriteStatus) := acts.filterMap Act.offered

theorem offers_append (as bs : List Act) : offers (as ++ bs) = offers as ++ offers bs :=
  List.filterMap_append

section Ticks

variable {outputFn : OutputFn} {e e' : Encoder} {a : Act} {acts : List Act}

theorem fields_queueByte (e : Encoder) (b : UInt8) :
    capacity (queueByte e b).1 = capacity e ∧
      (queueByte e b).1.maxSendChunk = e.maxSendChunk ∧ (queueByte e b).1.calls = e.calls := by
  simp only [queueByte]
  split_ifs
  · exact ⟨rfl, rfl, rfl⟩
  · exact ⟨List.length_set, rfl, rfl⟩

theorem fields_dequeueByte (e : Encoder) :
    capacity (dequeueByte e).1 = capacity e ∧
      (dequeueByte e).1.maxSendChunk = e.maxSendChunk ∧ (dequeueByte e).1.calls = e.calls := by
  simp only [dequeueByte]
  split_ifs <;> exact ⟨rfl, rfl, rfl⟩

theorem capacity_tick (h : Tick outputFn e a e') : capacity e' = capacity e := by
  cases h with
  | queue b _ => exact (fields_queueByte e b).1
  | sent _ _ => exact (fields_dequeueByte _).1
  | refused _ _ => rfl
  | pend b => rfl

theorem maxSendChunk_tick (h : Tick outputFn e a e') : e'.maxSendChunk = e.maxSendChunk := by
  cases h with
  | queue b _ => exact (fields_queueByte e b).2.1
  | sent _ _ => exact (fields_dequeueByte _).2.1
  | refused _ _ => rfl
  | pend b => rfl

theorem calls_tick (h : Tick outputFn e a e') : e'.calls = e.calls ++ offers [a] := by
  cases h with
  | queue b _ =>
    rw [(fields_queueByte e b).2.2]
    exact (List.append_nil _).symm
  | sent hpos hst =>
    rw [(fields_dequeueByte _).2.2, output, hst]
    rfl
  | refused _ _ => rfl
  | pend b => exact (List.append_nil _).symm

theorem capacity_trace (h : Trace (Tick outputFn) e acts e') : capacity e' = capacity e :=
  Trace.invariant (I := fun e₁ => capacity e₁ = capacity e)
    (fun _ _ _ ht hs => (capacity_tick ht).trans hs) h rfl

theorem maxSendChunk_trace (h : Trace (Tick outputFn) e acts e') :
    e'.maxSendChunk = e.maxSendChunk :=
  Trace.invariant (I := fun e₁ => e₁.maxSendChunk = e.maxSendChunk)
    (fun _ _ _ ht hs => (maxSendChunk_tick ht).trans hs) h rfl

theorem calls_trace (h : Trace (Tick outputFn) e acts e') : e'.calls = e.calls ++ offers acts := by
  induction h with
  | nil e => exact (List.append_nil _).symm
  | @cons _ _ _ a acts ht _ ih =>
    have hcons : offers (a :: acts) = offers [a] ++ offers acts := offers_append [a] acts
    rw [ih, calls_tick ht, hcons, List.append_assoc]

end Ticks

/-- An encoder that may have to give up although nothing was refused: an escape
does not fit in its queue, or it may not flush at all. -/
def Cramped (e : Encoder) : Prop := capacity e < 2 ∨ e.maxSendChunk = 0

/-- What the last calls of the callback have to do with the status that is
returned: it refused nothing, or the last byte and nothing before it. -/
inductive Ends (cramped : Prop) : List (UInt8 × WriteStatus) → WriteStatus → Prop
  | taken : Ends cramped [] .ok
  | noRoom (h : cramped) : Ends cramped [] .retryLater
  | refused (b : UInt8) {st : WriteStatus} (h : st ≠ .ok) : Ends cramped [(b, st)] st

/-- A part of a call: it asks the callback at most `n` times and stops at the
first refusal, with what it was told. -/
def Turn (outputFn : OutputFn) (n : Nat) (e : Encoder) (r : Encoder × WriteStatus) : Prop :=
  ∃ (acts : List Act) (xs : List UInt8) (last : List (UInt8 × WriteStatus)),
    Trace (Tick outputFn) e acts r.1 ∧
    offers acts = xs.map (fun x => (x, .ok)) ++ last ∧ xs.length + last.length ≤ n ∧
    Ends (Cramped e) last r.2

variable {outputFn : OutputFn} {e e₁ : Encoder} {n m : Nat} {r : Encoder × WriteStatus}

theorem turn_of_quiet {acts : List Act} (h : Trace (Tick outputFn) e acts e₁)
    (hq : offers acts = []) : Turn outputFn 0 e (e₁, .ok) :=
  ⟨acts, [], [], h, hq, Nat.le_refl 0, .taken⟩

theorem turn_refl (e : Encoder) : Turn outputFn 0 e (e, .ok) := turn_of_quiet (.nil e) rfl

theorem turn_queueByte (e : Encoder) (b : UInt8) :
    Turn outputFn 0 e ((queueByte e b).1, .ok) := by
  obtain hroom | hfull := Nat.lt_or_ge e.txSize e.txBuf.length
  · exact turn_of_quiet (.single (.queue b hroom)) rfl
  · rw [queueByte, if_pos hfull]
    exact turn_refl e

theorem Turn.mono (h : Turn outputFn n e r) (hn : n ≤ m) : Turn outputFn m e r := by
  obtain ⟨acts, xs, last, ht, ho, hle, hend⟩ := h
  exact ⟨acts, xs, last, ht, ho, hle.trans hn, hend⟩

theorem Turn.cramped_iff {st : WriteStatus} (h : Turn outputFn n e (e₁, st)) :
    Cramped e₁ ↔ Cramped e := by
  obtain ⟨acts, xs, last, ht, _⟩ := h
  rw [Cramped, Cramped, capacity_trace ht, maxSendChunk_trace ht]

theorem Turn.maxSendChunk_eq {st : WriteStatus} (h : Turn outputFn n e (e₁, st)) :
    e₁.maxSendChunk = e.maxSendChunk := by
  obtain ⟨acts, xs, last, ht, _⟩ := h
  exact maxSendChunk_trace ht

/-- A part that succeeded was refused nothing, so the next one goes on from
there. -/
theorem Turn.trans (h : Turn outputFn n e (e₁, .ok)) (h' : Turn outputFn m e₁ r) :
    Turn outputFn (n + m) e r := by
  have hcramped := h.cramped_iff
  obtain ⟨acts, xs, last, ht, ho, hle, hend⟩ := h
  obtain ⟨acts', xs', last', ht', ho', hle', hend'⟩ := h'
  obtain rfl : last = [] := by
    cases hend with
    | taken => rfl
    | refused b hne => exact absurd rfl hne
  refine ⟨acts ++ acts', xs ++ xs', last', ht.append ht', ?_, ?_, ?_⟩
  · rw [offers_append, ho, ho', List.append_nil, List.map_append, List.append_assoc]
  · rw [List.length_append]
    simp only [List.length_nil] at hle
    omega
  · rwa [propext hcramped] at hend'

theorem Turn.pend {st : WriteStatus} (h : Turn outputFn n e (e₁, st)) (b : Bool) :
    Turn outputFn n e ({e₁ with endPending := b}, st) := by
  obtain ⟨acts, xs, last, ht, ho, hle, hend⟩ := h
  refine ⟨acts ++ [.pend b], xs, last, ht.append (.single (.pend b)), ?_, hle, hend⟩
  rw [offers_append, ho]
  exact List.append_nil _

theorem Turn.noRoom (h : Turn outputFn n e (e₁, .ok)) (hc : Cramped e) :
    Turn outputFn n e (e₁, .retryLater) := by
  obtain ⟨acts, xs, last, ht, ho, hle, hend⟩ := h
  cases hend with
  | taken => exact ⟨acts, xs, [], ht, ho, hle, .noRoom hc⟩
  | refused b hne => exact absurd rfl hne

variable (outputFn)

theorem turn_flushLoop (k : Nat) (e : Encoder) : Turn outputFn k e (flushLoop outputFn k e) := by
  induction k generalizing e with
  | zero => exact turn_refl e
  | succ k ih =>
    by_cases hpos : 0 < e.txSize
    · have hfront : e.txBuf.getD e.txHead 0 = front e := rfl
      simp only [flushLoop, hfront, if_pos (show e.txSize > 0 from hpos)]
      have hout : (output outputFn e (front e)).2 = outputFn e.calls (front e) := rfl
      rw [hout]
      cases hst : outputFn e.calls (front e) with
      | ok =>
        have hone : Turn outputFn 1 e ((dequeueByte (output outputFn e (front e)).1).1, .ok) :=
          ⟨[.offer (front e) .ok], [front e], [], .single (.sent hpos hst), rfl, Nat.le_refl 1,
            .taken⟩
        exact (hone.trans (ih _)).mono (Nat.le_of_eq (Nat.add_comm 1 k))
      | retryLater | error =>
        have hne : outputFn e.calls (front e) ≠ .ok := by
          rw [hst]
          exact WriteStatus.noConfusion
        have htick := Tick.refused hpos hne
        rw [hst] at htick
        refine ⟨_, [], _, .single htick, rfl, ?_, .refused _ WriteStatus.noConfusion⟩
        exact Nat.succ_le_succ (Nat.zero_le k)
    · rw [flushLoop, if_neg hpos]
      exact (turn_refl e).mono (Nat.zero_le _)

theorem turn_flush (e : Encoder) : Turn outputFn e.maxSendChunk e (flush outputFn e) :=
  turn_flushLoop outputFn e.maxSendChunk e

variable {outputFn} in
theorem Turn.flush (h : Turn outputFn n e (e₁, .ok)) :
    Turn outputFn (n + e.maxSendChunk) e (StreamEncoder.flush outputFn e₁) := by
  have hflush := turn_flush outputFn e₁
  rw [h.maxSendChunk_eq] at hflush
  exact h.trans hflush

/-- Where a flush frees a byte and one was free before, it frees the two that an
escape takes. -/
theorem cramped_of_full (h : Valid e) (hsl : Slack e) (hn : n ≤ 2)
    (hno : ¬ e.txBuf.length - e.txSize ≥ n) (hok : (flush outputFn e).2 = .ok)
    (hno' : ¬ (flush outputFn e).1.txBuf.length - (flush outputFn e).1.txSize ≥ n) :
    Cramped e := by
  obtain ⟨hs, hst⟩ := shows_flush outputFn (shows_view h)
  rw [hok] at hst
  rw [drain_of_ok outputFn .ok hst.symm] at hs
  have hsize := length_queue hs
  have hlen := length_queue (shows_view h)
  have hcap : (flush outputFn e).1.txBuf.length = e.txBuf.length := congrArg View.capacity hs.2
  have hm : (view e).maxSendChunk = e.maxSendChunk := rfl
  rw [hcap] at hno'
  simp only [advance_length, hm, hlen] at hsize
  simp only [Slack, capacity] at hsl
  simp only [Cramped, capacity]
  omega

theorem turn_ensureFree (h : Valid e) (hsl : Slack e) (hn : n ≤ 2) :
    Turn outputFn e.maxSendChunk e (ensureFree outputFn e n) := by
  by_cases hroom : e.txBuf.length - e.txSize ≥ n
  · rw [ensureFree, if_pos hroom]
    exact (turn_refl e).mono (Nat.zero_le _)
  · have hflush := turn_flush outputFn e
    simp only [ensureFree, if_neg hroom]
    by_cases hok : (flush outputFn e).2 = .ok
    · rw [if_neg (not_not.mpr hok)]
      have hdone : flush outputFn e = ((flush outputFn e).1, .ok) := Prod.ext rfl hok
      rw [hdone] at hflush
      split_ifs with hroom'
      · exact hflush
      · exact hflush.noRoom (cramped_of_full outputFn h hsl hn hroom hok hroom')
    · rw [if_pos hok]
      exact hflush

theorem turn_encodeEscaped (h : Valid e) (mark : UInt8) (hst : (ensureFree outputFn e 2).2 = .ok)
    (hturn : Turn outputFn n e (ensureFree outputFn e 2)) :
    Turn outputFn n e
      ((encodeEscaped outputFn e mark).1, (encodeEscaped outputFn e mark).2.1) := by
  obtain ⟨l, hs, _, hroom⟩ := adds_ensureFree outputFn (shows_view h) 2
  have hfit : l.queue.length + 2 ≤ capacity e := hroom hst
  obtain ⟨hs', hq⟩ := shows_queueByte hs ESC (by simp only [view]; omega)
  obtain ⟨_, hq'⟩ := shows_queueByte hs' mark (by simp [push, view]; omega)
  have he : encodeEscaped outputFn e mark =
      ((queueByte (queueByte (ensureFree outputFn e 2).1 ESC).1 mark).1, .ok, 1) := by
    simp [encodeEscaped, hst, hq, hq']
  have hfree : ensureFree outputFn e 2 = ((ensureFree outputFn e 2).1, .ok) := Prod.ext rfl hst
  rw [hfree] at hturn
  rw [he]
  exact (hturn.trans (turn_queueByte _ ESC)).trans (turn_queueByte _ mark)

theorem turn_encodeOne (h : Valid e) (hsl : Slack e) (c : UInt8) (cs : List UInt8) :
    Turn outputFn e.maxSendChunk e
      ((encodeOne outputFn e (c :: cs)).1, (encodeOne outputFn e (c :: cs)).2.1) := by
  have hw := (EncoderPacing.length_stuffOne c).2
  have hfree := turn_ensureFree outputFn h hsl hw
  by_cases hst : (ensureFree outputFn e (stuffOne slip c).length).2 = .ok
  swap
  · rw [encodeOne_failed outputFn hst]
    exact hfree
  by_cases hs : c = END
  · subst c
    exact turn_encodeEscaped outputFn h ESCEND hst hfree
  · by_cases he : c = ESC
    · subst c
      exact turn_encodeEscaped outputFn h ESCESC hst hfree
    · rw [escapeOne_other hs he, List.length_singleton] at hst hfree
      obtain ⟨l, hl, _, hroom⟩ := adds_ensureFree outputFn (shows_view h) 1
      obtain ⟨_, hq⟩ := shows_queueByte hl c (hroom hst)
      have hone : encodeOne outputFn e (c :: cs) =
          ((queueByte (ensureFree outputFn e 1).1 c).1, .ok, 1) := by
        simp [encodeOne, hs, he, encodePlain, hst, hq]
      have hdone : ensureFree outputFn e 1 = ((ensureFree outputFn e 1).1, .ok) := Prod.ext rfl hst
      rw [hdone] at hfree
      rw [hone]
      exact hfree.trans (turn_queueByte _ c)

theorem turn_pushPending (h : Valid e) (hsl : Slack e) :
    Turn outputFn (2 * e.maxSendChunk) e (pushPending outputFn e) := by
  by_cases hp : e.endPending = true
  · have hfree := turn_ensureFree outputFn h hsl (Nat.le_succ 1)
    simp only [pushPending, if_pos hp]
    by_cases hst : (ensureFree outputFn e 1).2 = .ok
    · have hdone : ensureFree outputFn e 1 = ((ensureFree outputFn e 1).1, .ok) := Prod.ext rfl hst
      rw [hdone] at hfree
      rw [if_neg (not_not.mpr hst)]
      refine ((hfree.trans (turn_queueByte _ END)).pend false).flush.mono ?_
      omega
    · rw [if_pos hst]
      refine hfree.mono ?_
      omega
  · rw [pushPending, if_neg hp]
    exact (turn_refl e).mono (Nat.zero_le _)

/-- Each payload byte asks for room once and is followed by a flush. -/
theorem turn_pushLoop (h : Valid e) (hsl : Slack e) (data : List UInt8) (k : Nat) :
    Turn outputFn (2 * data.length * e.maxSendChunk) e
      ((pushLoop outputFn e data k).1, (pushLoop outputFn e data k).2.1) := by
  induction data generalizing e k with
  | nil => exact (turn_refl e).mono (Nat.zero_le _)
  | cons c cs ih =>
    have hone := turn_encodeOne outputFn h hsl c cs
    have hbound : 2 * (c :: cs).length * e.maxSendChunk =
        e.maxSendChunk + e.maxSendChunk + 2 * cs.length * e.maxSendChunk := by
      rw [List.length_cons, Nat.mul_add, Nat.add_mul]
      omega
    rw [hbound]
    obtain ⟨hst, _, l, hs, _⟩ | ⟨hst, _⟩ := adds_encodeOne outputFn (shows_view h) c cs
    · rw [hst] at hone
      have hround := hone.flush
      by_cases hok : (flush outputFn (encodeOne outputFn e (c :: cs)).1).2 = .ok
      · have hdone : flush outputFn (encodeOne outputFn e (c :: cs)).1 =
            ((flush outputFn (encodeOne outputFn e (c :: cs)).1).1, .ok) := Prod.ext rfl hok
        rw [hdone] at hround
        have hrest := ih (valid_flush outputFn hs.1) (slack_flush outputFn hs.1 hok)
          (k + (encodeOne outputFn e (c :: cs)).2.2)
        rw [hround.maxSendChunk_eq] at hrest
        rw [pushLoop_next k hst hok]
        exact hround.trans hrest
      · rw [pushLoop_refused k hst hok]
        exact hround.mono (Nat.le_add_right _ _)
    · rw [pushLoop_failed k hst]
      exact hone.mono (by omega)

theorem turn_pushEnd (h : Valid e) (hsl : Slack e) :
    Turn outputFn (2 * e.maxSendChunk) e (pushEnd outputFn e) := by
  have hfree := turn_ensureFree outputFn h hsl (Nat.le_succ 1)
  simp only [pushEnd]
  by_cases hst : (ensureFree outputFn e 1).2 = .ok
  · have hdone : ensureFree outputFn e 1 = ((ensureFree outputFn e 1).1, .ok) := Prod.ext rfl hst
    rw [hdone] at hfree
    rw [if_neg (not_not.mpr hst)]
    refine (hfree.trans (turn_queueByte _ END)).flush.mono ?_
    omega
  · rw [if_pos hst]
    split_ifs
    · exact (hfree.pend true).mono (Nat.le_mul_of_pos_left _ Nat.two_pos)
    · exact hfree.mono (Nat.le_mul_of_pos_left _ Nat.two_pos)

theorem turn_pushPacket (h : Valid e) (data : List UInt8) :
    Turn outputFn ((2 * data.length + 5) * e.maxSendChunk) e
      ((pushPacket outputFn e data).1, (pushPacket outputFn e data).2.1) := by
  have hflush := turn_flush outputFn e
  have hv := valid_flush outputFn h
  by_cases hst : (flush outputFn e).2 = .ok
  swap
  · have hp : pushPacket outputFn e data = ((flush outputFn e).1, (flush outputFn e).2, 0) := by
      simp [pushPacket, hst]
    rw [hp]
    exact hflush.mono (Nat.le_mul_of_pos_left _ (by omega))
  have hdone : flush outputFn e = ((flush outputFn e).1, .ok) := Prod.ext rfl hst
  rw [hdone] at hflush
  have hsl := slack_flush outputFn h hst
  have hpend := hflush.trans (turn_pushPending outputFn hv hsl)
  rw [hflush.maxSendChunk_eq] at hpend
  obtain ⟨l, b, hs, _⟩ := adds_pushPending outputFn (shows_view hv)
  by_cases hst' : (pushPending outputFn (flush outputFn e).1).2 = .ok
  swap
  · have hp : pushPacket outputFn e data = ((pushPending outputFn (flush outputFn e).1).1,
        (pushPending outputFn (flush outputFn e).1).2, 0) := by
      simp [pushPacket, hst, hst']
    rw [hp]
    exact hpend.mono (by rw [Nat.add_mul]; omega)
  have hdone' : pushPending outputFn (flush outputFn e).1 =
      ((pushPending outputFn (flush outputFn e).1).1, .ok) := Prod.ext rfl hst'
  rw [hdone'] at hpend
  have hsl' := slack_pushPending outputFn hv hsl hst'
  have hloop := hpend.trans (turn_pushLoop outputFn hs.1 hsl' data 0)
  rw [hpend.maxSendChunk_eq] at hloop
  obtain ⟨c, _, _, ⟨l', hs', _⟩, _⟩ := adds_pushLoop outputFn hs data 0
  by_cases hst'' :
      (pushLoop outputFn (pushPending outputFn (flush outputFn e).1).1 data 0).2.1 = .ok
  swap
  · have hp : pushPacket outputFn e data =
        pushLoop outputFn (pushPending outputFn (flush outputFn e).1).1 data 0 := by
      simp [pushPacket, hst, hst', hst'']
    rw [hp]
    exact hloop.mono (by rw [Nat.add_mul]; omega)
  rw [hst''] at hloop
  have hsl'' := slack_pushLoop outputFn hs.1 hsl' data 0 hst''
  have hall := hloop.trans (turn_pushEnd outputFn hs'.1 hsl'')
  rw [hloop.maxSendChunk_eq] at hall
  have hp : pushPacket outputFn e data =
      ((pushEnd outputFn (pushLoop outputFn
          (pushPending outputFn (flush outputFn e).1).1 data 0).1).1,
        (pushEnd outputFn (pushLoop outputFn
          (pushPending outputFn (flush outputFn e).1).1 data 0).1).2,
        (pushLoop outputFn (pushPending outputFn (flush outputFn e).1).1 data 0).2.2) := by
    simp [pushPacket, hst, hst', hst'']
  rw [hp]
  exact hall.mono (by rw [Nat.add_mul]; omega)

theorem turn_pushPacketChunkLoop (h : Valid e) {chunkSize : Nat} (hc : 1 ≤ chunkSize) {fuel : Nat}
    {data : List UInt8} {k : Nat} {r : Encoder × WriteStatus × Nat}
    (hr : pushPacketChunkLoop outputFn chunkSize fuel e data k = some r) :
    Turn outputFn (7 * data.length * e.maxSendChunk) e (r.1, r.2.1) := by
  induction fuel generalizing e data k with
  | zero => cases hr
  | succ fuel ih =>
    by_cases hd : data = []
    · rw [pushPacketChunkLoop, if_pos hd] at hr
      cases hr
      exact (turn_refl e).mono (Nat.zero_le _)
    · have hlen := List.length_pos_of_ne_nil hd
      have hcall := turn_pushPacket outputFn h (data.take (min chunkSize data.length))
      have hv := valid_pushPacket outputFn h (data.take (min chunkSize data.length))
      have hdone := consumed_of_ok outputFn h (data.take (min chunkSize data.length))
      have htake : (data.take (min chunkSize data.length)).length = min chunkSize data.length :=
        List.length_take_of_le (Nat.min_le_right _ _)
      rw [htake] at hcall hdone
      simp only [pushPacketChunkLoop, if_neg hd] at hr
      split_ifs at hr with hst
      · cases hr
        exact hcall.mono (Nat.mul_le_mul_right _ (by omega))
      · rw [not_not] at hst
        rw [hst] at hcall
        have hrest := ih hv hr
        rw [hcall.maxSendChunk_eq, hdone hst, List.length_drop] at hrest
        refine (hcall.trans hrest).mono ?_
        rw [← Nat.add_mul]
        exact Nat.mul_le_mul_right _ (by omega)

/-- What a call that returns `st` has asked of the callback: at most `n` bytes,
all of them taken but the last one at most. -/
def Asks (n : Nat) (e e' : Encoder) (st : WriteStatus) : Prop :=
  ∃ (xs : List UInt8) (last : List (UInt8 × WriteStatus)),
    e'.calls = e.calls ++ xs.map (fun x => (x, .ok)) ++ last ∧ xs.length + last.length ≤ n ∧
      Ends (Cramped e) last st

variable {outputFn} in
theorem asks_of_turn {e' : Encoder} {st : WriteStatus} (h : Turn outputFn n e (e', st)) :
    Asks n e e' st := by
  obtain ⟨acts, xs, last, ht, ho, hle, hend⟩ := h
  refine ⟨xs, last, ?_, hle, hend⟩
  rw [calls_trace ht, ho, List.append_assoc]

/-- No call goes on after the callback has refused a byte. A call says so: what
it returns is the refusal, and `RetryLater` without one only if the queue is too
short for an escape or flushing is turned off. -/
theorem refusal_ends_call (h : Reachable outputFn e) (data : List UInt8) {chunkSize : Nat}
    (hc : 1 ≤ chunkSize) :
    (Asks e.maxSendChunk e (flush outputFn e).1 (flush outputFn e).2 ∧
      Asks e.maxSendChunk e (flushEx outputFn e).1 (flushEx outputFn e).2.status) ∧
    (Asks ((2 * data.length + 5) * e.maxSendChunk) e (pushPacket outputFn e data).1
        (pushPacket outputFn e data).2.1 ∧
      Asks ((2 * data.length + 5) * e.maxSendChunk) e (pushPacketEx outputFn e data).1
        (pushPacketEx outputFn e data).2.status) ∧
    ∃ r s, pushPacketChunk outputFn e data chunkSize = some r ∧
      pushPacketChunkEx outputFn e data chunkSize = some s ∧
      Asks (7 * data.length * e.maxSendChunk) e r.1 r.2.1 ∧
      Asks (7 * data.length * e.maxSendChunk) e s.1 s.2.status := by
  have hv := valid_of_reachable h
  have hflush := asks_of_turn (turn_flush outputFn e)
  have hpush := asks_of_turn (turn_pushPacket outputFn hv data)
  obtain ⟨hfe, hfs⟩ := flushExLoop_eq outputFn e e.maxSendChunk 0
  obtain ⟨hpe, hps, _⟩ := pushPacketEx_eq outputFn hv data
  obtain ⟨r, s, hr, hs, hse, hss, _⟩ :=
    pushPacketChunkLoop_eq outputFn hv hc data (Nat.lt_succ_self _) 0
  have hchunk := asks_of_turn (turn_pushPacketChunkLoop outputFn hv hc hr)
  refine ⟨⟨hflush, ?_⟩, ⟨hpush, ?_⟩, r, s, hr, hs, hchunk, ?_⟩
  · rw [flushEx, hfe, hfs]
    exact hflush
  · rw [hpe, hps]
    exact hpush
  · rw [hse, hss]
    exact hchunk

theorem refusal_ends_call_escape :
    (pushPacket (refusing 1) (new 2 1) [END]).1.calls = [(ESC, .ok), (ESCEND, .retryLater)] ∧
      Asks 7 (new 2 1) (pushPacket (refusing 1) (new 2 1) [END]).1 .retryLater := by
  have hst : (pushPacket (refusing 1) (new 2 1) [END]).2.1 = .retryLater := by decide
  obtain ⟨_, ⟨hpush, _⟩, _⟩ :=
    refusal_ends_call (refusing 1) (Reachable.new 2 1) [END] (Nat.le_refl 1)
  rw [hst] at hpush
  exact ⟨by decide, hpush⟩

end SlipStream.EncoderTurns
