import SlipStream.EncoderTurns

namespace SlipStream.EncoderHistory

open Channel hiding log
open Format StreamEncoder EncoderQueue EncoderSteps EncoderReachable EncoderEx EncoderTurns Traces

/-- One public call of an encoder. A chunked push comes back after any number of
rounds, with chunk size 0 as with any other. -/
inductive Call (outputFn : OutputFn) (e : Encoder) : Encoder → Prop
  | setMaxSendChunk (n : Nat) : Call outputFn e (setMaxSendChunk e n)
  | flush : Call outputFn e (flush outputFn e).1
  | flushEx : Call outputFn e (flushEx outputFn e).1
  | pushPacket (data : List UInt8) : Call outputFn e (pushPacket outputFn e data).1
  | pushPacketEx (data : List UInt8) : Call outputFn e (pushPacketEx outputFn e data).1
  | pushPacketChunk {data : List UInt8} {chunkSize fuel : Nat} {r : Encoder × WriteStatus × Nat}
      (hr : pushPacketChunkLoop outputFn chunkSize fuel e data 0 = some r) : Call outputFn e r.1
  | pushPacketChunkEx {data : List UInt8} {chunkSize fuel : Nat} {r : Encoder × PushPacketResult}
      (hr : pushPacketChunkExLoop outputFn chunkSize fuel e data 0 = some r) : Call outputFn e r.1

section Tick

variable {outputFn : OutputFn} {e e' : Encoder} {a : Act}

theorem queue_eq_front (h : Valid e) (hpos : 0 < e.txSize) :
    ∃ q, queue e = front e :: q := by
  have hlen : (queue e).length = e.txSize := length_queue (shows_view h)
  cases hq : queue e with
  | nil =>
    rw [hq, List.length_nil] at hlen
    omega
  | cons b q =>
    have hb : front e = b := (shows_dequeueByte (shows_view h) hq e.calls).2
    exact ⟨q, by rw [hb]⟩

def entered : Act → List UInt8
  | .queue b => [b]
  | _ => []

theorem log_tick (h : Valid e) (ht : Tick outputFn e a e') :
    Valid e' ∧ log e' = log e ++ entered a := by
  cases ht with
  | queue b hroom =>
    have hlen : (view e).link.queue.length < capacity e := by
      rw [length_queue (shows_view h)]
      exact hroom
    obtain ⟨hs, _⟩ := shows_queueByte (shows_view h) b hlen
    refine ⟨hs.1, ?_⟩
    rw [log_of_shows hs, log_push]
    rfl
  | sent hpos hst =>
    obtain ⟨q, hq⟩ := queue_eq_front h hpos
    obtain ⟨hs, _⟩ := shows_dequeueByte (shows_view h) hq (e.calls ++ [(front e, .ok)])
    have hout : (output outputFn e (front e)).1 =
        {e with calls := e.calls ++ [(front e, .ok)]} := by rw [output, hst]
    rw [hout]
    refine ⟨hs.1, ?_⟩
    rw [log_of_shows hs, log, hq]
    simp [Channel.log, accepted, entered]
  | refused hpos hst =>
    obtain ⟨hs, _⟩ := shows_output outputFn (shows_view h) (front e)
    refine ⟨hs.1, ?_⟩
    rw [log_of_shows hs]
    simp [Channel.log, accepted, hst, log, view, entered]
  | pend b => exact ⟨(shows_endPending (shows_view h) b).1, (List.append_nil _).symm⟩

theorem offer_tick {b : UInt8} {st : WriteStatus} (h : Valid e)
    (ht : Tick outputFn e (.offer b st) e') :
    st = outputFn e.calls b ∧ accepted .ok e.calls ++ [b] <+: log e := by
  cases ht with
  | sent hpos hst =>
    obtain ⟨q, hq⟩ := queue_eq_front h hpos
    exact ⟨hst.symm, q, by rw [log, hq, List.append_assoc]; rfl⟩
  | refused hpos hst =>
    obtain ⟨q, hq⟩ := queue_eq_front h hpos
    exact ⟨rfl, q, by rw [log, hq, List.append_assoc]; rfl⟩

end Tick

/-- Each call of the callback offers the byte behind those accepted before it,
and gets the answer the callback gives after that history. -/
def InOrder (outputFn : OutputFn) (e : Encoder) : Prop :=
  ∀ pre b st post, e.calls = pre ++ (b, st) :: post →
    st = outputFn pre b ∧ accepted .ok pre ++ [b] <+: log e

theorem inOrder_tick {outputFn : OutputFn} {e e' : Encoder} {a : Act} (h : Valid e)
    (ht : Tick outputFn e a e') (hin : InOrder outputFn e) : InOrder outputFn e' := by
  have hlog : log e <+: log e' := ⟨entered a, (log_tick h ht).2.symm⟩
  have hcalls := calls_tick ht
  intro pre b st post hsplit
  rw [hsplit] at hcalls
  have hold (hno : offers [a] = []) : st = outputFn pre b ∧ accepted .ok pre ++ [b] <+: log e' := by
    rw [hno, List.append_nil] at hcalls
    obtain ⟨hst, hpre⟩ := hin pre b st post hcalls.symm
    exact ⟨hst, hpre.trans hlog⟩
  cases a with
  | queue c => exact hold rfl
  | pend c => exact hold rfl
  | offer c st' =>
    -- the new call is the last one; every other one was there before
    obtain rfl | ⟨post', x, rfl⟩ := List.eq_nil_or_concat post
    · obtain ⟨rfl, hlast⟩ := List.append_inj' hcalls rfl
      obtain ⟨rfl, rfl⟩ := Prod.mk.inj (List.head_eq_of_cons_eq hlast)
      obtain ⟨hst, hpre⟩ := offer_tick h ht
      exact ⟨hst, hpre.trans hlog⟩
    · rw [List.concat_eq_append, ← List.cons_append, ← List.append_assoc] at hcalls
      obtain ⟨hcalls, _⟩ := List.append_inj' hcalls rfl
      obtain ⟨hst, hpre⟩ := hin pre b st post' hcalls.symm
      exact ⟨hst, hpre.trans hlog⟩

section Calls

variable {outputFn : OutputFn} {I : Encoder → Prop} {e : Encoder}
  (hpush : ∀ e data, Valid e → I e → I (pushPacket outputFn e data).1)
include hpush

theorem keeps_pushPacketChunkLoop (h : Valid e) (hi : I e) {chunkSize fuel k : Nat}
    {data : List UInt8} {r : Encoder × WriteStatus × Nat}
    (hr : pushPacketChunkLoop outputFn chunkSize fuel e data k = some r) : I r.1 := by
  induction fuel generalizing e data k with
  | zero => cases hr
  | succ fuel ih =>
    simp only [pushPacketChunkLoop] at hr
    split_ifs at hr
    · cases hr
      exact hi
    · cases hr
      exact hpush e _ h hi
    · exact ih (valid_pushPacket outputFn h _) (hpush e _ h hi) hr

theorem keeps_pushPacketChunkExLoop (h : Valid e) (hi : I e) {chunkSize fuel k : Nat}
    {data : List UInt8} {r : Encoder × PushPacketResult}
    (hr : pushPacketChunkExLoop outputFn chunkSize fuel e data k = some r) : I r.1 := by
  induction fuel generalizing e data k with
  | zero => cases hr
  | succ fuel ih =>
    have hcall (xs : List UInt8) :
        Valid (pushPacketEx outputFn e xs).1 ∧ I (pushPacketEx outputFn e xs).1 := by
      rw [pushPacketEx_fst]
      exact ⟨valid_pushPacket outputFn h xs, hpush e xs h hi⟩
    simp only [pushPacketChunkExLoop] at hr
    split_ifs at hr
    · cases hr
      exact hi
    · cases hr
      exact (hcall _).2
    · cases hr
      exact (hcall _).2
    · exact ih (hcall _).1 (hcall _).2 hr

variable (hset : ∀ e n, I e → I (setMaxSendChunk e n))
  (hflush : ∀ e, Valid e → I e → I (flush outputFn e).1)
include hset hflush

/-- What `flush`, `pushPacket` and a change of pace keep, every public operation
keeps. -/
theorem keeps_call {e' : Encoder} (hc : Call outputFn e e') (h : Valid e) (hi : I e) : I e' := by
  cases hc with
  | setMaxSendChunk n => exact hset e n hi
  | flush => exact hflush e h hi
  | flushEx =>
    rw [flushEx, (flushExLoop_eq outputFn e e.maxSendChunk 0).1]
    exact hflush e h hi
  | pushPacket data => exact hpush e data h hi
  | pushPacketEx data =>
    rw [pushPacketEx_fst]
    exact hpush e data h hi
  | pushPacketChunk hr => exact keeps_pushPacketChunkLoop hpush h hi hr
  | pushPacketChunkEx hr => exact keeps_pushPacketChunkExLoop hpush h hi hr

theorem reachable_invariant (hnew : ∀ n m, I (new n m)) (h : Reachable outputFn e) : I e := by
  have hcall {e e' : Encoder} (hr : Reachable outputFn e) (hi : I e) (hc : Call outputFn e e') :
      I e' := keeps_call hpush hset hflush hc (valid_of_reachable hr) hi
  induction h with
  | new n m => exact hnew n m
  | setMaxSendChunk n hr ih => exact hcall hr ih (.setMaxSendChunk n)
  | flush hr ih => exact hcall hr ih .flush
  | flushEx hr ih => exact hcall hr ih .flushEx
  | pushPacket data hr ih => exact hcall hr ih (.pushPacket data)
  | pushPacketEx data hr ih => exact hcall hr ih (.pushPacketEx data)
  | pushPacketChunk hr hres ih => exact hcall hr ih (.pushPacketChunk hres)
  | pushPacketChunkEx hr hres ih => exact hcall hr ih (.pushPacketChunkEx hres)

end Calls

/-- A chunked push that comes back late is a run of pushes like any other. -/
theorem reachable_of_call {outputFn : OutputFn} {e e' : Encoder} (h : Reachable outputFn e)
    (hc : Call outputFn e e') : Reachable outputFn e' :=
  keeps_call (fun _ data _ hr => hr.pushPacket data) (fun _ n hr => hr.setMaxSendChunk n)
    (fun _ _ hr => hr.flush) hc (valid_of_reachable h) h

section Ticks

variable {outputFn : OutputFn} {I : Encoder → Prop} {e : Encoder}
  (htick : ∀ e a e', Valid e → Tick outputFn e a e' → I e → I e')
include htick

theorem keeps_trace {e' : Encoder} {acts : List Act} (ht : Trace (Tick outputFn) e acts e')
    (h : Valid e) (hi : I e) : I e' := by
  have hboth : Valid e' ∧ I e' := by
    refine Trace.invariant (I := fun e => Valid e ∧ I e) ?_ ht ⟨h, hi⟩
    rintro s a t hone ⟨hv, hs⟩
    exact ⟨(log_tick hv hone).1, htick s a t hv hone hs⟩
  exact hboth.2

theorem keeps_flush (h : Valid e) (hi : I e) : I (flush outputFn e).1 := by
  obtain ⟨acts, _, _, ht, _⟩ := turn_flush outputFn e
  exact keeps_trace htick ht h hi

theorem keeps_pushPacket (h : Valid e) (hi : I e) (data : List UInt8) :
    I (pushPacket outputFn e data).1 := by
  obtain ⟨acts, _, _, ht, _⟩ := turn_pushPacket outputFn h data
  exact keeps_trace htick ht h hi

end Ticks

section InOrder

variable {outputFn : OutputFn} {e : Encoder}

theorem inOrder_flush (h : Valid e) (hin : InOrder outputFn e) :
    InOrder outputFn (flush outputFn e).1 := keeps_flush (fun _ _ _ => inOrder_tick) h hin

theorem inOrder_pushPacket (h : Valid e) (hin : InOrder outputFn e) (data : List UInt8) :
    InOrder outputFn (pushPacket outputFn e data).1 :=
  keeps_pushPacket (fun _ _ _ => inOrder_tick) h hin data

theorem inOrder_of_reachable (h : Reachable outputFn e) : InOrder outputFn e := by
  refine reachable_invariant (fun e data hv hi => inOrder_pushPacket hv hi data)
    (fun e n hi => hi) (fun e hv hi => inOrder_flush hv hi) ?_ h
  intro n m pre b st post hcalls
  exact absurd hcalls (by simp [new])

end InOrder

abbrev Push := List UInt8 × WriteStatus × Nat

/-- The pushes of the chunks, up to the first that fails. -/
def chunkPushes (push : Encoder → List UInt8 → Encoder × WriteStatus × Nat) (chunkSize : Nat) :
    Nat → Encoder → List UInt8 → List Push
  | 0, _, _ => []
  | fuel + 1, e, data =>
    if data = [] then []
    else
      let r := push e (data.take (min chunkSize data.length))
      (data.take (min chunkSize data.length), r.2) ::
        if r.2.1 ≠ .ok then [] else chunkPushes push chunkSize fuel r.1 (data.drop r.2.2)

def reported (r : Encoder × PushPacketResult) : Encoder × WriteStatus × Nat :=
  (r.1, r.2.status, r.2.consumed)

/-- An encoder after a run of public calls, with the pushes among them. -/
inductive Run (outputFn : OutputFn) : List Push → Encoder → Prop
  | new (txBufferSize maxSendChunk : Nat) : Run outputFn [] (new txBufferSize maxSendChunk)
  | setMaxSendChunk {ps e} (n : Nat) (h : Run outputFn ps e) :
      Run outputFn ps (setMaxSendChunk e n)
  | flush {ps e} (h : Run outputFn ps e) : Run outputFn ps (flush outputFn e).1
  | flushEx {ps e} (h : Run outputFn ps e) : Run outputFn ps (flushEx outputFn e).1
  | pushPacket {ps e} (data : List UInt8) (h : Run outputFn ps e) :
      Run outputFn (ps ++ [(data, (pushPacket outputFn e data).2)]) (pushPacket outputFn e data).1
  | pushPacketEx {ps e} (data : List UInt8) (h : Run outputFn ps e) :
      Run outputFn (ps ++ [(data, (reported (pushPacketEx outputFn e data)).2)])
        (pushPacketEx outputFn e data).1
  | pushPacketChunk {ps e} {data : List UInt8} {chunkSize fuel : Nat}
      {r : Encoder × WriteStatus × Nat} (h : Run outputFn ps e)
      (hr : pushPacketChunkLoop outputFn chunkSize fuel e data 0 = some r) :
      Run outputFn (ps ++ chunkPushes (StreamEncoder.pushPacket outputFn) chunkSize fuel e data) r.1
  | pushPacketChunkEx {ps e} {data : List UInt8} {chunkSize fuel : Nat}
      {r : Encoder × PushPacketResult} (h : Run outputFn ps e)
      (hr : pushPacketChunkExLoop outputFn chunkSize fuel e data 0 = some r) :
      Run outputFn (ps ++ chunkPushes
        (fun e data => reported (StreamEncoder.pushPacketEx outputFn e data)) chunkSize fuel e data) r.1

/-- The bytes that pushes put in, as they tell: the escaped form of what each of them took
and, behind a packet that was taken whole, its `END`. A push that failed may have left the
`END` out. -/
inductive Puts : List Push → List UInt8 → Prop
  | nil : Puts [] []
  | whole {ps xs} (h : Puts ps xs) (data : List UInt8) (st : WriteStatus) :
      Puts (ps ++ [(data, st, data.length)]) (xs ++ packet data)
  | part {ps xs} (h : Puts ps xs) (data : List UInt8) {st : WriteStatus} (hst : st ≠ .ok) {c : Nat}
      (hc : c ≤ data.length) : Puts (ps ++ [(data, st, c)]) (xs ++ escape (data.take c))

section Puts

variable {outputFn : OutputFn} {e : Encoder} {ps : List Push}

theorem stream_flush (h : Valid e) : stream (flush outputFn e).1 = stream e := by
  obtain ⟨l, hs, hl⟩ := adds_flush outputFn (shows_view h)
  rw [stream_of_shows hs, hl, List.append_nil]
  rfl

variable (outputFn) in
theorem puts_pushPacket (h : Valid e) (hp : Puts ps (stream e)) (data : List UInt8) :
    Puts (ps ++ [(data, (pushPacket outputFn e data).2)]) (stream (pushPacket outputFn e data).1) := by
  obtain ⟨l, b, t, hs, hc, ht, hlog, hend, hok⟩ := adds_pushPacket outputFn (shows_view h) data
  have hstream : stream (pushPacket outputFn e data).1 =
      stream e ++ escape (data.take (pushPacket outputFn e data).2.2) ++ t := by
    rw [stream_of_shows hs, stream_of_shows (shows_view h)]
    exact hlog
  rw [hstream]
  obtain rfl | rfl := ht
  · rw [List.append_nil]
    exact hp.part data (fun hst => List.cons_ne_nil _ _ (hok hst).2.1.symm) hc
  · have hall := hend rfl
    have hpush : (pushPacket outputFn e data).2 =
        ((pushPacket outputFn e data).2.1, data.length) := Prod.ext rfl hall
    rw [hall, List.take_length, List.append_assoc, hpush]
    exact hp.whole data _

theorem reported_pushPacketEx (h : Valid e) (data : List UInt8) :
    reported (pushPacketEx outputFn e data) = pushPacket outputFn e data := by
  obtain ⟨he, hst, hcount⟩ := pushPacketEx_eq outputFn h data
  exact Prod.ext he (Prod.ext hst hcount)

theorem puts_pushPacketChunkLoop (h : Valid e) (hp : Puts ps (stream e)) {chunkSize fuel k : Nat}
    {data : List UInt8} {r : Encoder × WriteStatus × Nat}
    (hr : pushPacketChunkLoop outputFn chunkSize fuel e data k = some r) :
    Puts (ps ++ chunkPushes (pushPacket outputFn) chunkSize fuel e data) (stream r.1) := by
  induction fuel generalizing e ps data k with
  | zero => cases hr
  | succ fuel ih =>
    have hone := puts_pushPacket outputFn h hp (data.take (min chunkSize data.length))
    have hv := valid_pushPacket outputFn h (data.take (min chunkSize data.length))
    simp only [pushPacketChunkLoop] at hr
    simp only [chunkPushes]
    split_ifs at hr ⊢
    · cases hr
      rw [List.append_nil]
      exact hp
    · cases hr
      exact hone
    · have hrest := ih hv hone hr
      rw [List.append_assoc] at hrest
      exact hrest

theorem puts_pushPacketChunkExLoop (h : Valid e) (hp : Puts ps (stream e)) {chunkSize fuel k : Nat}
    {data : List UInt8} {r : Encoder × PushPacketResult}
    (hr : pushPacketChunkExLoop outputFn chunkSize fuel e data k = some r) :
    Puts (ps ++ chunkPushes (fun e data => reported (pushPacketEx outputFn e data)) chunkSize fuel
      e data) (stream r.1) := by
  induction fuel generalizing e ps data k with
  | zero => cases hr
  | succ fuel ih =>
    have hone := puts_pushPacket outputFn h hp (data.take (min chunkSize data.length))
    have hv := valid_pushPacket outputFn h (data.take (min chunkSize data.length))
    obtain ⟨he, hst, hcount⟩ :=
      pushPacketEx_eq outputFn h (data.take (min chunkSize data.length))
    simp only [pushPacketChunkExLoop, PushPacketResult.isRetry, PushPacketResult.isError, he, hst,
      hcount, decide_eq_true_eq] at hr
    simp only [chunkPushes, reported_pushPacketEx h]
    by_cases hd : data = []
    · rw [if_pos hd] at hr ⊢
      cases hr
      rw [List.append_nil]
      exact hp
    · rw [if_neg hd] at hr ⊢
      cases hres : (pushPacket outputFn e (data.take (min chunkSize data.length))).2.1 with
      | ok =>
        simp only [hres, reduceCtorEq, ↓reduceIte, ne_eq, not_true] at hr ⊢
        have hrest := ih hv hone hr
        rw [List.append_assoc] at hrest
        exact hrest
      | retryLater =>
        simp only [hres, ↓reduceIte, ne_eq, reduceCtorEq, not_false_eq_true] at hr ⊢
        cases hr
        exact hone
      | error =>
        simp only [hres, ↓reduceIte, ne_eq, reduceCtorEq, not_false_eq_true] at hr ⊢
        cases hr
        exact hone

theorem puts_of_run (h : Run outputFn ps e) : Reachable outputFn e ∧ Puts ps (stream e) := by
  induction h with
  | new n m => exact ⟨.new n m, .nil⟩
  | setMaxSendChunk n _ ih => exact ⟨ih.1.setMaxSendChunk n, ih.2⟩
  | @flush ps e _ ih =>
    refine ⟨ih.1.flush, ?_⟩
    rw [stream_flush (valid_of_reachable ih.1)]
    exact ih.2
  | @flushEx ps e _ ih =>
    refine ⟨ih.1.flushEx, ?_⟩
    rw [StreamEncoder.flushEx, (flushExLoop_eq outputFn e e.maxSendChunk 0).1]
    rw [← StreamEncoder.flush, stream_flush (valid_of_reachable ih.1)]
    exact ih.2
  | pushPacket data _ ih =>
    exact ⟨ih.1.pushPacket data, puts_pushPacket outputFn (valid_of_reachable ih.1) ih.2 data⟩
  | @pushPacketEx ps e data _ ih =>
    have hv := valid_of_reachable ih.1
    refine ⟨ih.1.pushPacketEx data, ?_⟩
    rw [reported_pushPacketEx hv, pushPacketEx_fst]
    exact puts_pushPacket outputFn hv ih.2 data
  | pushPacketChunk _ hr ih =>
    exact ⟨reachable_of_call ih.1 (.pushPacketChunk hr),
      puts_pushPacketChunkLoop (valid_of_reachable ih.1) ih.2 hr⟩
  | pushPacketChunkEx _ hr ih =>
    exact ⟨reachable_of_call ih.1 (.pushPacketChunkEx hr),
      puts_pushPacketChunkExLoop (valid_of_reachable ih.1) ih.2 hr⟩

end Puts

theorem InOrder.again {outputFn : OutputFn} {e : Encoder} (hin : InOrder outputFn e)
    {pre post : List (UInt8 × WriteStatus)} {b : UInt8} {st : WriteStatus}
    (hcalls : e.calls = pre ++ (b, st) :: post) (hne : st ≠ .ok) : ∀ x ∈ post.head?, x.1 = b := by
  obtain ⟨_, hpre⟩ := hin pre b st post hcalls
  intro x hx
  cases post with
  | nil => cases hx
  | cons y post =>
    obtain rfl : y = x := Option.some.inj hx
    obtain ⟨c, st'⟩ := y
    have hsplit : e.calls = (pre ++ [(b, st)]) ++ (c, st') :: post := by
      rw [hcalls, List.append_assoc]
      rfl
    obtain ⟨_, hnext⟩ := hin _ c st' post hsplit
    -- a refused byte does not count as accepted, so both stand at the same place
    have hsame : accepted .ok (pre ++ [(b, st)]) = accepted .ok pre := by simp [accepted, hne]
    rw [hsame] at hnext
    have heq : accepted .ok pre ++ [c] = accepted .ok pre ++ [b] := by
      have hlen : (accepted .ok pre ++ [c]).length = (accepted .ok pre ++ [b]).length := by
        rw [List.length_append, List.length_append]
        rfl
      exact (List.prefix_of_prefix_length_le hnext hpre hlen.le).eq_of_length hlen
    exact List.singleton_inj.mp (List.append_cancel_left heq)

/-- Over a whole run the callback is offered what the pushes put in, byte after byte and
in order, whatever calls are made and whatever it answers. What it has not accepted is
queued or owed, and a byte it has refused is the next one it is offered. -/
theorem offered_in_order {outputFn : OutputFn} {ps : List Push} {e : Encoder}
    (h : Run outputFn ps e) :
    ∃ xs, Puts ps xs ∧ accepted .ok e.calls ++ queue e ++ owed e.endPending = xs ∧
      ∀ pre b st post, e.calls = pre ++ (b, st) :: post →
        st = outputFn pre b ∧ accepted .ok pre ++ [b] <+: xs ∧
          (st ≠ .ok → ∀ x ∈ post.head?, x.1 = b) := by
  obtain ⟨hr, hp⟩ := puts_of_run h
  have hin := inOrder_of_reachable hr
  refine ⟨stream e, hp, rfl, ?_⟩
  intro pre b st post hcalls
  obtain ⟨hst, hpre⟩ := hin pre b st post hcalls
  exact ⟨hst, hpre.trans (List.prefix_append _ _), hin.again hcalls⟩

theorem offered_in_order_again :
    ∃ e xs, Run (refusing 1) [([0x01, END], .retryLater, 2), ([0x02], .ok, 1)] e ∧
      e.calls = [(0x01, .ok), (ESC, .retryLater), (ESC, .ok), (ESCEND, .ok), (0x02, .ok)] ∧
      Puts [([0x01, END], .retryLater, 2), ([0x02], .ok, 1)] xs ∧
      accepted .ok e.calls ++ [END] = xs ∧ [0x01, ESC] <+: xs := by
  have hrun := ((Run.new 3 1).pushPacket [0x01, END] : Run (refusing 1) _ _).pushPacketEx [0x02]
  have hps : [] ++ [([0x01, END], (pushPacket (refusing 1) (new 3 1) [0x01, END]).2)] ++
      [([0x02], (reported (pushPacketEx (refusing 1)
        (pushPacket (refusing 1) (new 3 1) [0x01, END]).1 [0x02])).2)] =
      [([0x01, END], .retryLater, 2), ([0x02], .ok, 1)] := by decide
  rw [hps] at hrun
  have hcalls : (pushPacketEx (refusing 1)
      (pushPacket (refusing 1) (new 3 1) [0x01, END]).1 [0x02]).1.calls =
        [(0x01, .ok)] ++ (ESC, .retryLater) :: [(ESC, .ok), (ESCEND, .ok), (0x02, .ok)] := by decide
  obtain ⟨xs, hputs, hall, horder⟩ := offered_in_order hrun
  obtain ⟨_, hpre, _⟩ := horder _ _ _ _ hcalls
  have hleft : queue (pushPacketEx (refusing 1)
      (pushPacket (refusing 1) (new 3 1) [0x01, END]).1 [0x02]).1 ++
        owed (pushPacketEx (refusing 1)
          (pushPacket (refusing 1) (new 3 1) [0x01, END]).1 [0x02]).1.endPending = [END] := by decide
  rw [List.append_assoc, hleft] at hall
  exact ⟨_, xs, hrun, hcalls, hputs, hall, hpre⟩

end SlipStream.EncoderHistory
