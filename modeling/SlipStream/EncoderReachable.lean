import SlipStream.EncoderSteps

namespace SlipStream.EncoderReachable

open Format Channel StreamEncoder EncoderQueue EncoderSteps

/-- The bytes the output callback has accepted, then those still queued. -/
def log (e : Encoder) : List UInt8 := accepted .ok e.calls ++ queue e

theorem log_of_shows {e : Encoder} {v : View} (h : Shows e v) : log e = Channel.log .ok v.link := by
  obtain ⟨_, rfl⟩ := h
  rfl

/-- The log, and the `END` that a call before could not queue. -/
def stream (e : Encoder) : List UInt8 := log e ++ owed e.endPending

theorem stream_of_shows {e : Encoder} {v : View} (h : Shows e v) :
    stream e = Channel.log .ok v.link ++ owed v.endPending := by
  have hp : e.endPending = v.endPending := congrArg View.endPending h.2
  rw [stream, log_of_shows h, hp]

section Ex

variable (outputFn : OutputFn)

theorem flushExLoop_eq (e : Encoder) (k sent : Nat) :
    (flushExLoop outputFn k sent e).1 = (flushLoop outputFn k e).1 ∧
      (flushExLoop outputFn k sent e).2.status = (flushLoop outputFn k e).2 := by
  induction k generalizing e sent with
  | zero => exact ⟨rfl, rfl⟩
  | succ k ih =>
    unfold flushExLoop flushLoop
    split_ifs
    · cases hst : (output outputFn e (e.txBuf.getD e.txHead 0)).2 with
      | ok =>
        simp only [hst]
        exact ih _ _
      | retryLater =>
        simp only [hst]
        exact ⟨trivial, rfl⟩
      | error =>
        simp only [hst]
        exact ⟨trivial, rfl⟩
    · exact ⟨rfl, rfl⟩

/-- A step of `pushPacket_ex` that does to the encoder what a step of
`pushPacket` does, and goes on exactly where that one does. -/
def Mirrors (s : StepEx) (r : Encoder × WriteStatus) : Prop :=
  s.1 = r.1 ∧ (s.2 = none ↔ r.2 = .ok)

theorem mirrors_flush (e : Encoder) (k : Nat) :
    Mirrors (flushStepEx outputFn e k) (flush outputFn e) := by
  obtain ⟨he, hst⟩ := flushExLoop_eq outputFn e e.maxSendChunk 0
  refine ⟨he, ?_⟩
  simp only [flush]
  rw [← hst]
  cases h : (flushExLoop outputFn e.maxSendChunk 0 e).2.status <;>
    simp [flushStepEx, flushEx, WriteResult.isError, WriteResult.isRetry, h]

theorem mirrors_pushPending (e : Encoder) :
    Mirrors (pushPendingEx outputFn e) (pushPending outputFn e) := by
  unfold pushPendingEx pushPending
  split_ifs with hp
  · by_cases hst : (ensureFree outputFn e 1).2 = .ok
    · simpa [hst] using mirrors_flush outputFn _ 0
    · simp [hst, Mirrors]
  · simp [Mirrors]

theorem mirrors_pushLoop (e : Encoder) (data : List UInt8) (k : Nat) :
    Mirrors (pushLoopEx outputFn e data k).1
      ((pushLoop outputFn e data k).1, (pushLoop outputFn e data k).2.1) := by
  induction data generalizing e k with
  | nil => simp [pushLoopEx, pushLoop, Mirrors]
  | cons c cs ih =>
    by_cases hst : (encodeOne outputFn e (c :: cs)).2.1 = .ok
    · obtain ⟨he, hnone⟩ := mirrors_flush outputFn (encodeOne outputFn e (c :: cs)).1
        (k + (encodeOne outputFn e (c :: cs)).2.2)
      by_cases hok : (flush outputFn (encodeOne outputFn e (c :: cs)).1).2 = .ok
      · simpa [pushLoopEx, pushLoop, hst, hok, hnone.mpr hok, he] using ih _ _
      · have hsome := Option.isSome_iff_ne_none.mpr (mt hnone.mp hok)
        simpa [pushLoopEx, pushLoop, hst, hok, hsome, he, Mirrors] using mt hnone.mp hok
    · simp [pushLoopEx, pushLoop, hst, Mirrors]

theorem pushEndEx_fst (e : Encoder) (k : Nat) :
    (pushEndEx outputFn e k).1 = (pushEnd outputFn e).1 := by
  simp only [pushEndEx, pushEnd]
  by_cases hst : (ensureFree outputFn e 1).2 = .ok
  · simpa [hst] using (mirrors_flush outputFn _ k).1
  · simp [hst]

/-- The four places where a call can end, each the same in both versions. -/
theorem pushPacketEx_cases (e : Encoder) (data : List UInt8) {p : Encoder}
    (hp : (pushPending outputFn (flush outputFn e).1).1 = p) :
    (∃ res, (flushStepEx outputFn e 0).2 = some res ∧
      pushPacketEx outputFn e data = ((flush outputFn e).1, res) ∧
      pushPacket outputFn e data = ((flush outputFn e).1, (flush outputFn e).2, 0)) ∨
    (∃ res, (pushPendingEx outputFn (flush outputFn e).1).2 = some res ∧
      pushPacketEx outputFn e data = (p, res) ∧
      pushPacket outputFn e data = (p, (pushPending outputFn (flush outputFn e).1).2, 0)) ∨
    (∃ res, (pushLoopEx outputFn p data 0).1.2 = some res ∧
      pushPacketEx outputFn e data = ((pushLoop outputFn p data 0).1, res) ∧
      pushPacket outputFn e data = pushLoop outputFn p data 0) ∨
    ((flush outputFn e).2 = .ok ∧ (pushPending outputFn (flush outputFn e).1).2 = .ok ∧
      (pushLoop outputFn p data 0).2.1 = .ok ∧
      pushPacketEx outputFn e data =
        ((pushEndEx outputFn (pushLoop outputFn p data 0).1 (pushLoopEx outputFn p data 0).2).1,
          (pushEndEx outputFn (pushLoop outputFn p data 0).1
            (pushLoopEx outputFn p data 0).2).2.getD
              (.ofStatus .ok (pushLoopEx outputFn p data 0).2)) ∧
      pushPacket outputFn e data =
        ((pushEnd outputFn (pushLoop outputFn p data 0).1).1,
          (pushEnd outputFn (pushLoop outputFn p data 0).1).2,
          (pushLoop outputFn p data 0).2.2)) := by
  subst hp
  obtain ⟨he1, hn1⟩ := mirrors_flush outputFn e 0
  obtain ⟨he2, hn2⟩ := mirrors_pushPending outputFn (flush outputFn e).1
  obtain ⟨he3, hn3⟩ :=
    mirrors_pushLoop outputFn (pushPending outputFn (flush outputFn e).1).1 data 0
  simp only at he3 hn3
  unfold pushPacketEx pushPacket
  cases h1 : (flushStepEx outputFn e 0).2 with
  | some res =>
    have hst : (flush outputFn e).2 ≠ .ok := by simp [← hn1, h1]
    exact .inl ⟨res, rfl, by simp only [h1, he1], if_pos hst⟩
  | none =>
    have hst1 := hn1.mp h1
    simp only [h1, hst1, he1, ne_eq, not_true, ↓reduceIte]
    cases h2 : (pushPendingEx outputFn (flush outputFn e).1).2 with
    | some res =>
      have hst : (pushPending outputFn (flush outputFn e).1).2 ≠ .ok := by simp [← hn2, h2]
      exact .inr (.inl ⟨res, rfl, by simp only [he2], if_pos hst⟩)
    | none =>
      have hst2 := hn2.mp h2
      simp only [hst2, he2, not_true, ↓reduceIte]
      cases h3 : (pushLoopEx outputFn (pushPending outputFn (flush outputFn e).1).1 data 0).1.2 with
      | some res =>
        have hst := mt hn3.mpr (by simp [h3])
        exact .inr (.inr (.inl ⟨res, rfl, by simp only [he3], if_pos hst⟩))
      | none =>
        have hst3 := hn3.mp h3
        have hgo := not_not.mpr hst3
        exact .inr (.inr (.inr ⟨trivial, trivial, hst3, by simp only [he3], if_neg hgo⟩))

theorem pushPacketEx_fst (e : Encoder) (data : List UInt8) :
    (pushPacketEx outputFn e data).1 = (pushPacket outputFn e data).1 := by
  obtain ⟨_, _, hex, hplain⟩ | ⟨_, _, hex, hplain⟩ | ⟨_, _, hex, hplain⟩ | ⟨_, _, _, hex, hplain⟩ :=
    pushPacketEx_cases outputFn e data rfl
  · rw [hex, hplain]
  · rw [hex, hplain]
  · rw [hex, hplain]
  · rw [hex, hplain]
    exact pushEndEx_fst outputFn _ _

end Ex

/-- What the public operations can make of an encoder. A chunked push that
never returns leads nowhere. -/
inductive Reachable (outputFn : OutputFn) : Encoder → Prop
  | new (txBufferSize maxSendChunk : Nat) : Reachable outputFn (new txBufferSize maxSendChunk)
  | setMaxSendChunk {e} (n : Nat) (h : Reachable outputFn e) :
      Reachable outputFn (setMaxSendChunk e n)
  | flush {e} (h : Reachable outputFn e) : Reachable outputFn (flush outputFn e).1
  | flushEx {e} (h : Reachable outputFn e) : Reachable outputFn (flushEx outputFn e).1
  | pushPacket {e} (data : List UInt8) (h : Reachable outputFn e) :
      Reachable outputFn (pushPacket outputFn e data).1
  | pushPacketEx {e} (data : List UInt8) (h : Reachable outputFn e) :
      Reachable outputFn (pushPacketEx outputFn e data).1
  | pushPacketChunk {e r} {data : List UInt8} {chunkSize : Nat} (h : Reachable outputFn e)
      (hr : pushPacketChunk outputFn e data chunkSize = some r) : Reachable outputFn r.1
  | pushPacketChunkEx {e r} {data : List UInt8} {chunkSize : Nat} (h : Reachable outputFn e)
      (hr : pushPacketChunkEx outputFn e data chunkSize = some r) : Reachable outputFn r.1

variable (outputFn : OutputFn)

theorem valid_flush {e : Encoder} (h : Valid e) : Valid (flush outputFn e).1 :=
  (shows_flush outputFn (shows_view h)).1.1

theorem valid_pushPacket {e : Encoder} (h : Valid e) (data : List UInt8) :
    Valid (pushPacket outputFn e data).1 := by
  obtain ⟨l, b, t, hs, _⟩ := adds_pushPacket outputFn (shows_view h) data
  exact hs.1

/-- A call adds to the stream the escaped form of the bytes it reports, and the
`END` of the packet only after the last of them. -/
theorem stream_pushPacket {e : Encoder} (h : Valid e) (data : List UInt8) :
    ∃ t, stream (pushPacket outputFn e data).1 =
        stream e ++ (escape (data.take (pushPacket outputFn e data).2.2) ++ t) ∧
      (t = [] ∨ t = [END]) ∧ (pushPacket outputFn e data).2.2 ≤ data.length ∧
      ((pushPacket outputFn e data).2.1 = .ok →
        (pushPacket outputFn e data).2.2 = data.length ∧ t = [END]) := by
  obtain ⟨l, b, t, hs, hc, ht, hlog, _, hok⟩ := adds_pushPacket outputFn (shows_view h) data
  refine ⟨t, ?_, ht, hc, fun hst => ⟨(hok hst).1, (hok hst).2.1⟩⟩
  rw [stream_of_shows hs, stream_of_shows (shows_view h), ← List.append_assoc]
  exact hlog

theorem valid_pushPacketChunkLoop {e : Encoder} (h : Valid e) {chunkSize fuel consumed : Nat}
    {data : List UInt8} {r : Encoder × WriteStatus × Nat}
    (hr : pushPacketChunkLoop outputFn chunkSize fuel e data consumed = some r) : Valid r.1 := by
  induction fuel generalizing e data consumed with
  | zero => cases hr
  | succ fuel ih =>
    simp only [pushPacketChunkLoop] at hr
    split_ifs at hr
    · cases hr
      exact h
    · cases hr
      exact valid_pushPacket outputFn h _
    · exact ih (valid_pushPacket outputFn h _) hr

theorem valid_pushPacketChunkExLoop {e : Encoder} (h : Valid e) {chunkSize fuel consumed : Nat}
    {data : List UInt8} {r : Encoder × PushPacketResult}
    (hr : pushPacketChunkExLoop outputFn chunkSize fuel e data consumed = some r) : Valid r.1 := by
  induction fuel generalizing e data consumed with
  | zero => cases hr
  | succ fuel ih =>
    have hv (xs : List UInt8) : Valid (pushPacketEx outputFn e xs).1 := by
      rw [pushPacketEx_fst]
      exact valid_pushPacket outputFn h xs
    simp only [pushPacketChunkExLoop] at hr
    split_ifs at hr
    · cases hr
      exact h
    · cases hr
      exact hv _
    · cases hr
      exact hv _
    · exact ih (hv _) hr

theorem valid_of_reachable {outputFn : OutputFn} {e : Encoder} (h : Reachable outputFn e) :
    Valid e := by
  induction h with
  | new n m => exact valid_new n m
  | setMaxSendChunk n _ ih => exact (shows_setMaxSendChunk (shows_view ih) n).1
  | flush _ ih => exact valid_flush outputFn ih
  | @flushEx e _ ih =>
    have he := (flushExLoop_eq outputFn e e.maxSendChunk 0).1
    unfold StreamEncoder.flushEx
    rw [he]
    exact valid_flush outputFn ih
  | pushPacket data _ ih => exact valid_pushPacket outputFn ih data
  | pushPacketEx data _ ih =>
    rw [pushPacketEx_fst]
    exact valid_pushPacket outputFn ih data
  | pushPacketChunk _ hr ih => exact valid_pushPacketChunkLoop outputFn ih hr
  | pushPacketChunkEx _ hr ih => exact valid_pushPacketChunkExLoop outputFn ih hr

/-- Nothing that has entered the encoder is lost, repeated or reordered, and
`END` follows the last byte of a packet only. -/
theorem flush_pushPacket_conserve {outputFn : OutputFn} {e : Encoder}
    (h : Reachable outputFn e) (data : List UInt8) :
    (log (flush outputFn e).1 = log e ∧
      owed (flush outputFn e).1.endPending = owed e.endPending) ∧
    ∃ e' st c t, pushPacket outputFn e data = (e', st, c) ∧ c ≤ data.length ∧
      (t = [] ∨ t = [END]) ∧
      log e' ++ owed e'.endPending =
        log e ++ owed e.endPending ++ escape (data.take c) ++ t ∧
      (t = [END] → c = data.length) ∧
      (st = .ok → c = data.length ∧ t = [END] ∧ owed e'.endPending = []) := by
  have hv := shows_view (valid_of_reachable h)
  obtain ⟨l, hs, hl⟩ := adds_flush outputFn hv
  obtain ⟨l', b, t, hs', hc, ht, hlog, hend, hok⟩ := adds_pushPacket outputFn hv data
  have hb : (pushPacket outputFn e data).1.endPending = b := congrArg View.endPending hs'.2
  refine ⟨⟨?_, ?_⟩, (pushPacket outputFn e data).1, (pushPacket outputFn e data).2.1,
    (pushPacket outputFn e data).2.2, t, rfl, hc, ht, ?_, hend, ?_⟩
  · rw [log_of_shows hs, hl, List.append_nil]
    rfl
  · have hp : (flush outputFn e).1.endPending = e.endPending := congrArg View.endPending hs.2
    rw [hp]
  · rw [log_of_shows hs', hb]
    exact hlog
  · intro hst
    obtain ⟨hlen, htail, hpend⟩ := hok hst
    refine ⟨hlen, htail, ?_⟩
    rw [hb, hpend]
    rfl

/-- A callback that refuses only its call number `n`, counted from 0. -/
def refusing (n : Nat) : OutputFn := fun calls _ => if calls.length = n then .retryLater else .ok

theorem flush_pushPacket_conserve_refused :
    ∃ e' t, pushPacket (refusing 1) (new 3 1) [END, 0x01] = (e', .retryLater, 2) ∧
      (t = [] ∨ t = [END]) ∧
      log e' ++ owed e'.endPending = [ESC, ESCEND, 0x01] ++ t := by
  have hr : (pushPacket (refusing 1) (new 3 1) [END, 0x01]).2 = (.retryLater, 2) := by decide
  obtain ⟨_, e', st, c, t, hp, _, ht, hlog, _⟩ :=
    flush_pushPacket_conserve (Reachable.new 3 1 : Reachable (refusing 1) _) [END, 0x01]
  rw [hp] at hr
  obtain ⟨rfl, rfl⟩ := Prod.mk.inj hr
  exact ⟨e', t, hp, ht, hlog⟩

end SlipStream.EncoderReachable
