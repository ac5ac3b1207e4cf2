import SlipStream.EncoderReachable

namespace SlipStream.EncoderEx

open Channel hiding log
open Errors Format StreamEncoder EncoderQueue EncoderSteps EncoderReachable

/-- What holds after every flush that succeeds: one byte is free, unless no
flush can ever free one. -/
def Slack (e : Encoder) : Prop :=
  e.txSize < capacity e ∨ capacity e = 0 ∨ e.maxSendChunk = 0

variable (outputFn : OutputFn) {e : Encoder}

theorem slack_flush (h : Valid e) (hok : (flush outputFn e).2 = .ok) :
    Slack (flush outputFn e).1 := by
  obtain ⟨hs, hst⟩ := shows_flush outputFn (shows_view h)
  rw [hok] at hst
  rw [drain_of_ok outputFn .ok hst.symm] at hs
  have hsize := length_queue hs
  have hcap : capacity (flush outputFn e).1 = capacity e := congrArg View.capacity hs.2
  have hm : (flush outputFn e).1.maxSendChunk = e.maxSendChunk := congrArg View.maxSendChunk hs.2
  have hle := length_le_capacity (shows_view h)
  simp only [advance_length, Slack, hcap, hm] at hsize ⊢
  simp only [view] at hsize hle
  omega

/-- Where there is slack, `ensureFree(1)` does not ask the callback at all. -/
theorem ensureFree_ne_error (h : Valid e) (hsl : Slack e) :
    (ensureFree outputFn e 1).2 ≠ .error := by
  have hsize := h.size_le
  obtain hroom | hfull := Nat.lt_or_ge e.txSize (capacity e)
  · have hfree : e.txBuf.length - e.txSize ≥ 1 := by simp only [capacity] at hroom; omega
    rw [ensureFree, if_pos hfree]
    exact WriteStatus.noConfusion
  · have hnone : ¬ e.txBuf.length - e.txSize ≥ 1 := by simp only [capacity] at hfull; omega
    have hflush : flush outputFn e = (e, .ok) := by
      obtain hlt | hcap | hm := hsl
      · omega
      · have hz : ¬ e.txSize > 0 := by simp only [capacity] at hcap; omega
        rw [flush]
        cases e.maxSendChunk with
        | zero => rfl
        | succ k => rw [flushLoop, if_neg hz]
      · rw [flush, hm]
        rfl
    simp [ensureFree, hnone, hflush]

theorem slack_pushPending (h : Valid e) (hsl : Slack e) (hok : (pushPending outputFn e).2 = .ok) :
    Slack (pushPending outputFn e).1 := by
  cases hp : e.endPending with
  | false =>
    have he : pushPending outputFn e = (e, .ok) := by simp [pushPending, hp]
    rw [he]
    exact hsl
  | true =>
    obtain ⟨l, hs, _, hroom⟩ := adds_ensureFree outputFn (shows_view h) 1
    by_cases hst : (ensureFree outputFn e 1).2 = .ok
    · obtain ⟨hq, _⟩ := shows_queueByte hs END (hroom hst)
      have he : pushPending outputFn e = flush outputFn
          {(queueByte (ensureFree outputFn e 1).1 END).1 with endPending := false} := by
        simp [pushPending, hp, hst]
      rw [he] at hok ⊢
      exact slack_flush outputFn (shows_endPending hq false).1 hok
    · simp [pushPending, hp, hst] at hok

theorem slack_pushLoop (h : Valid e) (hsl : Slack e) (data : List UInt8) (k : Nat)
    (hok : (pushLoop outputFn e data k).2.1 = .ok) : Slack (pushLoop outputFn e data k).1 := by
  induction data generalizing e k with
  | nil => exact hsl
  | cons c cs ih =>
    obtain ⟨⟨hst, hfl⟩, hrest⟩ := (pushLoop_ok_iff k).mp hok
    obtain ⟨_, _, l, hs, _⟩ | ⟨hbad, _⟩ := adds_encodeOne outputFn (shows_view h) c cs
    · rw [pushLoop_next k hst hfl]
      exact ih (valid_flush outputFn hs.1) (slack_flush outputFn hs.1 hfl) _ hrest
    · exact absurd hst hbad

/-- A step of `pushPacket_ex` that ends the call does so with the status and
the count given. -/
def Reports (s : StepEx) (st : WriteStatus) (consumed : Nat) : Prop :=
  ∀ res, s.2 = some res → res.status = st ∧ res.consumed = consumed

theorem reports_ofFailed {e' : Encoder} {st : WriteStatus} (k : Nat) (msg : String)
    (hst : st ≠ .ok) : Reports (e', some (.ofFailed st k msg)) st k := by
  rintro res ⟨⟩
  cases st with
  | ok => exact absurd rfl hst
  | retryLater => exact ⟨rfl, rfl⟩
  | error => exact ⟨rfl, rfl⟩

theorem reports_flush (e : Encoder) (k : Nat) :
    Reports (flushStepEx outputFn e k) (flush outputFn e).2 k := by
  obtain ⟨_, hst⟩ := flushExLoop_eq outputFn e e.maxSendChunk 0
  intro res hres
  rw [flush, ← hst]
  simp only [flushStepEx, flushEx, WriteResult.isError, WriteResult.isRetry] at hres
  cases hr : (flushExLoop outputFn e.maxSendChunk 0 e).2.status with
  | ok => simp [hr] at hres
  | retryLater | error =>
    simp only [hr, PushPacketResult.ofFlush, WriteResult.isError] at hres
    cases hres
    exact ⟨rfl, rfl⟩

theorem reports_pushPending (e : Encoder) :
    Reports (pushPendingEx outputFn e) (pushPending outputFn e).2 0 := by
  simp only [pushPendingEx, pushPending]
  split_ifs with hp hst
  · exact reports_ofFailed 0 _ hst
  · exact reports_flush outputFn _ 0
  · rintro res ⟨⟩

theorem reports_pushLoop (e : Encoder) (data : List UInt8) (k : Nat) :
    Reports (pushLoopEx outputFn e data k).1 (pushLoop outputFn e data k).2.1
        (pushLoop outputFn e data k).2.2 ∧
      (pushLoopEx outputFn e data k).2 = (pushLoop outputFn e data k).2.2 := by
  induction data generalizing e k with
  | nil =>
    refine ⟨?_, rfl⟩
    rintro res ⟨⟩
  | cons c cs ih =>
    by_cases hst : (encodeOne outputFn e (c :: cs)).2.1 = .ok
    · have hrep := reports_flush outputFn (encodeOne outputFn e (c :: cs)).1
        (k + (encodeOne outputFn e (c :: cs)).2.2)
      obtain ⟨he, hnone⟩ := mirrors_flush outputFn (encodeOne outputFn e (c :: cs)).1
        (k + (encodeOne outputFn e (c :: cs)).2.2)
      by_cases hok : (flush outputFn (encodeOne outputFn e (c :: cs)).1).2 = .ok
      · rw [pushLoop_next k hst hok]
        simpa [pushLoopEx, hst, hnone.mpr hok, he] using ih _ _
      · have hsome := Option.isSome_iff_ne_none.mpr (mt hnone.mp hok)
        rw [pushLoop_refused k hst hok]
        simpa [pushLoopEx, hst, hsome] using hrep
    · rw [pushLoop_failed k hst]
      refine ⟨?_, ?_⟩
      · simpa [pushLoopEx, hst] using reports_ofFailed k _ hst
      · simp [pushLoopEx, hst]

theorem reports_pushEnd (h : Valid e) (hsl : Slack e) (k : Nat) :
    Reports (pushEndEx outputFn e k) (pushEnd outputFn e).2 k ∧
      ((pushEndEx outputFn e k).2 = none ↔ (pushEnd outputFn e).2 = .ok) := by
  have hne := ensureFree_ne_error outputFn h hsl
  cases hst : (ensureFree outputFn e 1).2 with
  | ok =>
    have hrep := reports_flush outputFn (queueByte (ensureFree outputFn e 1).1 END).1 k
    have hmir := mirrors_flush outputFn (queueByte (ensureFree outputFn e 1).1 END).1 k
    refine ⟨?_, ?_⟩
    · simpa [pushEndEx, pushEnd, hst] using hrep
    · simpa [pushEndEx, pushEnd, hst] using hmir.2
  | retryLater =>
    refine ⟨?_, by simp [pushEndEx, pushEnd, hst]⟩
    intro res hres
    simp only [pushEndEx, hst] at hres
    cases hres
    simp [pushEnd, hst, PushPacketResult.ofStatus]
  | error => exact absurd hst hne

/-- Both calls come to `END` only after a flush that succeeded, so the status
that only one of them would hand on never arises. -/
theorem pushPacketEx_eq (h : Valid e) (data : List UInt8) :
    (pushPacketEx outputFn e data).1 = (pushPacket outputFn e data).1 ∧
      (pushPacketEx outputFn e data).2.status = (pushPacket outputFn e data).2.1 ∧
      (pushPacketEx outputFn e data).2.consumed = (pushPacket outputFn e data).2.2 := by
  refine ⟨pushPacketEx_fst outputFn e data, ?_⟩
  obtain ⟨res, h1, hex, hplain⟩ | ⟨res, h2, hex, hplain⟩ | ⟨res, h3, hex, hplain⟩ |
    ⟨hst1, hst2, hst3, hex, hplain⟩ := pushPacketEx_cases outputFn e data rfl
  · rw [hex, hplain]
    exact reports_flush outputFn e 0 res h1
  · rw [hex, hplain]
    exact reports_pushPending outputFn _ res h2
  · rw [hex, hplain]
    exact (reports_pushLoop outputFn _ data 0).1 res h3
  · have hv1 := valid_flush outputFn h
    obtain ⟨l, b, hs2, _⟩ := adds_pushPending outputFn (shows_view hv1)
    obtain ⟨c, _, _, ⟨l', hs3, _⟩, _⟩ := adds_pushLoop outputFn hs2 data 0
    have hsl2 := slack_pushPending outputFn hv1 (slack_flush outputFn h hst1) hst2
    have hsl3 := slack_pushLoop outputFn hs2.1 hsl2 data 0 hst3
    have hcount :=
      (reports_pushLoop outputFn (pushPending outputFn (flush outputFn e).1).1 data 0).2
    obtain ⟨hend, hnone⟩ := reports_pushEnd outputFn hs3.1 hsl3
      (pushLoop outputFn (pushPending outputFn (flush outputFn e).1).1 data 0).2.2
    rw [hex, hplain, hcount]
    simp only
    cases h4 : (pushEndEx outputFn
        (pushLoop outputFn (pushPending outputFn (flush outputFn e).1).1 data 0).1
        (pushLoop outputFn (pushPending outputFn (flush outputFn e).1).1 data 0).2.2).2 with
    | some res => exact hend res h4
    | none =>
      rw [hnone.mp h4]
      exact ⟨rfl, rfl⟩

theorem consumed_of_ok (h : Valid e) (data : List UInt8)
    (hok : (pushPacket outputFn e data).2.1 = .ok) :
    (pushPacket outputFn e data).2.2 = data.length := by
  obtain ⟨_, _, _, _, _, _, _, _, hdone⟩ := adds_pushPacket outputFn (shows_view h) data
  exact (hdone hok).1

theorem pushPacketChunkLoop_eq (h : Valid e) {chunkSize : Nat} (hc : 1 ≤ chunkSize)
    {fuel : Nat} (data : List UInt8) (hfuel : data.length < fuel) (k : Nat) :
    ∃ r s, pushPacketChunkLoop outputFn chunkSize fuel e data k = some r ∧
      pushPacketChunkExLoop outputFn chunkSize fuel e data k = some s ∧
      s.1 = r.1 ∧ s.2.status = r.2.1 ∧ s.2.consumed = r.2.2 := by
  induction fuel generalizing e data k with
  | zero => omega
  | succ fuel ih =>
    by_cases hd : data = []
    · refine ⟨(e, .ok, k), (e, .ofStatus .ok k), ?_, ?_, rfl, rfl, rfl⟩
      · rw [pushPacketChunkLoop, if_pos hd]
      · rw [pushPacketChunkExLoop, if_pos hd]
    · have hlen := List.length_pos_of_ne_nil hd
      obtain ⟨he, hst, hcount⟩ :=
        pushPacketEx_eq outputFn h (data.take (min chunkSize data.length))
      simp only [pushPacketChunkLoop, pushPacketChunkExLoop, if_neg hd,
        PushPacketResult.isRetry, PushPacketResult.isError, hst, he, hcount]
      have hdone := consumed_of_ok outputFn h (data.take (min chunkSize data.length))
      have hv := valid_pushPacket outputFn h (data.take (min chunkSize data.length))
      generalize pushPacket outputFn e (data.take (min chunkSize data.length)) = r
        at hdone hv
      obtain ⟨e', st, c⟩ := r
      cases st with
      | ok =>
        have hdrop : (data.drop c).length < fuel := by
          have hcl := hdone rfl
          simp only [List.length_take] at hcl
          rw [List.length_drop]
          omega
        simpa using ih hv (data.drop c) hdrop (k + c)
      | retryLater => simp [PushPacketResult.ofStatus]
      | error => simp [PushPacketResult.fail]

/-- The enhanced calls do to the encoder and its callback what the plain ones
do, and return the same status and count. -/
theorem ex_refines_plain (h : Reachable outputFn e) (data : List UInt8) {chunkSize : Nat}
    (hc : 1 ≤ chunkSize) :
    ((flushEx outputFn e).1 = (flush outputFn e).1 ∧
      (flushEx outputFn e).2.status = (flush outputFn e).2) ∧
    ((pushPacketEx outputFn e data).1 = (pushPacket outputFn e data).1 ∧
      (pushPacketEx outputFn e data).2.status = (pushPacket outputFn e data).2.1 ∧
      (pushPacketEx outputFn e data).2.consumed = (pushPacket outputFn e data).2.2) ∧
    ∃ r s, pushPacketChunk outputFn e data chunkSize = some r ∧
      pushPacketChunkEx outputFn e data chunkSize = some s ∧
      s.1 = r.1 ∧ s.2.status = r.2.1 ∧ s.2.consumed = r.2.2 := by
  have hv := valid_of_reachable h
  exact ⟨flushExLoop_eq outputFn e e.maxSendChunk 0, pushPacketEx_eq outputFn hv data,
    pushPacketChunkLoop_eq outputFn hv hc data (Nat.lt_succ_self _) 0⟩

/-- The packet is refused at its `END`, in two chunks at an escape in the second one. -/
theorem ex_refines_plain_refused :
    ((pushPacketEx (refusing 4) (new 4 2) [0x01, 0x02, END]).1.calls =
        [(0x01, .ok), (0x02, .ok), (ESC, .ok), (ESCEND, .ok), (END, .retryLater)] ∧
      (pushPacketEx (refusing 4) (new 4 2) [0x01, 0x02, END]).2.status = .retryLater ∧
      (pushPacketEx (refusing 4) (new 4 2) [0x01, 0x02, END]).2.consumed = 3) ∧
    ∃ s, pushPacketChunkEx (refusing 4) (new 4 2) [0x01, 0x02, END] 2 = some s ∧
      s.1.calls =
        [(0x01, .ok), (0x02, .ok), (END, .ok), (ESC, .ok), (ESCEND, .retryLater)] ∧
      s.2.status = .retryLater ∧ s.2.consumed = 2 := by
  obtain ⟨_, ⟨he, hst, hcount⟩, r, s, hr, hs, hse, hss, hsc⟩ :=
    ex_refines_plain (refusing 4) (Reachable.new 4 2) [0x01, 0x02, END] (by decide : 1 ≤ 2)
  rw [he, hst, hcount]
  refine ⟨by decide, s, hs, ?_⟩
  rw [hse, hss, hsc]
  have hplain : (pushPacketChunk (refusing 4) (new 4 2) [0x01, 0x02, END] 2).map
      (fun r => (r.1.calls, r.2)) =
        some ([(0x01, .ok), (0x02, .ok), (END, .ok), (ESC, .ok), (ESCEND, .retryLater)],
          .retryLater, 2) := by decide
  rw [hr] at hplain
  obtain ⟨hcalls, hres⟩ := Prod.mk.inj (Option.some.inj hplain)
  exact ⟨hcalls, congrArg Prod.fst hres, congrArg Prod.snd hres⟩

end SlipStream.EncoderEx
