import SlipStream.EncoderReachable
import Mathlib.Data.Option.Defs

namespace SlipStream.EncoderLayout

open Format Channel StreamEncoder EncoderQueue EncoderReachable

/-- Two encoders with the same bytes queued, wherever they lie in the rings. -/
def Alike (e₁ e₂ : Encoder) : Prop := ∃ v, Shows e₁ v ∧ Shows e₂ v

/-- Alike, and the same returned. -/
def Same {β : Type} (r₁ r₂ : Encoder × β) : Prop := Alike r₁.1 r₂.1 ∧ r₁.2 = r₂.2

variable {e₁ e₂ : Encoder}

theorem size_eq (h : Alike e₁ e₂) : e₁.txSize = e₂.txSize := by
  obtain ⟨v, h₁, h₂⟩ := h
  rw [← length_queue h₁, ← length_queue h₂]

theorem room_eq (h : Alike e₁ e₂) : e₁.txBuf.length = e₂.txBuf.length := by
  obtain ⟨v, h₁, h₂⟩ := h
  exact congrArg View.capacity (h₁.2.trans h₂.2.symm)

theorem limit_eq (h : Alike e₁ e₂) : e₁.maxSendChunk = e₂.maxSendChunk := by
  obtain ⟨v, h₁, h₂⟩ := h
  exact congrArg View.maxSendChunk (h₁.2.trans h₂.2.symm)

theorem pending_eq (h : Alike e₁ e₂) : e₁.endPending = e₂.endPending := by
  obtain ⟨v, h₁, h₂⟩ := h
  exact congrArg View.endPending (h₁.2.trans h₂.2.symm)

theorem calls_eq (h : Alike e₁ e₂) : e₁.calls = e₂.calls := by
  obtain ⟨v, h₁, h₂⟩ := h
  exact congrArg (fun v => v.link.calls) (h₁.2.trans h₂.2.symm)

theorem alike_setMaxSendChunk (h : Alike e₁ e₂) (n : Nat) :
    Alike (setMaxSendChunk e₁ n) (setMaxSendChunk e₂ n) := by
  obtain ⟨v, h₁, h₂⟩ := h
  exact ⟨_, shows_setMaxSendChunk h₁ n, shows_setMaxSendChunk h₂ n⟩

theorem alike_endPending (h : Alike e₁ e₂) (b : Bool) :
    Alike {e₁ with endPending := b} {e₂ with endPending := b} := by
  obtain ⟨v, h₁, h₂⟩ := h
  exact ⟨_, shows_endPending h₁ b, shows_endPending h₂ b⟩

theorem same_queueByte (h : Alike e₁ e₂) (b : UInt8) :
    Same (queueByte e₁ b) (queueByte e₂ b) := by
  have hsize := size_eq h
  have hroom := room_eq h
  by_cases hfull : e₁.txSize ≥ e₁.txBuf.length
  · have hfull₂ : e₂.txSize ≥ e₂.txBuf.length := by omega
    rw [queueByte, queueByte, if_pos hfull, if_pos hfull₂]
    exact ⟨h, rfl⟩
  · obtain ⟨v, h₁, h₂⟩ := h
    have hlt : v.link.queue.length < v.capacity := by
      have hcap : e₁.txBuf.length = v.capacity := congrArg View.capacity h₁.2
      rw [length_queue h₁]
      omega
    obtain ⟨hs₁, ht₁⟩ := shows_queueByte h₁ b hlt
    obtain ⟨hs₂, ht₂⟩ := shows_queueByte h₂ b hlt
    exact ⟨⟨_, hs₁, hs₂⟩, ht₁.trans ht₂.symm⟩

/-- The byte at the front is the same one, and taking it out keeps the rest so. -/
theorem alike_dequeueByte (h : Alike e₁ e₂) (hpos : e₁.txSize > 0) :
    e₁.txBuf.getD e₁.txHead 0 = e₂.txBuf.getD e₂.txHead 0 ∧
      Alike (dequeueByte e₁).1 (dequeueByte e₂).1 := by
  have hcalls := calls_eq h
  obtain ⟨v, h₁, h₂⟩ := h
  have hlen := length_queue h₁
  cases hq : v.link.queue with
  | nil =>
    rw [hq, List.length_nil] at hlen
    omega
  | cons b q =>
    obtain ⟨hs₁, hb₁⟩ := shows_dequeueByte h₁ hq e₁.calls
    obtain ⟨hs₂, hb₂⟩ := shows_dequeueByte h₂ hq e₂.calls
    rw [← hcalls] at hs₂
    refine ⟨hb₁.trans hb₂.symm, _, hs₁, ?_⟩
    rw [hcalls] at hs₂ ⊢
    exact hs₂

variable (outputFn : OutputFn)

theorem same_output (h : Alike e₁ e₂) (b : UInt8) :
    Same (output outputFn e₁ b) (output outputFn e₂ b) := by
  obtain ⟨v, h₁, h₂⟩ := h
  obtain ⟨hs₁, ht₁⟩ := shows_output outputFn h₁ b
  obtain ⟨hs₂, ht₂⟩ := shows_output outputFn h₂ b
  exact ⟨⟨_, hs₁, hs₂⟩, ht₁.trans ht₂.symm⟩

theorem same_flush (h : Alike e₁ e₂) : Same (flush outputFn e₁) (flush outputFn e₂) := by
  obtain ⟨v, h₁, h₂⟩ := h
  obtain ⟨hs₁, ht₁⟩ := shows_flush outputFn h₁
  obtain ⟨hs₂, ht₂⟩ := shows_flush outputFn h₂
  exact ⟨⟨_, hs₁, hs₂⟩, ht₁.trans ht₂.symm⟩

theorem same_flushExLoop (h : Alike e₁ e₂) (k sent : Nat) :
    Same (flushExLoop outputFn k sent e₁) (flushExLoop outputFn k sent e₂) := by
  induction k generalizing e₁ e₂ sent with
  | zero => exact ⟨h, rfl⟩
  | succ k ih =>
    have hsize := size_eq h
    simp only [flushExLoop, ← hsize]
    split_ifs with hpos
    · obtain ⟨hfront, _⟩ := alike_dequeueByte h hpos
      obtain ⟨hout, hst⟩ := same_output outputFn h (e₁.txBuf.getD e₁.txHead 0)
      rw [← hfront, ← hst]
      cases (output outputFn e₁ (e₁.txBuf.getD e₁.txHead 0)).2 with
      | ok => exact ih (alike_dequeueByte hout hpos).2 (sent + 1)
      | retryLater => exact ⟨hout, rfl⟩
      | error => exact ⟨hout, rfl⟩
    · exact ⟨h, rfl⟩

theorem same_flushEx (h : Alike e₁ e₂) : Same (flushEx outputFn e₁) (flushEx outputFn e₂) := by
  rw [flushEx, flushEx, limit_eq h]
  exact same_flushExLoop outputFn h _ 0

theorem same_ensureFree (h : Alike e₁ e₂) (n : Nat) :
    Same (ensureFree outputFn e₁ n) (ensureFree outputFn e₂ n) := by
  obtain ⟨hflush, hst⟩ := same_flush outputFn h
  simp only [ensureFree, size_eq h, room_eq h, size_eq hflush, room_eq hflush, hst]
  split_ifs
  · exact ⟨h, rfl⟩
  · exact ⟨hflush, hst⟩
  · exact ⟨hflush, rfl⟩
  · exact ⟨hflush, rfl⟩

theorem same_encodeEscaped (h : Alike e₁ e₂) (mark : UInt8) :
    Same (encodeEscaped outputFn e₁ mark) (encodeEscaped outputFn e₂ mark) := by
  obtain ⟨hfree, hst⟩ := same_ensureFree outputFn h 2
  obtain ⟨hesc, hq⟩ := same_queueByte hfree ESC
  obtain ⟨hmark, hq'⟩ := same_queueByte hesc mark
  simp only [encodeEscaped, hst, hq, hq']
  split_ifs
  · exact ⟨hfree, rfl⟩
  · exact ⟨hesc, rfl⟩
  · exact ⟨hmark, rfl⟩
  · exact ⟨hmark, rfl⟩

theorem same_encodePlain (h : Alike e₁ e₂) (c : UInt8) :
    Same (encodePlain outputFn e₁ c) (encodePlain outputFn e₂ c) := by
  obtain ⟨hfree, hst⟩ := same_ensureFree outputFn h 1
  obtain ⟨hbyte, hq⟩ := same_queueByte hfree c
  simp only [encodePlain, hst, hq]
  split_ifs
  · exact ⟨hfree, rfl⟩
  · exact ⟨hbyte, rfl⟩
  · exact ⟨hbyte, rfl⟩

theorem same_encodeOne (h : Alike e₁ e₂) (data : List UInt8) :
    Same (encodeOne outputFn e₁ data) (encodeOne outputFn e₂ data) := by
  cases data with
  | nil => exact ⟨h, rfl⟩
  | cons c data =>
    simp only [encodeOne]
    split_ifs
    · exact same_encodeEscaped outputFn h ESCEND
    · exact same_encodeEscaped outputFn h ESCESC
    · exact same_encodePlain outputFn h c

/-- `END` queued, and no longer owed. -/
theorem alike_endQueued (h : Alike e₁ e₂) :
    Alike {(queueByte e₁ END).1 with endPending := false}
      {(queueByte e₂ END).1 with endPending := false} :=
  alike_endPending (same_queueByte h END).1 false

theorem same_pushPending (h : Alike e₁ e₂) :
    Same (pushPending outputFn e₁) (pushPending outputFn e₂) := by
  obtain ⟨hfree, hst⟩ := same_ensureFree outputFn h 1
  simp only [pushPending, pending_eq h, hst]
  split_ifs
  · exact ⟨hfree, hst⟩
  · exact same_flush outputFn (alike_endQueued hfree)
  · exact ⟨h, rfl⟩

theorem same_pushLoop (h : Alike e₁ e₂) (data : List UInt8) (consumed : Nat) :
    Same (pushLoop outputFn e₁ data consumed) (pushLoop outputFn e₂ data consumed) := by
  induction data generalizing e₁ e₂ consumed with
  | nil => exact ⟨h, rfl⟩
  | cons c data ih =>
    obtain ⟨hone, hst⟩ := same_encodeOne outputFn h (c :: data)
    obtain ⟨hflush, hst'⟩ := same_flush outputFn hone
    simp only [pushLoop, hst, hst']
    split_ifs
    · exact ⟨hone, rfl⟩
    · exact ⟨hflush, rfl⟩
    · exact ih hflush _

theorem alike_owing (h : Alike e₁ e₂) (st : WriteStatus) :
    Alike (if st = .retryLater then {e₁ with endPending := true} else e₁)
      (if st = .retryLater then {e₂ with endPending := true} else e₂) := by
  split_ifs
  · exact alike_endPending h true
  · exact h

theorem same_pushEnd (h : Alike e₁ e₂) : Same (pushEnd outputFn e₁) (pushEnd outputFn e₂) := by
  obtain ⟨hfree, hst⟩ := same_ensureFree outputFn h 1
  simp only [pushEnd, hst]
  split
  · exact ⟨alike_owing hfree _, rfl⟩
  · exact same_flush outputFn (same_queueByte hfree END).1

theorem same_pushPacket (h : Alike e₁ e₂) (data : List UInt8) :
    Same (pushPacket outputFn e₁ data) (pushPacket outputFn e₂ data) := by
  obtain ⟨hflush, hst⟩ := same_flush outputFn h
  obtain ⟨hpend, hpst⟩ := same_pushPending outputFn hflush
  obtain ⟨hloop, hlst⟩ := same_pushLoop outputFn hpend data 0
  obtain ⟨hend, hest⟩ := same_pushEnd outputFn hloop
  simp only [pushPacket, hst, hpst, hlst, hest]
  split_ifs
  · exact ⟨hflush, rfl⟩
  · exact ⟨hpend, rfl⟩
  · exact ⟨hloop, hlst⟩
  · exact ⟨hend, rfl⟩

theorem same_flushStepEx (h : Alike e₁ e₂) (consumed : Nat) :
    Same (flushStepEx outputFn e₁ consumed) (flushStepEx outputFn e₂ consumed) := by
  obtain ⟨hflush, hst⟩ := same_flushEx outputFn h
  refine ⟨hflush, ?_⟩
  simp only [flushStepEx, hst]

theorem same_pushPendingEx (h : Alike e₁ e₂) :
    Same (pushPendingEx outputFn e₁) (pushPendingEx outputFn e₂) := by
  obtain ⟨hfree, hst⟩ := same_ensureFree outputFn h 1
  simp only [pushPendingEx, pending_eq h, hst]
  split_ifs
  · exact ⟨hfree, rfl⟩
  · exact same_flushStepEx outputFn (alike_endQueued hfree) 0
  · exact ⟨h, rfl⟩

theorem same_pushLoopEx (h : Alike e₁ e₂) (data : List UInt8) (consumed : Nat) :
    Same (pushLoopEx outputFn e₁ data consumed).1 (pushLoopEx outputFn e₂ data consumed).1 ∧
      (pushLoopEx outputFn e₁ data consumed).2 = (pushLoopEx outputFn e₂ data consumed).2 := by
  induction data generalizing e₁ e₂ consumed with
  | nil => exact ⟨⟨h, rfl⟩, rfl⟩
  | cons c data ih =>
    obtain ⟨hone, hst⟩ := same_encodeOne outputFn h (c :: data)
    have hflush := same_flushStepEx outputFn hone
      (consumed + (encodeOne outputFn e₂ (c :: data)).2.2)
    simp only [pushLoopEx, hst, hflush.2]
    split_ifs
    · exact ⟨⟨hone, rfl⟩, rfl⟩
    · exact ⟨hflush, rfl⟩
    · exact ih hflush.1 _

theorem same_pushEndEx (h : Alike e₁ e₂) (consumed : Nat) :
    Same (pushEndEx outputFn e₁ consumed) (pushEndEx outputFn e₂ consumed) := by
  obtain ⟨hfree, hst⟩ := same_ensureFree outputFn h 1
  simp only [pushEndEx, hst]
  split
  · exact ⟨alike_owing hfree _, rfl⟩
  · exact same_flushStepEx outputFn (same_queueByte hfree END).1 consumed

theorem same_pushPacketEx (h : Alike e₁ e₂) (data : List UInt8) :
    Same (pushPacketEx outputFn e₁ data) (pushPacketEx outputFn e₂ data) := by
  obtain ⟨hflush, hst⟩ := same_flushStepEx outputFn h 0
  obtain ⟨hpend, hpst⟩ := same_pushPendingEx outputFn hflush
  obtain ⟨⟨hloop, hlst⟩, hcount⟩ := same_pushLoopEx outputFn hpend data 0
  have hend := same_pushEndEx outputFn hloop (pushLoopEx outputFn
    (pushPendingEx outputFn (flushStepEx outputFn e₂ 0).1).1 data 0).2
  simp only [pushPacketEx, hst, hpst, hlst, hcount, hend.2]
  cases (flushStepEx outputFn e₂ 0).2 with
  | some res => exact ⟨hflush, rfl⟩
  | none =>
    cases (pushPendingEx outputFn (flushStepEx outputFn e₂ 0).1).2 with
    | some res => exact ⟨hpend, rfl⟩
    | none =>
      cases (pushLoopEx outputFn (pushPendingEx outputFn (flushStepEx outputFn e₂ 0).1).1
          data 0).1.2 with
      | some res => exact ⟨hloop, rfl⟩
      | none => exact ⟨hend.1, rfl⟩

theorem same_pushPacketChunkLoop (h : Alike e₁ e₂) (chunkSize fuel : Nat) (data : List UInt8)
    (consumed : Nat) :
    Option.Rel Same (pushPacketChunkLoop outputFn chunkSize fuel e₁ data consumed)
      (pushPacketChunkLoop outputFn chunkSize fuel e₂ data consumed) := by
  induction fuel generalizing e₁ e₂ data consumed with
  | zero => exact .none
  | succ fuel ih =>
    obtain ⟨hpush, hst⟩ :=
      same_pushPacket outputFn h (data.take (min chunkSize data.length))
    simp only [pushPacketChunkLoop, hst]
    split_ifs
    · exact .some ⟨h, rfl⟩
    · exact .some ⟨hpush, rfl⟩
    · exact ih hpush _ _

theorem same_pushPacketChunkExLoop (h : Alike e₁ e₂) (chunkSize fuel : Nat) (data : List UInt8)
    (consumed : Nat) :
    Option.Rel Same (pushPacketChunkExLoop outputFn chunkSize fuel e₁ data consumed)
      (pushPacketChunkExLoop outputFn chunkSize fuel e₂ data consumed) := by
  induction fuel generalizing e₁ e₂ data consumed with
  | zero => exact .none
  | succ fuel ih =>
    obtain ⟨hpush, hst⟩ :=
      same_pushPacketEx outputFn h (data.take (min chunkSize data.length))
    simp only [pushPacketChunkExLoop, hst]
    split_ifs
    · exact .some ⟨h, rfl⟩
    · exact .some ⟨hpush, rfl⟩
    · exact .some ⟨hpush, rfl⟩
    · exact ih hpush _ _

inductive Request where
  | setMaxSendChunk (n : Nat)
  | flush
  | flushEx
  | pushPacket (data : List UInt8)
  | pushPacketEx (data : List UInt8)
  | pushPacketChunk (data : List UInt8) (chunkSize : Nat)
  | pushPacketChunkEx (data : List UInt8) (chunkSize : Nat)

/-- What a public operation returns. -/
inductive Answer where
  | done
  | status (st : WriteStatus)
  | result (res : WriteResult)
  | pushed (res : WriteStatus × Nat)
  | pushedEx (res : PushPacketResult)
  deriving DecidableEq

/-- A chunked push is given `fuel` rounds. It may need any number of them, with chunk
size 0, and comes back exactly if some number is enough. -/
def Request.exec (fuel : Nat) (e : Encoder) : Request → Option (Encoder × Answer)
  | .setMaxSendChunk n => some (StreamEncoder.setMaxSendChunk e n, .done)
  | .flush => some (Prod.map id .status (StreamEncoder.flush outputFn e))
  | .flushEx => some (Prod.map id .result (StreamEncoder.flushEx outputFn e))
  | .pushPacket data => some (Prod.map id .pushed (StreamEncoder.pushPacket outputFn e data))
  | .pushPacketEx data => some (Prod.map id .pushedEx (StreamEncoder.pushPacketEx outputFn e data))
  | .pushPacketChunk data chunkSize =>
    (pushPacketChunkLoop outputFn chunkSize fuel e data 0).map (Prod.map id .pushed)
  | .pushPacketChunkEx data chunkSize =>
    (pushPacketChunkExLoop outputFn chunkSize fuel e data 0).map (Prod.map id .pushedEx)

/-- Make a list of calls one after the other, and list what they return. -/
def exec (fuel : Nat) : Encoder → List Request → Option (Encoder × List Answer)
  | e, [] => some (e, [])
  | e, r :: rs =>
    (r.exec outputFn fuel e).bind fun x => (exec fuel x.1 rs).map fun y => (y.1, x.2 :: y.2)

theorem same_answer {β : Type} {o₁ o₂ : Option (Encoder × β)} (h : Option.Rel Same o₁ o₂)
    (f : β → Answer) :
    Option.Rel Same (o₁.map (Prod.map id f)) (o₂.map (Prod.map id f)) := by
  cases h with
  | none => exact .none
  | some hr => exact .some ⟨hr.1, congrArg f hr.2⟩

theorem same_request (h : Alike e₁ e₂) (fuel : Nat) (r : Request) :
    Option.Rel Same (r.exec outputFn fuel e₁) (r.exec outputFn fuel e₂) := by
  cases r with
  | setMaxSendChunk n => exact .some ⟨alike_setMaxSendChunk h n, rfl⟩
  | flush => exact same_answer (.some (same_flush outputFn h)) .status
  | flushEx => exact same_answer (.some (same_flushEx outputFn h)) .result
  | pushPacket data => exact same_answer (.some (same_pushPacket outputFn h data)) .pushed
  | pushPacketEx data => exact same_answer (.some (same_pushPacketEx outputFn h data)) .pushedEx
  | pushPacketChunk data chunkSize =>
    exact same_answer (same_pushPacketChunkLoop outputFn h chunkSize fuel data 0) .pushed
  | pushPacketChunkEx data chunkSize =>
    exact same_answer (same_pushPacketChunkExLoop outputFn h chunkSize fuel data 0) .pushedEx

theorem same_exec (h : Alike e₁ e₂) (fuel : Nat) (requests : List Request) :
    Option.Rel Same (exec outputFn fuel e₁ requests) (exec outputFn fuel e₂ requests) := by
  induction requests generalizing e₁ e₂ with
  | nil => exact .some ⟨h, rfl⟩
  | cons r requests ih =>
    have hone := same_request outputFn h fuel r
    rw [exec, exec]
    generalize r.exec outputFn fuel e₁ = o₁ at hone ⊢
    generalize r.exec outputFn fuel e₂ = o₂ at hone ⊢
    cases hone with
    | none => exact .none
    | @some x₁ x₂ hx =>
      have hrest := ih hx.1
      simp only [Option.bind_some]
      generalize exec outputFn fuel x₁.1 requests = p₁ at hrest ⊢
      generalize exec outputFn fuel x₂.1 requests = p₂ at hrest ⊢
      cases hrest with
      | none => exact .none
      | some hy => exact .some ⟨hy.1, congrArg₂ List.cons hx.2 hy.2⟩

/-- All that shows of a run: what the calls returned, what was asked of the output
callback, and what the encoder says of itself at the end. -/
def outcome (r : Encoder × List Answer) :
    List Answer × List (UInt8 × WriteStatus) × Nat × Nat × Nat :=
  (r.2, r.1.calls, queued r.1, capacity r.1, free r.1)

/-- Where the queued bytes lie in the ring, and what the other cells hold, never
shows: at any time the ring may be laid out anew. Chunked pushes that come back do so
after the same number of rounds. -/
theorem layout_unobservable {e e' : Encoder} (h : Reachable outputFn e) (hv : Valid e')
    (hview : view e' = view e) (requests : List Request) (fuel : Nat) :
    (exec outputFn fuel e' requests).map outcome = (exec outputFn fuel e requests).map outcome := by
  have hs :=
    same_exec outputFn ⟨view e, ⟨hv, hview⟩, shows_view (valid_of_reachable h)⟩ fuel requests
  generalize exec outputFn fuel e' requests = o₁ at hs ⊢
  generalize exec outputFn fuel e requests = o₂ at hs ⊢
  cases hs with
  | none => rfl
  | some hr =>
    obtain ⟨hd, hans⟩ := hr
    simp only [Option.map_some, outcome, queued, capacity, free, hans, calls_eq hd, size_eq hd,
      room_eq hd]

/-- The two bytes left over lie across the end of the ring, and in the other one
at its front. -/
theorem layout_unobservable_wrapped :
    (pushPacket (refusing 2) (new 3 1) [0x01, END, 0x03]).1.txBuf = [0x03, ESC, ESCEND] ∧
      (pushPacket (refusing 2) (new 3 1) [0x01, END, 0x03]).1.txHead = 2 ∧
      ∀ requests fuel,
        (exec (refusing 2) fuel ⟨[ESCEND, 0x03, 0xFF], 0, 2, 2, 1, false,
            [(0x01, .ok), (ESC, .ok), (ESCEND, .retryLater)]⟩ requests).map outcome =
          (exec (refusing 2) fuel (pushPacket (refusing 2) (new 3 1) [0x01, END, 0x03]).1
            requests).map outcome := by
  refine ⟨by decide, by decide, fun requests fuel => ?_⟩
  refine layout_unobservable (refusing 2) ((Reachable.new 3 1).pushPacket [0x01, END, 0x03])
    ⟨by decide, by decide, by decide⟩ ?_ requests fuel
  rfl

end SlipStream.EncoderLayout
