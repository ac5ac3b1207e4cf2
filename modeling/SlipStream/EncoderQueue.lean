import SlipStream.RingBuffer
import SlipStream.StreamEncoder

namespace SlipStream.EncoderQueue

open Format Channel RingBuffer StreamEncoder

structure Valid (e : Encoder) : Prop where
  size_le : e.txSize ≤ e.txBuf.length
  head_lt : 0 < e.txBuf.length → e.txHead < e.txBuf.length
  tail_eq : 0 < e.txBuf.length → e.txTail = (e.txHead + e.txSize) % e.txBuf.length

/-- The bytes waiting in the ring, oldest first. -/
def queue (e : Encoder) : List UInt8 := window e.txBuf 0 e.txHead e.txSize

/-- The encoder without the layout of its ring. -/
structure View where
  link : Link UInt8 WriteStatus
  capacity : Nat
  maxSendChunk : Nat
  endPending : Bool

def view (e : Encoder) : View := ⟨⟨queue e, e.calls⟩, capacity e, e.maxSendChunk, e.endPending⟩

/-- The encoder is in a valid state and looks like `v` from outside. -/
def Shows (e : Encoder) (v : View) : Prop := Valid e ∧ view e = v

theorem valid_new (txBufferSize maxSendChunk : Nat) : Valid (new txBufferSize maxSendChunk) := by
  refine ⟨Nat.zero_le _, ?_, ?_⟩
  · intro h
    exact h
  · intro _
    exact (Nat.zero_mod _).symm

theorem shows_view {e : Encoder} (h : Valid e) : Shows e (view e) := ⟨h, rfl⟩

theorem length_queue {e : Encoder} {v : View} (h : Shows e v) : v.link.queue.length = e.txSize := by
  obtain ⟨_, rfl⟩ := h
  exact length_window _ _ _ _

theorem length_le_capacity {e : Encoder} {v : View} (h : Shows e v) :
    v.link.queue.length ≤ v.capacity := by
  rw [length_queue h]
  obtain ⟨hv, rfl⟩ := h
  exact hv.size_le

theorem shows_setMaxSendChunk {e : Encoder} {v : View} (h : Shows e v) (n : Nat) :
    Shows (setMaxSendChunk e n) {v with maxSendChunk := n} := by
  obtain ⟨hv, rfl⟩ := h
  exact ⟨⟨hv.size_le, hv.head_lt, hv.tail_eq⟩, rfl⟩

theorem shows_endPending {e : Encoder} {v : View} (h : Shows e v) (b : Bool) :
    Shows {e with endPending := b} {v with endPending := b} := by
  obtain ⟨hv, rfl⟩ := h
  exact ⟨⟨hv.size_le, hv.head_lt, hv.tail_eq⟩, rfl⟩

theorem shows_queueByte {e : Encoder} {v : View} (h : Shows e v) (b : UInt8)
    (hroom : v.link.queue.length < v.capacity) :
    Shows (queueByte e b).1 {v with link := push v.link [b]} ∧ (queueByte e b).2 = true := by
  rw [length_queue h] at hroom
  obtain ⟨hv, rfl⟩ := h
  change e.txSize < e.txBuf.length at hroom
  have hpos : 0 < e.txBuf.length := by omega
  have hq : queueByte e b = ({e with
      txBuf := e.txBuf.set e.txTail b
      txTail := (e.txTail + 1) % e.txBuf.length
      txSize := e.txSize + 1}, true) := if_neg (by omega)
  rw [hq]
  refine ⟨⟨⟨?_, ?_, ?_⟩, ?_⟩, rfl⟩
  · simp only [List.length_set]
    omega
  · intro _
    simpa using hv.head_lt hpos
  · intro _
    simp only [List.length_set]
    rw [hv.tail_eq hpos, Nat.mod_add_mod, Nat.add_assoc]
  · have hw := window_push e.txBuf 0 e.txHead e.txSize b hroom
    rw [← hv.tail_eq hpos] at hw
    simp [view, queue, capacity, push, hw]

/-- What `flush` does once the output callback has taken the byte at the front. -/
theorem shows_dequeueByte {e : Encoder} {v : View} (h : Shows e v) {b : UInt8} {q : List UInt8}
    (hq : v.link.queue = b :: q) (calls : List (UInt8 × WriteStatus)) :
    Shows (dequeueByte {e with calls := calls}).1 {v with link := ⟨q, calls⟩} ∧
      e.txBuf.getD e.txHead 0 = b := by
  have hlen := length_queue h
  rw [hq, List.length_cons] at hlen
  obtain ⟨hv, rfl⟩ := h
  have hle := hv.size_le
  have hpos : 0 < e.txBuf.length := by omega
  have hsize : e.txSize = e.txSize - 1 + 1 := by omega
  have hw : queue e = e.txBuf.getD e.txHead 0 ::
      window e.txBuf 0 ((e.txHead + 1) % e.txBuf.length) (e.txSize - 1) := by
    simp only [queue]
    rw [← window_pop _ _ _ _ (hv.head_lt hpos), ← hsize]
  change queue e = b :: q at hq
  rw [hq] at hw
  obtain ⟨hb, hrest⟩ := List.cons_eq_cons.mp hw
  have hd : dequeueByte {e with calls := calls} = ({e with
      txHead := (e.txHead + 1) % e.txBuf.length
      txSize := e.txSize - 1
      calls := calls}, some (e.txBuf.getD e.txHead 0)) := if_neg (by simp; omega)
  rw [hd]
  refine ⟨⟨⟨?_, ?_, ?_⟩, ?_⟩, hb.symm⟩
  · simp only
    omega
  · intro _
    exact Nat.mod_lt _ hpos
  · intro _
    simp only
    rw [hv.tail_eq hpos, Nat.mod_add_mod]
    congr 1
    omega
  · simp [view, queue, capacity, hrest]

variable (outputFn : OutputFn)

theorem shows_output {e : Encoder} {v : View} (h : Shows e v) (b : UInt8) :
    Shows (output outputFn e b).1
      {v with link := ⟨v.link.queue, v.link.calls ++ [(b, outputFn v.link.calls b)]⟩} ∧
      (output outputFn e b).2 = outputFn v.link.calls b := by
  obtain ⟨hv, rfl⟩ := h
  exact ⟨⟨⟨hv.size_le, hv.head_lt, hv.tail_eq⟩, rfl⟩, rfl⟩

/-- `flush` drains the queue into the output callback. -/
theorem shows_flushLoop {e : Encoder} {v : View} (h : Shows e v) (k : Nat) :
    Shows (flushLoop outputFn k e).1 {v with link := (drain outputFn .ok k v.link).1} ∧
      (flushLoop outputFn k e).2 = (drain outputFn .ok k v.link).2 := by
  induction k generalizing e v with
  | zero => exact ⟨h, rfl⟩
  | succ k ih =>
    obtain ⟨⟨q, calls⟩, cap, m, p⟩ := v
    have hlen := length_queue h
    cases q with
    | nil =>
      have hz : ¬ e.txSize > 0 := by simpa using hlen.symm.le
      simp only [flushLoop, if_neg hz, drain]
      exact ⟨h, trivial⟩
    | cons b q =>
      have hpos : e.txSize > 0 := by simp only [List.length_cons] at hlen; omega
      have hcalls : e.calls = calls := congrArg (fun v => v.link.calls) h.2
      obtain ⟨hdeq, hb⟩ := shows_dequeueByte h rfl (calls ++ [(b, .ok)])
      obtain ⟨hout, hst⟩ := shows_output outputFn h b
      simp only [flushLoop, if_pos hpos, hb]
      cases hs : outputFn calls b with
      | ok =>
        have he : (output outputFn e b).1 = {e with calls := calls ++ [(b, .ok)]} := by
          simp [output, hcalls, hs]
        simp only [hst, hs, drain, ↓reduceIte, he]
        exact ih hdeq
      | retryLater =>
        simp only [hs] at hout
        simpa [hst, hs, drain] using hout
      | error =>
        simp only [hs] at hout
        simpa [hst, hs, drain] using hout

theorem shows_flush {e : Encoder} {v : View} (h : Shows e v) :
    Shows (flush outputFn e).1 {v with link := (drain outputFn .ok v.maxSendChunk v.link).1} ∧
      (flush outputFn e).2 = (drain outputFn .ok v.maxSendChunk v.link).2 := by
  have hm : e.maxSendChunk = v.maxSendChunk := congrArg View.maxSendChunk h.2
  simp only [flush]
  rw [hm]
  exact shows_flushLoop outputFn h _

theorem room_iff {e : Encoder} {v : View} (h : Shows e v) (n : Nat) :
    e.txBuf.length - e.txSize ≥ n ↔ v.link.queue.length + n ≤ v.capacity := by
  have hle := length_le_capacity h
  have hcap : e.txBuf.length = v.capacity := congrArg View.capacity h.2
  have hlen := length_queue h
  omega

theorem ensureFree_room {e : Encoder} {v : View} (h : Shows e v) {n : Nat}
    (hroom : v.link.queue.length + n ≤ v.capacity) : ensureFree outputFn e n = (e, .ok) :=
  if_pos ((room_iff h n).mpr hroom)

theorem ensureFree_full {e : Encoder} {v : View} (h : Shows e v) {n : Nat}
    (hfull : v.capacity < v.link.queue.length + n) :
    Shows (ensureFree outputFn e n).1
      {v with link := (drain outputFn .ok v.maxSendChunk v.link).1} ∧
    ((ensureFree outputFn e n).2 = .ok ↔
      (drain outputFn .ok v.maxSendChunk v.link).2 = .ok ∧
      (drain outputFn .ok v.maxSendChunk v.link).1.queue.length + n ≤ v.capacity) := by
  obtain ⟨hs, hst⟩ := shows_flush outputFn h
  have hno : ¬ e.txBuf.length - e.txSize ≥ n := by
    rw [room_iff h]
    omega
  have hroom := room_iff hs n
  simp only [ensureFree, if_neg hno]
  rw [← hst]
  by_cases hok : (flush outputFn e).2 = .ok
  · rw [if_neg (not_not.mpr hok)]
    refine ⟨hs, ?_⟩
    simp only [hok, true_and]
    rw [← hroom]
    split_ifs with hr
    · simp [hr]
    · simp [hr]
  · rw [if_pos hok]
    simp [hok, hs]

end SlipStream.EncoderQueue
