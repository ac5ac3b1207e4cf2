import SlipStream.EncoderQueue
import SlipStream.Transducer

namespace SlipStream.EncoderFifo

open RingBuffer Transducer StreamEncoder EncoderQueue

/-- One call of `queueByte` or `dequeueByte` and what it returns. -/
def ring (e : Encoder) : Op UInt8 → Encoder × List (Answer UInt8)
  | .push b => ((queueByte e b).1, [.pushed (queueByte e b).2])
  | .pop => ((dequeueByte e).1, [.popped (dequeueByte e).2])

def store (buf : List UInt8) (i : Nat) (b : UInt8) : Option (List UInt8) :=
  if i < buf.length then some (buf.set i b) else none

def modulo (a n : Nat) : Option Nat := if n = 0 then none else some (a % n)

/-- `queueByte` with every operation that has no defined result spelled out: an
index behind the buffer and a modulus of zero yield `none`. -/
def checkedQueueByte (e : Encoder) (b : UInt8) : Option (Encoder × Bool) :=
  if e.txSize ≥ e.txBuf.length then some (e, false)
  else do
    let txBuf ← store e.txBuf e.txTail b
    let txTail ← modulo (e.txTail + 1) e.txBuf.length
    some ({e with txBuf := txBuf, txTail := txTail, txSize := e.txSize + 1}, true)

def checkedDequeueByte (e : Encoder) : Option (Encoder × Option UInt8) :=
  if e.txSize = 0 then some (e, none)
  else do
    let b ← e.txBuf[e.txHead]?
    let txHead ← modulo (e.txHead + 1) e.txBuf.length
    some ({e with txHead := txHead, txSize := e.txSize - 1}, some b)

def checkedRing (e : Encoder) : Op UInt8 → Option (Encoder × List (Answer UInt8))
  | .push b => (checkedQueueByte e b).map fun r => (r.1, [.pushed r.2])
  | .pop => (checkedDequeueByte e).map fun r => (r.1, [.popped r.2])

def checkedRun : Encoder → List (Op UInt8) → Option (Encoder × List (Answer UInt8))
  | e, [] => some (e, [])
  | e, op :: ops => do
    let r ← checkedRing e op
    let r' ← checkedRun r.1 ops
    some (r'.1, r.2 ++ r'.2)

/-- The ring of `e` holds the queue `q` of at most `cap` bytes. -/
structure Holds (cap : Nat) (e : Encoder) (q : List UInt8) : Prop where
  valid : Valid e
  queue_eq : queue e = q
  capacity_eq : e.txBuf.length = cap

theorem length_of_holds {cap : Nat} {e : Encoder} {q : List UInt8} (h : Holds cap e q) :
    q.length = e.txSize := by
  rw [← h.queue_eq]
  exact length_window _ _ _ _

theorem holds_new (txBufferSize maxSendChunk : Nat) :
    Holds txBufferSize (new txBufferSize maxSendChunk) [] :=
  ⟨valid_new _ _, rfl, List.length_replicate⟩

theorem queueByte_of_full {cap : Nat} {e : Encoder} {q : List UInt8} (h : Holds cap e q)
    (hfull : ¬ q.length < cap) (b : UInt8) : queueByte e b = (e, false) := by
  rw [length_of_holds h, ← h.capacity_eq] at hfull
  exact if_pos (Nat.le_of_not_lt hfull)

theorem queueByte_of_room {cap : Nat} {e : Encoder} {q : List UInt8} (h : Holds cap e q)
    (hroom : q.length < cap) (b : UInt8) :
    Holds cap (queueByte e b).1 (q ++ [b]) ∧ (queueByte e b).2 = true := by
  obtain ⟨hv, rfl, rfl⟩ := h
  obtain ⟨⟨hvalid, hview⟩, htrue⟩ := shows_queueByte (shows_view hv) b hroom
  refine ⟨⟨hvalid, ?_, ?_⟩, htrue⟩
  · exact congrArg (fun v => v.link.queue) hview
  · exact congrArg View.capacity hview

theorem dequeueByte_of_empty {cap : Nat} {e : Encoder} (h : Holds cap e []) :
    dequeueByte e = (e, none) := if_pos (length_of_holds h).symm

theorem dequeueByte_of_cons {cap : Nat} {e : Encoder} {b : UInt8} {q : List UInt8}
    (h : Holds cap e (b :: q)) :
    Holds cap (dequeueByte e).1 q ∧ (dequeueByte e).2 = some b := by
  have hsize : ¬ e.txSize = 0 := by
    rw [← length_of_holds h]
    exact Nat.succ_ne_zero _
  obtain ⟨hv, hq, rfl⟩ := h
  obtain ⟨⟨hvalid, hview⟩, hb⟩ := shows_dequeueByte (shows_view hv) hq e.calls
  refine ⟨⟨hvalid, ?_, ?_⟩, ?_⟩
  · exact congrArg (fun v => v.link.queue) hview
  · exact congrArg View.capacity hview
  · rw [dequeueByte, if_neg hsize, hb]

/-- One call on the ring is one operation on the queue it holds. -/
theorem ring_step {cap : Nat} {e : Encoder} {q : List UInt8} (op : Op UInt8)
    (h : Holds cap e q) :
    Holds cap (ring e op).1 (fifo cap q op).1 ∧ (ring e op).2 = (fifo cap q op).2 := by
  cases op with
  | push b =>
    by_cases hroom : q.length < cap
    · obtain ⟨hholds, htrue⟩ := queueByte_of_room h hroom b
      simp only [ring, fifo, if_pos hroom, htrue]
      exact ⟨hholds, trivial⟩
    · simp only [ring, fifo, if_neg hroom, queueByte_of_full h hroom b]
      exact ⟨h, trivial⟩
  | pop =>
    cases q with
    | nil =>
      simp only [ring, fifo, dequeueByte_of_empty h]
      exact ⟨h, trivial⟩
    | cons b q =>
      obtain ⟨hholds, hsome⟩ := dequeueByte_of_cons h
      simp only [ring, fifo, hsome]
      exact ⟨hholds, trivial⟩

theorem ring_run {cap : Nat} {e : Encoder} {q : List UInt8} (ops : List (Op UInt8))
    (h : Holds cap e q) :
    Holds cap (run ring e ops).1 (run (fifo cap) q ops).1 ∧
      (run ring e ops).2 = (run (fifo cap) q ops).2 := by
  have hstep (e : Encoder) (q : List UInt8) (op : Op UInt8) (h : Holds cap e q) :
      Holds cap (ring e op).1 (fifo cap q (id op)).1 ∧
        (ring e op).2.filterMap some = (fifo cap q (id op)).2.filterMap some := by
    obtain ⟨hholds, hout⟩ := ring_step op h
    exact ⟨hholds, congrArg (List.filterMap some) hout⟩
  have hsim := run_simulates id some some hstep ops h
  simpa only [List.map_id, List.filterMap_some] using hsim

theorem checkedQueueByte_eq {cap : Nat} {e : Encoder} {q : List UInt8} (h : Holds cap e q)
    (b : UInt8) : checkedQueueByte e b = some (queueByte e b) := by
  by_cases hfull : e.txSize ≥ e.txBuf.length
  · rw [checkedQueueByte, queueByte, if_pos hfull, if_pos hfull]
  · have hpos : 0 < e.txBuf.length := by omega
    have htail : e.txTail < e.txBuf.length := by
      rw [h.valid.tail_eq hpos]
      exact Nat.mod_lt _ hpos
    rw [checkedQueueByte, queueByte, if_neg hfull, if_neg hfull, store, if_pos htail, modulo,
      if_neg (by omega)]
    rfl

theorem checkedDequeueByte_eq {cap : Nat} {e : Encoder} {q : List UInt8} (h : Holds cap e q) :
    checkedDequeueByte e = some (dequeueByte e) := by
  by_cases hempty : e.txSize = 0
  · rw [checkedDequeueByte, dequeueByte, if_pos hempty, if_pos hempty]
  · have hle := h.valid.size_le
    have hpos : 0 < e.txBuf.length := by omega
    have hhead := h.valid.head_lt hpos
    rw [checkedDequeueByte, dequeueByte, if_neg hempty, if_neg hempty, modulo,
      if_neg (by omega), List.getElem?_eq_getElem hhead, List.getD_eq_getElem _ _ hhead]
    rfl

theorem checkedRing_eq {cap : Nat} {e : Encoder} {q : List UInt8} (h : Holds cap e q)
    (op : Op UInt8) : checkedRing e op = some (ring e op) := by
  cases op with
  | push b => rw [checkedRing, checkedQueueByte_eq h]; rfl
  | pop => rw [checkedRing, checkedDequeueByte_eq h]; rfl

theorem checkedRun_eq {cap : Nat} {e : Encoder} {q : List UInt8} (ops : List (Op UInt8))
    (h : Holds cap e q) : checkedRun e ops = some (run ring e ops) := by
  induction ops generalizing e q with
  | nil => rfl
  | cons op ops ih =>
    simp only [checkedRun, checkedRing_eq h, Option.bind_eq_bind, Option.bind_some,
      ih (ring_step op h).1, run_cons]

/-- Every sequence of `queueByte` and `dequeueByte` calls on a new encoder gets
the answers of a queue of that capacity and keeps the ring consistent. The next
call does what it would do to the queue, or leaves the encoder as it is, and
nothing undefined is evaluated on the way. -/
theorem ring_refines_fifo (txBufferSize maxSendChunk : Nat) (ops : List (Op UInt8)) :
    let e := (run ring (new txBufferSize maxSendChunk) ops).1
    Valid e ∧ capacity e = txBufferSize ∧
      queue e = (run (fifo txBufferSize) [] ops).1 ∧
      (run ring (new txBufferSize maxSendChunk) ops).2 = (run (fifo txBufferSize) [] ops).2 ∧
      (∀ b, ((queueByte e b).2 = true ↔ (queue e).length < txBufferSize) ∧
        ((queue e).length < txBufferSize → queue (queueByte e b).1 = queue e ++ [b]) ∧
        (¬ (queue e).length < txBufferSize → queueByte e b = (e, false))) ∧
      (∀ b q, queue e = b :: q →
        (dequeueByte e).2 = some b ∧ queue (dequeueByte e).1 = q) ∧
      (queue e = [] → dequeueByte e = (e, none)) ∧
      checkedRun (new txBufferSize maxSendChunk) ops =
        some (run ring (new txBufferSize maxSendChunk) ops) ∧
      ∀ op, checkedRing e op = some (ring e op) := by
  have hnew := holds_new txBufferSize maxSendChunk
  obtain ⟨hholds, houts⟩ := ring_run ops hnew
  intro e
  have hown : Holds txBufferSize e (queue e) := ⟨hholds.valid, rfl, hholds.capacity_eq⟩
  refine ⟨hholds.valid, hholds.capacity_eq, hholds.queue_eq, houts, ?_, ?_, ?_,
    checkedRun_eq ops hnew, checkedRing_eq hholds⟩
  · intro b
    refine ⟨⟨?_, ?_⟩, ?_, ?_⟩
    · intro htrue
      by_contra hfull
      rw [queueByte_of_full hown hfull b] at htrue
      cases htrue
    · exact fun hroom => (queueByte_of_room hown hroom b).2
    · exact fun hroom => (queueByte_of_room hown hroom b).1.queue_eq
    · exact fun hfull => queueByte_of_full hown hfull b
  · intro b q hq
    rw [hq] at hown
    obtain ⟨hrest, hsome⟩ := dequeueByte_of_cons hown
    exact ⟨hsome, hrest.queue_eq⟩
  · intro hq
    rw [hq] at hown
    exact dequeueByte_of_empty hown

-- the third push goes to slot 0 again, in front of the head
example :
    (run ring (new 2 1) [.push 0x01, .push 0x02, .pop, .push 0x03, .push 0x04, .pop, .pop]).2 =
      [.pushed true, .pushed true, .popped (some 0x01), .pushed true, .pushed false,
        .popped (some 0x02), .popped (some 0x03)] := by
  decide

end SlipStream.EncoderFifo
