import SlipStream.Errors
import SlipStream.Format
import SlipStream.Channel

namespace SlipStream.StreamEncoder

open Errors Format Channel

inductive WriteStatus where
  | ok
  | retryLater
  | error
  deriving DecidableEq

structure WriteResult where
  status : WriteStatus
  error : ErrorInfo
  deriving DecidableEq

def WriteResult.ofStatus (s : WriteStatus) : WriteResult := ⟨s, {code := .success}⟩

def WriteResult.fail (code : ErrorCode) (pos : Nat) (msg : String) : WriteResult :=
  ⟨.error, ⟨code, pos, msg⟩⟩

def WriteResult.isRetry (r : WriteResult) : Bool := r.status = .retryLater

def WriteResult.isError (r : WriteResult) : Bool := r.status = .error

structure PushPacketResult where
  status : WriteStatus
  consumed : Nat
  error : ErrorInfo
  deriving DecidableEq

def PushPacketResult.ofStatus (s : WriteStatus) (consumed : Nat) : PushPacketResult :=
  ⟨s, consumed, {code := .success}⟩

def PushPacketResult.fail (code : ErrorCode) (consumed pos : Nat) (msg : String) :
    PushPacketResult := ⟨.error, consumed, ⟨code, pos, msg⟩⟩

def PushPacketResult.isRetry (r : PushPacketResult) : Bool := r.status = .retryLater

def PushPacketResult.isError (r : PushPacketResult) : Bool := r.status = .error

/-- The output callback. It may keep a state of its own, so its answer is a
function of all its calls so far and of the byte it is given. -/
abbrev OutputFn := Sink UInt8 WriteStatus

/-- The encoder, and in `calls` every call of its output callback so far with
the answer it got. -/
structure Encoder where
  txBuf : List UInt8
  txHead : Nat
  txTail : Nat
  txSize : Nat
  maxSendChunk : Nat
  endPending : Bool
  calls : List (UInt8 × WriteStatus)
  deriving DecidableEq

def new (txBufferSize maxSendChunk : Nat) : Encoder :=
  ⟨List.replicate txBufferSize 0, 0, 0, 0, maxSendChunk, false, []⟩

def setMaxSendChunk (e : Encoder) (n : Nat) : Encoder := {e with maxSendChunk := n}

def queued (e : Encoder) : Nat := e.txSize

def capacity (e : Encoder) : Nat := e.txBuf.length

def free (e : Encoder) : Nat := e.txBuf.length - e.txSize

def queueByte (e : Encoder) (b : UInt8) : Encoder × Bool :=
  if e.txSize ≥ e.txBuf.length then (e, false)
  else
    ({e with
      txBuf := e.txBuf.set e.txTail b
      txTail := (e.txTail + 1) % e.txBuf.length
      txSize := e.txSize + 1}, true)

/-- The byte at the front, where the source writes it to a reference and
returns true, and nothing where it returns false. -/
def dequeueByte (e : Encoder) : Encoder × Option UInt8 :=
  if e.txSize = 0 then (e, none)
  else
    ({e with txHead := (e.txHead + 1) % e.txBuf.length, txSize := e.txSize - 1},
      some (e.txBuf.getD e.txHead 0))

variable (outputFn : OutputFn)

/-- `outputFn(b)`. -/
def output (e : Encoder) (b : UInt8) : Encoder × WriteStatus :=
  ({e with calls := e.calls ++ [(b, outputFn e.calls b)]}, outputFn e.calls b)

/-- The loop of `flush` while `maxSendChunk - sent` bytes may still go out. -/
def flushLoop : Nat → Encoder → Encoder × WriteStatus
  | 0, e => (e, .ok)
  | k + 1, e =>
    if e.txSize > 0 then
      let r := output outputFn e (e.txBuf.getD e.txHead 0)
      match r.2 with
      | .ok => flushLoop k (dequeueByte r.1).1
      | .retryLater => (r.1, .retryLater)
      | .error => (r.1, .error)
    else (e, .ok)

def flush (e : Encoder) : Encoder × WriteStatus := flushLoop outputFn e.maxSendChunk e

def flushExLoop : Nat → Nat → Encoder → Encoder × WriteResult
  | 0, _, e => (e, .ofStatus .ok)
  | k + 1, sent, e =>
    if e.txSize > 0 then
      let r := output outputFn e (e.txBuf.getD e.txHead 0)
      match r.2 with
      | .ok => flushExLoop k (sent + 1) (dequeueByte r.1).1
      | .retryLater => (r.1, .ofStatus .retryLater)
      | .error => (r.1, .fail .encodeInternalError sent "Output function returned error")
    else (e, .ofStatus .ok)

def flushEx (e : Encoder) : Encoder × WriteResult := flushExLoop outputFn e.maxSendChunk 0 e

def ensureFree (e : Encoder) (n : Nat) : Encoder × WriteStatus :=
  if e.txBuf.length - e.txSize ≥ n then (e, .ok)
  else
    let r := flush outputFn e
    if r.2 ≠ .ok then r
    else (r.1, if r.1.txBuf.length - r.1.txSize ≥ n then .ok else .retryLater)

/-- The two branches of `encodeOne` that queue `ESC` and a second byte. -/
def encodeEscaped (e : Encoder) (mark : UInt8) : Encoder × WriteStatus × Nat :=
  let r := ensureFree outputFn e 2
  if r.2 ≠ .ok then (r.1, r.2, 0)
  else
    let q := queueByte r.1 ESC
    if q.2 = false then (q.1, .retryLater, 0)
    else
      let q' := queueByte q.1 mark
      if q'.2 = false then (q'.1, .retryLater, 0) else (q'.1, .ok, 1)

def encodePlain (e : Encoder) (c : UInt8) : Encoder × WriteStatus × Nat :=
  let r := ensureFree outputFn e 1
  if r.2 ≠ .ok then (r.1, r.2, 0)
  else
    let q := queueByte r.1 c
    if q.2 = false then (q.1, .retryLater, 0) else (q.1, .ok, 1)

def encodeOne (e : Encoder) : List UInt8 → Encoder × WriteStatus × Nat
  | [] => (e, .ok, 0)
  | c :: _ =>
    if c = END then encodeEscaped outputFn e ESCEND
    else if c = ESC then encodeEscaped outputFn e ESCESC
    else encodePlain outputFn e c

/-- The part of `pushPacket` that makes up for an `END` a call before could
not queue. -/
def pushPending (e : Encoder) : Encoder × WriteStatus :=
  if e.endPending then
    let r := ensureFree outputFn e 1
    if r.2 ≠ .ok then r
    else flush outputFn {(queueByte r.1 END).1 with endPending := false}
  else (e, .ok)

/-- The payload loop of `pushPacket`, on the bytes not yet consumed. A call of
`encodeOne` that succeeds here takes exactly one byte. -/
def pushLoop : Encoder → List UInt8 → Nat → Encoder × WriteStatus × Nat
  | e, [], consumed => (e, .ok, consumed)
  | e, c :: cs, consumed =>
    let r := encodeOne outputFn e (c :: cs)
    if r.2.1 ≠ .ok then (r.1, r.2.1, consumed)
    else
      let s := flush outputFn r.1
      if s.2 ≠ .ok then (s.1, s.2, consumed + r.2.2)
      else pushLoop s.1 cs (consumed + r.2.2)

/-- The part of `pushPacket` that appends `END`. -/
def pushEnd (e : Encoder) : Encoder × WriteStatus :=
  let r := ensureFree outputFn e 1
  if r.2 ≠ .ok then
    (if r.2 = .retryLater then {r.1 with endPending := true} else r.1, r.2)
  else flush outputFn (queueByte r.1 END).1

def pushPacket (e : Encoder) (data : List UInt8) : Encoder × WriteStatus × Nat :=
  let f := flush outputFn e
  if f.2 ≠ .ok then (f.1, f.2, 0)
  else
    let p := pushPending outputFn f.1
    if p.2 ≠ .ok then (p.1, p.2, 0)
    else
      let l := pushLoop outputFn p.1 data 0
      if l.2.1 ≠ .ok then l
      else
        let t := pushEnd outputFn l.1
        (t.1, t.2, l.2.2)

/-- How `pushPacket_ex` hands on a failed `flush_ex`. -/
def PushPacketResult.ofFlush (r : WriteResult) (consumed : Nat) : PushPacketResult :=
  if r.isError then .fail r.error.code consumed consumed r.error.message
  else .ofStatus .retryLater consumed

/-- How `pushPacket_ex` hands on a failed `ensureFree` or `encodeOne`. -/
def PushPacketResult.ofFailed (st : WriteStatus) (consumed : Nat) (msg : String) :
    PushPacketResult :=
  if st = .retryLater then .ofStatus .retryLater consumed
  else .fail .encodeInternalError consumed consumed msg

/-- A step of `pushPacket_ex` that may end the call with a result. -/
abbrev StepEx := Encoder × Option PushPacketResult

def flushStepEx (e : Encoder) (consumed : Nat) : StepEx :=
  let r := flushEx outputFn e
  (r.1, if r.2.isError || r.2.isRetry then some (.ofFlush r.2 consumed) else none)

def pushPendingEx (e : Encoder) : StepEx :=
  if e.endPending then
    let r := ensureFree outputFn e 1
    if r.2 ≠ .ok then
      (r.1, some (.ofFailed r.2 0 "Failed to ensure free space for pending END"))
    else flushStepEx outputFn {(queueByte r.1 END).1 with endPending := false} 0
  else (e, none)

def pushLoopEx : Encoder → List UInt8 → Nat → StepEx × Nat
  | e, [], consumed => ((e, none), consumed)
  | e, c :: cs, consumed =>
    let r := encodeOne outputFn e (c :: cs)
    if r.2.1 ≠ .ok then ((r.1, some (.ofFailed r.2.1 consumed "Failed to encode byte")), consumed)
    else
      let s := flushStepEx outputFn r.1 (consumed + r.2.2)
      if s.2.isSome then (s, consumed + r.2.2)
      else pushLoopEx s.1 cs (consumed + r.2.2)

/-- An error of `ensureFree` is reported as `RetryLater` here. -/
def pushEndEx (e : Encoder) (consumed : Nat) : StepEx :=
  let r := ensureFree outputFn e 1
  if r.2 ≠ .ok then
    (if r.2 = .retryLater then {r.1 with endPending := true} else r.1,
      some (.ofStatus .retryLater consumed))
  else flushStepEx outputFn (queueByte r.1 END).1 consumed

def pushPacketEx (e : Encoder) (data : List UInt8) : Encoder × PushPacketResult :=
  let f := flushStepEx outputFn e 0
  match f.2 with
  | some res => (f.1, res)
  | none =>
    let p := pushPendingEx outputFn f.1
    match p.2 with
    | some res => (p.1, res)
    | none =>
      let l := pushLoopEx outputFn p.1 data 0
      match l.1.2 with
      | some res => (l.1.1, res)
      | none =>
        let t := pushEndEx outputFn l.1.1 l.2
        (t.1, t.2.getD (.ofStatus .ok l.2))

/-- The loop of `pushPacket_chunk` on the bytes not yet consumed, on fuel: one
unit for each test of the loop condition. With chunk size 0 it pushes empty packets
until one is refused, and no fuel may be enough. -/
def pushPacketChunkLoop (chunkSize : Nat) :
    Nat → Encoder → List UInt8 → Nat → Option (Encoder × WriteStatus × Nat)
  | 0, _, _, _ => none
  | fuel + 1, e, data, consumed =>
    if data = [] then some (e, .ok, consumed)
    else
      let r := pushPacket outputFn e (data.take (min chunkSize data.length))
      if r.2.1 ≠ .ok then some (r.1, r.2.1, consumed)
      else pushPacketChunkLoop chunkSize fuel r.1 (data.drop r.2.2) (consumed + r.2.2)

/-- The fuel is enough for every chunk size but 0. With chunk size 0 this answers only
for calls that come back within it, and the loop itself for those that come back later. -/
def pushPacketChunk (e : Encoder) (data : List UInt8) (chunkSize : Nat) :
    Option (Encoder × WriteStatus × Nat) :=
  pushPacketChunkLoop outputFn chunkSize (data.length + 1) e data 0

def pushPacketChunkExLoop (chunkSize : Nat) :
    Nat → Encoder → List UInt8 → Nat → Option (Encoder × PushPacketResult)
  | 0, _, _, _ => none
  | fuel + 1, e, data, consumed =>
    if data = [] then some (e, .ofStatus .ok consumed)
    else
      let r := pushPacketEx outputFn e (data.take (min chunkSize data.length))
      if r.2.isRetry then some (r.1, .ofStatus .retryLater consumed)
      else if r.2.isError then
        some (r.1, .fail r.2.error.code consumed consumed r.2.error.message)
      else
        pushPacketChunkExLoop chunkSize fuel r.1 (data.drop r.2.consumed) (consumed + r.2.consumed)

def pushPacketChunkEx (e : Encoder) (data : List UInt8) (chunkSize : Nat) :
    Option (Encoder × PushPacketResult) :=
  pushPacketChunkExLoop outputFn chunkSize (data.length + 1) e data 0

end SlipStream.StreamEncoder
