import SlipStream.Errors
import SlipStream.Format
import SlipStream.Transducer
import Mathlib.Logic.Function.Basic

namespace SlipStream.StreamDecoder

open Errors Format Transducer

inductive LogType where
  | unknown
  | rxBufferOverflow
  deriving DecidableEq

structure LogInfo where
  type : LogType
  error : ErrorInfo
  message : String
  deriving DecidableEq

def LogInfo.ofError (code : ErrorCode) (pos : Nat) (msg : String) : LogInfo :=
  ⟨.unknown, ⟨code, pos, msg⟩, msg⟩

/-- What a decoder does to the world around it: callback invocations, with the
bytes handed over, and stores through the `rxbuf` pointer. -/
inductive Event where
  | message (data : List UInt8)
  | log (type : LogType) (message : String)
  | logEx (info : LogInfo)
  | store (index : Nat) (value : UInt8)
  deriving DecidableEq

/-- `rxbuf` is the memory behind the pointer, inside and outside the
`rxbufSize` bytes the caller vouches for. Of the two log callbacks only
whether they are set is kept. -/
structure Decoder where
  lastCharIsEsc : Bool
  rxbuf : Nat → UInt8
  rxbufPos : UInt64
  rxbufSize : UInt64
  logCallback : Bool
  logCallbackEx : Bool
  lastError : ErrorInfo
  consumedCount : Nat

structure ConsumeResult where
  consumed : Nat
  error : ErrorInfo
  hasError : Bool
  deriving DecidableEq

def ConsumeResult.ok (consumed : Nat) : ConsumeResult := ⟨consumed, {code := .success}, false⟩

def ConsumeResult.fail (code : ErrorCode) (consumed pos : Nat) (msg : String) : ConsumeResult :=
  ⟨consumed, ⟨code, pos, msg⟩, true⟩

/-- The constructor that takes a `LogType` callback, which may be null. -/
def new (rxbuf : Nat → UInt8) (rxbufSize : UInt64) (logCallback : Bool) : Decoder :=
  ⟨false, rxbuf, 0, rxbufSize, logCallback, false, {code := .success}, 0⟩

/-- The constructor that takes a `LogInfo` callback, which may be null. -/
def newEx (rxbuf : Nat → UInt8) (rxbufSize : UInt64) (logCallbackEx : Bool) : Decoder :=
  ⟨false, rxbuf, 0, rxbufSize, false, logCallbackEx, {code := .success}, 0⟩

def reset (d : Decoder) : Decoder :=
  {d with rxbufPos := 0, lastCharIsEsc := false, lastError := {code := .success}, consumedCount := 0}

def getLastError (d : Decoder) : ErrorInfo := d.lastError

/-- `rxbuf[rxbufPos++] = b`. -/
def store (d : Decoder) (b : UInt8) : Decoder × List Event :=
  ({d with rxbuf := Function.update d.rxbuf d.rxbufPos.toNat b, rxbufPos := d.rxbufPos + 1},
    [.store d.rxbufPos.toNat b])

/-- The bytes a message callback is shown. -/
def contents (d : Decoder) : List UInt8 := (List.range d.rxbufPos.toNat).map d.rxbuf

def full (d : Decoder) : Bool := d.rxbufSize - d.rxbufPos < 2

/-- Report an overflow to the callbacks that are set, note it and reset. -/
def overflow (d : Decoder) : Decoder × List Event :=
  (reset {d with lastError := ⟨.rxBufferOverflow, d.consumedCount, "RX buffer overflow"⟩},
    (if d.logCallback then [.log .rxBufferOverflow "RX buffer overflow"] else []) ++
      if d.logCallbackEx then
        [.logEx (.ofError .rxBufferOverflow d.consumedCount "RX buffer overflow")]
      else [])

def invalidEscape (d : Decoder) : Decoder :=
  reset {d with
    lastError := ⟨.decodeInvalidEscapeSequence, d.consumedCount, "Invalid escape sequence"⟩}

def escapeDone (r : Decoder × List Event) : Decoder × List Event :=
  ({r.1 with lastCharIsEsc := false}, r.2)

def counted (r : Decoder × List Event) : Decoder × List Event :=
  ({r.1 with consumedCount := r.1.consumedCount + 1}, r.2)

/-- A byte that does not follow `ESC`. -/
def consumePlain (d : Decoder) (c : UInt8) : Decoder × List Event :=
  if c = END then (reset d, [.message (contents d)])
  else if c = ESC then ({d with lastCharIsEsc := true}, [])
  else store d c

/-- A byte that follows `ESC`, as `consume` treats it. -/
def consumeEscaped (d : Decoder) (c : UInt8) : Decoder × List Event :=
  escapeDone
    (if c = ESCEND then store d END
    else if c = ESCESC then store d ESC
    else (invalidEscape d, []))

def dispatch (d : Decoder) (c : UInt8) : Decoder × List Event :=
  if d.lastCharIsEsc then consumeEscaped d c else consumePlain d c

/-- `consume(uint8_t)`: an overflow resets the decoder, and the byte is then
looked at all the same. -/
def consumeByte (d : Decoder) (c : UInt8) : Decoder × List Event :=
  let o := if full d then overflow d else (d, [])
  let r := counted (dispatch o.1 c)
  (r.1, o.2 ++ r.2)

/-- `consume_ex(uint8_t)`: both errors return early. The position they return
is read after the reset. -/
def consumeExByte (d : Decoder) (c : UInt8) : (Decoder × List Event) × ConsumeResult :=
  if full d then
    (overflow d, .fail .rxBufferOverflow 1 (overflow d).1.consumedCount "RX buffer overflow")
  else if d.lastCharIsEsc then
    if c = ESCEND then (counted (escapeDone (store d END)), .ok 1)
    else if c = ESCESC then (counted (escapeDone (store d ESC)), .ok 1)
    else ((invalidEscape d, []), .fail .decodeInvalidEscapeSequence 1
      (invalidEscape d).consumedCount "Invalid escape sequence")
  else (counted (consumePlain d c), .ok 1)

/-- `consume(const uint8_t*, size_t)`. -/
def consume (d : Decoder) (data : List UInt8) : Decoder × List Event := run consumeByte d data

/-- `consume_ex(const uint8_t*, size_t)`, with `consumed` bytes behind it. -/
def consumeExLoop : Decoder → List UInt8 → Nat → (Decoder × List Event) × ConsumeResult
  | d, [], consumed => ((d, []), .ok consumed)
  | d, c :: cs, consumed =>
    let r := consumeExByte d c
    if r.2.hasError then
      (r.1, .fail r.2.error.code consumed r.2.error.position r.2.error.message)
    else
      let s := consumeExLoop r.1.1 cs (consumed + 1)
      ((s.1.1, r.1.2 ++ s.1.2), s.2)

def consumeEx (d : Decoder) (data : List UInt8) : (Decoder × List Event) × ConsumeResult :=
  consumeExLoop d data 0

/-- The loop of `consume_chunk` on the bytes not yet consumed. It need not
end, so it runs on fuel: one unit for each test of the loop condition. -/
def consumeChunkLoop (chunkSize : Nat) :
    Nat → Decoder → List UInt8 → Nat → Option ((Decoder × List Event) × Nat)
  | 0, _, _, _ => none
  | fuel + 1, d, data, consumed =>
    if data = [] then some ((d, []), consumed)
    else
      let toConsume := min chunkSize data.length
      let r := consume d (data.take toConsume)
      (consumeChunkLoop chunkSize fuel r.1 (data.drop toConsume) (consumed + toConsume)).map
        fun s => ((s.1.1, r.2 ++ s.1.2), s.2)

def consumeChunk (d : Decoder) (data : List UInt8) (chunkSize : Nat) :
    Option ((Decoder × List Event) × Nat) :=
  consumeChunkLoop chunkSize (data.length + 1) d data 0

def consumeChunkExLoop (chunkSize : Nat) :
    Nat → Decoder → List UInt8 → Nat → Option ((Decoder × List Event) × ConsumeResult)
  | 0, _, _, _ => none
  | fuel + 1, d, data, consumed =>
    if data = [] then some ((d, []), .ok consumed)
    else
      let toConsume := min chunkSize data.length
      let r := consumeEx d (data.take toConsume)
      if r.2.hasError then
        some (r.1, .fail r.2.error.code consumed r.2.error.position r.2.error.message)
      else
        (consumeChunkExLoop chunkSize fuel r.1.1 (data.drop r.2.consumed)
          (consumed + r.2.consumed)).map fun s => ((s.1.1, r.1.2 ++ s.1.2), s.2)

def consumeChunkEx (d : Decoder) (data : List UInt8) (chunkSize : Nat) :
    Option ((Decoder × List Event) × ConsumeResult) :=
  consumeChunkExLoop chunkSize (data.length + 1) d data 0

end SlipStream.StreamDecoder
