import SlipStream.Errors
import SlipStream.Format

namespace SlipStream.Buffer

open Errors Format

def encodedLengthLoop : List UInt8 → Nat → Nat
  | [], outlen => outlen
  | c :: cs, outlen =>
    if c = END ∨ c = ESC then encodedLengthLoop cs (outlen + 2)
    else encodedLengthLoop cs (outlen + 1)

def encodedLength (input : List UInt8) : Nat := encodedLengthLoop input 0 + 1

def encodedLengthEx (input : List UInt8) : Result := Result.ok (encodedLengthLoop input 0 + 1)

/-- The loop of `encode_packet`. `w` is what has been stored in the output
buffer so far, so the write pointer stands at index `w.length`. -/
def encodeLoop (outlen : Nat) : List UInt8 → List UInt8 → List UInt8 × Option Nat
  | [], w =>
    if w.length + 1 > outlen then (w, none) else (w ++ [END], some (w.length + 1))
  | c :: cs, w =>
    if c = END then
      if w.length + 2 ≥ outlen then (w, none) else encodeLoop outlen cs (w ++ [ESC, ESCEND])
    else if c = ESC then
      if w.length + 2 ≥ outlen then (w, none) else encodeLoop outlen cs (w ++ [ESC, ESCESC])
    else if w.length + 1 ≥ outlen then (w, none)
    else encodeLoop outlen cs (w ++ [c])

/-- The bytes stored in an output buffer of `outlen` bytes, and the returned
size; `none` is `ENCODE_ERROR`. -/
def encodePacket (input : List UInt8) (outlen : Nat) : List UInt8 × Option Nat :=
  if outlen < input.length then ([], none) else encodeLoop outlen input []

def encodeLoopEx (outlen : Nat) : List UInt8 → Nat → List UInt8 → List UInt8 × Result
  | [], pos, w =>
    if w.length + 1 > outlen then
      (w, .fail .encodeBufferTooSmall pos "Output buffer too small for END byte")
    else (w ++ [END], .ok (w.length + 1))
  | c :: cs, pos, w =>
    if c = END then
      if w.length + 2 ≥ outlen then
        (w, .fail .encodeBufferTooSmall pos "Output buffer too small for escaped END")
      else encodeLoopEx outlen cs (pos + 1) (w ++ [ESC, ESCEND])
    else if c = ESC then
      if w.length + 2 ≥ outlen then
        (w, .fail .encodeBufferTooSmall pos "Output buffer too small for escaped ESC")
      else encodeLoopEx outlen cs (pos + 1) (w ++ [ESC, ESCESC])
    else if w.length + 1 ≥ outlen then
      (w, .fail .encodeBufferTooSmall pos "Output buffer too small for data byte")
    else encodeLoopEx outlen cs (pos + 1) (w ++ [c])

def encodePacketEx (input : List UInt8) (outlen : Nat) : List UInt8 × Result :=
  if outlen < input.length then ([], .fail .encodeBufferTooSmall 0 "Output buffer too small")
  else encodeLoopEx outlen input 0 []

def decodedLengthLoop : List UInt8 → Nat → Option Nat
  | [], _ => none
  | c :: xs, outlen =>
    if c = END then some outlen
    else if c = ESC then
      match xs with
      | [] => none
      | n :: ys =>
        if n = ESCEND ∨ n = ESCESC then decodedLengthLoop ys (outlen + 1) else none
    else decodedLengthLoop xs (outlen + 1)

def decodedLength (input : List UInt8) : Option Nat := decodedLengthLoop input 0

def decodedLengthLoopEx : List UInt8 → Nat → Nat → Result
  | [], _, pos => .fail .decodeNoEndMarker pos "No END marker (0xC0) found in input data"
  | c :: xs, outlen, pos =>
    if c = END then .ok outlen
    else if c = ESC then
      match xs with
      | [] => .fail .decodeTruncatedEscape pos "Truncated escape sequence at end of input"
      | n :: ys =>
        if n = ESCEND ∨ n = ESCESC then decodedLengthLoopEx ys (outlen + 1) (pos + 1)
        else .fail .decodeInvalidEscapeSequence pos
          "Invalid escape sequence: ESC not followed by ESCEND or ESCESC"
    else decodedLengthLoopEx xs (outlen + 1) (pos + 1)

def decodedLengthEx (input : List UInt8) : Result := decodedLengthLoopEx input 0 0

def decodeLoop (outlen : Nat) : List UInt8 → List UInt8 → List UInt8 × Option Nat
  | [], w => (w, none)
  | c :: xs, w =>
    if c = END then (w, some w.length)
    else if c = ESC then
      match xs with
      | [] => (w, none)
      | n :: ys =>
        if n = ESCEND then
          if w.length ≥ outlen then (w, none) else decodeLoop outlen ys (w ++ [END])
        else if n = ESCESC then
          if w.length ≥ outlen then (w, none) else decodeLoop outlen ys (w ++ [ESC])
        else (w, none)
    else if w.length ≥ outlen then (w, none)
    else decodeLoop outlen xs (w ++ [c])

/-- The bytes stored in an output buffer of `outlen` bytes, and the returned
size; `none` is `DECODE_ERROR`. -/
def decodePacket (input : List UInt8) (outlen : Nat) : List UInt8 × Option Nat :=
  decodeLoop outlen input []

def decodeLoopEx (outlen : Nat) : List UInt8 → Nat → List UInt8 → List UInt8 × Result
  | [], pos, w => (w, .fail .decodeNoEndMarker pos "No END terminator found in input data")
  | c :: xs, pos, w =>
    if c = END then (w, .ok w.length)
    else if c = ESC then
      match xs with
      | [] =>
        (w, .fail .decodeTruncatedEscape pos "Truncated escape sequence at end of input")
      | n :: ys =>
        if n = ESCEND then
          if w.length ≥ outlen then
            (w, .fail .decodeBufferTooSmall pos "Output buffer too small for decoded data")
          else decodeLoopEx outlen ys (pos + 1) (w ++ [END])
        else if n = ESCESC then
          if w.length ≥ outlen then
            (w, .fail .decodeBufferTooSmall pos "Output buffer too small for decoded data")
          else decodeLoopEx outlen ys (pos + 1) (w ++ [ESC])
        else (w, .fail .decodeInvalidEscapeSequence pos
          "Invalid escape sequence: ESC not followed by ESCEND or ESCESC")
    else if w.length ≥ outlen then
      (w, .fail .decodeBufferTooSmall pos "Output buffer too small for data byte")
    else decodeLoopEx outlen xs (pos + 1) (w ++ [c])

def decodePacketEx (input : List UInt8) (outlen : Nat) : List UInt8 × Result :=
  decodeLoopEx outlen input 0 []

end SlipStream.Buffer
