import Mathlib.Data.List.Basic

namespace SlipStream.Errors

inductive ErrorCode where
  | success
  | encodeBufferTooSmall
  | encodeInternalError
  | decodeBufferTooSmall
  | decodeNoEndMarker
  | decodeInvalidEscapeSequence
  | decodeTruncatedEscape
  | decodeInternalError
  | rxBufferOverflow
  | unknownError
  deriving DecidableEq

structure ErrorInfo where
  code : ErrorCode
  position : Nat := 0
  message : String := ""
  deriving DecidableEq

/-- The result of an operation that yields a size: its value, or 0 and the
error that took its place. -/
structure Result where
  value : Nat
  error : ErrorInfo
  deriving DecidableEq

def Result.ok (v : Nat) : Result := ⟨v, {code := .success}⟩

def Result.fail (code : ErrorCode) (pos : Nat) (msg : String) : Result := ⟨0, ⟨code, pos, msg⟩⟩

def Result.isSuccess (r : Result) : Bool := r.error.code = .success

def Result.isError (r : Result) : Bool := r.error.code ≠ .success

end SlipStream.Errors
