import SlipStream.Stuffing

namespace SlipStream.Format

open Stuffing

def END : UInt8 := 0xC0
def ESC : UInt8 := 0xDB
def ESCEND : UInt8 := 0xDC
def ESCESC : UInt8 := 0xDD

def slip : Code UInt8 where
  stop := END
  esc := ESC
  stopMark := ESCEND
  escMark := ESCESC
  esc_ne_stop := by decide
  stopMark_ne_stop := by decide
  escMark_ne_stop := by decide
  stopMark_ne_escMark := by decide

/-- The payload bytes as they stand on the wire, without the final `END`. -/
def escape (p : List UInt8) : List UInt8 := stuff slip p

/-- What the wire carries for one payload. -/
def packet (p : List UInt8) : List UInt8 := escape p ++ [END]

@[simp] theorem escape_nil : escape [] = [] := rfl

theorem escape_cons (c : UInt8) (p : List UInt8) :
    escape (c :: p) = stuffOne slip c ++ escape p := rfl

theorem escape_append (p q : List UInt8) : escape (p ++ q) = escape p ++ escape q :=
  stuff_append slip p q

theorem escapeOne_END : stuffOne slip END = [ESC, ESCEND] := rfl

theorem escapeOne_ESC : stuffOne slip ESC = [ESC, ESCESC] := rfl

theorem escapeOne_other {c : UInt8} (hs : c ≠ END) (he : c ≠ ESC) : stuffOne slip c = [c] :=
  stuffOne_other slip hs he

theorem scan_END (xs : List UInt8) : scan slip (END :: xs) = ([], .stopped xs) := scan_stop slip xs

theorem scan_ESCEND (xs : List UInt8) :
    scan slip (ESC :: ESCEND :: xs) = (END :: (scan slip xs).1, (scan slip xs).2) :=
  scan_stopMark slip xs

theorem scan_ESCESC (xs : List UInt8) :
    scan slip (ESC :: ESCESC :: xs) = (ESC :: (scan slip xs).1, (scan slip xs).2) :=
  scan_escMark slip xs

theorem scan_invalid {c : UInt8} (hs : c ≠ ESCEND) (he : c ≠ ESCESC) (xs : List UInt8) :
    scan slip (ESC :: c :: xs) = ([], .badEscape c xs) := scan_badEscape slip hs he xs

theorem scan_ESC : scan slip [ESC] = ([], .truncated) := scan_truncated slip

theorem scan_data {c : UInt8} (hs : c ≠ END) (he : c ≠ ESC) (xs : List UInt8) :
    scan slip (c :: xs) = (c :: (scan slip xs).1, (scan slip xs).2) := scan_other slip hs he xs

theorem END_notMem_escape (p : List UInt8) : END ∉ escape p := stop_notMem_stuff slip p

theorem length_le_escape (p : List UInt8) : p.length ≤ (escape p).length := by
  induction p with
  | nil => simp
  | cons c p ih =>
    have hc : 1 ≤ (stuffOne slip c).length := by
      simp only [stuffOne]
      split_ifs <;> simp
    rw [escape_cons, List.length_append, List.length_cons]
    omega

end SlipStream.Format
