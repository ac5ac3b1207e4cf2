import SlipStream.EncoderSteps

namespace SlipStream.EncoderPacing

open Format Stuffing Channel StreamEncoder EncoderQueue EncoderSteps

theorem length_stuffOne (c : UInt8) :
    1 ≤ (stuffOne slip c).length ∧ (stuffOne slip c).length ≤ 2 := by
  simp only [stuffOne]
  split_ifs <;> simp

/-- The bytes that `ensureFree` offers to the output callback. -/
def forced (cap m n w : Nat) : Nat := if n + w ≤ cap then 0 else min m n

/-- The bytes left waiting after a payload byte whose escaped form has length
`w`, with `n` waiting before it, if no byte is refused. -/
def waiting (cap m n w : Nat) : Nat := n - forced cap m n w + w - m

def backlog (cap m : Nat) : Nat → List UInt8 → Nat
  | n, [] => n
  | n, c :: cs => backlog cap m (waiting cap m n (stuffOne slip c).length) cs

theorem forced_le (cap m n w : Nat) : forced cap m n w ≤ n := by
  simp only [forced]
  split_ifs <;> omega

theorem forced_room {cap m n w : Nat} (hm : 1 ≤ m) (hcap : 2 ≤ cap) (hn : n < cap) (hw : w ≤ 2) :
    n - forced cap m n w + w ≤ cap := by
  simp only [forced]
  split_ifs <;> omega

theorem waiting_le (cap m n w : Nat) : waiting cap m n w ≤ n + w := by
  simp only [waiting]
  omega

theorem waiting_lt {cap m n w : Nat} (hcap : 2 ≤ cap) (hm : 1 ≤ m) (hn : n < cap) (hw : w ≤ 2) :
    waiting cap m n w < cap := by
  simp only [waiting, forced]
  split_ifs <;> omega

theorem backlog_le (cap m n : Nat) (data : List UInt8) :
    backlog cap m n data ≤ n + (escape data).length := by
  induction data generalizing n with
  | nil => exact Nat.le_add_right _ _
  | cons c cs ih =>
    have h := ih (waiting cap m n (stuffOne slip c).length)
    have hw := waiting_le cap m n (stuffOne slip c).length
    rw [escape_cons, List.length_append]
    simp only [backlog]
    omega

theorem backlog_lt {cap m n : Nat} (hcap : 2 ≤ cap) (hm : 1 ≤ m) (hn : n < cap)
    (data : List UInt8) : backlog cap m n data < cap := by
  induction data generalizing n with
  | nil => exact hn
  | cons c cs ih => exact ih (waiting_lt hcap hm hn (length_stuffOne c).2)

/-- From `v`, the encoder gets to `e` by taking in `xs`. It succeeds when the
callback takes the next `sent` bytes, and those are then gone. -/
def Paced (outputFn : OutputFn) (v : View) (xs : List UInt8) (sent : Nat) (e : Encoder)
    (success : Prop) : Prop :=
  (success ↔ sent ≤ credit outputFn .ok (push v.link xs)) ∧
    (success → Shows e {v with link := advance .ok (push v.link xs) sent})

end SlipStream.EncoderPacing
