import SlipStream.DecoderCalls

namespace SlipStream.DecoderReports

open Errors Format Transducer StreamDecoder DecoderReceiver DecoderCalls

def Accepts : Decoder → List UInt8 → Prop
  | _, [] => True
  | d, c :: cs => ¬ Refuses d c ∧ Accepts (consumeByte d c).1 cs

theorem consumeExLoop_of_accepts {d : Decoder} {u : List UInt8} (h : Accepts d u) (k : Nat) :
    consumeExLoop d u k = (consume d u, .ok (k + u.length)) := by
  induction u generalizing d k with
  | nil => rfl
  | cons c u ih =>
    have hsum : k + 1 + u.length = k + (c :: u).length := by
      rw [List.length_cons]
      omega
    rw [consumeExLoop, consumeExByte_of_accepts h.1]
    simp only [ConsumeResult.ok, Bool.false_eq_true, if_false]
    rw [ih h.2, hsum]
    rfl

theorem consumeEx_of_refuses {d : Decoder} {u v : List UInt8} {c : UInt8} (hu : Accepts d u)
    (hc : Refuses (consume d u).1 c) :
    (consumeEx d (u ++ c :: v)).2.hasError = true ∧
      (consumeEx d (u ++ c :: v)).2.consumed = u.length := by
  have herr := (hasError_iff_refuses _ _).mpr hc
  rw [consumeEx, consumeExLoop_append, consumeExLoop_of_accepts hu]
  simp only [ConsumeResult.ok, Bool.false_eq_true, if_false, consumeExLoop, if_pos herr,
    ConsumeResult.fail, Nat.zero_add]
  exact ⟨trivial, trivial⟩

theorem accepts_or_refuses (d : Decoder) (data : List UInt8) :
    Accepts d data ∨ ∃ u c v, data = u ++ c :: v ∧ Accepts d u ∧ Refuses (consume d u).1 c := by
  induction data generalizing d with
  | nil => exact Or.inl trivial
  | cons b bs ih =>
    by_cases hb : Refuses d b
    · exact Or.inr ⟨[], b, bs, rfl, trivial, hb⟩
    · obtain hacc | ⟨u, c, v, rfl, hu, hc⟩ := ih (consumeByte d b).1
      · exact Or.inl ⟨hb, hacc⟩
      · exact Or.inr ⟨b :: u, c, v, rfl, ⟨hb, hu⟩, hc⟩

/-- In chunks or in one piece, `consume_ex` delivers the same messages, leaves
the decoder in the same state and reports the same error. The number of bytes
consumed is the same exactly when no error falls into the middle of a chunk: the
bytes of the failing chunk that went through are not counted. -/
theorem consumeChunkEx_eq_iff (d : Decoder) (data : List UInt8) (chunkSize : Nat)
    (hk : 1 ≤ chunkSize) :
    ∃ r, consumeChunkEx d data chunkSize = some r ∧ r.1 = (consumeEx d data).1 ∧
      r.2.hasError = (consumeEx d data).2.hasError ∧ r.2.error = (consumeEx d data).2.error ∧
      (r = consumeEx d data ↔ ∀ u c v, data = u ++ c :: v → Accepts d u →
        Refuses (consume d u).1 c → chunkSize ∣ u.length) := by
  refine ⟨_, consumeChunkExLoop_eq chunkSize hk _ d data 0 (Nat.lt_succ_self _), rfl, rfl, rfl, ?_⟩
  rw [Nat.zero_add]
  constructor
  · rintro heq u c v rfl hu hc
    obtain ⟨herr, hcons⟩ := consumeEx_of_refuses (v := v) hu hc
    have hcount := congrArg (fun r => r.2.consumed) heq
    simp only [chunkConsumed, if_pos herr, hcons] at hcount
    exact Dvd.intro_left _ hcount
  · intro hdvd
    have hcount : chunkConsumed chunkSize data (consumeEx d data).2 =
        (consumeEx d data).2.consumed := by
      obtain hacc | ⟨u, c, v, rfl, hu, hc⟩ := accepts_or_refuses d data
      · rw [consumeEx, consumeExLoop_of_accepts hacc, Nat.zero_add]
        rfl
      · obtain ⟨herr, hcons⟩ := consumeEx_of_refuses (v := v) hu hc
        rw [chunkConsumed, if_pos herr, hcons]
        exact Nat.div_mul_cancel (hdvd u c v rfl hu hc)
    rw [hcount]

theorem consumeChunkEx_eq_iff_boundary :
    ∃ r, consumeChunkEx (new (fun _ => 0) 16 false) [0x01, ESC, 0x02, END] 2 = some r ∧
      r = consumeEx (new (fun _ => 0) 16 false) [0x01, ESC, 0x02, END] := by
  obtain ⟨r, hr, -, -, -, hiff⟩ :=
    consumeChunkEx_eq_iff (new (fun _ => 0) 16 false) [0x01, ESC, 0x02, END] 2 (by decide)
  refine ⟨r, hr, hiff.mpr ?_⟩
  intro u c v hsplit hu hc
  have hcons := (consumeEx_of_refuses (v := v) hu hc).2
  rw [← hsplit] at hcons
  have hval : (consumeEx (new (fun _ => 0) 16 false) [0x01, ESC, 0x02, END]).2.consumed = 2 := by
    decide
  rw [← hcons, hval]

/-- The invalid escape stands two bytes into the only chunk. `consume_ex` counts
these bytes, `consume_chunk_ex` has delivered as much and reports none. -/
theorem consumeChunkEx_forgets_bytes :
    (consumeEx (new (fun _ => 0) 16 false) [0x01, ESC, 0x02, END]).2.consumed = 2 ∧
      (consumeChunkEx (new (fun _ => 0) 16 false) [0x01, ESC, 0x02, END] 4).map
        (fun r => r.2.consumed) = some 0 := by
  decide

/-- The three places where a byte's error shows agree: the result returned,
which points at the byte by the count before the call, `getLastError` right
after the call, and on an overflow what the log callback was given. -/
def ErrorChannelsAgree (d : Decoder) (c : UInt8) : Prop :=
  (consumeExByte d c).2.error.position = d.consumedCount ∧
    (getLastError (consumeExByte d c).1.1).code = (consumeExByte d c).2.error.code ∧
    (getLastError (consumeExByte d c).1.1).position = (consumeExByte d c).2.error.position ∧
    ((consumeExByte d c).2.error.code = .rxBufferOverflow →
      ∀ info, .logEx info ∈ (consumeExByte d c).1.2 →
        info.error.code = (consumeExByte d c).2.error.code ∧
          info.error.position = (consumeExByte d c).2.error.position)

/-- They never do: `reset` has cleared the last error and the count before
either is read. The log callback alone is told where the error was. -/
theorem errorChannels_disagree (d : Decoder) (c : UInt8)
    (h : (consumeExByte d c).2.hasError = true) :
    ¬ ErrorChannelsAgree d c ∧ (consumeExByte d c).2.error.position = 0 ∧
      getLastError (consumeExByte d c).1.1 = {code := .success} ∧
      ∀ info, .logEx info ∈ (consumeExByte d c).1.2 →
        info.error.code = (consumeExByte d c).2.error.code ∧
          info.error.position = d.consumedCount := by
  obtain ⟨hfull, heq⟩ | ⟨-, heq⟩ := consumeExByte_cases ((hasError_iff_refuses d c).mp h)
  · rw [ErrorChannelsAgree, heq]
    refine ⟨?_, rfl, rfl, ?_⟩
    · rintro ⟨-, hcode, -⟩
      cases hcode
    · intro info hinfo
      obtain hplain | hex := List.mem_append.mp hinfo
      · split at hplain
        · simp at hplain
        · cases hplain
      · split at hex
        · obtain rfl : info = _ := by simpa using hex
          exact ⟨rfl, rfl⟩
        · cases hex
  · rw [ErrorChannelsAgree, heq]
    refine ⟨?_, rfl, rfl, fun info hinfo => by cases hinfo⟩
    rintro ⟨-, hcode, -⟩
    cases hcode

theorem errorChannels_disagree_escape :
    ¬ ErrorChannelsAgree (consumeExByte (new (fun _ => 0) 16 false) ESC).1.1 0x01 :=
  (errorChannels_disagree (consumeExByte (new (fun _ => 0) 16 false) ESC).1.1 0x01 (by decide)).1

theorem lastError_cleared :
    (consumeExByte (new (fun _ => 0) 16 false) ESC).1.1.consumedCount = 1 ∧
      (consumeExByte (consumeExByte (new (fun _ => 0) 16 false) ESC).1.1 0x01).2.hasError = true ∧
      (consumeExByte (consumeExByte (new (fun _ => 0) 16 false) ESC).1.1 0x01).2.error.position = 0 ∧
      (getLastError
        (consumeExByte (consumeExByte (new (fun _ => 0) 16 false) ESC).1.1 0x01).1.1).code =
          .success ∧
      ¬ ErrorChannelsAgree (consumeExByte (new (fun _ => 0) 16 false) ESC).1.1 0x01 := by
  refine ⟨by decide, by decide, by decide, by decide, ?_⟩
  rintro ⟨-, hcode, -⟩
  exact absurd hcode (by decide)

end SlipStream.DecoderReports
