import SlipStream.BufferFormat

namespace SlipStream.BufferLimits

open Stuffing Errors Format Buffer BufferFormat

/-- The two encoders store the same bytes, and `encode_packet` returns an error
exactly when `encode_packet_ex` reports one. -/
theorem encodeLoop_eq_ex (outlen : Nat) (p : List UInt8) (pos : Nat) (w : List UInt8) :
    encodeLoop outlen p w =
      ((encodeLoopEx outlen p pos w).1,
        if (encodeLoopEx outlen p pos w).2.isSuccess then
          some (encodeLoopEx outlen p pos w).2.value
        else none) := by
  fun_induction encodeLoopEx outlen p pos w with
  | case1 pos w hfull => simp [encodeLoop, hfull, Result.isSuccess, Result.fail]
  | case2 pos w hroom => simp [encodeLoop, hroom, Result.isSuccess, Result.ok]
  | case3 cs pos w hfull => simp [encodeLoop, hfull, Result.isSuccess, Result.fail]
  | case4 cs pos w hroom ih =>
    rw [encodeLoop, if_pos rfl, if_neg hroom]
    exact ih
  | case5 cs pos w hfull hne => simp [encodeLoop, hne, hfull, Result.isSuccess, Result.fail]
  | case6 cs pos w hroom hne ih =>
    rw [encodeLoop, if_neg hne, if_pos rfl, if_neg hroom]
    exact ih
  | case7 c cs pos w hs he hfull =>
    simp [encodeLoop, hs, he, hfull, Result.isSuccess, Result.fail]
  | case8 c cs pos w hs he hroom ih =>
    rw [encodeLoop, if_neg hs, if_neg he, if_neg hroom]
    exact ih

theorem encodePacket_eq_ex (input : List UInt8) (outlen : Nat) :
    encodePacket input outlen =
      ((encodePacketEx input outlen).1,
        if (encodePacketEx input outlen).2.isSuccess then
          some (encodePacketEx input outlen).2.value
        else none) := by
  by_cases h : outlen < input.length
  · simp [encodePacket, encodePacketEx, h, Result.isSuccess, Result.fail]
  · rw [encodePacket, encodePacketEx, if_neg h, if_neg h]
    exact encodeLoop_eq_ex outlen input 0 []

/-- `encode_packet_ex` either returns a size or runs out of room; it has no
other failure. -/
theorem encodeLoopEx_result (outlen : Nat) (p : List UInt8) (pos : Nat) (w : List UInt8) :
    (∃ n, (encodeLoopEx outlen p pos w).2 = .ok n) ∨
      (encodeLoopEx outlen p pos w).2.error.code = .encodeBufferTooSmall := by
  fun_induction encodeLoopEx outlen p pos w with
  | case1 | case3 | case5 | case7 => exact Or.inr rfl
  | case2 pos w hroom => exact Or.inl ⟨_, rfl⟩
  | case4 cs pos w hroom ih => exact ih
  | case6 cs pos w hroom hne ih => exact ih
  | case8 c cs pos w hs he hroom ih => exact ih

theorem encodePacketEx_result (input : List UInt8) (outlen : Nat) :
    (∃ n, (encodePacketEx input outlen).2 = .ok n) ∨
      (encodePacketEx input outlen).2.error.code = .encodeBufferTooSmall := by
  rw [encodePacketEx]
  split
  · exact Or.inr rfl
  · exact encodeLoopEx_result outlen input 0 []

theorem encodeLoop_length_le (outlen : Nat) (p w : List UInt8) (hw : w.length ≤ outlen) :
    (encodeLoop outlen p w).1.length ≤ outlen := by
  fun_induction encodeLoop outlen p w with
  | case1 w hfull => exact hw
  | case2 w hroom =>
    rw [List.length_append, List.length_singleton]
    omega
  | case3 | case5 | case7 => exact hw
  | case4 cs w hroom ih =>
    apply ih
    rw [List.length_append, List.length_cons, List.length_singleton]
    omega
  | case6 cs w hroom hne ih =>
    apply ih
    rw [List.length_append, List.length_cons, List.length_singleton]
    omega
  | case8 c cs w hs he hroom ih =>
    apply ih
    rw [List.length_append, List.length_singleton]
    omega

theorem encodePacket_length_le (input : List UInt8) (outlen : Nat) :
    (encodePacket input outlen).1.length ≤ outlen := by
  rw [encodePacket]
  split
  · exact Nat.zero_le _
  · exact encodeLoop_length_le outlen input [] (Nat.zero_le _)

/-- A packet that is one byte too long for the buffer is refused somewhere:
each `>=` check leaves room for the `END` that is still to come. -/
theorem encodeLoop_of_gt (outlen : Nat) (p w : List UInt8)
    (h : outlen < w.length + (escape p).length + 1) : (encodeLoop outlen p w).2 = none := by
  fun_induction encodeLoop outlen p w with
  | case1 | case3 | case5 | case7 => rfl
  | case2 w hroom =>
    rw [escape_nil, List.length_nil] at h
    omega
  | case4 cs w hroom ih =>
    apply ih
    rw [escape_cons, escapeOne_END] at h
    simp only [List.length_append, List.length_cons, List.length_nil] at h ⊢
    omega
  | case6 cs w hroom hne ih =>
    apply ih
    rw [escape_cons, escapeOne_ESC] at h
    simp only [List.length_append, List.length_cons, List.length_nil] at h ⊢
    omega
  | case8 c cs w hs he hroom ih =>
    apply ih
    rw [escape_cons, escapeOne_other hs he] at h
    simp only [List.length_append, List.length_cons, List.length_nil] at h ⊢
    omega

theorem encodePacket_of_gt (input : List UInt8) (outlen : Nat) (h : outlen < encodedLength input) :
    (encodePacket input outlen).2 = none := by
  rw [encodePacket]
  split
  · rfl
  · apply encodeLoop_of_gt
    rwa [List.length_nil, Nat.zero_add, ← encodedLength_eq]

theorem encodePacketEx_of_le (input : List UInt8) (outlen : Nat)
    (h : encodedLength input ≤ outlen) :
    encodePacketEx input outlen = (packet input, .ok (encodedLength input)) := by
  have heq := encodePacket_eq_ex input outlen
  rw [encodePacket_of_le input outlen h] at heq
  obtain ⟨n, hn⟩ | herr := encodePacketEx_result input outlen
  · apply Prod.ext
    · exact (congrArg Prod.fst heq).symm
    · have hval := congrArg Prod.snd heq
      rw [hn] at hval ⊢
      obtain rfl : encodedLength input = n := Option.some.inj hval
      rfl
  · have hval := congrArg Prod.snd heq
    simp [Result.isSuccess, herr] at hval

theorem encodePacketEx_of_gt (input : List UInt8) (outlen : Nat)
    (h : outlen < encodedLength input) :
    (encodePacketEx input outlen).2.error.code = .encodeBufferTooSmall := by
  obtain ⟨n, hn⟩ | herr := encodePacketEx_result input outlen
  · have hval := encodePacket_of_gt input outlen h
    rw [encodePacket_eq_ex, hn] at hval
    exact absurd hval (by simp [Result.isSuccess, Result.ok])
  · exact herr

/-- Both encoders succeed exactly when the output buffer has the length that
`encoded_length` computes, and neither ever writes behind it. -/
theorem encodePacket_threshold (input : List UInt8) (outlen : Nat) :
    ((encodePacket input outlen).2 ≠ none ↔ encodedLength input ≤ outlen) ∧
      ((encodePacketEx input outlen).2.isSuccess ↔ encodedLength input ≤ outlen) ∧
      encodedLengthEx input = .ok (encodedLength input) ∧
      (encodedLength input ≤ outlen →
        (encodePacket input outlen).2 = some (encodedLength input) ∧
        (encodePacketEx input outlen).2 = .ok (encodedLength input) ∧
        (encodePacketEx input outlen).1 = (encodePacket input outlen).1 ∧
        (encodePacket input outlen).1.length = encodedLength input) ∧
      (outlen < encodedLength input →
        (encodePacket input outlen).2 = none ∧
        (encodePacketEx input outlen).2.error.code = .encodeBufferTooSmall) ∧
      (encodePacket input outlen).1.length ≤ outlen ∧
      (encodePacketEx input outlen).1.length ≤ outlen := by
  have hex : (encodePacketEx input outlen).1 = (encodePacket input outlen).1 := by
    rw [encodePacket_eq_ex]
  have hle := encodePacket_length_le input outlen
  refine ⟨⟨?_, ?_⟩, ⟨?_, ?_⟩, rfl, ?_, ?_, hle, hex ▸ hle⟩
  · intro hsome
    by_contra hlt
    exact hsome (encodePacket_of_gt input outlen (Nat.lt_of_not_le hlt))
  · intro h
    rw [encodePacket_of_le input outlen h]
    exact Option.some_ne_none _
  · intro hok
    by_contra hlt
    have herr := encodePacketEx_of_gt input outlen (Nat.lt_of_not_le hlt)
    simp [Result.isSuccess, herr] at hok
  · intro h
    rw [encodePacketEx_of_le input outlen h]
    rfl
  · intro h
    refine ⟨?_, ?_, hex, ?_⟩
    · rw [encodePacket_of_le input outlen h]
    · rw [encodePacketEx_of_le input outlen h]
    · rw [encodePacket_of_le input outlen h, encodedLength_eq, packet, List.length_append,
        List.length_singleton]
  · exact fun h => ⟨encodePacket_of_gt input outlen h, encodePacketEx_of_gt input outlen h⟩

example : encodePacket [0x01, END] 4 = ([0x01, ESC, ESCEND, END], some 4) := by decide

example : encodePacket [0x01, END] 3 = ([0x01], none) := by decide

/-- The four ways an input can read: `p` is the payload in front of what stops
the decoder, and the code is the one that names the stop. -/
inductive Reading (input p : List UInt8) : ErrorCode → Prop
  | ended (rest : List UInt8) : input = escape p ++ [END] ++ rest → Reading input p .success
  | invalid (b : UInt8) (rest : List UInt8) : b ≠ ESCEND → b ≠ ESCESC →
      input = escape p ++ [ESC, b] ++ rest → Reading input p .decodeInvalidEscapeSequence
  | truncated : input = escape p ++ [ESC] → Reading input p .decodeTruncatedEscape
  | unended : input = escape p → Reading input p .decodeNoEndMarker

def verdictCode : Verdict UInt8 → ErrorCode
  | .stopped _ => .success
  | .badEscape _ _ => .decodeInvalidEscapeSequence
  | .truncated => .decodeTruncatedEscape
  | .exhausted => .decodeNoEndMarker

theorem reading_iff_scan (input p : List UInt8) (code : ErrorCode) :
    Reading input p code ↔ ∃ v, scan slip input = (p, v) ∧ verdictCode v = code := by
  constructor
  · intro h
    cases h with
    | ended rest h =>
      refine ⟨.stopped rest, (scan_eq_iff slip input p _).mpr ⟨trivial, ?_⟩, rfl⟩
      rw [h, List.append_assoc]
      rfl
    | invalid b rest hs he h =>
      refine ⟨.badEscape b rest, (scan_eq_iff slip input p _).mpr ⟨⟨hs, he⟩, ?_⟩, rfl⟩
      rw [h, List.append_assoc]
      rfl
    | truncated h =>
      exact ⟨.truncated, (scan_eq_iff slip input p _).mpr ⟨trivial, h⟩, rfl⟩
    | unended h =>
      refine ⟨.exhausted, (scan_eq_iff slip input p _).mpr ⟨trivial, ?_⟩, rfl⟩
      rw [h]
      exact (List.append_nil _).symm
  · rintro ⟨v, hscan, rfl⟩
    obtain ⟨hv, h⟩ := (scan_eq_iff slip input p v).mp hscan
    cases v with
    | stopped rest => exact .ended rest (by rw [h, List.append_assoc]; rfl)
    | badEscape b rest => exact .invalid b rest hv.1 hv.2 (by rw [h, List.append_assoc]; rfl)
    | truncated => exact .truncated h
    | exhausted => exact .unended (by rw [h]; exact List.append_nil _)

theorem existsUnique_reading (input : List UInt8) :
    ∃! r : List UInt8 × ErrorCode, Reading input r.1 r.2 := by
  refine ⟨((scan slip input).1, verdictCode (scan slip input).2), ?_, ?_⟩
  · exact (reading_iff_scan input _ _).mpr ⟨_, rfl, rfl⟩
  · rintro ⟨p, code⟩ h
    obtain ⟨v, hscan, rfl⟩ := (reading_iff_scan input p code).mp h
    rw [hscan]

/-- What `decoded_length_ex` returns when the scanner reads `r`, with `n` bytes
counted and `pos` units behind it. -/
def lengthOutcome (n pos : Nat) (r : List UInt8 × Verdict UInt8) : Result :=
  match r.2 with
  | .stopped _ => .ok (n + r.1.length)
  | .badEscape _ _ => .fail .decodeInvalidEscapeSequence (pos + r.1.length)
      "Invalid escape sequence: ESC not followed by ESCEND or ESCESC"
  | .truncated => .fail .decodeTruncatedEscape (pos + r.1.length)
      "Truncated escape sequence at end of input"
  | .exhausted => .fail .decodeNoEndMarker (pos + r.1.length)
      "No END marker (0xC0) found in input data"

theorem lengthOutcome_cons (n pos : Nat) (c : UInt8) (r : List UInt8 × Verdict UInt8) :
    lengthOutcome n pos (c :: r.1, r.2) = lengthOutcome (n + 1) (pos + 1) r := by
  have hn : n + (r.1.length + 1) = n + 1 + r.1.length := by omega
  have hpos : pos + (r.1.length + 1) = pos + 1 + r.1.length := by omega
  simp only [lengthOutcome, List.length_cons, hn, hpos]

theorem decodedLengthLoopEx_eq (xs : List UInt8) (n pos : Nat) :
    decodedLengthLoopEx xs n pos = lengthOutcome n pos (scan slip xs) := by
  fun_induction decodedLengthLoopEx xs n pos with
  | case1 n pos => rfl
  | case2 xs n pos => rw [scan_END]; rfl
  | case3 n pos hne => rw [scan_ESC]; rfl
  | case4 n pos m xs hm hne ih =>
    obtain rfl | rfl := hm
    · rw [scan_ESCEND, lengthOutcome_cons, ih]
    · rw [scan_ESCESC, lengthOutcome_cons, ih]
  | case5 n pos m xs hm hne =>
    rw [not_or] at hm
    rw [scan_invalid hm.1 hm.2]
    rfl
  | case6 c xs n pos hs he ih => rw [scan_data hs he, lengthOutcome_cons, ih]

theorem decodedLengthEx_code (input : List UInt8) :
    (decodedLengthEx input).error.code = verdictCode (scan slip input).2 := by
  rw [decodedLengthEx, decodedLengthLoopEx_eq, lengthOutcome]
  cases (scan slip input).2 <;> rfl

theorem decodedLengthEx_value (input : List UInt8)
    (h : verdictCode (scan slip input).2 = .success) :
    (decodedLengthEx input).value = (scan slip input).1.length := by
  rw [decodedLengthEx, decodedLengthLoopEx_eq, lengthOutcome, Nat.zero_add]
  cases hv : (scan slip input).2 with
  | stopped rest => rfl
  | badEscape | truncated | exhausted =>
    rw [hv] at h
    cases h

theorem decodedLengthLoop_eq_ex (xs : List UInt8) (n pos : Nat) :
    decodedLengthLoop xs n =
      if (decodedLengthLoopEx xs n pos).isSuccess then
        some (decodedLengthLoopEx xs n pos).value
      else none := by
  fun_induction decodedLengthLoopEx xs n pos with
  | case1 n pos => rfl
  | case2 xs n pos =>
    rw [decodedLengthLoop.eq_def]
    rfl
  | case3 n pos hne => rfl
  | case4 n pos m xs hm hne ih =>
    simp only [decodedLengthLoop, if_neg hne, if_pos hm, ↓reduceIte]
    exact ih
  | case5 n pos m xs hm hne => simp [decodedLengthLoop, hne, hm, Result.isSuccess, Result.fail]
  | case6 c xs n pos hs he ih =>
    rw [decodedLengthLoop.eq_def]
    simp only [if_neg hs, if_neg he]
    exact ih

/-- What `decode_packet_ex` stores and returns when the scanner reads `r`, with
`w` stored and `pos` units behind it. A full output buffer is reported before
the fault that stops the scan. -/
def packetOutcome (outlen pos : Nat) (w : List UInt8) (r : List UInt8 × Verdict UInt8) :
    List UInt8 × Result :=
  if w.length + r.1.length ≤ outlen then
    (w ++ r.1, match r.2 with
      | .stopped _ => .ok (w.length + r.1.length)
      | .badEscape _ _ => .fail .decodeInvalidEscapeSequence (pos + r.1.length)
          "Invalid escape sequence: ESC not followed by ESCEND or ESCESC"
      | .truncated => .fail .decodeTruncatedEscape (pos + r.1.length)
          "Truncated escape sequence at end of input"
      | .exhausted => .fail .decodeNoEndMarker (pos + r.1.length)
          "No END terminator found in input data")
  else
    (w ++ r.1.take (outlen - w.length),
      .fail .decodeBufferTooSmall (pos + (outlen - w.length))
        (if r.1.getD (outlen - w.length) 0 = END ∨ r.1.getD (outlen - w.length) 0 = ESC then
          "Output buffer too small for decoded data"
        else "Output buffer too small for data byte"))

theorem packetOutcome_cons (outlen pos : Nat) (w : List UInt8) (c : UInt8)
    (r : List UInt8 × Verdict UInt8) (h : w.length < outlen) :
    packetOutcome outlen pos w (c :: r.1, r.2) = packetOutcome outlen (pos + 1) (w ++ [c]) r := by
  have hroom : outlen - w.length = outlen - (w.length + 1) + 1 := by omega
  have hlen : w.length + (r.1.length + 1) = w.length + 1 + r.1.length := by omega
  have hpos : pos + (r.1.length + 1) = pos + 1 + r.1.length := by omega
  have hstop : pos + (outlen - w.length) = pos + 1 + (outlen - (w.length + 1)) := by omega
  have hcut : (c :: r.1).take (outlen - w.length) = c :: r.1.take (outlen - (w.length + 1)) := by
    rw [hroom, List.take_succ_cons]
  have hnext : (c :: r.1).getD (outlen - w.length) 0 = r.1.getD (outlen - (w.length + 1)) 0 := by
    rw [hroom, List.getD_cons_succ]
  simp only [packetOutcome, List.length_append, List.length_cons, List.length_nil, Nat.zero_add,
    hlen, hpos, hstop, hcut, hnext, List.append_assoc, List.cons_append, List.nil_append]

theorem packetOutcome_full (outlen pos : Nat) (w : List UInt8) (c : UInt8)
    (r : List UInt8 × Verdict UInt8) (h : w.length = outlen) :
    packetOutcome outlen pos w (c :: r.1, r.2) =
      (w, .fail .decodeBufferTooSmall pos
        (if c = END ∨ c = ESC then "Output buffer too small for decoded data"
        else "Output buffer too small for data byte")) := by
  simp [packetOutcome, h]

theorem decodeLoopEx_eq (outlen : Nat) (xs : List UInt8) (pos : Nat) (w : List UInt8)
    (hw : w.length ≤ outlen) :
    decodeLoopEx outlen xs pos w = packetOutcome outlen pos w (scan slip xs) := by
  fun_induction decodeLoopEx outlen xs pos w with
  | case1 pos w => simp [scan, packetOutcome, hw]
  | case2 xs pos w => simp [scan_END, packetOutcome, hw]
  | case3 pos w hne => simp [scan_ESC, packetOutcome, hw]
  | case4 pos w xs hfull hne =>
    rw [scan_ESCEND, packetOutcome_full outlen pos w END _ (Nat.le_antisymm hw hfull)]
    rfl
  | case5 pos w xs hroom hne ih =>
    have hlt : w.length < outlen := Nat.lt_of_not_le hroom
    rw [ih (by simpa using Nat.succ_le_of_lt hlt), scan_ESCEND,
      packetOutcome_cons outlen pos w END _ hlt]
  | case6 pos w xs hfull hne hne' =>
    rw [scan_ESCESC, packetOutcome_full outlen pos w ESC _ (Nat.le_antisymm hw hfull)]
    rfl
  | case7 pos w xs hroom hne hne' ih =>
    have hlt : w.length < outlen := Nat.lt_of_not_le hroom
    rw [ih (by simpa using Nat.succ_le_of_lt hlt), scan_ESCESC,
      packetOutcome_cons outlen pos w ESC _ hlt]
  | case8 pos w c xs hs he hne => simp [scan_invalid hs he, packetOutcome, hw]
  | case9 c xs pos w hs he hfull =>
    rw [scan_data hs he, packetOutcome_full outlen pos w c _ (Nat.le_antisymm hw hfull),
      if_neg (not_or.mpr ⟨hs, he⟩)]
  | case10 c xs pos w hs he hroom ih =>
    have hlt : w.length < outlen := Nat.lt_of_not_le hroom
    rw [ih (by simpa using Nat.succ_le_of_lt hlt), scan_data hs he,
      packetOutcome_cons outlen pos w c _ hlt]

theorem decodePacketEx_eq (input : List UInt8) (outlen : Nat) :
    decodePacketEx input outlen = packetOutcome outlen 0 [] (scan slip input) :=
  decodeLoopEx_eq outlen input 0 [] (Nat.zero_le _)

theorem decodePacketEx_code (input : List UInt8) (outlen : Nat) :
    (decodePacketEx input outlen).2.error.code =
      if (scan slip input).1.length ≤ outlen then verdictCode (scan slip input).2
      else .decodeBufferTooSmall := by
  rw [decodePacketEx_eq, packetOutcome, List.length_nil, Nat.zero_add]
  split
  · cases (scan slip input).2 <;> rfl
  · rfl

theorem decodePacketEx_length_le (input : List UInt8) (outlen : Nat) :
    (decodePacketEx input outlen).1.length ≤ outlen := by
  rw [decodePacketEx_eq, packetOutcome, List.length_nil, Nat.zero_add, Nat.sub_zero]
  split
  · next h => exact h
  · rw [List.nil_append, List.length_take]
    exact Nat.min_le_left _ _

theorem decodePacketEx_of_ended (input p rest : List UInt8) (outlen : Nat)
    (hscan : scan slip input = (p, .stopped rest)) (h : p.length ≤ outlen) :
    decodePacketEx input outlen = (p, .ok p.length) := by
  rw [decodePacketEx_eq, hscan, packetOutcome, List.length_nil, Nat.zero_add, if_pos h]
  rfl

/-- Every input has exactly one reading. `decoded_length_ex` reports it,
`decode_packet_ex` reports it unless the payload in front of the stop does not
fit, and the plain decoders fail exactly where these report an error. -/
theorem decoders_classify (input : List UInt8) :
    (∃! r : List UInt8 × ErrorCode, Reading input r.1 r.2) ∧
      (∀ p code, Reading input p code →
        (decodedLengthEx input).error.code = code ∧
        (code = .success → (decodedLengthEx input).value = p.length) ∧
        ∀ outlen,
          (p.length ≤ outlen →
            (decodePacketEx input outlen).2.error.code = code ∧
            (code = .success → (decodePacketEx input outlen).1 = p ∧
              (decodePacketEx input outlen).2.value = p.length)) ∧
          (outlen < p.length →
            (decodePacketEx input outlen).2.error.code = .decodeBufferTooSmall)) ∧
      (∀ outlen, (decodePacketEx input outlen).1.length ≤ outlen) ∧
      (decodedLength input =
        if (decodedLengthEx input).isSuccess then some (decodedLengthEx input).value else none) ∧
      ∀ outlen, decodePacket input outlen =
        ((decodePacketEx input outlen).1,
          if (decodePacketEx input outlen).2.isSuccess then
            some (decodePacketEx input outlen).2.value
          else none) := by
  refine ⟨existsUnique_reading input, ?_, ?_, decodedLengthLoop_eq_ex input 0 0,
    decodePacket_eq_ex input⟩
  · intro p code hr
    obtain ⟨v, hscan, rfl⟩ := (reading_iff_scan input p code).mp hr
    have hcode := decodedLengthEx_code input
    rw [hscan] at hcode
    refine ⟨hcode, ?_, ?_⟩
    · intro hok
      have hval := decodedLengthEx_value input (by rw [hscan]; exact hok)
      rwa [hscan] at hval
    · intro outlen
      have hpacket := decodePacketEx_code input outlen
      rw [hscan] at hpacket
      refine ⟨?_, ?_⟩
      · intro hle
        refine ⟨by rw [hpacket, if_pos hle], ?_⟩
        intro hok
        cases v with
        | stopped rest =>
          rw [decodePacketEx_of_ended input p rest outlen hscan hle]
          exact ⟨rfl, rfl⟩
        | badEscape | truncated | exhausted => cases hok
      · intro hlt
        rw [hpacket, if_neg (Nat.not_le.mpr hlt)]
  · exact decodePacketEx_length_le input

-- two faults in one input: the invalid escape is reported only if what stands before it fits
example :
    (decodePacketEx [0x01, 0x02, ESC, 0x03] 2).2.error.code = .decodeInvalidEscapeSequence := by
  decide

example : (decodePacketEx [0x01, 0x02, ESC, 0x03] 1).2.error.code = .decodeBufferTooSmall := by
  decide

end SlipStream.BufferLimits
