import SlipStream.BufferLimits

namespace SlipStream.BufferPositions

open Stuffing Errors Format Buffer BufferFormat BufferLimits

/-- The fault that ends the decoding of an input, where `p` is the payload in
front of the failing unit. The output buffer has room for `n` bytes when `room`
is `some n`; `decoded_length_ex` stores nothing and has no such limit. -/
inductive Fault (input : List UInt8) (room : Option Nat) (p : List UInt8) : ErrorCode → Prop
  | stopped (code : ErrorCode) : Reading input p code → code ≠ .success →
      (∀ n ∈ room, p.length ≤ n) → Fault input room p code
  | tooSmall (c : UInt8) (rest : List UInt8) : input = escape p ++ (stuffOne slip c ++ rest) →
      p.length ∈ room → Fault input room p .decodeBufferTooSmall

/-- The failing unit starts at offset `off`, behind the wire form of the payload
read so far. -/
def FaultAt (input : List UInt8) (room : Option Nat) (code : ErrorCode) (off : Nat) : Prop :=
  ∃ p, Fault input room p code ∧ off = (escape p).length

theorem faultAt_noEndMarker {input : List UInt8} {room : Option Nat} {off : Nat}
    (h : FaultAt input room .decodeNoEndMarker off) : off = input.length := by
  obtain ⟨p, hf, rfl⟩ := h
  cases hf with
  | stopped _ hr _ _ =>
    cases hr with
    | unended h => rw [h]

theorem verdictCode_ne_tooSmall (v : Verdict UInt8) : verdictCode v ≠ .decodeBufferTooSmall := by
  cases v <;> exact ErrorCode.noConfusion

theorem scan_eq_of_reading {input p : List UInt8} {code : ErrorCode} (h : Reading input p code) :
    (scan slip input).1 = p ∧ verdictCode (scan slip input).2 = code := by
  obtain ⟨v, hscan, rfl⟩ := (reading_iff_scan input p code).mp h
  rw [hscan]
  exact ⟨rfl, rfl⟩

theorem scan_of_fault {input p : List UInt8} {room : Option Nat} {code : ErrorCode}
    (h : Fault input room p code) :
    if code = .decodeBufferTooSmall then
      p.length ∈ room ∧ p.length < (scan slip input).1.length ∧
        p = (scan slip input).1.take p.length
    else
      p = (scan slip input).1 ∧ code = verdictCode (scan slip input).2 ∧
        ∀ n ∈ room, p.length ≤ n := by
  cases h with
  | stopped _ hr hne hroom =>
    obtain ⟨rfl, rfl⟩ := scan_eq_of_reading hr
    rw [if_neg (verdictCode_ne_tooSmall _)]
    exact ⟨rfl, rfl, hroom⟩
  | tooSmall c rest h hroom =>
    have hscan : (scan slip input).1 = p ++ c :: (scan slip rest).1 := by
      rw [h, escape, scan_stuff_append, scan_stuffOne_append]
    rw [if_pos rfl, hscan]
    refine ⟨hroom, ?_, ?_⟩
    · rw [List.length_append, List.length_cons]
      omega
    · exact (List.take_left' rfl).symm

theorem fault_unique {input p q : List UInt8} {room : Option Nat} {code code' : ErrorCode}
    (h : Fault input room p code) (h' : Fault input room q code') : p = q := by
  have hp := scan_of_fault h
  have hq := scan_of_fault h'
  split_ifs at hp hq with hc hc' hc'
  · obtain ⟨hn, -, hp⟩ := hp
    obtain ⟨hn', -, hq⟩ := hq
    have hlen : p.length = q.length := Option.mem_unique hn hn'
    rw [hp, hlen]
    exact hq.symm
  · have hle := hq.2.2 _ hp.1
    rw [← hq.1] at hp
    omega
  · have hle := hp.2.2 _ hq.1
    rw [← hp.1] at hq
    omega
  · rw [hp.1, hq.1]

theorem length_escape_eq_iff (p : List UInt8) :
    (escape p).length = p.length ↔ ESC ∉ escape p := by
  induction p with
  | nil => simp
  | cons c p ih =>
    have hle := length_le_escape p
    rw [escape_cons, List.length_append, List.length_cons, List.mem_append, not_or]
    by_cases hs : c = END
    · subst hs
      rw [escapeOne_END]
      simp only [List.length_cons, List.length_nil, List.mem_cons, true_or, not_true, false_and,
        iff_false]
      omega
    · by_cases he : c = ESC
      · subst he
        rw [escapeOne_ESC]
        simp only [List.length_cons, List.length_nil, List.mem_cons, true_or, not_true,
          false_and, iff_false]
        omega
      · rw [escapeOne_other hs he, List.length_singleton, List.mem_singleton, ← ih]
        constructor
        · intro h
          exact ⟨Ne.symm he, by omega⟩
        · intro h
          omega

theorem take_of_fault {input p : List UInt8} {room : Option Nat} {code : ErrorCode}
    (h : Fault input room p code) : input.take (escape p).length = escape p := by
  cases h with
  | stopped _ hr _ _ =>
    cases hr with
    | ended rest h => rw [h, List.append_assoc]; exact List.take_left' rfl
    | invalid b rest _ _ h => rw [h, List.append_assoc]; exact List.take_left' rfl
    | truncated h => rw [h]; exact List.take_left' rfl
    | unended h => rw [h, List.take_length]
  | tooSmall c rest h _ => rw [h]; exact List.take_left' rfl

/-- A position that counts the units read is the offset of the failing unit
exactly when every one of them is a single byte. -/
theorem faultAt_length_iff {input p : List UInt8} {room : Option Nat} {code : ErrorCode}
    (h : Fault input room p code) :
    FaultAt input room code p.length ↔
      ∀ code' off, FaultAt input room code' off → ESC ∉ input.take off := by
  constructor
  · rintro ⟨q, hq, hlen⟩ code' off ⟨r, hr, rfl⟩
    obtain rfl := fault_unique h hq
    obtain rfl := fault_unique h hr
    rw [take_of_fault h]
    exact (length_escape_eq_iff p).mp hlen.symm
  · intro hno
    have hmem := hno code _ ⟨p, h, rfl⟩
    rw [take_of_fault h] at hmem
    exact ⟨p, h, ((length_escape_eq_iff p).mpr hmem).symm⟩

theorem decodedLengthEx_position (input : List UInt8)
    (h : verdictCode (scan slip input).2 ≠ .success) :
    (decodedLengthEx input).error.position = (scan slip input).1.length := by
  rw [decodedLengthEx, decodedLengthLoopEx_eq, lengthOutcome, Nat.zero_add]
  cases hv : (scan slip input).2 with
  | stopped rest =>
    rw [hv] at h
    exact absurd rfl h
  | badEscape | truncated | exhausted => rfl

theorem fault_decodedLengthEx (input : List UInt8) (h : (decodedLengthEx input).isError = true) :
    ∃ p, Fault input none p (decodedLengthEx input).error.code ∧
      (decodedLengthEx input).error.position = p.length := by
  have hcode := decodedLengthEx_code input
  have hne : verdictCode (scan slip input).2 ≠ .success := by
    rw [← hcode]
    exact of_decide_eq_true h
  refine ⟨(scan slip input).1, .stopped _ ?_ ?_ (by simp), ?_⟩
  · exact (reading_iff_scan input _ _).mpr ⟨_, rfl, hcode.symm⟩
  · exact of_decide_eq_true h
  · exact decodedLengthEx_position input hne

theorem decodePacketEx_position (input : List UInt8) (outlen : Nat)
    (h : (decodePacketEx input outlen).2.error.code ≠ .success) :
    (decodePacketEx input outlen).2.error.position = min (scan slip input).1.length outlen := by
  rw [decodePacketEx_eq, packetOutcome, List.length_nil, Nat.zero_add, Nat.sub_zero] at h ⊢
  split
  · next hfit =>
    rw [if_pos hfit] at h
    rw [Nat.min_eq_left hfit]
    cases hv : (scan slip input).2 with
    | stopped rest =>
      rw [hv] at h
      exact absurd rfl h
    | badEscape | truncated | exhausted => rfl
  · next hover =>
    rw [Nat.min_eq_right (Nat.le_of_not_le hover)]
    exact Nat.zero_add _

theorem unit_behind (input : List UInt8) (n : Nat) (h : n < (scan slip input).1.length) :
    ∃ c rest, input = escape ((scan slip input).1.take n) ++ (stuffOne slip c ++ rest) := by
  have hx := stuff_scan slip input
  refine ⟨(scan slip input).1.get ⟨n, h⟩,
    escape ((scan slip input).1.drop (n + 1)) ++ (scan slip input).2.tail slip, ?_⟩
  have hsplit : (scan slip input).1 = (scan slip input).1.take n ++
      (scan slip input).1.get ⟨n, h⟩ :: (scan slip input).1.drop (n + 1) := by
    rw [List.get_eq_getElem, ← List.drop_eq_getElem_cons h, List.take_append_drop]
  calc input = escape (scan slip input).1 ++ (scan slip input).2.tail slip := hx.symm
    _ = _ := by
      nth_rewrite 1 [hsplit]
      rw [escape_append, escape_cons, List.append_assoc, List.append_assoc]

theorem fault_decodePacketEx (input : List UInt8) (outlen : Nat)
    (h : (decodePacketEx input outlen).2.isError = true) :
    ∃ p, Fault input (some outlen) p (decodePacketEx input outlen).2.error.code ∧
      (decodePacketEx input outlen).2.error.position = p.length := by
  have hne : (decodePacketEx input outlen).2.error.code ≠ .success := of_decide_eq_true h
  have hcode := decodePacketEx_code input outlen
  have hpos := decodePacketEx_position input outlen hne
  by_cases hfit : (scan slip input).1.length ≤ outlen
  · rw [if_pos hfit] at hcode
    refine ⟨(scan slip input).1, .stopped _ ?_ hne (by simpa using hfit), ?_⟩
    · exact (reading_iff_scan input _ _).mpr ⟨_, rfl, hcode.symm⟩
    · rw [hpos, Nat.min_eq_left hfit]
  · rw [if_neg hfit] at hcode
    have hlt : outlen < (scan slip input).1.length := Nat.lt_of_not_le hfit
    have hlen : ((scan slip input).1.take outlen).length = outlen :=
      List.length_take_of_le (Nat.le_of_lt hlt)
    obtain ⟨c, rest, hinput⟩ := unit_behind input outlen hlt
    refine ⟨(scan slip input).1.take outlen, ?_, ?_⟩
    · rw [hcode]
      exact .tooSmall c rest hinput (by rw [hlen]; rfl)
    · rw [hpos, hlen, Nat.min_eq_right (Nat.le_of_lt hlt)]

theorem decodedLengthEx_isError_of_fault {input p : List UInt8} {code : ErrorCode}
    (h : Fault input none p code) : (decodedLengthEx input).isError = true := by
  cases h with
  | stopped _ hr hne _ =>
    apply decide_eq_true
    rw [decodedLengthEx_code, (scan_eq_of_reading hr).2]
    exact hne
  | tooSmall c rest h hroom => cases hroom

theorem decodePacketEx_isError_of_fault {input p : List UInt8} {outlen : Nat} {code : ErrorCode}
    (h : Fault input (some outlen) p code) : (decodePacketEx input outlen).2.isError = true := by
  apply decide_eq_true
  have hscan := scan_of_fault h
  rw [decodePacketEx_code]
  cases h with
  | stopped _ hr hne hroom =>
    obtain ⟨rfl, rfl⟩ := scan_eq_of_reading hr
    rw [if_pos (hroom outlen rfl)]
    exact hne
  | tooSmall c rest h hroom =>
    rw [if_pos rfl] at hscan
    have hlen : outlen = p.length := Option.some.inj hroom
    rw [if_neg (by omega)]
    exact ErrorCode.noConfusion

/-- A decoder that reports the number of units it has read meets a fault at the
right offset exactly when no escape stands before it. -/
theorem position_iff {input : List UInt8} {room : Option Nat} {r : Result}
    (hfault : r.isError = true → ∃ p, Fault input room p r.error.code ∧
      r.error.position = p.length)
    (herr : ∀ {p code}, Fault input room p code → r.isError = true) :
    (r.isError = true ↔ ∃ code off, FaultAt input room code off) ∧
      ((r.isError = true → FaultAt input room r.error.code r.error.position) ↔
        ∀ code off, FaultAt input room code off → ESC ∉ input.take off) := by
  refine ⟨⟨?_, ?_⟩, ⟨?_, ?_⟩⟩
  · intro h
    obtain ⟨p, hp, -⟩ := hfault h
    exact ⟨_, _, p, hp, rfl⟩
  · rintro ⟨code, off, p, hp, -⟩
    exact herr hp
  · intro hat code off hoff
    obtain ⟨q, hq, -⟩ := id hoff
    obtain ⟨p, hp, hpos⟩ := hfault (herr hq)
    have h := hat (herr hq)
    rw [hpos] at h
    exact (faultAt_length_iff hp).mp h code off hoff
  · intro hno h
    obtain ⟨p, hp, hpos⟩ := hfault h
    rw [hpos]
    exact (faultAt_length_iff hp).mpr hno

/-- The decoders fail exactly on the inputs that have a fault, but the position
they report is the offset of the failing unit exactly when no `ESC` stands in
front of it: every escape before the fault is two bytes long and counts once. -/
theorem decode_position_iff (input : List UInt8) (outlen : Nat) :
    (((decodedLengthEx input).isError = true ↔ ∃ code off, FaultAt input none code off) ∧
      (((decodedLengthEx input).isError = true →
          FaultAt input none (decodedLengthEx input).error.code
            (decodedLengthEx input).error.position) ↔
        ∀ code off, FaultAt input none code off → ESC ∉ input.take off)) ∧
      ((decodePacketEx input outlen).2.isError = true ↔
        ∃ code off, FaultAt input (some outlen) code off) ∧
      (((decodePacketEx input outlen).2.isError = true →
          FaultAt input (some outlen) (decodePacketEx input outlen).2.error.code
            (decodePacketEx input outlen).2.error.position) ↔
        ∀ code off, FaultAt input (some outlen) code off → ESC ∉ input.take off) ∧
      ∀ room off, FaultAt input room .decodeNoEndMarker off → off = input.length := by
  have hlen := position_iff (fault_decodedLengthEx input) decodedLengthEx_isError_of_fault
  have hpacket := position_iff (fault_decodePacketEx input outlen) decodePacketEx_isError_of_fault
  exact ⟨hlen, hpacket.1, hpacket.2, fun room off => faultAt_noEndMarker⟩

theorem decode_position_escaped :
    (decodedLengthEx [ESC, ESCEND, ESC, 0x01]).isError = true ∧
      ¬ FaultAt [ESC, ESCEND, ESC, 0x01] none
        (decodedLengthEx [ESC, ESCEND, ESC, 0x01]).error.code
        (decodedLengthEx [ESC, ESCEND, ESC, 0x01]).error.position ∧
      (decodePacketEx [ESC, ESCEND, ESC, 0x01] 4).2.isError = true ∧
      ¬ FaultAt [ESC, ESCEND, ESC, 0x01] (some 4)
        (decodePacketEx [ESC, ESCEND, ESC, 0x01] 4).2.error.code
        (decodePacketEx [ESC, ESCEND, ESC, 0x01] 4).2.error.position := by
  have hr : Reading [ESC, ESCEND, ESC, 0x01] [END] .decodeInvalidEscapeSequence :=
    .invalid 0x01 [] (by decide) (by decide) rfl
  have hne : ErrorCode.decodeInvalidEscapeSequence ≠ .success := by decide
  have hf : Fault [ESC, ESCEND, ESC, 0x01] none [END] .decodeInvalidEscapeSequence :=
    .stopped _ hr hne (by simp)
  have hf' : Fault [ESC, ESCEND, ESC, 0x01] (some 4) [END] .decodeInvalidEscapeSequence :=
    .stopped _ hr hne (by simp)
  have hpos : (decodedLengthEx [ESC, ESCEND, ESC, 0x01]).error.position = 1 := by decide
  have hpos' : (decodePacketEx [ESC, ESCEND, ESC, 0x01] 4).2.error.position = 1 := by decide
  refine ⟨by decide, ?_, by decide, ?_⟩
  · rintro ⟨p, hp, hoff⟩
    obtain rfl := fault_unique hf hp
    rw [hpos] at hoff
    exact absurd hoff (by decide)
  · rintro ⟨p, hp, hoff⟩
    obtain rfl := fault_unique hf' hp
    rw [hpos'] at hoff
    exact absurd hoff (by decide)

/-- With `n` bytes stored, byte `i` of `p` is the first one that an output buffer
of `outlen` bytes does not hold with the final `END` behind it. -/
def Overflows (outlen n : Nat) (p : List UInt8) (i : Nat) : Prop :=
  ∃ q c rest, p = q ++ c :: rest ∧ i = q.length ∧ n + (escape q).length + 1 ≤ outlen ∧
    outlen < n + (escape q).length + (stuffOne slip c).length + 1

theorem overflows_zero {outlen n : Nat} (c : UInt8) (cs : List UInt8) (hn : n + 1 ≤ outlen)
    (h : outlen ≤ n + (stuffOne slip c).length) : Overflows outlen n (c :: cs) 0 :=
  ⟨[], c, cs, rfl, rfl, hn, Nat.lt_succ_of_le h⟩

theorem overflows_succ {outlen n i : Nat} (c : UInt8) {cs : List UInt8}
    (h : Overflows outlen (n + (stuffOne slip c).length) cs i) :
    Overflows outlen n (c :: cs) (i + 1) := by
  obtain ⟨q, c', rest, rfl, rfl, hle, hlt⟩ := h
  have hlen : (escape (c :: q)).length = (stuffOne slip c).length + (escape q).length := by
    rw [escape_cons, List.length_append]
  exact ⟨c :: q, c', rest, rfl, rfl, by omega, by omega⟩

theorem overflows_push {outlen pos : Nat} {c : UInt8} {cs w bs : List UInt8} {r : Result}
    (hc : stuffOne slip c = bs)
    (h : ∃ i, r.error.position = pos + 1 + i ∧ Overflows outlen (w ++ bs).length cs i) :
    ∃ i, r.error.position = pos + i ∧ Overflows outlen w.length (c :: cs) i := by
  obtain ⟨i, hpos, hi⟩ := h
  rw [List.length_append, ← hc] at hi
  exact ⟨i + 1, by omega, overflows_succ c hi⟩

theorem encodeLoopEx_position (outlen : Nat) (p : List UInt8) (pos : Nat) (w : List UInt8)
    (hw : w.length + 1 ≤ outlen) (hgt : outlen < w.length + (escape p).length + 1) :
    ∃ i, (encodeLoopEx outlen p pos w).2.error.position = pos + i ∧
      Overflows outlen w.length p i := by
  fun_induction encodeLoopEx outlen p pos w with
  | case1 pos w hfull => omega
  | case2 pos w hroom =>
    rw [escape_nil, List.length_nil] at hgt
    omega
  | case3 cs pos w hfull => exact ⟨0, rfl, overflows_zero END cs hw hfull⟩
  | case4 cs pos w hroom ih =>
    apply overflows_push escapeOne_END
    rw [escape_cons, escapeOne_END] at hgt
    simp only [List.length_append, List.length_cons, List.length_nil] at ih hgt ⊢
    exact ih (by omega) (by omega)
  | case5 cs pos w hfull hne => exact ⟨0, rfl, overflows_zero ESC cs hw hfull⟩
  | case6 cs pos w hroom hne ih =>
    apply overflows_push escapeOne_ESC
    rw [escape_cons, escapeOne_ESC] at hgt
    simp only [List.length_append, List.length_cons, List.length_nil] at ih hgt ⊢
    exact ih (by omega) (by omega)
  | case7 c cs pos w hs he hfull =>
    refine ⟨0, rfl, overflows_zero c cs hw ?_⟩
    rw [escapeOne_other hs he]
    exact hfull
  | case8 c cs pos w hs he hroom ih =>
    apply overflows_push (escapeOne_other hs he)
    rw [escape_cons, escapeOne_other hs he] at hgt
    simp only [List.length_append, List.length_cons, List.length_nil] at ih hgt ⊢
    exact ih (by omega) (by omega)

/-- With a buffer that is long enough for the payload but not for its packet,
the reported position splits the payload: what stands before it would have fitted
as a packet of its own, and with the byte it points at would not. -/
theorem encode_position_splits (input : List UInt8) (outlen : Nat) (hne : input ≠ [])
    (hle : input.length ≤ outlen) (hlt : outlen < encodedLength input) :
    (encodePacketEx input outlen).2.error.code = .encodeBufferTooSmall ∧
      (encodePacketEx input outlen).2.error.position < input.length ∧
      encodedLength (input.take (encodePacketEx input outlen).2.error.position) ≤ outlen ∧
      outlen < encodedLength (input.take ((encodePacketEx input outlen).2.error.position + 1)) := by
  have hroom : ([] : List UInt8).length + 1 ≤ outlen :=
    Nat.le_trans (List.length_pos_iff.mpr hne) hle
  have hgt : outlen < ([] : List UInt8).length + (escape input).length + 1 := by
    rwa [List.length_nil, Nat.zero_add, ← encodedLength_eq]
  obtain ⟨_, hpos, q, c, rest, hsplit, rfl, hfit, hover⟩ :=
    encodeLoopEx_position outlen input 0 [] hroom hgt
  have hcall : encodePacketEx input outlen = encodeLoopEx outlen input 0 [] :=
    if_neg (Nat.not_lt.mpr hle)
  rw [List.length_nil, Nat.zero_add] at hfit hover
  rw [← hcall, Nat.zero_add] at hpos
  have htake : input.take q.length = q := by
    rw [hsplit]
    exact List.take_left' rfl
  have htake' : input.take (q.length + 1) = q ++ [c] := by
    rw [hsplit, List.append_cons]
    exact List.take_left' (by simp)
  refine ⟨encodePacketEx_of_gt input outlen hlt, ?_, ?_, ?_⟩
  · rw [hpos, hsplit, List.length_append, List.length_cons]
    omega
  · rw [hpos, htake, encodedLength_eq]
    exact hfit
  · rw [hpos, htake', encodedLength_eq, escape_append, List.length_append, escape_cons,
      escape_nil, List.append_nil]
    exact hover

theorem encode_position_splits_mixed :
    (encodePacketEx [0x01, END, 0x02] 4).2.error.position < 3 ∧
      encodedLength ([0x01, END, 0x02].take
        (encodePacketEx [0x01, END, 0x02] 4).2.error.position) ≤ 4 ∧
      4 < encodedLength ([0x01, END, 0x02].take
        ((encodePacketEx [0x01, END, 0x02] 4).2.error.position + 1)) :=
  (encode_position_splits [0x01, END, 0x02] 4 (by decide) (by decide) (by decide)).2

example : (encodePacketEx [0x01, END, 0x02] 4).2.error.position = 2 := by decide

end SlipStream.BufferPositions
