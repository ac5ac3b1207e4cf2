import SlipStream.Buffer

namespace SlipStream.BufferFormat

open Stuffing Errors Format Buffer

/-- The byte string `encode_packet` writes for a payload, given a buffer of
`encoded_length` bytes. -/
def frame (p : List UInt8) : List UInt8 := (encodePacket p (encodedLength p)).1

theorem encodedLengthLoop_eq (p : List UInt8) (n : Nat) :
    encodedLengthLoop p n = n + (escape p).length := by
  induction p generalizing n with
  | nil => rfl
  | cons c p ih =>
    rw [escape_cons, List.length_append, encodedLengthLoop]
    by_cases hs : c = END
    · subst hs
      rw [if_pos (Or.inl rfl), ih, escapeOne_END]
      simp only [List.length_cons, List.length_nil]
      omega
    · by_cases he : c = ESC
      · subst he
        rw [if_pos (Or.inr rfl), ih, escapeOne_ESC]
        simp only [List.length_cons, List.length_nil]
        omega
      · rw [if_neg (by simp [hs, he]), ih, escapeOne_other hs he, List.length_singleton]
        omega

theorem encodedLength_eq (p : List UInt8) : encodedLength p = (escape p).length + 1 := by
  rw [encodedLength, encodedLengthLoop_eq, Nat.zero_add]

theorem encodeLoop_of_le (outlen : Nat) (p w : List UInt8)
    (h : w.length + (escape p).length + 1 ≤ outlen) :
    encodeLoop outlen p w = (w ++ packet p, some (w.length + (escape p).length + 1)) := by
  induction p generalizing w with
  | nil =>
    have hn : ¬ w.length + 1 > outlen := by simpa using h
    simp [encodeLoop, packet, hn]
  | cons c p ih =>
    rw [escape_cons, List.length_append] at h
    by_cases hs : c = END
    · subst hs
      rw [escapeOne_END, List.length_cons, List.length_singleton] at h
      have hn : ¬ w.length + 2 ≥ outlen := by omega
      rw [encodeLoop, if_pos rfl, if_neg hn, ih _ (by simp; omega)]
      simp [packet, escape_cons, escapeOne_END]
      omega
    · by_cases he : c = ESC
      · subst he
        rw [escapeOne_ESC, List.length_cons, List.length_singleton] at h
        have hn : ¬ w.length + 2 ≥ outlen := by omega
        rw [encodeLoop, if_neg hs, if_pos rfl, if_neg hn, ih _ (by simp; omega)]
        simp [packet, escape_cons, escapeOne_ESC]
        omega
      · rw [escapeOne_other hs he, List.length_singleton] at h
        have hn : ¬ w.length + 1 ≥ outlen := by omega
        rw [encodeLoop, if_neg hs, if_neg he, if_neg hn, ih _ (by simp; omega)]
        simp [packet, escape_cons, escapeOne_other hs he]
        omega

theorem encodePacket_of_le (p : List UInt8) (outlen : Nat) (h : encodedLength p ≤ outlen) :
    encodePacket p outlen = (packet p, some (encodedLength p)) := by
  rw [encodedLength_eq] at h
  have hp := length_le_escape p
  rw [encodePacket, if_neg (by omega), encodeLoop_of_le outlen p [] (by simpa using h),
    encodedLength_eq]
  simp

theorem frame_eq (p : List UInt8) : frame p = escape p ++ [END] := by
  rw [frame, encodePacket_of_le p _ (Nat.le_refl _), packet]

theorem flatMap_frame (ps : List (List UInt8)) : ps.flatMap frame = ps.flatMap packet := by
  congr 1
  funext p
  exact frame_eq p

/-- What decoding stores and returns when the scanner reads `r` and the output
buffer already holds `w`. -/
def decodeOutcome (outlen : Nat) (w : List UInt8) (r : List UInt8 × Verdict UInt8) :
    List UInt8 × Option Nat :=
  if w.length + r.1.length ≤ outlen then
    (w ++ r.1, match r.2 with
      | .stopped _ => some (w.length + r.1.length)
      | _ => none)
  else (w ++ r.1.take (outlen - w.length), none)

theorem decodeOutcome_cons (outlen : Nat) (w : List UInt8) (c : UInt8)
    (r : List UInt8 × Verdict UInt8) (h : w.length < outlen) :
    decodeOutcome outlen w (c :: r.1, r.2) = decodeOutcome outlen (w ++ [c]) r := by
  have hlen : outlen - w.length = outlen - (w.length + 1) + 1 := by omega
  have hle : w.length + (r.1.length + 1) = w.length + 1 + r.1.length := by omega
  simp [decodeOutcome, hlen, hle]

theorem decodeOutcome_full (w : List UInt8) (c : UInt8) (r : List UInt8 × Verdict UInt8)
    (outlen : Nat) (h : w.length = outlen) :
    decodeOutcome outlen w (c :: r.1, r.2) = (w, none) := by
  simp [decodeOutcome, h]

theorem decodeLoop_eq (outlen : Nat) (xs w : List UInt8) (hw : w.length ≤ outlen) :
    decodeLoop outlen xs w = decodeOutcome outlen w (scan slip xs) := by
  fun_induction decodeLoop outlen xs w with
  | case1 w => simp [scan, decodeOutcome, hw]
  | case2 xs w => simp [scan_END, decodeOutcome, hw]
  | case3 w hne => simp [scan_ESC, decodeOutcome, hw]
  | case4 w xs hfull hne =>
    rw [scan_ESCEND, decodeOutcome_full w END _ outlen (Nat.le_antisymm hw hfull)]
  | case5 w xs hroom hne ih =>
    have hlt : w.length < outlen := by omega
    rw [scan_ESCEND, decodeOutcome_cons outlen w END _ hlt, ih (by simp; omega)]
  | case6 w xs hfull hne hne' =>
    rw [scan_ESCESC, decodeOutcome_full w ESC _ outlen (Nat.le_antisymm hw hfull)]
  | case7 w xs hroom hne hne' ih =>
    have hlt : w.length < outlen := by omega
    rw [scan_ESCESC, decodeOutcome_cons outlen w ESC _ hlt, ih (by simp; omega)]
  | case8 w c xs hs he hne => simp [scan_invalid hs he, decodeOutcome, hw]
  | case9 c xs w hs he hfull =>
    rw [scan_data hs he, decodeOutcome_full w c _ outlen (Nat.le_antisymm hw hfull)]
  | case10 c xs w hs he hroom ih =>
    have hlt : w.length < outlen := by omega
    rw [scan_data hs he, decodeOutcome_cons outlen w c _ hlt, ih (by simp; omega)]

theorem decodePacket_eq (input : List UInt8) (outlen : Nat) :
    decodePacket input outlen = decodeOutcome outlen [] (scan slip input) :=
  decodeLoop_eq outlen input [] (Nat.zero_le _)

/-- The two decoders store the same bytes, and `decode_packet` returns an error
exactly when `decode_packet_ex` reports one. -/
theorem decodeLoop_eq_ex (outlen : Nat) (xs : List UInt8) (pos : Nat) (w : List UInt8) :
    decodeLoop outlen xs w =
      ((decodeLoopEx outlen xs pos w).1,
        if (decodeLoopEx outlen xs pos w).2.isSuccess then
          some (decodeLoopEx outlen xs pos w).2.value
        else none) := by
  fun_induction decodeLoopEx outlen xs pos w with
  | case1 pos w => rfl
  | case2 xs pos w =>
    rw [decodeLoop.eq_def]
    rfl
  | case3 pos w hne => rfl
  | case4 pos w xs hfull hne =>
    simp [decodeLoop, hne, hfull, Result.isSuccess, Result.fail]
  | case5 pos w xs hroom hne ih =>
    simp only [decodeLoop, if_neg hne, if_neg hroom, ↓reduceIte]
    exact ih
  | case6 pos w xs hfull hne hne' =>
    simp [decodeLoop, hne, hne', hfull, Result.isSuccess, Result.fail]
  | case7 pos w xs hroom hne hne' ih =>
    simp only [decodeLoop, if_neg hne, if_neg hne', if_neg hroom, ↓reduceIte]
    exact ih
  | case8 pos w c xs hs he hne =>
    simp [decodeLoop, hne, hs, he, Result.isSuccess, Result.fail]
  | case9 c xs pos w hs he hfull =>
    rw [decodeLoop.eq_def]
    simp [hs, he, hfull, Result.isSuccess, Result.fail]
  | case10 c xs pos w hs he hroom ih =>
    rw [decodeLoop.eq_def]
    simp only [if_neg hs, if_neg he, if_neg hroom]
    exact ih

theorem decodePacket_eq_ex (input : List UInt8) (outlen : Nat) :
    decodePacket input outlen =
      ((decodePacketEx input outlen).1,
        if (decodePacketEx input outlen).2.isSuccess then
          some (decodePacketEx input outlen).2.value
        else none) := decodeLoop_eq_ex outlen input 0 []

theorem frame_append (p rest : List UInt8) :
    frame p ++ rest = stuff slip p ++ Verdict.tail slip (.stopped rest) := by
  rw [frame_eq, List.append_assoc]
  rfl

theorem scan_frame_append (p rest : List UInt8) :
    scan slip (frame p ++ rest) = (p, .stopped rest) :=
  (scan_eq_iff slip _ p (.stopped rest)).mpr ⟨trivial, frame_append p rest⟩

theorem decodePacket_frame (p rest : List UInt8) (outlen : Nat) (h : p.length ≤ outlen) :
    decodePacket (frame p ++ rest) outlen = (p, some p.length) := by
  rw [decodePacket_eq, scan_frame_append]
  simp [decodeOutcome, h]

theorem eq_frame_of_decodePacket {input p : List UInt8} {outlen n : Nat}
    (h : decodePacket input outlen = (p, some n)) : ∃ rest, input = frame p ++ rest := by
  rw [decodePacket_eq] at h
  unfold decodeOutcome at h
  split at h
  · cases hr : scan slip input with
    | mk q v =>
      rw [hr] at h
      cases v with
      | stopped rest =>
        obtain rfl : q = p := by simpa using congrArg Prod.fst h
        refine ⟨rest, ?_⟩
        rw [frame_append]
        exact ((scan_eq_iff slip input q _).mp hr).2
      | badEscape c rest => simp at h
      | truncated => simp at h
      | exhausted => simp at h
  · simp at h

theorem frame_injective : Function.Injective frame := by
  intro p q h
  have hp := scan_frame_append p []
  rw [h, scan_frame_append] at hp
  exact (congrArg Prod.fst hp).symm

theorem take_frame (p rest : List UInt8) :
    (frame p ++ rest).take ((frame p ++ rest).idxOf END + 1) = frame p := by
  have hi : (frame p ++ rest).idxOf END = (escape p).length := by
    rw [frame_eq, List.append_assoc, List.idxOf_append_of_notMem (END_notMem_escape p)]
    simp
  rw [hi]
  exact List.take_left' (by simp [frame_eq])

/-- `decode_packet` inverts `encode_packet`, and accepts nothing else: it
yields `p` exactly on the inputs that start with the frame of `p`. -/
theorem decodePacket_eq_iff_frame (input p : List UInt8) (outlen : Nat) (h : p.length ≤ outlen) :
    (decodePacket input outlen = (p, some p.length) ↔ ∃ rest, input = frame p ++ rest) ∧
      (∀ n, encodedLength p ≤ n → encodePacket p n = (frame p, some (encodedLength p))) ∧
      (∀ rest, decodePacket (frame p ++ rest) outlen = (p, some p.length)) ∧
      (decodePacket input outlen = (p, some p.length) →
        frame p = input.take (input.idxOf END + 1)) ∧
      ∀ q, frame q = frame p → q = p := by
  refine ⟨⟨eq_frame_of_decodePacket, ?_⟩, ?_, ?_, ?_, fun q hq => frame_injective hq⟩
  · rintro ⟨rest, rfl⟩
    exact decodePacket_frame p rest outlen h
  · intro n hn
    rw [encodePacket_of_le p n hn, packet, frame_eq]
  · exact fun rest => decodePacket_frame p rest outlen h
  · intro hd
    obtain ⟨rest, rfl⟩ := eq_frame_of_decodePacket hd
    exact (take_frame p rest).symm

theorem decodePacket_eq_iff_frame_escaped :
    decodePacket [ESC, ESCEND, 0x01, END, 0x02] 2 = ([END, 0x01], some 2) :=
  ((decodePacket_eq_iff_frame [ESC, ESCEND, 0x01, END, 0x02] [END, 0x01] 2 (by decide)).1).mpr
    ⟨[0x02], by decide⟩

end SlipStream.BufferFormat
