import SlipStream.BufferFormat
import SlipStream.Crc32Corruption
import SlipStream.StuffingErrors

namespace SlipStream.ProtectedFrames

open Format Stuffing StuffingErrors Buffer BufferFormat Crc32 Crc32Trailer Crc32Corruption

theorem near_of_decodePacket {buf buf' wire : List UInt8} {k n outlen : Nat}
    (hlen : wire.length = (frame buf).length)
    (hwin : ∀ i, wire[i]? ≠ (frame buf)[i]? → k ≤ i ∧ i < k + n)
    (hdec : decodePacket wire outlen = (buf', some buf.length)) : Near n buf buf' := by
  obtain ⟨rest, hrest⟩ := eq_frame_of_decodePacket hdec
  have hsize : buf.length = buf'.length := by
    rw [hrest, decodePacket_eq, scan_frame_append, decodeOutcome] at hdec
    split_ifs at hdec
    · have hcount := Option.some.inj (congrArg Prod.snd hdec)
      simpa using hcount.symm
    · cases congrArg Prod.snd hdec
  obtain ⟨u, x, y, v, hx, hy, hxy, hle⟩ := split_at_window hlen hwin
  have hwire : stuff slip buf ++ slip.stop :: [] = u ++ (x ++ v) := by
    rw [← hx, frame_eq]
    rfl
  have hwire' : stuff slip buf' ++ slip.stop :: rest = u ++ (y ++ v) := by
    rw [← hy, hrest, frame_append]
    rfl
  exact near_mono (near_of_stuffed (by decide) (by decide) hxy hwire hwire' hsize) hle

theorem not_verified_of_near {p buf' : List UInt8} (rest : List UInt8)
    (h : Near 3 (p ++ littleEndian (calculateCrc32 p)) buf')
    (hne : buf' ≠ p ++ littleEndian (calculateCrc32 p)) :
    verifyCrc32 (some (buf' ++ rest)) buf'.length = false := by
  obtain ⟨k, hwin⟩ := window_of_near h
  have hlen : buf'.length = p.length + 4 := by
    obtain ⟨a, s, t, c, hb, rfl, hst, _⟩ := h
    have htotal : (p ++ littleEndian (calculateCrc32 p)).length = p.length + 4 := List.length_append
    rw [hb] at htotal
    simp only [List.length_append] at htotal ⊢
    omega
  obtain ⟨p', t', rfl, hp', ht'⟩ :
      ∃ p' t', buf' = p' ++ t' ∧ p'.length = p.length ∧ t'.length = 4 := by
    refine ⟨buf'.take p.length, buf'.drop p.length, (List.take_append_drop _ _).symm, ?_, ?_⟩
    · rw [List.length_take]
      omega
    · rw [List.length_drop]
      omega
  by_contra hok
  rw [Bool.not_eq_false, List.length_append, ht', verifyCrc32_iff p' ht' rest] at hok
  obtain ⟨_, rfl⟩ := hok
  obtain rfl := eq_of_window hp'.symm hwin
  exact hne rfl

/-- A frame with a checksum under it, sent over a line that damages at most three
bytes in a row: what the decoder makes of it is the message, or of another
length, or does not verify. The damage may hit escapes and the `END`. -/
theorem damaged_frame_rejected (p spare : List UInt8) (hp : p ≠ []) (hs : 4 ≤ spare.length) :
    ∃ buf, buf = p ++ littleEndian (calculateCrc32 p) ∧
      appendCrc32 (some (p ++ spare)) p.length = (some (buf ++ spare.drop 4), buf.length) ∧
      (∀ rest outlen, buf.length ≤ outlen →
        decodePacket (frame buf ++ rest) outlen = (buf, some buf.length)) ∧
      (∀ rest, verifyCrc32 (some (buf ++ rest)) buf.length = true) ∧
      ∀ (wire : List UInt8) (k outlen : Nat) (buf' : List UInt8),
        wire.length = (frame buf).length →
        (∀ i, wire[i]? ≠ (frame buf)[i]? → k ≤ i ∧ i < k + 3) →
        decodePacket wire outlen = (buf', some buf.length) → buf' ≠ buf →
        ∀ rest, verifyCrc32 (some (buf' ++ rest)) buf'.length = false := by
  have hlen : (p ++ littleEndian (calculateCrc32 p)).length = p.length + 4 := List.length_append
  refine ⟨p ++ littleEndian (calculateCrc32 p), rfl, ?_, ?_, ?_, ?_⟩
  · rw [appendCrc32_eq p hs, hlen]
  · intro rest outlen hout
    exact decodePacket_frame _ rest outlen hout
  · intro rest
    rw [hlen]
    exact (verifyCrc32_iff p rfl rest).mpr ⟨hp, rfl⟩
  · intro wire k outlen buf' hwire hwin hdec hne rest
    exact not_verified_of_near rest (near_of_decodePacket hwire hwin hdec) hne

theorem damaged_frame_rejected_escape :
    appendCrc32 (some [END, 0x00, 0x00, 0x00, 0x00]) 1 = (some [END, 0x34, 0x64, 0x86, 0x2E], 5) ∧
      decodePacket [ESC, ESCESC, 0x34, 0x64, 0x86, 0x2E, END] 5 =
        ([ESC, 0x34, 0x64, 0x86, 0x2E], some 5) ∧
      verifyCrc32 (some [ESC, 0x34, 0x64, 0x86, 0x2E]) 5 = false := by
  obtain ⟨buf, _, happend, _, _, hreject⟩ :=
    damaged_frame_rejected [END] [0x00, 0x00, 0x00, 0x00] (by decide) (by decide)
  have hcrc : appendCrc32 (some ([END] ++ [0x00, 0x00, 0x00, 0x00])) 1 =
      (some [END, 0x34, 0x64, 0x86, 0x2E], 5) := by decide +kernel
  have hdec : decodePacket [ESC, ESCESC, 0x34, 0x64, 0x86, 0x2E, END] 5 =
      ([ESC, 0x34, 0x64, 0x86, 0x2E], some 5) := by decide
  refine ⟨hcrc, hdec, ?_⟩
  have hbuf : some (buf ++ []) = some [END, 0x34, 0x64, 0x86, 0x2E] :=
    congrArg Prod.fst (happend.symm.trans hcrc)
  rw [List.append_nil] at hbuf
  obtain rfl := Option.some.inj hbuf
  have hwin : ∀ i, ([ESC, ESCESC, 0x34, 0x64, 0x86, 0x2E, END] : List UInt8)[i]? ≠
      (frame [END, 0x34, 0x64, 0x86, 0x2E])[i]? → 1 ≤ i ∧ i < 1 + 3 := by
    intro i hi
    have hframe : frame [END, 0x34, 0x64, 0x86, 0x2E] =
        [ESC, ESCEND, 0x34, 0x64, 0x86, 0x2E, END] := by decide
    rw [hframe] at hi
    match i, hi with
    | 0, hi => exact absurd rfl hi
    | 1, _ => decide
    | _ + 2, hi => exact absurd rfl hi
  exact hreject _ 1 5 _ (by decide) hwin hdec (by decide) []

end SlipStream.ProtectedFrames
