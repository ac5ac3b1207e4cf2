import SlipStream.BufferLimits
import SlipStream.DecoderResume
import SlipStream.DecoderRoundTrip
import SlipStream.ReceiverLimits

namespace SlipStream.DecodersAgree

open Errors Format Stuffing Transducer Receiver ReceiverLimits Buffer BufferLimits StreamDecoder
open DecoderReceiver DecoderCalls DecoderRoundTrip
open DecoderResume (delivered_append)

/-- A caller that cuts a stream at its `END`s and decodes the pieces one by one,
up to the first that fails. -/
def decodeAll (outlen : Nat) : List (List UInt8) → List (List UInt8) × Option ErrorCode
  | [] => ([], none)
  | s :: ss =>
    let r := decodePacketEx (s ++ [END]) outlen
    if r.2.isSuccess then (r.1 :: (decodeAll outlen ss).1, (decodeAll outlen ss).2)
    else ([], some r.2.error.code)

/-- The code under which the streaming decoder reports what the other reports
as `code`. -/
def streamCode : ErrorCode → ErrorCode
  | .decodeBufferTooSmall => .rxBufferOverflow
  | code => code

def frames (segs : List (List UInt8)) : List UInt8 := segs.flatMap fun s => s ++ [END]

theorem delivered_refused {d : Decoder} {c : UInt8} (h : Refuses d c) :
    delivered (consumeExByte d c).1.2 = [] := by
  obtain ⟨_, heq⟩ | ⟨_, heq⟩ := consumeExByte_cases h
  · rw [heq]
    simp only [overflow]
    split_ifs <;> rfl
  · rw [heq]
    rfl

section Segment

variable {n : UInt64} {logging : Bool} {d : Decoder} {s : Partial UInt8} {xs : List UInt8}
  (h : Related n logging d s) (hfit : Fits slip n.toNat s xs)
  (hbad : Signal.badEscape ∉ (run (assemble slip) s xs).2)
include h hfit hbad

theorem consumeExLoop_goes (k : Nat) :
    ∃ d' events, consumeExLoop d xs k = ((d', events), .ok (k + xs.length)) ∧
      Related n logging d' (run (assemble slip) s xs).1 ∧
      delivered events = messages (run (assemble slip) s xs).2 := by
  have hok := consumeExLoop_of_fits h xs k hfit hbad
  obtain ⟨hops, hres⟩ := consumeExLoop_ok d xs k hok
  have hrun := consumeExLoop_run d xs k
  obtain ⟨hr, hobs⟩ := run_related h (exOps d xs)
  have hin : (exOps d xs).map Op.input = feed false xs := by
    rw [hops, List.map_map]
    rfl
  rw [hin, run_feed_of_fits slip n.toNat s false xs hfit] at hr hobs
  exact ⟨_, _, Prod.ext hrun hres, hr, delivered_eq hobs⟩

theorem consumeExLoop_stops {c : UInt8} (ys : List UInt8) (k : Nat)
    (hc : n.toNat < (run (assemble slip) s xs).1.acc.length + 2 ∨
      (run (assemble slip) s xs).1.esc = true ∧ c ≠ ESCEND ∧ c ≠ ESCESC) :
    (consumeExLoop d (xs ++ c :: ys) k).2.hasError = true ∧
      (consumeExLoop d (xs ++ c :: ys) k).2.consumed = k + xs.length ∧
      (consumeExLoop d (xs ++ c :: ys) k).2.error.code =
        (if n.toNat < (run (assemble slip) s xs).1.acc.length + 2 then .rxBufferOverflow
        else .decodeInvalidEscapeSequence) ∧
      delivered (consumeExLoop d (xs ++ c :: ys) k).1.2 =
        messages (run (assemble slip) s xs).2 := by
  obtain ⟨d', events, hgo, hr, hdel⟩ := consumeExLoop_goes h hfit hbad k
  have hrefuse : Refuses d' c := (refuses_iff hr c).mpr hc
  have herr : (consumeExByte d' c).2.hasError = true := (hasError_iff_refuses d' c).mpr hrefuse
  have hsplit : consumeExLoop d (xs ++ c :: ys) k =
      (((consumeExByte d' c).1.1, events ++ (consumeExByte d' c).1.2),
        .fail (consumeExByte d' c).2.error.code (k + xs.length)
          (consumeExByte d' c).2.error.position (consumeExByte d' c).2.error.message) := by
    rw [consumeExLoop_append, hgo]
    simp [ConsumeResult.ok, consumeExLoop, herr]
  rw [hsplit]
  refine ⟨rfl, rfl, ?_, ?_⟩
  · obtain ⟨hfull, heq⟩ | ⟨hroom, heq⟩ := consumeExByte_cases hrefuse
    · rw [heq, if_pos ((full_iff hr).mp hfull)]
      rfl
    · rw [heq, if_neg (mt (full_iff hr).mpr hroom)]
      rfl
  · rw [delivered_append, hdel, delivered_refused hrefuse, List.append_nil]

end Segment

theorem scan_segment {seg : List UInt8} (hseg : END ∉ seg) {p : List UInt8} {v : Verdict UInt8}
    (hscan : scan slip (seg ++ [END]) = (p, v)) :
    (v = .stopped [] ∧ seg = escape p) ∨
      ∃ b rest, v = .badEscape b rest ∧ b ≠ ESCEND ∧ b ≠ ESCESC ∧
        seg ++ [END] = escape p ++ ESC :: b :: rest := by
  obtain ⟨hv, hx⟩ := (scan_eq_iff slip (seg ++ [END]) p v).mp hscan
  cases v with
  | stopped rest =>
    obtain ⟨hs, _, hrest⟩ := (List.append_cons_inj_of_notMem hseg List.not_mem_nil).mp
      (show seg ++ [END] = escape p ++ END :: rest from hx)
    exact Or.inl ⟨by rw [hrest], hs⟩
  | badEscape b rest => exact Or.inr ⟨b, rest, rfl, hv.1, hv.2, hx⟩
  | truncated =>
    have hlast := List.append_inj_right' (show seg ++ [END] = escape p ++ [ESC] from hx) rfl
    exact absurd hlast (by decide)
  | exhausted =>
    have hmem : END ∈ escape p ++ [] := by
      rw [← show seg ++ [END] = escape p ++ [] from hx]
      simp
    rw [List.append_nil] at hmem
    exact absurd hmem (END_notMem_escape p)

/-- `consume_ex` stops with `code` inside a piece of `len` bytes that begins at `k`,
before it has delivered anything. -/
structure StopsIn (len k : Nat) (code : ErrorCode) (r : (Decoder × List Event) × ConsumeResult) :
    Prop where
  hasError : r.2.hasError = true
  le_consumed : k ≤ r.2.consumed
  consumed_lt : r.2.consumed < k + len
  code_eq : r.2.error.code = code
  delivered_eq : delivered r.1.2 = []

section Frame

variable {n : UInt64} {logging : Bool} {d : Decoder} (h : Related n logging d .empty)
  (hn : 2 ≤ n.toNat) {seg : List UInt8} (hseg : END ∉ seg)
include h hn hseg

theorem consumeExLoop_of_success
    (hok : (decodePacketEx (seg ++ [END]) (n.toNat - 2)).2.isSuccess = true) (k : Nat) :
    ∃ d' events, consumeExLoop d (seg ++ [END]) k =
        ((d', events), .ok (k + (seg ++ [END]).length)) ∧
      Related n logging d' .empty ∧
      delivered events = [(decodePacketEx (seg ++ [END]) (n.toNat - 2)).1] := by
  obtain ⟨⟨p, v⟩, hscan⟩ : ∃ r, scan slip (seg ++ [END]) = r := ⟨_, rfl⟩
  have hcode := decodePacketEx_code (seg ++ [END]) (n.toNat - 2)
  have hpacket := decodePacketEx_eq (seg ++ [END]) (n.toNat - 2)
  rw [hscan] at hcode hpacket
  have hsucc : (decodePacketEx (seg ++ [END]) (n.toNat - 2)).2.error.code = .success := by
    simpa [Result.isSuccess] using hok
  rw [hsucc] at hcode
  split_ifs at hcode with hlen
  obtain ⟨rfl, rfl⟩ | ⟨b, rest, rfl, _⟩ := scan_segment hseg hscan
  · have hfit := fits_frame slip n.toNat p (by simp only at hlen; omega)
    have hrun := run_frame slip p
    obtain ⟨d', events, hgo, hr, hdel⟩ := consumeExLoop_goes h hfit (by rw [hrun]; simp) k
    rw [hrun] at hr hdel
    refine ⟨d', events, hgo, hr, ?_⟩
    rw [hdel, hpacket, packetOutcome, if_pos (by simpa using hlen)]
    rfl
  · cases hcode

omit hseg in
theorem stopsIn_of_broken {p : List UInt8} (hlen : p.length ≤ n.toNat - 2) {b : UInt8}
    (hs : b ≠ ESCEND) (he : b ≠ ESCESC) {rest : List UInt8}
    (hx : seg ++ [END] = escape p ++ ESC :: b :: rest) (ys : List UInt8) (k : Nat) :
    StopsIn (seg ++ [END]).length k .decodeInvalidEscapeSequence
      (consumeExLoop d (seg ++ [END] ++ ys) k) := by
  have hfit : Fits slip n.toNat .empty (escape p ++ [ESC]) := by
    rw [fits_append]
    refine ⟨fits_stuff slip n.toNat [] p (by simp; omega), ?_, trivial⟩
    rw [escape, Partial.empty, run_stuff]
    simp
    omega
  have hrun : run (assemble slip) .empty (escape p ++ [ESC]) = (⟨p, true⟩, []) := by
    rw [run_append, escape, Partial.empty, run_stuff]
    exact congrArg (fun x => (x.1, x.2 ++ [])) (assemble_esc slip p)
  have hsplit : seg ++ [END] ++ ys = (escape p ++ [ESC]) ++ b :: (rest ++ ys) := by
    rw [hx]
    simp
  have hroom : ¬ n.toNat < p.length + 2 := by omega
  obtain ⟨herr, hcons, herrCode, hdel⟩ := consumeExLoop_stops h hfit (by rw [hrun]; simp)
    (rest ++ ys) k (by rw [hrun]; exact Or.inr ⟨rfl, hs, he⟩)
  rw [hrun] at herrCode hdel
  have hbound : (escape p ++ [ESC]).length < (seg ++ [END]).length := by
    rw [hx]
    simp
  rw [hsplit]
  exact ⟨herr, by omega, by omega, herrCode.trans (if_neg hroom), hdel⟩

omit hseg in
theorem stopsIn_of_long {p : List UInt8} (hlen : n.toNat - 2 < p.length) {b : UInt8}
    {rest : List UInt8} (hx : seg ++ [END] = escape p ++ b :: rest) (ys : List UInt8) (k : Nat) :
    StopsIn (seg ++ [END]).length k .rxBufferOverflow
      (consumeExLoop d (seg ++ [END] ++ ys) k) := by
  -- the byte behind the first `n - 1` of the payload overflows
  obtain ⟨q, c, r, rfl, hq⟩ : ∃ q c r, p = q ++ c :: r ∧ q.length = n.toNat - 2 := by
    refine ⟨p.take (n.toNat - 2), p[n.toNat - 2], p.drop (n.toNat - 2 + 1), ?_, ?_⟩
    · rw [← List.drop_eq_getElem_cons hlen, List.take_append_drop]
    · exact List.length_take_of_le (Nat.le_of_lt hlen)
  obtain ⟨b', rest', hrest⟩ : ∃ b' rest', escape r ++ b :: (rest ++ ys) = b' :: rest' :=
    List.exists_cons_of_ne_nil (by simp)
  have hfit : Fits slip n.toNat .empty (escape q ++ stuffOne slip c) := by
    rw [fits_append]
    refine ⟨fits_stuff slip n.toNat [] q (by simp; omega), ?_⟩
    rw [escape, Partial.empty, run_stuff]
    exact fits_stuffOne slip n.toNat q c (by omega)
  have hrun : run (assemble slip) .empty (escape q ++ stuffOne slip c) =
      (⟨q ++ [c], false⟩, []) := by
    rw [run_append, escape, Partial.empty, run_stuff, List.nil_append, run_stuffOne]
    rfl
  have hsplit : seg ++ [END] ++ ys = (escape q ++ stuffOne slip c) ++ b' :: rest' := by
    rw [hx, ← hrest, escape_append, escape_cons]
    simp only [List.append_assoc, List.cons_append]
  have hfull : n.toNat < (q ++ [c]).length + 2 := by
    rw [List.length_append, List.length_singleton]
    omega
  obtain ⟨herr, hcons, herrCode, hdel⟩ := consumeExLoop_stops h hfit (by rw [hrun]; simp)
    rest' k (by rw [hrun]; exact Or.inl hfull)
  rw [hrun] at herrCode hdel
  have hbound : (escape q ++ stuffOne slip c).length < (seg ++ [END]).length := by
    rw [hx, escape_append, escape_cons]
    simp only [List.length_append, List.length_cons]
    omega
  rw [hsplit]
  exact ⟨herr, by omega, by omega, herrCode.trans (if_pos hfull), hdel⟩

theorem consumeExLoop_of_failure
    (hno : ¬ (decodePacketEx (seg ++ [END]) (n.toNat - 2)).2.isSuccess = true)
    (ys : List UInt8) (k : Nat) :
    StopsIn (seg ++ [END]).length k
      (streamCode (decodePacketEx (seg ++ [END]) (n.toNat - 2)).2.error.code)
      (consumeExLoop d (seg ++ [END] ++ ys) k) := by
  obtain ⟨⟨p, v⟩, hscan⟩ : ∃ r, scan slip (seg ++ [END]) = r := ⟨_, rfl⟩
  have hcode := decodePacketEx_code (seg ++ [END]) (n.toNat - 2)
  rw [hscan] at hcode
  simp only at hcode
  by_cases hlen : p.length ≤ n.toNat - 2
  · rw [if_pos hlen] at hcode
    obtain ⟨rfl, _⟩ | ⟨b, rest, rfl, hs, he, hx⟩ := scan_segment hseg hscan
    · exact absurd (decide_eq_true hcode) hno
    · rw [hcode]
      exact stopsIn_of_broken h hn hlen hs he hx ys k
  · rw [if_neg hlen] at hcode
    obtain ⟨b, rest, hx⟩ : ∃ b rest, seg ++ [END] = escape p ++ b :: rest := by
      obtain ⟨_, rfl⟩ | ⟨b, rest, _, _, _, hx⟩ := scan_segment hseg hscan
      · exact ⟨END, [], rfl⟩
      · exact ⟨ESC, b :: rest, hx⟩
    rw [hcode]
    exact stopsIn_of_long h hn (Nat.not_le.mp hlen) hx ys k

end Frame

/-- What `consume_ex` reports about a stream of pieces, against the pieces
decoded one by one. -/
structure Agrees (segs : List (List UInt8)) (k : Nat) (r : (Decoder × List Event) × ConsumeResult)
    (b : List (List UInt8) × Option ErrorCode) : Prop where
  delivered_eq : delivered r.1.2 = b.1
  ok : b.2 = none → r.2 = .ok (k + (frames segs).length)
  error : ∀ code ∈ b.2, r.2.hasError = true ∧ r.2.error.code = streamCode code ∧
    k + (frames (segs.take b.1.length)).length ≤ r.2.consumed ∧
    r.2.consumed < k + (frames (segs.take (b.1.length + 1))).length

theorem frames_cons (seg : List UInt8) (segs : List (List UInt8)) :
    frames (seg :: segs) = seg ++ [END] ++ frames segs := List.flatMap_cons

theorem length_frames_cons (seg : List UInt8) (segs : List (List UInt8)) :
    (frames (seg :: segs)).length = (seg ++ [END]).length + (frames segs).length := by
  rw [frames_cons, List.length_append]

theorem agrees_frames {n : UInt64} {logging : Bool} {d : Decoder}
    (h : Related n logging d .empty) (hn : 2 ≤ n.toNat) (segs : List (List UInt8))
    (hsegs : ∀ s ∈ segs, END ∉ s) (k : Nat) :
    Agrees segs k (consumeExLoop d (frames segs) k) (decodeAll (n.toNat - 2) segs) := by
  induction segs generalizing d k with
  | nil => exact ⟨rfl, fun _ => rfl, fun _ hc => by cases hc⟩
  | cons seg segs ih =>
    have hseg := hsegs seg List.mem_cons_self
    have hrest : ∀ s ∈ segs, END ∉ s := fun s hs => hsegs s (List.mem_cons_of_mem seg hs)
    rw [frames_cons, decodeAll]
    by_cases hok : (decodePacketEx (seg ++ [END]) (n.toNat - 2)).2.isSuccess = true
    · obtain ⟨d', events, hgo, hr, hdel⟩ := consumeExLoop_of_success h hn hseg hok k
      obtain ⟨hdel', hnone, herr⟩ := ih hr hrest (k + (seg ++ [END]).length)
      have hsplit : consumeExLoop d (seg ++ [END] ++ frames segs) k =
          (((consumeExLoop d' (frames segs) (k + (seg ++ [END]).length)).1.1,
            events ++ (consumeExLoop d' (frames segs) (k + (seg ++ [END]).length)).1.2),
            (consumeExLoop d' (frames segs) (k + (seg ++ [END]).length)).2) := by
        rw [consumeExLoop_append, hgo]
        simp [ConsumeResult.ok]
      simp only [if_pos hok]
      rw [hsplit]
      refine ⟨?_, ?_, ?_⟩
      · rw [delivered_append, hdel, hdel']
        rfl
      · intro hz
        rw [hnone hz, length_frames_cons, Nat.add_assoc]
      · intro code hcode
        obtain ⟨he, hc, hlow, hhigh⟩ := herr code hcode
        simp only [List.length_cons, List.take_succ_cons, length_frames_cons]
        exact ⟨he, hc, by omega, by omega⟩
    · obtain ⟨he, hlow, hhigh, hc, hdel⟩ :=
        consumeExLoop_of_failure h hn hseg hok (frames segs) k
      simp only [if_neg hok]
      refine ⟨hdel, fun hz => (by cases hz), ?_⟩
      intro code hcode
      obtain rfl := Option.some.inj hcode
      refine ⟨he, hc, hlow, ?_⟩
      rw [List.length_nil, List.take_succ_cons, List.take_zero, length_frames_cons]
      exact hhigh

/-- On a stream of whole frames, good or broken, the streaming decoder with a
buffer of `n` bytes and `decode_packet_ex` with `n - 2` bytes for its output
agree: both get the same messages up to the first frame that is bad or too long,
and for that one give the same reason. -/
theorem consumeEx_agrees_decodePacketEx (n : UInt64) (hn : 2 ≤ n.toNat) (d : Decoder)
    (hd : Fresh n d) (segs : List (List UInt8)) (hsegs : ∀ s ∈ segs, END ∉ s) :
    Agrees segs 0 (consumeEx d (frames segs)) (decodeAll (n.toNat - 2) segs) :=
  agrees_frames (related_of_fresh hd (by omega)) hn segs hsegs 0

theorem consumeEx_agrees_decodePacketEx_overflow :
    delivered (consumeEx (new (fun _ => 0) 4 true)
        (frames [[0x01, ESC, ESCEND], [0x01, 0x02, 0x03], [0x04]])).1.2 = [[0x01, END]] ∧
      (consumeEx (new (fun _ => 0) 4 true)
        (frames [[0x01, ESC, ESCEND], [0x01, 0x02, 0x03], [0x04]])).2.error.code =
          .rxBufferOverflow := by
  obtain ⟨hdel, _, herr⟩ := consumeEx_agrees_decodePacketEx 4 (by decide) (new (fun _ => 0) 4 true)
    ⟨_, _, Or.inl rfl⟩ [[0x01, ESC, ESCEND], [0x01, 0x02, 0x03], [0x04]] (by decide)
  exact ⟨hdel, (herr .decodeBufferTooSmall rfl).2.1⟩

end SlipStream.DecodersAgree
