import SlipStream.ChunkProgress
import SlipStream.DecoderFrames
import SlipStream.ReceiverResume

namespace SlipStream.DecoderResume

open Stuffing Format Transducer Receiver ReceiverLimits ReceiverResume StreamDecoder
open DecoderReceiver DecoderCalls DecoderFrames ChunkProgress

/-- A caller that hands a buffer to `consume_ex` and, as long as that reports an
error, calls it again on the bytes behind those it says it has consumed. One unit
of fuel is one call. -/
def resume : Nat → Decoder → List UInt8 → Option (Decoder × List Event)
  | 0, _, _ => none
  | fuel + 1, d, data =>
    let r := StreamDecoder.consumeEx d data
    if r.2.hasError then
      (resume fuel r.1.1 (data.drop r.2.consumed)).map fun s => (s.1, r.1.2 ++ s.2)
    else some r.1

variable {n : UInt64} {logging : Bool} {d : Decoder} {s : Partial UInt8}

theorem delivered_append (xs ys : List Event) :
    delivered (xs ++ ys) = delivered xs ++ delivered ys := List.filterMap_append

theorem hear_of_ok (h : Related n logging d s) {c : UInt8}
    (hok : ¬ (StreamDecoder.consumeExByte d c).2.hasError = true) :
    Related n logging (StreamDecoder.consumeExByte d c).1.1 (hear slip true n.toNat s c).1 ∧
      delivered (StreamDecoder.consumeExByte d c).1.2 =
        messages (hear slip true n.toNat s c).2 := by
  obtain ⟨hr, hout⟩ := related_consumeExByte h c
  rw [hasError_iff_refuses, refuses_iff h] at hok
  have hear_eq : hear slip true n.toNat s c = assemble slip s c :=
    if_neg fun hc => hok (hc.imp_right fun h => h.2)
  have hreceive : receive slip n.toNat s (.symbol false c) = assemble slip s c :=
    if_neg fun hfull => hok (Or.inl hfull)
  rw [hreceive] at hr hout
  rw [hear_eq]
  exact ⟨hr, delivered_eq hout⟩

theorem hear_of_error (hn : 2 ≤ n.toNat) (h : Related n logging d s) {c : UInt8}
    (herr : (StreamDecoder.consumeExByte d c).2.hasError = true) :
    Related n logging (StreamDecoder.consumeExByte d c).1.1 .empty ∧
      delivered (StreamDecoder.consumeExByte d c).1.2 = [] ∧
      hear slip true n.toNat s c = hear slip true n.toNat .empty c := by
  -- the decoder is empty after it, and the byte it stopped at comes first in a fresh frame
  obtain ⟨hr, hout⟩ := related_consumeExByte h c
  rw [hasError_iff_refuses, refuses_iff h] at herr
  have hear_eq : hear slip true n.toNat s c = assemble slip .empty c :=
    if_pos (herr.imp_right fun h => ⟨rfl, h⟩)
  rw [hear_eq, hear_empty true hn]
  by_cases hfull : n.toNat < s.acc.length + 2
  · have hreceive : receive slip n.toNat s (.symbol false c) = (.empty, [.overflow]) := by
      rw [receive, if_pos hfull]
      rfl
    rw [hreceive] at hr hout
    exact ⟨hr, delivered_eq hout, rfl⟩
  · obtain ⟨hesc, hs, he⟩ := herr.resolve_left hfull
    obtain ⟨w, e⟩ := s
    obtain rfl : e = true := hesc
    have hreceive : receive slip n.toNat ⟨w, true⟩ (.symbol false c) = (.empty, [.badEscape]) := by
      rw [receive, if_neg hfull]
      exact assemble_badEscape slip w hs he
    rw [hreceive] at hr hout
    exact ⟨hr, delivered_eq hout, rfl⟩

theorem consumeExLoop_hears (hn : 2 ≤ n.toNat) (h : Related n logging d s) (data : List UInt8)
    (k : Nat) :
    ((consumeExLoop d data k).2.hasError = false →
      delivered (consumeExLoop d data k).1.2 =
        messages (run (hear slip true n.toNat) s data).2) ∧
      ((consumeExLoop d data k).2.hasError = true →
        Related n logging (consumeExLoop d data k).1.1 .empty ∧
        ∃ u c v, data = u ++ c :: v ∧ (consumeExLoop d data k).2.consumed = k + u.length ∧
          messages (run (hear slip true n.toNat) s data).2 =
            delivered (consumeExLoop d data k).1.2 ++ heard slip true n.toNat (c :: v)) := by
  induction data generalizing d s k with
  | nil => exact ⟨fun _ => rfl, fun herr => by cases herr⟩
  | cons c data ih =>
    rw [run_cons, messages_append]
    by_cases herr : (StreamDecoder.consumeExByte d c).2.hasError = true
    · obtain ⟨hempty, hnone, hagain⟩ := hear_of_error hn h herr
      simp only [consumeExLoop, if_pos herr]
      refine ⟨?_, fun _ => ⟨hempty, [], c, data, rfl, rfl, ?_⟩⟩
      · intro hok
        cases hok
      · rw [hnone, hagain, List.nil_append, heard, run_cons, messages_append]
    · obtain ⟨hr, hout⟩ := hear_of_ok h herr
      obtain ⟨hok, hfail⟩ := ih hr (k + 1)
      simp only [consumeExLoop, if_neg herr, delivered_append, ← hout]
      constructor
      · intro hno
        rw [hok hno]
      · intro hyes
        obtain ⟨hempty, u, x, v, rfl, hcons, hmsgs⟩ := hfail hyes
        refine ⟨hempty, c :: u, x, v, rfl, ?_, ?_⟩
        · rw [hcons, List.length_cons]
          omega
        · rw [hmsgs, List.append_assoc]

theorem resume_step (hn : 2 ≤ n.toNat) (h : Related n logging d s) (data : List UInt8) (fuel : Nat)
    (hrest : ∀ d' u c v, (StreamDecoder.consumeEx d data).2.hasError = true →
      (StreamDecoder.consumeEx d data).2.consumed = u.length → data = u ++ c :: v →
      Related n logging d' .empty →
      ∃ r, resume fuel d' (c :: v) = some r ∧ delivered r.2 = heard slip true n.toNat (c :: v)) :
    ∃ r, resume (fuel + 1) d data = some r ∧
      delivered r.2 = messages (run (hear slip true n.toNat) s data).2 := by
  obtain ⟨hok, hfail⟩ := consumeExLoop_hears hn h data 0
  rw [← StreamDecoder.consumeEx] at hok hfail
  by_cases herr : (StreamDecoder.consumeEx d data).2.hasError = true
  · obtain ⟨hempty, u, c, v, hsplit, hcons, hmsgs⟩ := hfail herr
    rw [Nat.zero_add] at hcons
    obtain ⟨r, hr, hout⟩ := hrest _ u c v herr hcons hsplit hempty
    refine ⟨(r.1, (StreamDecoder.consumeEx d data).1.2 ++ r.2), ?_, ?_⟩
    · have hdrop : data.drop u.length = c :: v := by
        rw [hsplit]
        exact List.drop_left
      rw [resume, if_pos herr, hcons, hdrop, hr]
      rfl
    · rw [delivered_append, hout, hmsgs]
  · rw [resume, if_neg herr]
    exact ⟨_, rfl, hok (Bool.eq_false_iff.mpr herr)⟩

theorem consumed_of_empty (hn : 2 ≤ n.toNat) (h : Related n logging d .empty) {data : List UInt8}
    (herr : (StreamDecoder.consumeEx d data).2.hasError = true) :
    0 < (StreamDecoder.consumeEx d data).2.consumed := by
  cases data with
  | nil => cases herr
  | cons c data =>
    have hok : ¬ (StreamDecoder.consumeExByte d c).2.hasError = true := by
      rw [hasError_iff_refuses, refuses_iff h]
      rintro (hfull | ⟨hesc, -⟩)
      · exact Nat.not_lt.mpr hn hfull
      · cases hesc
    have hshift := consumeExLoop_add (StreamDecoder.consumeExByte d c).1.1 data 1 0
    simp only [StreamDecoder.consumeEx, consumeExLoop, if_neg hok]
    rw [Nat.zero_add, hshift]
    exact Nat.lt_of_lt_of_le Nat.zero_lt_one (Nat.le_add_right 1 _)

theorem resume_empty (hn : 2 ≤ n.toNat) (fuel : Nat) (h : Related n logging d .empty)
    (data : List UInt8) (hf : data.length < fuel) :
    ∃ r, resume fuel d data = some r ∧ delivered r.2 = heard slip true n.toNat data := by
  induction fuel generalizing d data with
  | zero => omega
  | succ fuel ih =>
    apply resume_step hn h
    intro d' u c v herr hcons hsplit hempty
    have hpos := consumed_of_empty hn h herr
    have hlen : data.length = u.length + (c :: v).length := by
      rw [hsplit, List.length_append]
    exact ih hempty (c :: v) (by omega)

/-- The caller gets to the end of its data, with the messages of a receiver that
hears a byte again that has broken an escape. -/
theorem resume_hears (hn : 2 ≤ n.toNat) (h : Related n logging d s) (data : List UInt8) :
    ∃ r, resume (data.length + 2) d data = some r ∧
      delivered r.2 = messages (run (hear slip true n.toNat) s data).2 := by
  apply resume_step hn h
  intro d' u c v _ _ hsplit hempty
  have hlen : data.length = u.length + (c :: v).length := by
    rw [hsplit, List.length_append]
  exact resume_empty hn _ hempty (c :: v) (by omega)

theorem call_run {call : Call} {r : (Decoder × List Event) × Option ConsumeResult}
    (hr : call.exec d = some r) : ∃ os, r.1 = run Op.step d os := by
  by_cases hret : call.Returns
  · obtain ⟨res, heq⟩ := call.exec_eq d hret
    rw [hr] at heq
    exact ⟨call.ops d, congrArg Prod.fst (Option.some.inj heq)⟩
  · cases call with
    | consumeChunk data chunkSize =>
      obtain rfl : chunkSize = 0 := Nat.lt_one_iff.mp (Nat.lt_of_not_le hret)
      by_cases hd : data = []
      · subst hd
        exact ⟨[], (congrArg Prod.fst (Option.some.inj hr)).symm⟩
      · rw [Call.exec, consumeChunk, consumeChunkLoop_endless hd] at hr
        cases hr
    | consumeChunkEx data chunkSize =>
      obtain rfl : chunkSize = 0 := Nat.lt_one_iff.mp (Nat.lt_of_not_le hret)
      by_cases hd : data = []
      · subst hd
        exact ⟨[], (congrArg Prod.fst (Option.some.inj hr)).symm⟩
      · rw [Call.exec, consumeChunkEx, consumeChunkExLoop_endless hd] at hr
        cases hr
    | consume | consumeByte | consumeEx | consumeExByte | reset => exact absurd trivial hret

theorem exec_run {calls : List Call} {r : (Decoder × List Event) × List (Option ConsumeResult)}
    (hr : exec d calls = some r) : ∃ os, r.1 = run Op.step d os := by
  induction calls generalizing d r with
  | nil => exact ⟨[], (congrArg Prod.fst (Option.some.inj hr)).symm⟩
  | cons call calls ih =>
    obtain ⟨q, hq, hrest⟩ := Option.bind_eq_some_iff.mp hr
    obtain ⟨q', hq', rfl⟩ := Option.map_eq_some_iff.mp hrest
    obtain ⟨os, hos⟩ := call_run hq
    obtain ⟨os', hos'⟩ := ih hq'
    refine ⟨os ++ os', ?_⟩
    rw [run_append, ← hos, ← hos']

/-- What a decoder has taken in of the current frame, as it stood on the wire. -/
def held (d : Decoder) : List UInt8 :=
  escape (contents d) ++ if d.lastCharIsEsc then [ESC] else []

theorem held_eq (h : Related n logging d s) : held d = wire slip s := by
  rw [held, h.acc_eq, h.esc_eq]
  rfl

/-- A caller that resumes after each error reaches the end of its data, from any
state a decoder can be in. It gets the messages of `consume` exactly when every
byte that it hands over twice, because it has broken an escape, is spared. -/
theorem resume_agrees_iff (n : UInt64) (hn : 2 ≤ n.toNat) (d : Decoder) (hd : Fresh n d)
    (calls : List Call) (r : (Decoder × List Event) × List (Option ConsumeResult))
    (hr : exec d calls = some r) (data : List UInt8) :
    ∃ s, resume (data.length + 2) r.1.1 data = some s ∧
      (delivered s.2 = delivered (StreamDecoder.consume r.1.1 data).2 ↔
        ∀ u x rest, held r.1.1 ++ data = u ++ x :: rest →
          Spares slip n.toNat (trailing ESC u) x rest) := by
  obtain ⟨os, hos⟩ := exec_run hr
  have hfresh := related_of_fresh hd (Nat.lt_of_lt_of_le Nat.zero_lt_two hn)
  have hrel := (run_related hfresh os).1
  have hroom := room_run slip hn (room_empty hn) (os.map Op.input)
  rw [← hos] at hrel
  generalize (run (receive slip n.toNat) .empty (os.map Op.input)).1 = s at hrel hroom
  obtain ⟨t, ht, hout⟩ := resume_hears hn hrel data
  refine ⟨t, ht, ?_⟩
  rw [hout, delivered_eq (observe_consume hrel data), messages_receive,
    ← heard_wire_append slip hn true hroom, ← heard_wire_append slip hn false hroom, eq_comm,
    heard_eq_heard_iff slip (by decide) (by decide) hn, held_eq hrel]
  exact spared_iff slip n.toNat [] _

theorem resume_agrees_iff_overflow :
    ∃ r s, exec (new (fun _ => 0) 3 false) [.consume [0x01]] = some r ∧
      resume 5 r.1.1 [0x02, 0x03, END] = some s ∧
      delivered s.2 = delivered (StreamDecoder.consume r.1.1 [0x02, 0x03, END]).2 ∧
      ∀ u x rest, held r.1.1 ++ [0x02, 0x03, END] = u ++ x :: rest →
        Spares slip 3 (trailing ESC u) x rest := by
  obtain ⟨s, hs, hiff⟩ := resume_agrees_iff 3 (by decide) (new (fun _ => 0) 3 false)
    ⟨_, _, Or.inl rfl⟩ [.consume [0x01]] _ rfl [0x02, 0x03, END]
  have hout : delivered s.2 = [[0x03]] := by
    have hval : (resume 5 (StreamDecoder.consume (new (fun _ => 0) 3 false) [0x01]).1
        [0x02, 0x03, END]).map (fun s => delivered s.2) = some [[0x03]] := by decide
    have hmap := congrArg (Option.map fun s => delivered s.2) hs
    exact Option.some.inj (hmap.symm.trans hval)
  have hplain : delivered (StreamDecoder.consume
      (StreamDecoder.consume (new (fun _ => 0) 3 false) [0x01]).1 [0x02, 0x03, END]).2 =
        [[0x03]] := by
    decide
  exact ⟨_, s, rfl, hs, hout.trans hplain.symm, hiff.mp (hout.trans hplain.symm)⟩

/-- `consume` drops the byte that breaks the escape. The caller that resumes
hands it over again, and it becomes a message of its own. -/
theorem resume_repeats_byte :
    delivered (StreamDecoder.consume (new (fun _ => 0) 16 false) [ESC, 0x01, END]).2 = [[]] ∧
      (resume 5 (new (fun _ => 0) 16 false) [ESC, 0x01, END]).map (fun s => delivered s.2) =
        some [[0x01]] := by
  decide

end SlipStream.DecoderResume
