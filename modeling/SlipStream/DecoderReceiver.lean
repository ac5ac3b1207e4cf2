import SlipStream.Receiver
import SlipStream.StreamDecoder

namespace SlipStream.DecoderReceiver

open Format Transducer Receiver StreamDecoder

/-- The calls that look at one byte at most. -/
inductive Op where
  | consume (c : UInt8)
  | consumeEx (c : UInt8)
  | reset

def Op.step (d : Decoder) : Op → Decoder × List Event
  | .consume c => consumeByte d c
  | .consumeEx c => (consumeExByte d c).1
  | .reset => (StreamDecoder.reset d, [])

def Op.input : Op → Input UInt8
  | .consume c => .symbol true c
  | .consumeEx c => .symbol false c
  | .reset => .clear

/-- The receiver's state a decoder stands for: what was received since the
last reset, wherever it lies in memory. -/
def view (d : Decoder) : Partial UInt8 := ⟨contents d, d.lastCharIsEsc⟩

def observe : Event → Option (Signal UInt8)
  | .message m => some (.message m)
  | .log _ _ => some .overflow
  | .logEx _ => some .overflow
  | .store _ _ => none

/-- What the callbacks show of a receiver's signals, given whether one of the
log callbacks is set. -/
def visible (logging : Bool) : Signal UInt8 → Option (Signal UInt8)
  | .message m => some (.message m)
  | .overflow => if logging then some .overflow else none
  | .badEscape => none

/-- The messages among a decoder's events, in order. -/
def delivered (events : List Event) : List (List UInt8) :=
  events.filterMap fun
    | .message m => some m
    | _ => none

/-- A decoder as either constructor leaves it. -/
def Fresh (n : UInt64) (d : Decoder) : Prop :=
  ∃ rxbuf callback, d = new rxbuf n callback ∨ d = newEx rxbuf n callback

/-- A decoder with buffer size `n` that stands for the receiver state `s`. -/
structure Related (n : UInt64) (logging : Bool) (d : Decoder) (s : Partial UInt8) : Prop where
  size_eq : d.rxbufSize = n
  size_pos : 0 < n.toNat
  pos_le : d.rxbufPos.toNat ≤ n.toNat
  log_eq : (d.logCallback || d.logCallbackEx) = logging
  one_log : (d.logCallback && d.logCallbackEx) = false
  view_eq : view d = s

theorem Related.acc_eq {n : UInt64} {logging : Bool} {d : Decoder} {s : Partial UInt8}
    (h : Related n logging d s) : contents d = s.acc := congrArg Partial.acc h.view_eq

theorem Related.esc_eq {n : UInt64} {logging : Bool} {d : Decoder} {s : Partial UInt8}
    (h : Related n logging d s) : d.lastCharIsEsc = s.esc := congrArg Partial.esc h.view_eq

theorem length_contents (d : Decoder) : (contents d).length = d.rxbufPos.toNat := by
  simp [contents]

theorem Related.pos_eq {n : UInt64} {logging : Bool} {d : Decoder} {s : Partial UInt8}
    (h : Related n logging d s) : d.rxbufPos.toNat = s.acc.length := by
  rw [← h.acc_eq, length_contents]

theorem pos_store (d : Decoder) (b : UInt8) (h : d.rxbufPos.toNat < d.rxbufSize.toNat) :
    (store d b).1.rxbufPos.toNat = d.rxbufPos.toNat + 1 := by
  have hlt := d.rxbufSize.toNat_lt
  have h1 : (1 : UInt64).toNat = 1 := rfl
  simp only [store, UInt64.toNat_add, h1]
  omega

theorem contents_store (d : Decoder) (b : UInt8) (h : d.rxbufPos.toNat < d.rxbufSize.toNat) :
    contents (store d b).1 = contents d ++ [b] := by
  rw [contents, pos_store d b h, List.range_succ, List.map_append]
  simp only [store, List.map_cons, List.map_nil, Function.update_self, contents]
  congr 1
  apply List.map_congr_left
  intro i hi
  exact Function.update_of_ne (Nat.ne_of_lt (List.mem_range.mp hi)) _ _

theorem full_iff {n : UInt64} {logging : Bool} {d : Decoder} {s : Partial UInt8}
    (h : Related n logging d s) : full d = true ↔ n.toNat < s.acc.length + 2 := by
  have hle : d.rxbufPos ≤ d.rxbufSize := by
    rw [UInt64.le_iff_toNat_le, h.size_eq]
    exact h.pos_le
  have hs := h.pos_eq
  have h2 : (2 : UInt64).toNat = 2 := rfl
  have hp := h.pos_le
  rw [full, decide_eq_true_iff, UInt64.lt_iff_toNat_lt, UInt64.toNat_sub_of_le _ _ hle, h2, hs,
    h.size_eq]
  omega

theorem related_reset {n : UInt64} {logging : Bool} {d : Decoder} {s : Partial UInt8}
    (h : Related n logging d s) : Related n logging (reset d) .empty :=
  ⟨h.size_eq, h.size_pos, Nat.zero_le _, h.log_eq, h.one_log, rfl⟩

theorem related_counted {n : UInt64} {logging : Bool} {r : Decoder × List Event}
    {s : Partial UInt8} (h : Related n logging r.1 s) : Related n logging (counted r).1 s :=
  ⟨h.size_eq, h.size_pos, h.pos_le, h.log_eq, h.one_log, h.view_eq⟩

theorem related_store {n : UInt64} {logging : Bool} {d : Decoder} {w : List UInt8} {e : Bool}
    (h : Related n logging d ⟨w, e⟩) (hroom : w.length < n.toNat) (b : UInt8) :
    Related n logging (store d b).1 ⟨w ++ [b], e⟩ := by
  have hw : contents d = w := h.acc_eq
  have he : d.lastCharIsEsc = e := h.esc_eq
  have hlt : d.rxbufPos.toNat < d.rxbufSize.toNat := by
    rw [h.pos_eq, h.size_eq]
    exact hroom
  refine ⟨h.size_eq, h.size_pos, ?_, h.log_eq, h.one_log, ?_⟩
  · rw [pos_store d b hlt, ← h.size_eq]
    omega
  · rw [view, contents_store d b hlt, hw, ← he]
    rfl

theorem related_overflow {n : UInt64} {logging : Bool} {d : Decoder} {s : Partial UInt8}
    (h : Related n logging d s) :
    Related n logging (overflow d).1 .empty ∧
      (overflow d).2.filterMap observe = [Signal.overflow].filterMap (visible logging) := by
  refine ⟨⟨h.size_eq, h.size_pos, Nat.zero_le _, h.log_eq, h.one_log, rfl⟩, ?_⟩
  have hl := h.log_eq
  have ho := h.one_log
  cases hc : d.logCallback <;> cases hx : d.logCallbackEx <;>
    simp_all [overflow, observe, visible]

/-- With room for one more byte, the branches behind the overflow check are
the receiver's. -/
theorem related_consumePlain {n : UInt64} {logging : Bool} {d : Decoder} {w : List UInt8}
    (h : Related n logging d ⟨w, false⟩) (hroom : w.length < n.toNat) (c : UInt8) :
    Related n logging (consumePlain d c).1 (assemble slip ⟨w, false⟩ c).1 ∧
      (consumePlain d c).2.filterMap observe =
        (assemble slip ⟨w, false⟩ c).2.filterMap (visible logging) := by
  have hw : contents d = w := h.acc_eq
  by_cases hs : c = END
  · subst hs
    rw [show assemble slip ⟨w, false⟩ END = _ from assemble_stop slip w]
    simp only [consumePlain, if_pos]
    exact ⟨related_reset h, by rw [hw]; rfl⟩
  · by_cases he : c = ESC
    · subst he
      rw [show assemble slip ⟨w, false⟩ ESC = _ from assemble_esc slip w]
      simp only [consumePlain, if_neg hs, if_pos]
      exact ⟨⟨h.size_eq, h.size_pos, h.pos_le, h.log_eq, h.one_log, by rw [← hw]; rfl⟩, rfl⟩
    · rw [assemble_other slip w hs he]
      simp only [consumePlain, if_neg hs, if_neg he]
      exact ⟨related_store h hroom c, rfl⟩

theorem related_escapeDone {n : UInt64} {logging : Bool} {d : Decoder} {w : List UInt8}
    (h : Related n logging d ⟨w, true⟩) (hroom : w.length < n.toNat) (b : UInt8) :
    Related n logging (escapeDone (store d b)).1 ⟨w ++ [b], false⟩ := by
  have hr := related_store h hroom b
  have hw : contents (store d b).1 = w ++ [b] := hr.acc_eq
  exact ⟨hr.size_eq, hr.size_pos, hr.pos_le, hr.log_eq, hr.one_log, by rw [← hw]; rfl⟩

theorem related_consumeEscaped {n : UInt64} {logging : Bool} {d : Decoder} {w : List UInt8}
    (h : Related n logging d ⟨w, true⟩) (hroom : w.length < n.toNat) (c : UInt8) :
    Related n logging (consumeEscaped d c).1 (assemble slip ⟨w, true⟩ c).1 ∧
      (consumeEscaped d c).2.filterMap observe =
        (assemble slip ⟨w, true⟩ c).2.filterMap (visible logging) := by
  by_cases hs : c = ESCEND
  · subst hs
    rw [show assemble slip ⟨w, true⟩ ESCEND = _ from assemble_stopMark slip w]
    simp only [consumeEscaped, if_pos]
    exact ⟨related_escapeDone h hroom END, rfl⟩
  · by_cases he : c = ESCESC
    · subst he
      rw [show assemble slip ⟨w, true⟩ ESCESC = _ from assemble_escMark slip w]
      simp only [consumeEscaped, if_neg hs, if_pos]
      exact ⟨related_escapeDone h hroom ESC, rfl⟩
    · rw [assemble_badEscape slip w hs he]
      simp only [consumeEscaped, if_neg hs, if_neg he]
      exact ⟨⟨h.size_eq, h.size_pos, Nat.zero_le _, h.log_eq, h.one_log, rfl⟩, rfl⟩

theorem related_dispatch {n : UInt64} {logging : Bool} {d : Decoder} {s : Partial UInt8}
    (h : Related n logging d s) (hroom : s.acc.length < n.toNat) (c : UInt8) :
    Related n logging (dispatch d c).1 (assemble slip s c).1 ∧
      (dispatch d c).2.filterMap observe =
        (assemble slip s c).2.filterMap (visible logging) := by
  obtain ⟨w, e⟩ := s
  have he : d.lastCharIsEsc = e := h.esc_eq
  cases e with
  | false =>
    rw [dispatch, he, if_neg Bool.false_ne_true]
    exact related_consumePlain h hroom c
  | true =>
    rw [dispatch, he, if_pos rfl]
    exact related_consumeEscaped h hroom c

/-- The decoder reports an error on its next byte: its buffer is full, or the
byte breaks the escape it stands in. -/
def Refuses (d : Decoder) (c : UInt8) : Prop :=
  full d = true ∨ d.lastCharIsEsc = true ∧ c ≠ ESCEND ∧ c ≠ ESCESC

theorem consumeExByte_of_full {d : Decoder} (h : full d = true) (c : UInt8) :
    consumeExByte d c =
      (overflow d, .fail .rxBufferOverflow 1 0 "RX buffer overflow") := if_pos h

theorem consumeExByte_of_broken {d : Decoder} {c : UInt8} (hroom : ¬ full d = true)
    (hesc : d.lastCharIsEsc = true) (hs : c ≠ ESCEND) (he : c ≠ ESCESC) :
    consumeExByte d c = ((invalidEscape d, []),
      .fail .decodeInvalidEscapeSequence 1 0 "Invalid escape sequence") := by
  rw [consumeExByte, if_neg hroom, if_pos hesc, if_neg hs, if_neg he]
  rfl

theorem consumeByte_of_room {d : Decoder} {c : UInt8} (hroom : ¬ full d = true) :
    consumeByte d c = counted (dispatch d c) := by
  rw [consumeByte, if_neg hroom]
  rfl

/-- Without an error both ways to consume a byte do the same. -/
theorem consumeExByte_of_accepts {d : Decoder} {c : UInt8} (h : ¬ Refuses d c) :
    consumeExByte d c = (consumeByte d c, .ok 1) := by
  obtain ⟨hroom, hunbroken⟩ := not_or.mp h
  rw [consumeExByte, if_neg hroom, consumeByte_of_room hroom, dispatch]
  by_cases hesc : d.lastCharIsEsc = true
  · rw [if_pos hesc, if_pos hesc, consumeEscaped]
    by_cases hs : c = ESCEND
    · rw [if_pos hs, if_pos hs]
    · by_cases he : c = ESCESC
      · rw [if_neg hs, if_neg hs, if_pos he, if_pos he]
      · exact absurd ⟨hesc, hs, he⟩ hunbroken
  · rw [if_neg hesc, if_neg hesc]

theorem consumeExByte_cases {d : Decoder} {c : UInt8} (h : Refuses d c) :
    (full d = true ∧ consumeExByte d c =
        (overflow d, .fail .rxBufferOverflow 1 0 "RX buffer overflow")) ∨
      (¬ full d = true ∧ consumeExByte d c = ((invalidEscape d, []),
        .fail .decodeInvalidEscapeSequence 1 0 "Invalid escape sequence")) := by
  by_cases hfull : full d = true
  · exact Or.inl ⟨hfull, consumeExByte_of_full hfull c⟩
  · obtain ⟨hesc, hs, he⟩ := h.resolve_left hfull
    exact Or.inr ⟨hfull, consumeExByte_of_broken hfull hesc hs he⟩

theorem hasError_iff_refuses (d : Decoder) (c : UInt8) :
    (consumeExByte d c).2.hasError = true ↔ Refuses d c := by
  constructor
  · intro herr
    by_contra h
    rw [consumeExByte_of_accepts h] at herr
    cases herr
  · intro h
    obtain ⟨-, heq⟩ | ⟨-, heq⟩ := consumeExByte_cases h
    · rw [heq]
      rfl
    · rw [heq]
      rfl

/-- Without an overflow `consume_ex` does what `consume` does, except that it
does not count a byte that breaks an escape sequence. -/
theorem consumeExByte_of_room (d : Decoder) (c : UInt8) (hroom : ¬ full d = true) :
    (consumeExByte d c).1 = counted (dispatch d c) ∨ (consumeExByte d c).1 = dispatch d c := by
  by_cases h : Refuses d c
  · right
    obtain ⟨hesc, hs, he⟩ := h.resolve_left hroom
    rw [consumeExByte_of_broken hroom hesc hs he, dispatch, if_pos hesc, consumeEscaped, if_neg hs,
      if_neg he]
    rfl
  · left
    rw [consumeExByte_of_accepts h, consumeByte_of_room hroom]

theorem related_consumeByte {n : UInt64} {logging : Bool} {d : Decoder} {s : Partial UInt8}
    (h : Related n logging d s) (c : UInt8) :
    Related n logging (consumeByte d c).1 (receive slip n.toNat s (.symbol true c)).1 ∧
      (consumeByte d c).2.filterMap observe =
        (receive slip n.toNat s (.symbol true c)).2.filterMap (visible logging) := by
  have hf := full_iff h
  by_cases hfull : full d = true
  · obtain ⟨ho, hoe⟩ := related_overflow h
    obtain ⟨ha, hae⟩ := related_dispatch ho h.size_pos c
    simp only [consumeByte, receive, if_pos hfull, if_pos (hf.mp hfull), if_pos]
    refine ⟨related_counted ha, ?_⟩
    rw [List.filterMap_append, hoe]
    change _ = ([Signal.overflow] ++ (assemble slip .empty c).2).filterMap (visible logging)
    rw [List.filterMap_append, ← hae]
    rfl
  · have hn : ¬ n.toNat < s.acc.length + 2 := fun hlt => hfull (hf.mpr hlt)
    obtain ⟨ha, hae⟩ := related_dispatch h (by omega) c
    rw [consumeByte_of_room hfull, receive, if_neg hn]
    exact ⟨related_counted ha, hae⟩

theorem refuses_iff {n : UInt64} {logging : Bool} {d : Decoder} {s : Partial UInt8}
    (h : Related n logging d s) (c : UInt8) :
    Refuses d c ↔ n.toNat < s.acc.length + 2 ∨ (s.esc = true ∧ c ≠ ESCEND ∧ c ≠ ESCESC) := by
  rw [Refuses, full_iff h, h.esc_eq]

theorem related_consumeExByte {n : UInt64} {logging : Bool} {d : Decoder} {s : Partial UInt8}
    (h : Related n logging d s) (c : UInt8) :
    Related n logging (consumeExByte d c).1.1 (receive slip n.toNat s (.symbol false c)).1 ∧
      (consumeExByte d c).1.2.filterMap observe =
        (receive slip n.toNat s (.symbol false c)).2.filterMap (visible logging) := by
  have hf := full_iff h
  by_cases hfull : full d = true
  · rw [consumeExByte_of_full hfull, receive, if_pos (hf.mp hfull), if_neg Bool.false_ne_true]
    exact related_overflow h
  · have hn : ¬ n.toNat < s.acc.length + 2 := fun hlt => hfull (hf.mpr hlt)
    obtain ⟨ha, hae⟩ := related_dispatch h (by omega) c
    simp only [receive, if_neg hn]
    obtain he | he := consumeExByte_of_room d c hfull
    · rw [he]
      exact ⟨related_counted ha, hae⟩
    · rw [he]
      exact ⟨ha, hae⟩

theorem related_step {n : UInt64} {logging : Bool} (d : Decoder) (s : Partial UInt8) (op : Op)
    (h : Related n logging d s) :
    Related n logging (Op.step d op).1 (receive slip n.toNat s op.input).1 ∧
      (Op.step d op).2.filterMap observe =
        (receive slip n.toNat s op.input).2.filterMap (visible logging) := by
  cases op with
  | consume c => exact related_consumeByte h c
  | consumeEx c => exact related_consumeExByte h c
  | reset => exact ⟨related_reset h, rfl⟩

/-- The decoder refines the receiver over any sequence of operations. -/
theorem run_related {n : UInt64} {logging : Bool} {d : Decoder} {s : Partial UInt8}
    (h : Related n logging d s) (ops : List Op) :
    Related n logging (run Op.step d ops).1
        (run (receive slip n.toNat) s (ops.map Op.input)).1 ∧
      (run Op.step d ops).2.filterMap observe =
        (run (receive slip n.toNat) s (ops.map Op.input)).2.filterMap (visible logging) :=
  run_simulates Op.input observe (visible logging) related_step ops h

theorem related_of_fresh {n : UInt64} {d : Decoder} (h : Fresh n d) (hn : 0 < n.toNat) :
    Related n (d.logCallback || d.logCallbackEx) d .empty := by
  obtain ⟨rxbuf, callback, rfl | rfl⟩ := h
  · exact ⟨rfl, hn, Nat.zero_le _, rfl, Bool.and_false _, rfl⟩
  · exact ⟨rfl, hn, Nat.zero_le _, rfl, Bool.false_and _, rfl⟩

theorem delivered_eq {events : List Event} {out : List (Signal UInt8)} {logging : Bool}
    (h : events.filterMap observe = out.filterMap (visible logging)) :
    delivered events = messages out := by
  have he : delivered events = (events.filterMap observe).filterMap Signal.message? := by
    rw [List.filterMap_filterMap, delivered]
    congr 1
    funext e
    cases e <;> rfl
  have ho : messages out = (out.filterMap (visible logging)).filterMap Signal.message? := by
    rw [List.filterMap_filterMap, messages]
    congr 1
    funext e
    cases e with
    | message m => rfl
    | badEscape => rfl
    | overflow => cases logging <;> rfl
  rw [he, ho, h]

end SlipStream.DecoderReceiver
