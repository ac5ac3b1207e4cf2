import SlipStream.BufferFormat
import SlipStream.DecoderCalls
import SlipStream.ReceiverLimits

namespace SlipStream.DecoderFrames

open Errors Format Transducer Receiver ReceiverLimits Buffer BufferFormat StreamDecoder
open DecoderReceiver DecoderCalls

def ReportsOverflow : Event → Prop
  | .log type _ => type = .rxBufferOverflow
  | .logEx info => info.error.code = .rxBufferOverflow
  | _ => False

theorem observe_consume {n : UInt64} {logging : Bool} {d : Decoder} {s : Partial UInt8}
    (h : Related n logging d s) (xs : List UInt8) :
    (consume d xs).2.filterMap observe =
      (run (receive slip n.toNat) s (feed true xs)).2.filterMap (visible logging) := by
  have hr := (run_related h (xs.map .consume)).2
  rw [run_map_consume, List.map_map] at hr
  exact hr

/-- A frame with a broken escape still ends in a message, made of what follows
the last broken escape, unless its `END` is itself part of an escape. -/
theorem delivered_malformed (n : UInt64) (d : Decoder) (hd : Fresh n d) (s : List UInt8)
    (hs : END ∉ s) (outlen : Nat)
    (hbad : (decodePacketEx (s ++ [END]) outlen).2.error.code = .decodeInvalidEscapeSequence)
    (hn : s.length + 2 ≤ n.toNat) :
    (decodePacket (s ++ [END]) outlen).2 = none ∧
      (delivered (consume d (s ++ [END])).2 = [] ↔ Odd (trailing ESC s)) := by
  constructor
  · rw [decodePacket_eq_ex]
    simp [Result.isSuccess, hbad]
  · rw [delivered_eq (observe_consume (related_of_fresh hd (by omega)) _)]
    exact messages_feed_stop slip n.toNat true s hs hn

theorem delivered_malformed_ESC_END :
    (decodePacket [0x01, ESC, END] 8).2 = none ∧
      (delivered (consume (new (fun _ => 0) 16 true) [0x01, ESC, END]).2 = [] ↔
        Odd (trailing ESC [0x01, ESC])) :=
  delivered_malformed 16 _ ⟨_, _, Or.inl rfl⟩ [0x01, ESC] (by decide) 8 (by decide) (by decide)

/-- The bytes behind a broken escape come out as a message of their own. -/
theorem delivered_malformed_tail :
    END ∉ [ESC, 0x01, 0x02] ∧
      (decodePacketEx ([ESC, 0x01, 0x02] ++ [END]) 16).2.error.code =
        .decodeInvalidEscapeSequence ∧
      delivered (consume (new (fun _ => 0) 16 true) ([ESC, 0x01, 0x02] ++ [END])).2 ≠ [] := by
  decide

/-- A frame that is too long for the buffer comes out as a message all the
same: what is left of the payload after blocks of `n - 1` bytes. -/
theorem delivered_oversize (n : UInt64) (hn : 2 ≤ n.toNat) (d : Decoder) (hd : Fresh n d)
    (p : List UInt8) (hp : n.toNat - 1 ≤ p.length) :
    (consume d (frame p)).2.filterMap observe =
        (if d.logCallback || d.logCallbackEx then
          List.replicate (p.length / (n.toNat - 1)) Signal.overflow else []) ++
          [.message (p.drop ((n.toNat - 1) * (p.length / (n.toNat - 1))))] ∧
      1 ≤ p.length / (n.toNat - 1) ∧
      ¬ (delivered (consume d (frame p)).2 = [] ∧
        ∃ e ∈ (consume d (frame p)).2, ReportsOverflow e) := by
  have hobs := observe_consume (related_of_fresh hd (by omega)) (frame p)
  have hrun := run_feed_frame slip n.toNat hn p
  have hframe : Stuffing.stuff slip p ++ [slip.stop] = frame p := (frame_eq p).symm
  rw [hframe] at hrun
  rw [hrun] at hobs
  have hone : 1 ≤ p.length / (n.toNat - 1) := Nat.div_pos hp (by omega)
  refine ⟨?_, hone, ?_⟩
  · rw [hobs, List.filterMap_append]
    cases hl : d.logCallback || d.logCallbackEx <;> simp [visible]
  · rintro ⟨hnone, -⟩
    rw [delivered_eq hobs] at hnone
    simp [messages, Signal.message?] at hnone

theorem delivered_oversize_four :
    (consume (new (fun _ => 0) 3 true) (frame [0x01, END, 0x03, 0x04, 0x05])).2.filterMap observe =
        [.overflow, .overflow, .message [0x05]] ∧
      1 ≤ 5 / 2 ∧
      ¬ (delivered (consume (new (fun _ => 0) 3 true) (frame [0x01, END, 0x03, 0x04, 0x05])).2 = [] ∧
        ∃ e ∈ (consume (new (fun _ => 0) 3 true) (frame [0x01, END, 0x03, 0x04, 0x05])).2,
          ReportsOverflow e) :=
  delivered_oversize 3 (by decide) _ ⟨_, _, Or.inl rfl⟩ [0x01, END, 0x03, 0x04, 0x05] (by decide)

theorem delivered_oversize_empty :
    2 ≤ (2 : UInt64).toNat ∧ (2 : UInt64).toNat - 1 ≤ [(0x01 : UInt8)].length ∧
      delivered (consume (new (fun _ => 0) 2 true) (frame [0x01])).2 ≠ [] := by
  decide

end SlipStream.DecoderFrames
