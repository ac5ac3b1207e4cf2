import SlipStream.BufferFormat
import SlipStream.DecoderCalls

namespace SlipStream.DecoderRoundTrip

open Format Transducer Receiver StreamDecoder DecoderReceiver DecoderCalls BufferFormat

/-- The calls that hand bytes to the decoder and return. -/
def Feeds : Call → Prop
  | .reset => False
  | call => call.Returns

def data : Call → List UInt8
  | .consume data | .consumeEx data | .consumeChunk data _ | .consumeChunkEx data _ => data
  | .consumeByte c | .consumeExByte c => [c]
  | .reset => []

/-- What a call returns when it has no error to report. -/
def success : Call → Option ConsumeResult
  | .consumeEx data | .consumeChunkEx data _ => some (.ok data.length)
  | .consumeExByte _ => some (.ok 1)
  | _ => none

def IsLog : Event → Prop
  | .log _ _ => True
  | .logEx _ => True
  | _ => False

theorem consumeExByte_ok {n : UInt64} {logging : Bool} {d : Decoder} {s : Partial UInt8}
    (h : Related n logging d s) (c : UInt8) (hroom : s.acc.length + 2 ≤ n.toNat)
    (hbad : Signal.badEscape ∉ (assemble slip s c).2) :
    (StreamDecoder.consumeExByte d c).2 = .ok 1 := by
  have haccepts : ¬ Refuses d c := by
    rw [refuses_iff h]
    rintro (hfull | ⟨hesc, hs, he⟩)
    · exact Nat.not_lt.mpr hroom hfull
    · obtain ⟨w, e⟩ := s
      obtain rfl : e = true := hesc
      rw [assemble_badEscape slip w hs he] at hbad
      exact hbad (List.mem_singleton.mpr rfl)
  rw [consumeExByte_of_accepts haccepts]

theorem consumeExLoop_of_fits {n : UInt64} {logging : Bool} {d : Decoder} {s : Partial UInt8}
    (h : Related n logging d s) (xs : List UInt8) (k : Nat) (hfit : Fits slip n.toNat s xs)
    (hbad : Signal.badEscape ∉ (run (assemble slip) s xs).2) :
    (consumeExLoop d xs k).2.hasError = false := by
  induction xs generalizing d s k with
  | nil => rfl
  | cons c xs ih =>
    obtain ⟨hroom, hrest⟩ := hfit
    rw [run_cons, List.mem_append, not_or] at hbad
    have hok := consumeExByte_ok h c hroom hbad.1
    obtain ⟨hr, -⟩ := related_consumeExByte h c
    rw [receive, if_neg (Nat.not_lt.mpr hroom)] at hr
    simp only [consumeExLoop, hok, ConsumeResult.ok, Bool.false_eq_true, if_false]
    exact ih hr (k + 1) hrest hbad.2

theorem exOps_of_fits {n : UInt64} {logging : Bool} {d : Decoder} {s : Partial UInt8}
    (h : Related n logging d s) (xs : List UInt8) (hfit : Fits slip n.toNat s xs)
    (hbad : Signal.badEscape ∉ (run (assemble slip) s xs).2) :
    exOps d xs = xs.map .consumeEx :=
  (consumeExLoop_ok d xs 0 (consumeExLoop_of_fits h xs 0 hfit hbad)).1

theorem consumeEx_of_fits {n : UInt64} {logging : Bool} {d : Decoder} {s : Partial UInt8}
    (h : Related n logging d s) (xs : List UInt8) (hfit : Fits slip n.toNat s xs)
    (hbad : Signal.badEscape ∉ (run (assemble slip) s xs).2) :
    (StreamDecoder.consumeEx d xs).2 = .ok xs.length := by
  have hok := (consumeExLoop_ok d xs 0 (consumeExLoop_of_fits h xs 0 hfit hbad)).2
  rwa [Nat.zero_add] at hok

/-- A call whose bytes all fit and break no escape reports nothing, and feeds
its bytes to the receiver. -/
theorem call_of_fits {n : UInt64} {logging : Bool} {d : Decoder} {s : Partial UInt8}
    (h : Related n logging d s) (call : Call) (hcall : Feeds call)
    (hfit : Fits slip n.toNat s (data call))
    (hbad : Signal.badEscape ∉ (run (assemble slip) s (data call)).2) :
    call.exec d = some (run Op.step d (call.ops d), success call) ∧
      ∃ keep, (call.ops d).map Op.input = feed keep (data call) := by
  cases call with
  | consume xs =>
    refine ⟨by rw [Call.ops, run_map_consume]; rfl, true, ?_⟩
    rw [Call.ops, List.map_map]
    rfl
  | consumeByte c => exact ⟨by simp [Call.exec, Call.ops, Op.step, success], true, rfl⟩
  | consumeEx xs =>
    have ho := exOps_of_fits h xs hfit hbad
    refine ⟨?_, false, by rw [Call.ops, ho, List.map_map]; rfl⟩
    rw [Call.ops, ← consumeExLoop_run d xs 0, Call.exec, consumeEx_of_fits h xs hfit hbad]
    rfl
  | consumeExByte c =>
    rw [data, run_cons, run_nil, List.append_nil] at hbad
    refine ⟨?_, false, rfl⟩
    simp [Call.exec, Call.ops, Op.step, success, consumeExByte_ok h c hfit.1 hbad]
  | consumeChunk xs chunkSize =>
    refine ⟨?_, true, by rw [Call.ops, List.map_map]; rfl⟩
    rw [Call.exec, StreamDecoder.consumeChunk,
      consumeChunkLoop_eq chunkSize hcall _ d xs 0 (Nat.lt_succ_self _), Call.ops, run_map_consume]
    rfl
  | consumeChunkEx xs chunkSize =>
    have ho := exOps_of_fits h xs hfit hbad
    have hr := consumeChunkExLoop_eq chunkSize hcall _ d xs 0 (Nat.lt_succ_self _)
    refine ⟨?_, false, by rw [Call.ops, ho, List.map_map]; rfl⟩
    rw [consumeEx_of_fits h xs hfit hbad, Nat.zero_add] at hr
    rw [Call.exec, StreamDecoder.consumeChunkEx, hr, Call.ops, ← consumeExLoop_run d xs 0]
    rfl
  | reset => exact absurd hcall id

theorem exec_of_fits {n : UInt64} {logging : Bool} {d : Decoder} {s : Partial UInt8}
    (h : Related n logging d s) (calls : List Call) (hcalls : ∀ call ∈ calls, Feeds call)
    (hfit : Fits slip n.toNat s (calls.flatMap data))
    (hbad : Signal.badEscape ∉ (run (assemble slip) s (calls.flatMap data)).2) :
    ∃ d' events, exec d calls = some ((d', events), calls.map success) ∧
      events.filterMap observe =
        (run (assemble slip) s (calls.flatMap data)).2.filterMap (visible logging) := by
  induction calls generalizing d s with
  | nil => exact ⟨d, [], rfl, rfl⟩
  | cons call calls ih =>
    rw [List.flatMap_cons, fits_append] at hfit
    rw [List.flatMap_cons, run_append, List.mem_append, not_or] at hbad
    obtain ⟨hexec, keep, hin⟩ := call_of_fits h call (hcalls call (by simp)) hfit.1 hbad.1
    obtain ⟨hr, hev⟩ := run_related h (call.ops d)
    rw [hin, run_feed_of_fits slip n.toNat s keep (data call) hfit.1] at hr hev
    obtain ⟨d', events, he, hobs⟩ := ih hr (fun c hc => hcalls c (by simp [hc])) hfit.2 hbad.2
    refine ⟨d', (run Op.step d (call.ops d)).2 ++ events, ?_, ?_⟩
    · rw [exec, hexec, Option.bind_some, he]
      rfl
    · rw [List.flatMap_cons, run_append, List.filterMap_append, List.filterMap_append, hev, hobs]

/-- However the frames of some payloads that fit are cut into calls, a fresh
decoder delivers the payloads, logs nothing and reports no error. -/
theorem exec_frames (n : UInt64) (hn : 2 ≤ n.toNat) (d : Decoder) (hd : Fresh n d)
    (ps : List (List UInt8)) (hps : ∀ p ∈ ps, p.length ≤ n.toNat - 2)
    (calls : List Call) (hcalls : ∀ call ∈ calls, Feeds call)
    (hsplit : calls.flatMap data = ps.flatMap frame) :
    ∃ d' events, exec d calls = some ((d', events), calls.map success) ∧
      delivered events = ps ∧ ∀ e ∈ events, ¬ IsLog e := by
  have hframes : ps.flatMap frame = ps.flatMap fun p => Stuffing.stuff slip p ++ [slip.stop] :=
    flatMap_frame ps
  have hrun := run_frames slip ps
  have hfit := fits_frames slip n.toNat ps fun p hp => by
    have := hps p hp
    omega
  rw [← hframes, ← hsplit] at hrun hfit
  obtain ⟨d', events, he, hobs⟩ := exec_of_fits (related_of_fresh hd (by omega)) calls hcalls hfit
    (by rw [hrun]; simp)
  refine ⟨d', events, he, ?_, ?_⟩
  · rw [delivered_eq hobs, hrun]
    simp [messages, Function.comp_def, Signal.message?]
  · intro e hmem hlog
    have hover : Signal.overflow ∈ events.filterMap observe := by
      refine List.mem_filterMap.mpr ⟨e, hmem, ?_⟩
      cases e <;> first | rfl | exact absurd hlog id
    rw [hobs, hrun] at hover
    simp [visible] at hover

theorem exec_frames_cut_escape :
    ∃ d' events, exec (new (fun _ => 0) 4 true)
        [.consume [0x01, ESC], .consumeExByte ESCEND, .consumeEx [END, END]] =
          some ((d', events), [none, some (.ok 1), some (.ok 2)]) ∧
      delivered events = [[0x01, END], []] ∧ ∀ e ∈ events, ¬ IsLog e :=
  exec_frames 4 (by decide) _ ⟨_, _, Or.inl rfl⟩ [[0x01, END], []] (by decide) _
    (by simp [Feeds, Call.Returns]) (by decide)

end SlipStream.DecoderRoundTrip
