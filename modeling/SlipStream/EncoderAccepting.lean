import SlipStream.BufferFormat
import SlipStream.EncoderEx
import SlipStream.EncoderMoves

namespace SlipStream.EncoderAccepting

open Channel hiding log
open Format Stuffing StreamEncoder EncoderQueue EncoderSteps EncoderPacing EncoderMoves
open EncoderReachable EncoderEx
open BufferFormat (frame flatMap_frame)

theorem le_two_of_mem_callWidths {b : Bool} {data : List UInt8} {w : Nat}
    (h : w ∈ callWidths b data) : w ≤ 2 := by
  simp only [callWidths, List.mem_append, List.mem_singleton] at h
  obtain (h | h) | rfl := h
  · cases b with
    | false => cases h
    | true =>
      obtain rfl := List.mem_singleton.mp h
      decide
  · exact le_two_of_mem_widths h
  · decide

/-- What an encoder that is never refused makes of its queue: it takes in `xs`
and hands on bytes from the front. -/
def Passes (v : View) (b : Bool) (xs : List UInt8) (e : Encoder) : Prop :=
  ∃ k ≤ (push v.link xs).queue.length,
    Shows e {v with link := advance .ok (push v.link xs) k, endPending := b}

theorem passes_trans {v : View} {b b' : Bool} {xs ys : List UInt8} {e : Encoder} {k : Nat}
    (hk : k ≤ (push v.link xs).queue.length)
    (h : Passes {v with link := advance .ok (push v.link xs) k, endPending := b} b' ys e) :
    Passes v b' (xs ++ ys) e := by
  obtain ⟨k', hk', hs⟩ := h
  have hle : (push v.link xs).queue.length ≤ (push v.link (xs ++ ys)).queue.length := by
    simp [push]
  simp only [advance_push .ok _ ys hk, advance_advance, advance_length, ← push_append] at hk' hs
  exact ⟨k + k', by omega, hs⟩

variable {outputFn : OutputFn} {e : Encoder} {v : View}

theorem passes_of_follows {b : Bool} {xs : List UInt8} {ms : List Move} {p : Prop}
    (h : Follows outputFn v b xs ms e p) (hp : p) : Passes v b xs e :=
  ⟨_, sent_le_length v.link v.capacity v.maxSendChunk h.gains_eq, h.shows hp⟩

section Accepting

variable (hok : ∀ calls b, outputFn calls b = .ok)
include hok

theorem success_of_roomy {b : Bool} {xs : List UInt8} {ms : List Move} {p : Prop}
    (h : Follows outputFn v b xs ms e p)
    (hr : Roomy v.capacity v.maxSendChunk v.link.queue.length ms) : p := by
  refine h.success_iff.mpr ⟨hr, ?_⟩
  rw [credit_of_accepting outputFn .ok hok]
  exact sent_le_length v.link v.capacity v.maxSendChunk h.gains_eq

theorem flush_accepting (h : Shows e v) :
    (flush outputFn e).2 = .ok ∧ Shows (flush outputFn e).1
      {v with link := advance .ok v.link v.maxSendChunk} := by
  have hroom : Roomy v.capacity v.maxSendChunk v.link.queue.length [.flush] :=
    ⟨Nat.le_trans (Nat.sub_le _ _) (length_le_capacity h), trivial⟩
  have hst := success_of_roomy hok (follows_flush outputFn h) hroom
  refine ⟨hst, ?_⟩
  obtain ⟨hs, hd⟩ := shows_flush outputFn h
  rw [hst] at hd
  rw [drain_of_ok outputFn .ok hd.symm] at hs
  exact hs

/-- A queue of two bytes is enough for a call of any length. -/
theorem pushPacket_accepting (h : Shows e v) (hcap : 2 ≤ v.capacity) (hm : 1 ≤ v.maxSendChunk)
    (data : List UInt8) :
    (pushPacket outputFn e data).2 = (.ok, data.length) ∧
      Passes v false (owed v.endPending ++ packet data) (pushPacket outputFn e data).1 := by
  have hcall := follows_pushPacket outputFn h data
  have hst := success_of_roomy hok hcall
    (roomy_moves hcap hm (length_le_capacity h) _ fun w => le_two_of_mem_callWidths)
  exact ⟨Prod.ext hst (consumed_of_ok outputFn h.1 data hst), passes_of_follows hcall hst⟩

end Accepting

/-- A caller pushes one packet after the other; the list holds what the calls
return. -/
def pushAll (outputFn : OutputFn) : Encoder → List (List UInt8) → Encoder × List (WriteStatus × Nat)
  | e, [] => (e, [])
  | e, p :: ps =>
    let r := pushPacket outputFn e p
    let s := pushAll outputFn r.1 ps
    (s.1, r.2 :: s.2)

def flushes (outputFn : OutputFn) (n : Nat) (e : Encoder) : Encoder :=
  (fun e => (flush outputFn e).1)^[n] e

section Runs

variable (hok : ∀ calls b, outputFn calls b = .ok)
include hok

theorem pushAll_accepting (h : Shows e v) (hcap : 2 ≤ v.capacity) (hm : 1 ≤ v.maxSendChunk)
    (packets : List (List UInt8)) :
    (pushAll outputFn e packets).2 = packets.map (fun p => (.ok, p.length)) ∧
      ∃ b, Passes v b ((if packets = [] then [] else owed v.endPending) ++ packets.flatMap packet)
        (pushAll outputFn e packets).1 := by
  induction packets generalizing e v with
  | nil =>
    refine ⟨rfl, v.endPending, 0, Nat.zero_le _, ?_⟩
    rw [if_pos rfl, List.nil_append, List.flatMap_nil, push_nil, advance_zero]
    exact h
  | cons p ps ih =>
    obtain ⟨hr, k, hk, hs⟩ := pushPacket_accepting hok h hcap hm p
    obtain ⟨hrs, b, hpass⟩ := ih hs hcap hm
    have hnone : (if ps = [] then [] else owed false) = [] := ite_self _
    simp only [hnone, List.nil_append] at hpass
    refine ⟨?_, b, ?_⟩
    · simp only [pushAll, List.map_cons, hr, hrs]
    · rw [if_neg (List.cons_ne_nil p ps), List.flatMap_cons, ← List.append_assoc]
      exact passes_trans hk hpass

theorem flushes_accepting (h : Shows e v) (n : Nat) :
    Shows (flushes outputFn n e) {v with link := advance .ok v.link (n * v.maxSendChunk)} := by
  induction n with
  | zero =>
    rw [Nat.zero_mul, advance_zero]
    exact h
  | succ n ih =>
    have hs := (flush_accepting hok ih).2
    rw [flushes, Function.iterate_succ_apply', Nat.succ_mul]
    simp only [advance_advance] at hs
    exact hs

/-- Flushing empties the queue, since each flush sends at least one byte. -/
theorem exists_flushes_queued (h : Shows e v) (hm : 1 ≤ v.maxSendChunk) :
    ∃ n, queued (flushes outputFn n e) = 0 := by
  refine ⟨v.link.queue.length, ?_⟩
  have hlen := length_queue (flushes_accepting hok h v.link.queue.length)
  have hle := Nat.le_mul_of_pos_right v.link.queue.length hm
  rw [queued, ← hlen]
  simp only [advance_length]
  omega

end Runs

theorem calls_of_drained {b : Bool} {xs : List UInt8} {k : Nat}
    (hs : Shows e {v with link := advance .ok (push v.link xs) k, endPending := b})
    (hq : queued e = 0) :
    e.calls = v.link.calls ++ (v.link.queue ++ xs).map (fun x => (x, .ok)) := by
  have hlen := length_queue hs
  have hcalls : e.calls = (advance .ok (push v.link xs) k).calls :=
    congrArg (fun v => v.link.calls) hs.2
  rw [queued] at hq
  rw [hq, advance_length] at hlen
  have hall : (push v.link xs).queue.take k = v.link.queue ++ xs :=
    List.take_of_length_le (Nat.le_of_sub_eq_zero hlen)
  rw [hcalls, advance, hall]
  rfl

/-- A callback that refuses nothing gets the frames of the packets in order,
whatever the capacity and however few bytes a flush may send: every push takes
its packet whole, and flushing then empties the queue. What was queued or owed
before comes first; of a new encoder that is nothing. -/
theorem accepting_gets_frames (h : Reachable outputFn e)
    (hok : ∀ calls b, outputFn calls b = .ok) (hcap : 2 ≤ capacity e) (hm : 1 ≤ e.maxSendChunk)
    (packets : List (List UInt8)) :
    (pushAll outputFn e packets).2 = packets.map (fun p => (.ok, p.length)) ∧
    (∃ n, queued (flushes outputFn n (pushAll outputFn e packets).1) = 0) ∧
    ∀ n, queued (flushes outputFn n (pushAll outputFn e packets).1) = 0 →
      (flushes outputFn n (pushAll outputFn e packets).1).calls =
        e.calls ++ (queue e ++ (if packets = [] then [] else owed e.endPending) ++
          packets.flatMap frame).map (fun x => (x, .ok)) := by
  obtain ⟨hr, b, k, hk, hs⟩ :=
    pushAll_accepting hok (shows_view (valid_of_reachable h)) hcap hm packets
  refine ⟨hr, exists_flushes_queued hok hs hm, ?_⟩
  intro n hq
  have hflush := flushes_accepting hok hs n
  simp only [advance_advance] at hflush
  rw [calls_of_drained hflush hq, flatMap_frame, List.append_assoc]
  rfl

def accepting : OutputFn := fun _ _ => .ok

theorem accepting_gets_frames_escaped :
    ∃ n, (flushes accepting n (pushAll accepting (new 2 1) [[END, ESC, END], [0x01]]).1).calls =
      (frame [END, ESC, END] ++ frame [0x01]).map (fun x => (x, .ok)) := by
  obtain ⟨_, ⟨n, hn⟩, hcalls⟩ := accepting_gets_frames (Reachable.new 2 1) (fun _ _ => rfl)
    (by decide) (by decide) [[END, ESC, END], [0x01]]
  exact ⟨n, hcalls n hn⟩

def chunksLoop (chunkSize : Nat) : Nat → List UInt8 → List (List UInt8)
  | 0, _ => []
  | fuel + 1, data =>
    if data = [] then []
    else data.take chunkSize :: chunksLoop chunkSize fuel (data.drop chunkSize)

def chunks (chunkSize : Nat) (data : List UInt8) : List (List UInt8) :=
  chunksLoop chunkSize (data.length + 1) data

theorem chunks_of_le {k : Nat} {data : List UInt8} (hd : data ≠ []) (hk : data.length ≤ k) :
    chunks k data = [data] := by
  have hpos := List.length_pos_of_ne_nil hd
  obtain ⟨n, hn⟩ := Nat.exists_eq_succ_of_ne_zero hpos.ne'
  rw [chunks, chunksLoop, if_neg hd, hn, chunksLoop, List.drop_of_length_le hk, if_pos rfl,
    List.take_of_length_le hk]

theorem length_chunks_eq_one_iff (k : Nat) (data : List UInt8) :
    (chunks k data).length = 1 ↔ 1 ≤ data.length ∧ data.length ≤ k := by
  constructor
  · intro h
    by_cases hd : data = []
    · subst hd
      simp [chunks, chunksLoop] at h
    · have hpos := List.length_pos_of_ne_nil hd
      refine ⟨hpos, ?_⟩
      obtain ⟨n, hn⟩ := Nat.exists_eq_succ_of_ne_zero hpos.ne'
      rw [chunks, chunksLoop, if_neg hd, hn, List.length_cons, chunksLoop] at h
      split at h
      · next hdrop => exact List.drop_eq_nil_iff.mp hdrop
      · simp at h
  · rintro ⟨hpos, hk⟩
    rw [chunks_of_le (List.ne_nil_of_length_pos hpos) hk]
    rfl

theorem count_END_packet (p : List UInt8) : (packet p).count END = 1 := by
  rw [packet, List.count_append, List.count_eq_zero.mpr (END_notMem_escape p)]
  rfl

theorem count_END_packets (ps : List (List UInt8)) : (ps.flatMap packet).count END = ps.length := by
  induction ps with
  | nil => rfl
  | cons p ps ih =>
    rw [List.flatMap_cons, List.count_append, count_END_packet, ih, List.length_cons]
    omega

theorem pushPacketChunkLoop_accepting (hok : ∀ calls b, outputFn calls b = .ok) (h : Shows e v)
    (hcap : 2 ≤ v.capacity) (hm : 1 ≤ v.maxSendChunk) {k : Nat} (hk : 1 ≤ k) {fuel : Nat}
    (data : List UInt8) (hfuel : data.length < fuel) (consumed : Nat) :
    ∃ r, pushPacketChunkLoop outputFn k fuel e data consumed = some r ∧
      stream r.1 = stream e ++ (chunksLoop k fuel data).flatMap packet := by
  induction fuel generalizing e v data consumed with
  | zero => omega
  | succ fuel ih =>
    by_cases hd : data = []
    · refine ⟨(e, .ok, consumed), ?_, ?_⟩
      · rw [pushPacketChunkLoop, if_pos hd]
      · rw [chunksLoop, if_pos hd, List.flatMap_nil, List.append_nil]
    · have hlen := List.length_pos_of_ne_nil hd
      obtain ⟨hr, j, _, hs⟩ := pushPacket_accepting hok h hcap hm (data.take k)
      obtain ⟨t, hstream, _, _, hdone⟩ := stream_pushPacket outputFn h.1 (data.take k)
      have hst : (pushPacket outputFn e (data.take k)).2.1 = .ok := congrArg Prod.fst hr
      have hcount : (pushPacket outputFn e (data.take k)).2.2 = min k data.length := by
        rw [hr, List.length_take]
      obtain ⟨_, rfl⟩ := hdone hst
      obtain ⟨r, hloop, hrest⟩ := ih hs hcap hm (data.drop k)
        (by rw [List.length_drop]; omega) (consumed + min k data.length)
      refine ⟨r, ?_, ?_⟩
      · simp only [pushPacketChunkLoop, if_neg hd, ← List.take_eq_take_min, hst, hcount,
          ← List.drop_eq_drop_min]
        exact hloop
      · rw [hrest, hstream, chunksLoop, if_neg hd, List.flatMap_cons, List.append_assoc, hr,
          List.take_length]
        rfl

/-- Without refusals, a chunked push does what a plain one does exactly when
all of the data fits in one chunk, and there is some. -/
theorem pushPacketChunk_eq_packet_iff (h : Reachable outputFn e)
    (hok : ∀ calls b, outputFn calls b = .ok) (hcap : 2 ≤ capacity e) (hm : 1 ≤ e.maxSendChunk)
    (data : List UInt8) {chunkSize : Nat} (hc : 1 ≤ chunkSize) :
    stream (pushPacket outputFn e data).1 = stream e ++ packet data ∧
    ∃ r, pushPacketChunk outputFn e data chunkSize = some r ∧
      (stream r.1 = stream e ++ packet data ↔ 1 ≤ data.length ∧ data.length ≤ chunkSize) := by
  have hv := shows_view (valid_of_reachable h)
  refine ⟨?_, ?_⟩
  · obtain ⟨hr, _⟩ := pushPacket_accepting hok hv hcap hm data
    obtain ⟨t, hstream, _, _, hdone⟩ := stream_pushPacket outputFn hv.1 data
    obtain ⟨_, rfl⟩ := hdone (congrArg Prod.fst hr)
    rw [hstream, hr, List.take_length]
    rfl
  · obtain ⟨r, hloop, hstream⟩ := pushPacketChunkLoop_accepting hok hv hcap hm hc data
      (Nat.lt_succ_self _) 0
    refine ⟨r, hloop, ?_⟩
    rw [hstream, List.append_cancel_left_eq, ← length_chunks_eq_one_iff]
    constructor
    · intro heq
      rw [← count_END_packets, chunks, heq, count_END_packet]
    · intro hone
      obtain ⟨hpos, hle⟩ := (length_chunks_eq_one_iff chunkSize data).mp hone
      have hall : chunksLoop chunkSize (data.length + 1) data = [data] :=
        chunks_of_le (List.ne_nil_of_length_pos hpos) hle
      rw [hall, List.flatMap_singleton]

theorem pushPacketChunk_eq_packet_iff_one_chunk :
    ∃ r, pushPacketChunk accepting (new 2 1) [END, 0x01] 2 = some r ∧
      stream r.1 = [ESC, ESCEND, 0x01, END] := by
  obtain ⟨_, r, hr, hiff⟩ := pushPacketChunk_eq_packet_iff (Reachable.new 2 1) (fun _ _ => rfl)
    (by decide) (by decide) [END, 0x01] (Nat.le_succ 1)
  exact ⟨r, hr, hiff.mpr (by decide)⟩

theorem pushPacketChunk_splits :
    (pushPacketChunk accepting (new 2 1) [0x01, 0x02] 1).map (fun r => stream r.1) =
        some [0x01, END, 0x02, END] ∧
      stream (pushPacket accepting (new 2 1) [0x01, 0x02]).1 = [0x01, 0x02, END] ∧
      (pushPacketChunk accepting (new 2 1) [] 1).map (fun r => stream r.1) = some [] ∧
      stream (pushPacket accepting (new 2 1) []).1 = [END] := by
  decide

end SlipStream.EncoderAccepting
