import SlipStream.DecoderRoundTrip
import SlipStream.EncoderProgress
import Mathlib.Logic.Relation

namespace SlipStream.Session

open Channel hiding log
open Format Transducer Receiver StreamEncoder EncoderQueue EncoderSteps EncoderReachable
open EncoderFrames EncoderTurns EncoderHistory EncoderProgress
open StreamDecoder hiding new
open DecoderReceiver hiding view
open DecoderCalls hiding Call
open DecoderRoundTrip
open EncoderAccepting (flushes count_END_packet count_END_packets)

/-- An encoder and a decoder at the two ends of a wire. The wire carries the
bytes that the output callback has accepted; `given` are the calls by which the
decoder got them, `events` and `reports` what came of these calls. -/
structure Line where
  enc : Encoder
  dec : Decoder
  given : List DecoderCalls.Call
  events : List Event
  reports : List (Option ConsumeResult)

def start (txBufferSize maxSendChunk : Nat) (dec : Decoder) : Line :=
  ⟨StreamEncoder.new txBufferSize maxSendChunk, dec, [], [], []⟩

def Line.read (s : Line) : List UInt8 := s.given.flatMap data

/-- Either end moves: the encoder by any of its public calls, the decoder by any
call that takes the next bytes off the wire. -/
inductive Step (outputFn : OutputFn) (s : Line) : Line → Prop
  | encoder {e : Encoder} (h : Call outputFn s.enc e) : Step outputFn s {s with enc := e}
  | decoder {call : DecoderCalls.Call} {d : Decoder} {events : List Event}
      {res : Option ConsumeResult} (hcall : Feeds call)
      (hwire : s.read ++ data call <+: accepted .ok s.enc.calls)
      (h : call.exec s.dec = some ((d, events), res)) :
      Step outputFn s ⟨s.enc, d, s.given ++ [call], s.events ++ events, s.reports ++ [res]⟩

structure Linked (outputFn : OutputFn) (d : Decoder) (s : Line) : Prop where
  reachable : Reachable outputFn s.enc
  feeds : ∀ call ∈ s.given, Feeds call
  wire : s.read <+: accepted .ok s.enc.calls
  ran : exec d s.given = some ((s.dec, s.events), s.reports)

variable {outputFn : OutputFn} {e e' : Encoder} {d : Decoder} {s s' : Line}

theorem calls_of_trace {acts : List Act} (h : Traces.Trace (Tick outputFn) e acts e') :
    e.calls <+: e'.calls := ⟨offers acts, (calls_trace h).symm⟩

theorem calls_of_call (h : Valid e) (hc : Call outputFn e e') : e.calls <+: e'.calls := by
  refine keeps_call (I := fun e₁ => e.calls <+: e₁.calls) ?_ ?_ ?_ hc h (List.prefix_refl _)
  · intro e₁ data hv hi
    obtain ⟨acts, _, _, ht, _⟩ := turn_pushPacket outputFn hv data
    exact hi.trans (calls_of_trace ht)
  · exact fun e₁ n hi => hi
  · intro e₁ hv hi
    obtain ⟨acts, _, _, ht, _⟩ := turn_flush outputFn e₁
    exact hi.trans (calls_of_trace ht)

theorem exec_append (d : Decoder) (calls : List DecoderCalls.Call) {d' d'' : Decoder}
    {events events' : List Event} {reports : List (Option ConsumeResult)}
    {call : DecoderCalls.Call} {res : Option ConsumeResult}
    (h : exec d calls = some ((d', events), reports))
    (hcall : call.exec d' = some ((d'', events'), res)) :
    exec d (calls ++ [call]) = some ((d'', events ++ events'), reports ++ [res]) := by
  induction calls generalizing d events reports with
  | nil =>
    obtain ⟨⟨rfl, rfl⟩, rfl⟩ := by simpa [exec] using h
    simp [exec, hcall]
  | cons c calls ih =>
    rw [exec] at h
    obtain ⟨r, hr, h⟩ := Option.bind_eq_some_iff.mp h
    obtain ⟨t, ht, heq⟩ := Option.map_eq_some_iff.mp h
    obtain ⟨⟨rfl, rfl⟩, rfl⟩ := by simpa using heq
    rw [List.cons_append, exec, hr, Option.bind_some, ih r.1.1 ht]
    simp

theorem Linked.step (h : Linked outputFn d s) (hs : Step outputFn s s') :
    Linked outputFn d s' := by
  cases hs with
  | encoder hc =>
    have hgrow := calls_of_call (valid_of_reachable h.reachable) hc
    exact ⟨reachable_of_call h.reachable hc, h.feeds, h.wire.trans ((hgrow.filter _).map _), h.ran⟩
  | decoder hcall hwire hexec =>
    refine ⟨h.reachable, ?_, ?_, exec_append d s.given h.ran hexec⟩
    · intro c hc
      obtain hc | hc := List.mem_append.mp hc
      · exact h.feeds c hc
      · rw [List.mem_singleton.mp hc]
        exact hcall
    · rw [Line.read, List.flatMap_append, List.flatMap_singleton]
      exact hwire

theorem linked_of_run {txBufferSize maxSendChunk : Nat}
    (h : Relation.ReflTransGen (Step outputFn) (start txBufferSize maxSendChunk d) s) :
    Linked outputFn d s := by
  induction h with
  | refl => exact ⟨.new _ _, fun _ hc => absurd hc List.not_mem_nil, List.nil_prefix, rfl⟩
  | tail _ hstep ih => exact ih.step hstep

theorem framed_append (ps : List (List UInt8)) (q p : List UInt8) :
    framed slip ps q ++ escape p = framed slip ps (q ++ p) ∧
      framed slip ps q ++ (escape p ++ [END]) = framed slip (ps ++ [q ++ p]) [] := by
  refine ⟨?_, ?_⟩
  · rw [framed, framed, Stuffing.stuff_append, List.append_assoc]
    rfl
  · rw [framed, framed, List.flatMap_append, List.flatMap_singleton, Stuffing.stuff_append]
    simp only [List.append_assoc]
    rfl

/-- What has entered an encoder is always whole packets and the beginning of one
more, whatever was refused and however often. -/
theorem framed_of_reachable (h : Reachable outputFn e) : ∃ ps q, stream e = framed slip ps q := by
  refine reachable_invariant (I := fun e => ∃ ps q, stream e = framed slip ps q) ?_ ?_ ?_ ?_ h
  · rintro e data hv ⟨ps, q, hi⟩
    obtain ⟨t, hstream, ht, _⟩ := stream_pushPacket outputFn hv data
    obtain ⟨hopen, hclosed⟩ :=
      framed_append ps q (data.take (pushPacket outputFn e data).2.2)
    rw [hstream, hi]
    obtain rfl | rfl := ht
    · exact ⟨ps, _, by rw [List.append_nil, hopen]⟩
    · exact ⟨_, [], hclosed⟩
  · exact fun e n hi => hi
  · rintro e hv ⟨ps, q, hi⟩
    exact ⟨ps, q, (stream_flush hv).trans hi⟩
  · exact fun n m => ⟨[], [], rfl⟩

theorem accepted_prefix_stream (e : Encoder) : accepted .ok e.calls <+: stream e :=
  ⟨queue e ++ owed e.endPending, by rw [stream, log, List.append_assoc]⟩

theorem exec_of_prefix {n : UInt64} (hd : Fresh n d) (hn : 0 < n.toNat) {ps : List (List UInt8)}
    {q : List UInt8} (hps : ∀ p ∈ ps, p.length + 2 ≤ n.toNat) (hq : q.length + 2 ≤ n.toNat)
    {calls : List DecoderCalls.Call} (hcalls : ∀ call ∈ calls, Feeds call)
    (hpre : calls.flatMap data <+: framed slip ps q) :
    ∃ d' events, exec d calls = some ((d', events), calls.map success) ∧
      delivered events = ps.take ((calls.flatMap data).count END) ∧
      ∀ ev ∈ events, ¬ IsLog ev := by
  have hrun := run_prefix slip hpre
  change _ = (ps.take ((calls.flatMap data).count END)).map _ at hrun
  generalize ps.take ((calls.flatMap data).count END) = ms at hrun ⊢
  have hfit : Fits slip n.toNat .empty (calls.flatMap data) := by
    have hall := fits_framed slip n.toNat ps q hps hq
    obtain ⟨rest, hrest⟩ := hpre
    rw [← hrest, fits_append] at hall
    exact hall.1
  obtain ⟨d', events, he, hobs⟩ := exec_of_fits (related_of_fresh hd hn) calls hcalls hfit
    (by rw [hrun]; simp)
  rw [hrun] at hobs
  refine ⟨d', events, he, ?_, ?_⟩
  · rw [delivered_eq hobs, messages, List.filterMap_map]
    exact List.filterMap_some
  · intro ev hmem hlog
    have hover : Signal.overflow ∈ events.filterMap observe := by
      refine List.mem_filterMap.mpr ⟨ev, hmem, ?_⟩
      cases ev <;> first | rfl | exact absurd hlog id
    rw [hobs] at hover
    simp [visible] at hover

/-- However the two ends take turns, the decoder has delivered exactly the
packets whose `END` it has read, in order and unchanged, as long as all of them
fit its buffer. -/
theorem delivered_of_session {txBufferSize maxSendChunk : Nat} {n : UInt64} (hd : Fresh n d)
    (hn : 2 ≤ n.toNat)
    (h : Relation.ReflTransGen (Step outputFn) (start txBufferSize maxSendChunk d) s) :
    (∃ ps q, stream s.enc = List.flatMap packet ps ++ escape q) ∧
    ∀ (ps : List (List UInt8)) (q : List UInt8), stream s.enc = ps.flatMap packet ++ escape q →
      (∀ p ∈ q :: ps, p.length ≤ n.toNat - 2) →
        delivered s.events = ps.take (s.read.count END) ∧
        (s.read = stream s.enc → delivered s.events = ps) ∧
        (∀ ev ∈ s.events, ¬ IsLog ev) ∧ s.reports = s.given.map success := by
  have hlink := linked_of_run h
  refine ⟨framed_of_reachable hlink.reachable, ?_⟩
  intro ps q hstream hfit
  have hpre := hlink.wire.trans (accepted_prefix_stream s.enc)
  rw [hstream] at hpre
  have hps : ∀ p ∈ ps, p.length + 2 ≤ n.toNat := by
    intro p hp
    have := hfit p (List.mem_cons_of_mem q hp)
    omega
  have hq : q.length + 2 ≤ n.toNat := by
    have := hfit q List.mem_cons_self
    omega
  obtain ⟨d', events, he, hdel, hlog⟩ :=
    exec_of_prefix hd (by omega) hps hq hlink.feeds hpre
  obtain ⟨⟨rfl, rfl⟩, hrep⟩ := by simpa using hlink.ran.symm.trans he
  refine ⟨hdel, ?_, hlog, hrep⟩
  intro hall
  have hcount : s.read.count END = ps.length := by
    have hopen : (escape q).count END = 0 := List.count_eq_zero.mpr (END_notMem_escape q)
    rw [hall, hstream, List.count_append, count_END_packets, hopen, Nat.add_zero]
  rw [hdel]
  exact List.take_of_length_le hcount.ge

theorem delivered_of_session_refused :
    ∃ s : Line, Relation.ReflTransGen (Step (refusing 3))
        (start 4 64 (StreamDecoder.new (fun _ => 0) 4 true)) s ∧
      delivered s.events = [[END]] ∧ s.reports = [none, some (.ok 2)] ∧
      stream s.enc = packet [END] ++ escape [0x01] := by
  have hpush : Call (refusing 3) (StreamEncoder.new 4 64)
      (pushPacket (refusing 3) (StreamEncoder.new 4 64) [END]).1 := .pushPacket [END]
  have hpush' : Call (refusing 3) (pushPacket (refusing 3) (StreamEncoder.new 4 64) [END]).1
      (pushPacket (refusing 3) (pushPacket (refusing 3) (StreamEncoder.new 4 64) [END]).1
        [0x01]).1 := .pushPacket [0x01]
  have hgive : Feeds (.consume [ESC]) := trivial
  have hgive' : Feeds (.consumeEx [ESCEND, END]) := trivial
  have hstart := Relation.ReflTransGen.refl (r := Step (refusing 3))
    (a := start 4 64 (StreamDecoder.new (fun _ => 0) 4 true))
  have hrun := ((hstart.tail (Step.encoder hpush)).tail
    (Step.decoder hgive (by decide) rfl)).tail (Step.encoder hpush')
  have hrun' := hrun.tail (Step.decoder hgive' (by decide) rfl)
  obtain ⟨_, hall⟩ := delivered_of_session (n := 4) ⟨_, _, Or.inl rfl⟩ (by decide) hrun'
  obtain ⟨hdel, _, _, hrep⟩ := hall [[END]] [0x01] (by decide) (by decide)
  exact ⟨_, hrun', hdel, hrep, by decide⟩

end SlipStream.Session
