import SlipStream.BufferFormat
import SlipStream.EncoderMoves
import SlipStream.EncoderReachable

namespace SlipStream.EncoderFrames

open Channel hiding log
open Format StreamEncoder EncoderQueue EncoderSteps EncoderPacing EncoderMoves EncoderReachable
open BufferFormat (frame flatMap_frame)

/-- A caller sends one packet: it calls `pushPacket`, and after each
`(RetryLater, c)` calls it again on the bytes from `c` on, until it gets `Ok`.
The list records each call with the encoder it was made on. -/
inductive Sends (outputFn : OutputFn) :
    Encoder → List UInt8 → List (Encoder × List UInt8) → Encoder → Prop
  | done {e e' data c} (h : pushPacket outputFn e data = (e', .ok, c)) :
      Sends outputFn e data [(e, data)] e'
  | retry {e e₁ e' data c made} (h : pushPacket outputFn e data = (e₁, .retryLater, c))
      (hs : Sends outputFn e₁ (data.drop c) made e') :
      Sends outputFn e data ((e, data) :: made) e'

inductive SendsAll (outputFn : OutputFn) :
    Encoder → List (List UInt8) → List (Encoder × List UInt8) → Encoder → Prop
  | nil {e} : SendsAll outputFn e [] [] e
  | cons {e e₁ e' p ps made made'} (h : Sends outputFn e p made e₁)
      (hs : SendsAll outputFn e₁ ps made' e') : SendsAll outputFn e (p :: ps) (made ++ made') e'

/-- The bytes waiting when a call has queued all of its payload. -/
def pending (e : Encoder) (data : List UInt8) : Nat :=
  backlog (capacity e) e.maxSendChunk (queued e - e.maxSendChunk) data

/-- The bytes a call offers to the output callback before it queues `END`. -/
def offered (e : Encoder) (data : List UInt8) : Nat :=
  queued e + (escape data).length - pending e data

/-- The callback takes all that comes before `END` is queued, and then refuses
one of the bytes the final flush offers. -/
def EndRefused (outputFn : OutputFn) (e : Encoder) (data : List UInt8) : Prop :=
  offered e data ≤ taken outputFn .ok e.calls (queue e ++ packet data) ∧
    taken outputFn .ok e.calls (queue e ++ packet data) <
      offered e data + min e.maxSendChunk (pending e data + 1)

instance (outputFn : OutputFn) (e : Encoder) (data : List UInt8) :
    Decidable (EndRefused outputFn e data) := inferInstanceAs (Decidable (_ ∧ _))

structure Ready (e : Encoder) : Prop where
  valid : Valid e
  capacity_ge : 2 ≤ capacity e
  chunk_ge : 1 ≤ e.maxSendChunk
  no_end : e.endPending = false

theorem ready_new {cap m : Nat} (hcap : 2 ≤ cap) (hm : 1 ≤ m) : Ready (new cap m) := by
  refine ⟨valid_new cap m, ?_, hm, rfl⟩
  simpa [capacity, new] using hcap

theorem ready_of_shows {e e' : Encoder} (h : Ready e) {l : Link UInt8 WriteStatus}
    (hs : Shows e' {view e with link := l}) : Ready e' := by
  have hcap : capacity e' = capacity e := congrArg View.capacity hs.2
  have hm : e'.maxSendChunk = e.maxSendChunk := congrArg View.maxSendChunk hs.2
  have hp : e'.endPending = e.endPending := congrArg View.endPending hs.2
  refine ⟨hs.1, ?_, ?_, ?_⟩
  · rw [hcap]
    exact h.capacity_ge
  · rw [hm]
    exact h.chunk_ge
  · rw [hp]
    exact h.no_end

variable {e e' : Encoder}

theorem taken_eq_credit (outputFn : OutputFn) (e : Encoder) (data : List UInt8) :
    taken outputFn .ok e.calls (queue e ++ packet data) =
      credit outputFn .ok (push (push (view e).link (escape data)) [END]) := by
  rw [← push_append]
  rfl

theorem pending_lt (h : Ready e) (data : List UInt8) : pending e data < capacity e := by
  have hle := h.valid.size_le
  have hcap := h.capacity_ge
  have hm := h.chunk_ge
  apply backlog_lt hcap hm
  simp only [queued]
  simp only [capacity] at hcap ⊢
  omega

theorem length_pushed (h : Valid e) (data : List UInt8) :
    (push (view e).link (escape data)).queue.length = queued e + (escape data).length := by
  have hqueued : (view e).link.queue.length = queued e := length_queue (shows_view h)
  rw [← hqueued]
  exact List.length_append

theorem offered_le (h : Valid e) (data : List UInt8) :
    offered e data ≤ (push (view e).link (escape data)).queue.length := by
  rw [length_pushed h]
  exact Nat.sub_le _ _

theorem length_left (h : Valid e) (data : List UInt8) :
    (advance .ok (push (view e).link (escape data)) (offered e data)).queue.length =
      pending e data := by
  have hback : pending e data ≤ queued e - e.maxSendChunk + (escape data).length :=
    backlog_le _ _ _ data
  rw [advance_length, length_pushed h]
  simp only [offered]
  omega

variable {outputFn : OutputFn}

theorem pushPending_of_ready (h : Ready e) :
    pushPending outputFn (flush outputFn e).1 = ((flush outputFn e).1, .ok) := by
  obtain ⟨l, hs, _⟩ := adds_flush outputFn (shows_view h.valid)
  have hp := (ready_of_shows h hs).no_end
  simp [pushPending, hp]

theorem follows_beforeEnd (outputFn : OutputFn) {v : View} (h : Shows e v) (data : List UInt8) :
    Follows outputFn v v.endPending (escape data) (moves (widths data))
      (pushLoop outputFn (flush outputFn e).1 data 0).1
      ((flush outputFn e).2 = .ok ∧
        (pushLoop outputFn (flush outputFn e).1 data 0).2.1 = .ok) := by
  have hflush := follows_flush outputFn h
  exact follows_trans outputFn hflush
    (fun hok => follows_pushLoop outputFn (hflush.shows hok) data 0) (gains_widths data)

theorem paced_offered (h : Ready e) (data : List UInt8) :
    Paced outputFn (view e) (escape data) (offered e data)
      (pushLoop outputFn (flush outputFn e).1 data 0).1
      ((flush outputFn e).2 = .ok ∧
        (pushLoop outputFn (flush outputFn e).1 data 0).2.1 = .ok) := by
  -- with room for two bytes only the callback can hold up the payload
  have hv := shows_view h.valid
  obtain ⟨_, hiff, hshow⟩ := follows_beforeEnd outputFn hv data
  have hroomy := roomy_moves h.capacity_ge h.chunk_ge (length_le_capacity hv) (widths data)
    fun w => le_two_of_mem_widths
  have hsent : sent (view e).capacity (view e).maxSendChunk (view e).link.queue.length
      (moves (widths data)) = offered e data := by
    rw [sent_moves, length_queue hv]
    rfl
  rw [Goes, hsent] at hiff
  rw [hsent] at hshow
  exact ⟨hiff.trans (and_iff_right hroomy), hshow⟩

theorem beforeEnd_iff (h : Ready e) (data : List UInt8) :
    (flush outputFn e).2 = .ok ∧ (pushLoop outputFn (flush outputFn e).1 data 0).2.1 = .ok ↔
      offered e data ≤ taken outputFn .ok e.calls (queue e ++ packet data) := by
  rw [taken_eq_credit, le_credit_push outputFn .ok _ [END] (offered_le h.valid data)]
  exact (paced_offered h data).1

theorem pushEnd_exact {v : View} (h : Shows e v) (hn : v.link.queue.length < v.capacity) :
    (∃ l, Shows (pushEnd outputFn e).1 {v with link := l} ∧
      Channel.log .ok l = Channel.log .ok v.link ++ [END]) ∧
    ((pushEnd outputFn e).2 = .ok ↔
      min v.maxSendChunk (v.link.queue.length + 1) ≤ credit outputFn .ok (push v.link [END])) := by
  have hfree : ensureFree outputFn e 1 = (e, .ok) := ensureFree_room outputFn h hn
  have he : pushEnd outputFn e = flush outputFn (queueByte e END).1 := by simp [pushEnd, hfree]
  obtain ⟨hq, _⟩ := shows_queueByte h END hn
  obtain ⟨l, hs, hl⟩ := adds_flush outputFn hq
  have hlen : (push v.link [END]).queue.length = v.link.queue.length + 1 := List.length_append
  rw [he]
  refine ⟨⟨l, hs, ?_⟩, ?_⟩
  · rw [hl, log_push, List.append_nil]
  · rw [← hlen]
    rw [(shows_flush outputFn hq).2]
    exact drain_ok_iff outputFn .ok _ _

theorem pushPacket_late (h : Ready e) (data : List UInt8)
    (hlate : offered e data ≤ taken outputFn .ok e.calls (queue e ++ packet data)) :
    Ready (pushPacket outputFn e data).1 ∧
      log (pushPacket outputFn e data).1 = log e ++ packet data ∧
      (pushPacket outputFn e data).2.2 = data.length ∧
      ((pushPacket outputFn e data).2.1 = .ok ↔ ¬ EndRefused outputFn e data) := by
  have hle := offered_le h.valid data
  have hleft := length_left h.valid data
  have hroom := pending_lt h data
  obtain ⟨hf, hl⟩ := (beforeEnd_iff h data).mpr hlate
  have hstate := (paced_offered h data).2 ⟨hf, hl⟩
  obtain ⟨⟨l, hend, hlog⟩, hok⟩ :=
    pushEnd_exact hstate (by simp only [hleft]; exact hroom)
  obtain ⟨c, _, hcount, _, hdone⟩ :=
    adds_pushLoop outputFn (shows_view (valid_flush outputFn h.valid)) data 0
  have hp : pushPacket outputFn e data =
      ((pushEnd outputFn (pushLoop outputFn (flush outputFn e).1 data 0).1).1,
        (pushEnd outputFn (pushLoop outputFn (flush outputFn e).1 data 0).1).2,
        (pushLoop outputFn (flush outputFn e).1 data 0).2.2) := by
    simp [pushPacket, hf, hl, pushPending_of_ready h]
  rw [hp]
  refine ⟨ready_of_shows h hend, ?_, ?_, ?_⟩
  · rw [log_of_shows hend, hlog, log_advance, log_push, List.append_assoc]
    rfl
  · simp only [hcount, hdone hl, Nat.zero_add]
  · rw [taken_eq_credit] at hlate
    simp only at hok
    rw [hok, hleft, advance_push .ok _ _ hle, credit_advance outputFn .ok _ hlate]
    simp only [EndRefused, taken_eq_credit]
    change min e.maxSendChunk (pending e data + 1) ≤ _ ↔ _
    omega

theorem pushPacket_early (h : Ready e) (data : List UInt8)
    (hearly : taken outputFn .ok e.calls (queue e ++ packet data) < offered e data) :
    Ready (pushPacket outputFn e data).1 ∧
      log (pushPacket outputFn e data).1 =
        log e ++ escape (data.take (pushPacket outputFn e data).2.2) ∧
      (pushPacket outputFn e data).2.1 ≠ .ok := by
  have hv := shows_view h.valid
  have hstop := mt (beforeEnd_iff h data).mp (Nat.not_le.mpr hearly)
  obtain ⟨l, hs1, hl1⟩ := adds_flush outputFn hv
  by_cases hf : (flush outputFn e).2 = .ok
  · obtain ⟨c, _, hcount, ⟨l', hs', hl'⟩, _⟩ := adds_pushLoop outputFn hs1 data 0
    have hl : (pushLoop outputFn (flush outputFn e).1 data 0).2.1 ≠ .ok := fun hl => hstop ⟨hf, hl⟩
    have hp : pushPacket outputFn e data = pushLoop outputFn (flush outputFn e).1 data 0 := by
      simp [pushPacket, hf, hl, pushPending_of_ready h]
    rw [hp]
    refine ⟨ready_of_shows h hs', ?_, hl⟩
    rw [log_of_shows hs', hl', hl1, List.append_nil, hcount, Nat.zero_add]
    rfl
  · have hp : pushPacket outputFn e data = ((flush outputFn e).1, (flush outputFn e).2, 0) := by
      simp [pushPacket, hf]
    rw [hp]
    refine ⟨ready_of_shows h hs1, ?_, hf⟩
    rw [log_of_shows hs1, hl1]
    simp [log_of_shows hv]

/-- Each call whose final flush is refused puts one more `END` behind the
packet it belongs to. -/
theorem log_of_sends {data : List UInt8} {made : List (Encoder × List UInt8)} (h : Ready e)
    (hs : Sends outputFn e data made e') :
    Ready e' ∧ ∃ n, log e' = log e ++ packet data ++ List.replicate n END ∧
      (n = 0 ↔ ∀ x ∈ made, ¬ EndRefused outputFn x.1 x.2) := by
  induction hs with
  | @done e e' data c hcall =>
    obtain hearly | hlate :=
      Nat.lt_or_ge (taken outputFn .ok e.calls (queue e ++ packet data)) (offered e data)
    · obtain ⟨_, _, hst⟩ := pushPacket_early h data hearly
      rw [hcall] at hst
      exact absurd rfl hst
    · obtain ⟨hr, hlog, _, hok⟩ := pushPacket_late h data hlate
      rw [hcall] at hr hlog hok
      refine ⟨hr, 0, ?_, ?_⟩
      · rw [hlog, List.replicate_zero, List.append_nil]
      · simpa using hok
  | @retry e e₁ e' data c made hcall _ ih =>
    obtain hearly | hlate :=
      Nat.lt_or_ge (taken outputFn .ok e.calls (queue e ++ packet data)) (offered e data)
    · obtain ⟨hr, hlog, _⟩ := pushPacket_early h data hearly
      rw [hcall] at hr hlog
      obtain ⟨hr', n, hlog', hn⟩ := ih hr
      have hno : ¬ EndRefused outputFn e data := fun hbad => Nat.not_le.mpr hearly hbad.1
      refine ⟨hr', n, ?_, ?_⟩
      · have hsplit : packet data = escape (data.take c) ++ packet (data.drop c) := by
          simp only [packet]
          rw [← List.append_assoc, ← escape_append, List.take_append_drop]
        rw [hlog', hlog, hsplit]
        simp only [List.append_assoc]
      · simpa [hno] using hn
    · obtain ⟨hr, hlog, hc, hok⟩ := pushPacket_late h data hlate
      rw [hcall] at hr hlog hc hok
      obtain ⟨hr', n, hlog', _⟩ := ih hr
      have hbad : EndRefused outputFn e data := by simpa using hok
      refine ⟨hr', n + 1, ?_, ?_⟩
      · have hdrop : data.drop c = [] := List.drop_eq_nil_of_le hc.ge
        rw [hlog', hlog, hdrop, List.replicate_succ]
        simp [packet]
      · simp [hbad]

theorem log_of_sendsAll {packets : List (List UInt8)} {made : List (Encoder × List UInt8)}
    (h : Ready e) (hs : SendsAll outputFn e packets made e') :
    ∃ n, (log e').length = (log e ++ packets.flatMap packet).length + n ∧
      (n = 0 → log e' = log e ++ packets.flatMap packet) ∧
      (n = 0 ↔ ∀ x ∈ made, ¬ EndRefused outputFn x.1 x.2) := by
  induction hs with
  | nil => exact ⟨0, by simp, by simp, by simp⟩
  | @cons e e₁ e' p ps made made' hp _ ih =>
    obtain ⟨hr, n, hlog, hn⟩ := log_of_sends h hp
    obtain ⟨n', hlen', hlog', hn'⟩ := ih hr
    refine ⟨n + n', ?_, ?_, ?_⟩
    · rw [hlen', hlog]
      simp only [List.flatMap_cons, List.length_append, List.length_replicate]
      omega
    · intro hz
      obtain ⟨rfl, rfl⟩ : n = 0 ∧ n' = 0 := by omega
      rw [hlog' rfl, hlog]
      simp
    · rw [Nat.add_eq_zero_iff, hn, hn']
      simp only [List.mem_append]
      refine ⟨?_, ?_⟩
      · rintro ⟨h1, h2⟩ x (hx | hx)
        · exact h1 x hx
        · exact h2 x hx
      · intro hall
        exact ⟨fun x hx => hall x (Or.inl hx), fun x hx => hall x (Or.inr hx)⟩

/-- One frame for each packet, in order and with nothing between them, exactly
when no call has its final flush refused. -/
theorem log_eq_frames_iff {cap m : Nat} (hcap : 2 ≤ cap) (hm : 1 ≤ m)
    {packets : List (List UInt8)} {made : List (Encoder × List UInt8)}
    (hs : SendsAll outputFn (new cap m) packets made e') :
    log e' = packets.flatMap frame ↔ ∀ x ∈ made, ¬ EndRefused outputFn x.1 x.2 := by
  obtain ⟨n, hlen, hlog, hn⟩ := log_of_sendsAll (ready_new hcap hm) hs
  have hnew : log (new cap m) = [] := rfl
  rw [hnew, List.nil_append] at hlen hlog
  rw [← hn, flatMap_frame]
  refine ⟨?_, hlog⟩
  intro heq
  rw [heq] at hlen
  omega

theorem log_eq_frames_iff_resumed :
    ∃ made e', SendsAll (refusing 0) (new 2 64) [[0x01]] made e' ∧ made.length = 2 ∧
      log e' = [[0x01]].flatMap frame := by
  have h₁ : pushPacket (refusing 0) (new 2 64) [0x01] =
      ((pushPacket (refusing 0) (new 2 64) [0x01]).1, .retryLater, 1) := by decide
  have h₂ : pushPacket (refusing 0) (pushPacket (refusing 0) (new 2 64) [0x01]).1 [] =
      ((pushPacket (refusing 0) (pushPacket (refusing 0) (new 2 64) [0x01]).1 []).1, .ok, 0) := by
    decide
  have hs := SendsAll.cons (.retry h₁ (.done h₂)) .nil
  exact ⟨_, _, hs, rfl, (log_eq_frames_iff (by decide) (by decide) hs).mpr (by decide)⟩

/-- The callback takes the payload and refuses `END` once: the call that
resumes has nothing left to push and queues a second `END`. -/
theorem sendsAll_extra_END :
    (∀ calls b, refusing 1 calls b ≠ .error) ∧
    ∃ made e', SendsAll (refusing 1) (new 2 64) [[0x01]] made e' ∧
      log e' = [0x01, END, END] ∧ [[0x01]].flatMap frame = [0x01, END] := by
  refine ⟨?_, ?_⟩
  · intro calls b
    simp only [refusing]
    split_ifs <;> simp
  · have h₁ : pushPacket (refusing 1) (new 2 64) [0x01] =
        ((pushPacket (refusing 1) (new 2 64) [0x01]).1, .retryLater, 1) := by decide
    have h₂ : pushPacket (refusing 1) (pushPacket (refusing 1) (new 2 64) [0x01]).1 [] =
        ((pushPacket (refusing 1) (pushPacket (refusing 1) (new 2 64) [0x01]).1 []).1, .ok, 0) := by
      decide
    exact ⟨_, _, .cons (.retry h₁ (.done h₂)) .nil, by decide, by decide⟩

end SlipStream.EncoderFrames
