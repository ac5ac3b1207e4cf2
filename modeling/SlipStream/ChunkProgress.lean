import SlipStream.DecoderCalls
import SlipStream.EncoderAccepting
import SlipStream.Iteration

namespace SlipStream.ChunkProgress

open Channel Format Iteration StreamDecoder StreamEncoder EncoderQueue EncoderSteps EncoderMoves
open EncoderReachable EncoderEx EncoderAccepting

/-- A chunked call between two turns of its loop: what it works on, the bytes
not yet consumed, and the number of those that are. -/
structure Chunked (σ : Type) where
  state : σ
  rest : List UInt8
  consumed : Nat

def Chunked.remaining {σ : Type} (s : Chunked σ) : Nat := s.rest.length

def consumeChunkTurn (chunkSize : Nat) (s : Chunked (Decoder × List Event)) :
    ((Decoder × List Event) × Nat) ⊕ Chunked (Decoder × List Event) :=
  if s.rest = [] then .inl (s.state, s.consumed)
  else
    let toConsume := min chunkSize s.rest.length
    let r := StreamDecoder.consume s.state.1 (s.rest.take toConsume)
    .inr ⟨(r.1, s.state.2 ++ r.2), s.rest.drop toConsume, s.consumed + toConsume⟩

def consumeChunkExTurn (chunkSize : Nat) (s : Chunked (Decoder × List Event)) :
    ((Decoder × List Event) × ConsumeResult) ⊕ Chunked (Decoder × List Event) :=
  if s.rest = [] then .inl (s.state, .ok s.consumed)
  else
    let toConsume := min chunkSize s.rest.length
    let r := StreamDecoder.consumeEx s.state.1 (s.rest.take toConsume)
    if r.2.hasError then
      .inl ((r.1.1, s.state.2 ++ r.1.2),
        .fail r.2.error.code s.consumed r.2.error.position r.2.error.message)
    else
      .inr ⟨(r.1.1, s.state.2 ++ r.1.2), s.rest.drop r.2.consumed, s.consumed + r.2.consumed⟩

def pushPacketChunkTurn (outputFn : OutputFn) (chunkSize : Nat) (s : Chunked Encoder) :
    (Encoder × WriteStatus × Nat) ⊕ Chunked Encoder :=
  if s.rest = [] then .inl (s.state, .ok, s.consumed)
  else
    let r := pushPacket outputFn s.state (s.rest.take (min chunkSize s.rest.length))
    if r.2.1 ≠ .ok then .inl (r.1, r.2.1, s.consumed)
    else .inr ⟨r.1, s.rest.drop r.2.2, s.consumed + r.2.2⟩

def pushPacketChunkExTurn (outputFn : OutputFn) (chunkSize : Nat) (s : Chunked Encoder) :
    (Encoder × PushPacketResult) ⊕ Chunked Encoder :=
  if s.rest = [] then .inl (s.state, .ofStatus .ok s.consumed)
  else
    let r := pushPacketEx outputFn s.state (s.rest.take (min chunkSize s.rest.length))
    if r.2.isRetry then .inl (r.1, .ofStatus .retryLater s.consumed)
    else if r.2.isError then
      .inl (r.1, .fail r.2.error.code s.consumed s.consumed r.2.error.message)
    else .inr ⟨r.1, s.rest.drop r.2.consumed, s.consumed + r.2.consumed⟩

theorem consumeChunkLoop_eq_loop (chunkSize fuel : Nat) (d : Decoder) (events : List Event)
    (data : List UInt8) (k : Nat) :
    loop (consumeChunkTurn chunkSize) fuel ⟨(d, events), data, k⟩ =
      (consumeChunkLoop chunkSize fuel d data k).map
        fun s => ((s.1.1, events ++ s.1.2), s.2) := by
  induction fuel generalizing d events data k with
  | zero => rfl
  | succ fuel ih =>
    by_cases hd : data = []
    · simp [loop, consumeChunkTurn, consumeChunkLoop, hd]
    · simp only [loop, consumeChunkTurn, consumeChunkLoop, if_neg hd, ih, Option.map_map]
      congr 1
      funext s
      simp

theorem consumeChunkExLoop_eq_loop (chunkSize fuel : Nat) (d : Decoder) (events : List Event)
    (data : List UInt8) (k : Nat) :
    loop (consumeChunkExTurn chunkSize) fuel ⟨(d, events), data, k⟩ =
      (consumeChunkExLoop chunkSize fuel d data k).map
        fun s => ((s.1.1, events ++ s.1.2), s.2) := by
  induction fuel generalizing d events data k with
  | zero => rfl
  | succ fuel ih =>
    by_cases hd : data = []
    · simp [loop, consumeChunkExTurn, consumeChunkExLoop, hd]
    · simp only [loop, consumeChunkExTurn, consumeChunkExLoop, if_neg hd]
      split_ifs with he
      · rfl
      · simp only [ih, Option.map_map]
        congr 1
        funext s
        simp

theorem pushPacketChunkLoop_eq_loop (outputFn : OutputFn) (chunkSize fuel : Nat) (e : Encoder)
    (data : List UInt8) (k : Nat) :
    loop (pushPacketChunkTurn outputFn chunkSize) fuel ⟨e, data, k⟩ =
      pushPacketChunkLoop outputFn chunkSize fuel e data k := by
  induction fuel generalizing e data k with
  | zero => rfl
  | succ fuel ih =>
    by_cases hd : data = []
    · simp [loop, pushPacketChunkTurn, pushPacketChunkLoop, hd]
    · simp only [loop, pushPacketChunkTurn, pushPacketChunkLoop, if_neg hd]
      split_ifs with hst
      · rfl
      · exact ih _ _ _

theorem pushPacketChunkExLoop_eq_loop (outputFn : OutputFn) (chunkSize fuel : Nat) (e : Encoder)
    (data : List UInt8) (k : Nat) :
    loop (pushPacketChunkExTurn outputFn chunkSize) fuel ⟨e, data, k⟩ =
      pushPacketChunkExLoop outputFn chunkSize fuel e data k := by
  induction fuel generalizing e data k with
  | zero => rfl
  | succ fuel ih =>
    by_cases hd : data = []
    · simp [loop, pushPacketChunkExTurn, pushPacketChunkExLoop, hd]
    · simp only [loop, pushPacketChunkExTurn, pushPacketChunkExLoop, if_neg hd]
      split_ifs with hretry herr
      · rfl
      · rfl
      · exact ih _ _ _

section Turns

variable {σ ρ : Type}

/-- A turn that goes on has found bytes left, has taken a chunk of them off and
keeps the invariant of what it works on. -/
def TakesChunk (chunkSize : Nat) (I : σ → Prop) (turn : Chunked σ → ρ ⊕ Chunked σ) : Prop :=
  ∀ s t, I s.state → GoesOn turn s t →
    I t.state ∧ s.rest ≠ [] ∧ t.rest = s.rest.drop (min chunkSize s.rest.length)

/-- Such a loop makes progress unless its chunks are empty and its first turn
goes on all the same. -/
theorem progresses_iff {chunkSize : Nat} {I : σ → Prop} {turn : Chunked σ → ρ ⊕ Chunked σ}
    (h : TakesChunk chunkSize I turn) {s : Chunked σ} (hs : I s.state) :
    Progresses turn Chunked.remaining s ↔ 1 ≤ chunkSize ∨ ¬ ∃ t, GoesOn turn s t := by
  constructor
  · intro hprog
    by_contra hcond
    obtain ⟨hsize, hgoes⟩ := not_or.mp hcond
    obtain ⟨t, ht⟩ := not_not.mp hgoes
    obtain ⟨-, -, hrest⟩ := h s t hs ht
    refine not_progresses_of_goesOn ht ?_ hprog
    have hzero : min chunkSize s.rest.length = 0 := by omega
    rw [Chunked.remaining, Chunked.remaining, hrest, hzero, List.drop_zero]
  · rintro (hsize | hstop)
    · apply progresses_of_invariant (I := fun s => I s.state) _ hs
      intro s t hI ht
      obtain ⟨hI', hne, hrest⟩ := h s t hI ht
      have hpos : 0 < s.rest.length := List.length_pos_iff.mpr hne
      refine ⟨hI', ?_⟩
      rw [Chunked.remaining, Chunked.remaining, hrest, List.length_drop]
      omega
    · exact progresses_of_stops fun t ht => hstop ⟨t, ht⟩

end Turns

theorem takesChunk_consumeChunk (chunkSize : Nat) :
    TakesChunk chunkSize (fun _ => True) (consumeChunkTurn chunkSize) := by
  intro s t _ h
  by_cases hd : s.rest = []
  · simp [GoesOn, consumeChunkTurn, hd] at h
  · simp only [GoesOn, consumeChunkTurn, if_neg hd, Sum.inr.injEq] at h
    exact ⟨trivial, hd, h ▸ rfl⟩

theorem takesChunk_consumeChunkEx (chunkSize : Nat) :
    TakesChunk chunkSize (fun _ => True) (consumeChunkExTurn chunkSize) := by
  intro s t _ h
  by_cases hd : s.rest = []
  · simp [GoesOn, consumeChunkExTurn, hd] at h
  · simp only [GoesOn, consumeChunkExTurn, if_neg hd] at h
    split_ifs at h with herr
    obtain ⟨-, hres⟩ := DecoderCalls.consumeExLoop_ok s.state.1
      (s.rest.take (min chunkSize s.rest.length)) 0 (Bool.eq_false_iff.mpr herr)
    rw [StreamDecoder.consumeEx, hres] at h
    rw [Sum.inr.injEq] at h
    refine ⟨trivial, hd, ?_⟩
    rw [← h]
    simp [ConsumeResult.ok]

theorem takesChunk_pushPacketChunk (outputFn : OutputFn) (chunkSize : Nat) :
    TakesChunk chunkSize Valid (pushPacketChunkTurn outputFn chunkSize) := by
  intro s t hv h
  by_cases hd : s.rest = []
  · simp [GoesOn, pushPacketChunkTurn, hd] at h
  · simp only [GoesOn, pushPacketChunkTurn, if_neg hd] at h
    split_ifs at h with hst
    have hcons := consumed_of_ok outputFn hv _ (not_not.mp hst)
    rw [Sum.inr.injEq] at h
    rw [← h]
    refine ⟨valid_pushPacket outputFn hv _, hd, ?_⟩
    rw [hcons, List.length_take_of_le (Nat.min_le_right _ _)]

theorem goesOn_pushPacketChunkEx (outputFn : OutputFn) (chunkSize : Nat) {s : Chunked Encoder}
    (hv : Valid s.state) (t : Chunked Encoder) :
    GoesOn (pushPacketChunkExTurn outputFn chunkSize) s t ↔
      GoesOn (pushPacketChunkTurn outputFn chunkSize) s t := by
  by_cases hd : s.rest = []
  · simp [GoesOn, pushPacketChunkExTurn, pushPacketChunkTurn, hd]
  · obtain ⟨he, hst, hcount⟩ :=
      pushPacketEx_eq outputFn hv (s.rest.take (min chunkSize s.rest.length))
    simp only [GoesOn, pushPacketChunkExTurn, pushPacketChunkTurn, if_neg hd,
      PushPacketResult.isRetry, PushPacketResult.isError, hst, he, hcount]
    cases (pushPacket outputFn s.state (s.rest.take (min chunkSize s.rest.length))).2.1 <;> simp

theorem takesChunk_pushPacketChunkEx (outputFn : OutputFn) (chunkSize : Nat) :
    TakesChunk chunkSize Valid (pushPacketChunkExTurn outputFn chunkSize) := by
  intro s t hv h
  exact takesChunk_pushPacketChunk outputFn chunkSize s t hv
    ((goesOn_pushPacketChunkEx outputFn chunkSize hv t).mp h)

/-- The sink and the queue let an empty packet through: an `END` that may still
be pending, and its own. -/
def TakesEmpty (outputFn : OutputFn) (e : Encoder) : Prop :=
  Goes (capacity e) e.maxSendChunk
    (credit outputFn .ok (push ⟨queue e, e.calls⟩ (owed e.endPending ++ packet [])))
    (queue e).length (moves (callWidths e.endPending []))

theorem pushPacket_empty_ok_iff (outputFn : OutputFn) {e : Encoder} (h : Valid e) :
    (pushPacket outputFn e []).2.1 = .ok ↔ TakesEmpty outputFn e :=
  (follows_pushPacket outputFn (shows_view h) []).success_iff

theorem goesOn_consumeChunk_zero {chunkSize : Nat} (hzero : chunkSize = 0) (d : Decoder)
    (data : List UInt8) :
    (∃ t, GoesOn (consumeChunkTurn chunkSize) ⟨(d, []), data, 0⟩ t) ↔ data ≠ [] := by
  subst hzero
  by_cases hd : data = []
  · simp [GoesOn, consumeChunkTurn, hd]
  · simp [GoesOn, consumeChunkTurn, hd]

theorem goesOn_consumeChunkEx_zero {chunkSize : Nat} (hzero : chunkSize = 0) (d : Decoder)
    (data : List UInt8) :
    (∃ t, GoesOn (consumeChunkExTurn chunkSize) ⟨(d, []), data, 0⟩ t) ↔ data ≠ [] := by
  subst hzero
  by_cases hd : data = []
  · simp [GoesOn, consumeChunkExTurn, hd]
  · simp [GoesOn, consumeChunkExTurn, hd, StreamDecoder.consumeEx, consumeExLoop,
      ConsumeResult.ok]

theorem goesOn_pushPacketChunk_zero {chunkSize : Nat} (hzero : chunkSize = 0)
    (outputFn : OutputFn) {e : Encoder} (h : Valid e) (data : List UInt8) :
    (∃ t, GoesOn (pushPacketChunkTurn outputFn chunkSize) ⟨e, data, 0⟩ t) ↔
      data ≠ [] ∧ TakesEmpty outputFn e := by
  subst hzero
  rw [← pushPacket_empty_ok_iff outputFn h]
  by_cases hd : data = []
  · simp [GoesOn, pushPacketChunkTurn, hd]
  · simp only [GoesOn, pushPacketChunkTurn, if_neg hd, Nat.zero_min, List.take_zero]
    split_ifs with hst
    · simp [hst]
    · simp [hd, not_not.mp hst]

/-- A call whose loop makes progress returns. `p` says whether the loop goes on
after a turn on an empty chunk. -/
theorem progress_iff_of_call {σ ρ τ : Type} {chunkSize : Nat} {I : σ → Prop} {p : Prop}
    {turn : Chunked σ → ρ ⊕ Chunked σ} (h : TakesChunk chunkSize I turn) {s : Chunked σ}
    (hs : I s.state) (hzero : chunkSize = 0 → ((∃ t, GoesOn turn s t) ↔ p)) {call : Option τ}
    (hcall : call = none → loop turn (s.remaining + 1) s = none) :
    Progresses turn Chunked.remaining s ∧ call ≠ none ↔ 1 ≤ chunkSize ∨ ¬ p := by
  have hreturns : Progresses turn Chunked.remaining s → call ≠ none := by
    intro hprog hnone
    obtain ⟨r, hr⟩ := loop_of_progresses hprog (Nat.lt_succ_self _)
    rw [hcall hnone] at hr
    cases hr
  rw [and_iff_left_of_imp hreturns, progresses_iff h hs]
  obtain rfl | hpos := Nat.eq_zero_or_pos chunkSize
  · rw [hzero rfl]
  · exact iff_of_true (Or.inl hpos) (Or.inl hpos)

/-- Every turn of the four chunked loops returns or takes bytes off what is left,
so that the calls return, exactly when the chunks are not empty, there is nothing
to do, or an encoder is turned away with the first empty packet. -/
theorem chunk_progress_iff (data : List UInt8) (chunkSize : Nat) :
    (∀ d, Progresses (consumeChunkTurn chunkSize) Chunked.remaining ⟨(d, []), data, 0⟩ ∧
        consumeChunk d data chunkSize ≠ none ↔ 1 ≤ chunkSize ∨ data = []) ∧
      (∀ d, Progresses (consumeChunkExTurn chunkSize) Chunked.remaining ⟨(d, []), data, 0⟩ ∧
        consumeChunkEx d data chunkSize ≠ none ↔ 1 ≤ chunkSize ∨ data = []) ∧
      (∀ outputFn e, Reachable outputFn e →
        (Progresses (pushPacketChunkTurn outputFn chunkSize) Chunked.remaining ⟨e, data, 0⟩ ∧
          pushPacketChunk outputFn e data chunkSize ≠ none ↔
            1 ≤ chunkSize ∨ data = [] ∨ ¬ TakesEmpty outputFn e)) ∧
      ∀ outputFn e, Reachable outputFn e →
        (Progresses (pushPacketChunkExTurn outputFn chunkSize) Chunked.remaining ⟨e, data, 0⟩ ∧
          pushPacketChunkEx outputFn e data chunkSize ≠ none ↔
            1 ≤ chunkSize ∨ data = [] ∨ ¬ TakesEmpty outputFn e) := by
  refine ⟨?_, ?_, ?_, ?_⟩
  · intro d
    rw [progress_iff_of_call (takesChunk_consumeChunk chunkSize) trivial
      (fun hzero => goesOn_consumeChunk_zero hzero d data), ne_eq, not_not]
    intro hnone
    rw [consumeChunk] at hnone
    rw [consumeChunkLoop_eq_loop, Chunked.remaining, hnone]
    rfl
  · intro d
    rw [progress_iff_of_call (takesChunk_consumeChunkEx chunkSize) trivial
      (fun hzero => goesOn_consumeChunkEx_zero hzero d data), ne_eq, not_not]
    intro hnone
    rw [consumeChunkEx] at hnone
    rw [consumeChunkExLoop_eq_loop, Chunked.remaining, hnone]
    rfl
  · intro outputFn e he
    have hv := valid_of_reachable he
    rw [progress_iff_of_call (takesChunk_pushPacketChunk outputFn chunkSize) hv
      (fun hzero => goesOn_pushPacketChunk_zero hzero outputFn hv data), not_and_or, ne_eq, not_not]
    intro hnone
    rw [pushPacketChunkLoop_eq_loop]
    exact hnone
  · intro outputFn e he
    have hv := valid_of_reachable he
    have hgoes (t : Chunked Encoder) :=
      goesOn_pushPacketChunkEx outputFn chunkSize (s := ⟨e, data, 0⟩) hv t
    rw [progress_iff_of_call (takesChunk_pushPacketChunkEx outputFn chunkSize) hv
      (fun hzero =>
        (exists_congr hgoes).trans (goesOn_pushPacketChunk_zero hzero outputFn hv data)),
      not_and_or, ne_eq, not_not]
    intro hnone
    rw [pushPacketChunkExLoop_eq_loop]
    exact hnone

theorem consumeChunkLoop_endless {data : List UInt8} (hd : data ≠ []) (fuel : Nat) (d : Decoder)
    (k : Nat) : consumeChunkLoop 0 fuel d data k = none := by
  have hloop : loop (consumeChunkTurn 0) fuel ⟨(d, []), data, k⟩ = none := by
    apply loop_of_endless (I := fun s => s.rest ≠ []) _ hd
    intro s hs
    exact ⟨_, if_neg hs, by simpa using hs⟩
  rw [consumeChunkLoop_eq_loop] at hloop
  exact Option.map_eq_none_iff.mp hloop

theorem consumeChunkExLoop_endless {data : List UInt8} (hd : data ≠ []) (fuel : Nat)
    (d : Decoder) (k : Nat) : consumeChunkExLoop 0 fuel d data k = none := by
  have hloop : loop (consumeChunkExTurn 0) fuel ⟨(d, []), data, k⟩ = none := by
    apply loop_of_endless (I := fun s => s.rest ≠ []) _ hd
    rintro ⟨⟨d, events⟩, data, k⟩ hs
    exact ⟨⟨(d, events ++ []), data, k⟩, if_neg hs, hs⟩
  rw [consumeChunkExLoop_eq_loop] at hloop
  exact Option.map_eq_none_iff.mp hloop

/-- A sink that takes every byte is sent one empty packet after the other. -/
theorem pushPacketChunkLoop_endless {outputFn : OutputFn}
    (hok : ∀ calls b, outputFn calls b = .ok) {e : Encoder} (hv : Valid e)
    (hcap : 2 ≤ capacity e) (hm : 1 ≤ e.maxSendChunk) {data : List UInt8} (hd : data ≠ [])
    (fuel k : Nat) : pushPacketChunkLoop outputFn 0 fuel e data k = none := by
  rw [← pushPacketChunkLoop_eq_loop]
  apply loop_of_endless (I := fun s => s.rest ≠ [] ∧ Valid s.state ∧ 2 ≤ capacity s.state ∧
    1 ≤ s.state.maxSendChunk) _ ⟨hd, hv, hcap, hm⟩
  rintro ⟨e, data, k⟩ ⟨hd, hv, hcap, hm⟩
  obtain ⟨hres, _, _, hshows⟩ := pushPacket_accepting hok (shows_view hv) hcap hm []
  have hturn : GoesOn (pushPacketChunkTurn outputFn 0) ⟨e, data, k⟩
      ⟨(pushPacket outputFn e []).1, data, k⟩ := by
    simp [GoesOn, pushPacketChunkTurn, hd, hres]
  refine ⟨_, hturn, hd, hshows.1, ?_, ?_⟩
  · exact hcap.trans_eq (congrArg View.capacity hshows.2).symm
  · exact hm.trans_eq (congrArg View.maxSendChunk hshows.2).symm

theorem chunk_size_zero_endless :
    (∃ t, GoesOn (consumeChunkTurn 0) ⟨(StreamDecoder.new (fun _ => 0) 16 false, []), [0x01], 0⟩ t ∧
        t.remaining = 1) ∧
      (∀ fuel, consumeChunkLoop 0 fuel (StreamDecoder.new (fun _ => 0) 16 false) [0x01] 0 = none) ∧
      ∀ fuel, pushPacketChunkLoop (fun _ _ => .ok) 0 fuel (StreamEncoder.new 8 4) [0x01] 0 = none := by
  refine ⟨⟨_, rfl, rfl⟩, ?_, ?_⟩
  · intro fuel
    exact consumeChunkLoop_endless (by decide) fuel _ 0
  · intro fuel
    exact pushPacketChunkLoop_endless (fun _ _ => rfl) (valid_new 8 4) (by decide) (by decide)
      (by decide) fuel 0

end SlipStream.ChunkProgress
