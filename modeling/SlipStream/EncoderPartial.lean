import SlipStream.EncoderAccepting

namespace SlipStream.EncoderPartial

open Channel hiding log
open Format Stuffing StreamEncoder EncoderQueue EncoderSteps EncoderMoves
open EncoderReachable EncoderEx EncoderAccepting

variable {outputFn : OutputFn} {e : Encoder} {v : View}

theorem stream_opened (h : Shows e v) (ho : Opens outputFn e) :
    ∃ l, Shows (opened outputFn e) {v with link := l, endPending := false} ∧
      stream (opened outputFn e) = stream e := by
  have hs := (follows_opening outputFn h).shows ho
  refine ⟨_, hs, ?_⟩
  rw [stream_of_shows hs, stream_of_shows h, log_advance, log_push]
  exact List.append_nil _

theorem stream_pushLoop (h : Shows e v) (data : List UInt8) :
    stream (pushLoop outputFn e data 0).1 =
      Channel.log .ok v.link ++ escape (data.take (pushLoop outputFn e data 0).2.2) ++
        owed v.endPending := by
  obtain ⟨c, _, hcount, ⟨l, hs, hl⟩, _⟩ := adds_pushLoop outputFn h data 0
  rw [hcount, Nat.zero_add, stream_of_shows hs, hl]

theorem stream_pushEnd (h : Shows e v) (hv : v.endPending = false) (hsl : Slack e) :
    stream (pushEnd outputFn e).1 = stream e ++ [END] := by
  obtain ⟨l, b, t, hs, hl, ht, _⟩ := adds_pushEnd outputFn h hv
  obtain ⟨_, herr⟩ | rfl := ht
  · exact absurd herr (ensureFree_ne_error outputFn h.1 hsl)
  · rw [stream_of_shows hs, stream_of_shows h, hl, hv]
    simp [owed]

theorem stream_of_stopped (h : Shows e v) (ho : Opens outputFn e) {data : List UInt8}
    (hl : (pushLoop outputFn (opened outputFn e) data 0).2.1 ≠ .ok) :
    stream (pushPacket outputFn e data).1 =
      stream e ++ escape (data.take (pushPacket outputFn e data).2.2) := by
  obtain ⟨l, hs, hopen⟩ := stream_opened h ho
  rw [pushPacket_of_stopped outputFn ho hl, stream_pushLoop hs, ← hopen, stream_of_shows hs]
  simp [owed]

theorem stream_of_opens (h : Shows e v) (ho : Opens outputFn e) {data : List UInt8}
    (hl : (pushLoop outputFn (opened outputFn e) data 0).2.1 = .ok) :
    stream (pushPacket outputFn e data).1 = stream e ++ packet data := by
  obtain ⟨l, hs, hopen⟩ := stream_opened h ho
  obtain ⟨c, _, hcount, ⟨l', hs', _⟩, hdone⟩ := adds_pushLoop outputFn hs data 0
  have hsl := slack_pushPending outputFn (valid_flush outputFn h.1)
    (slack_flush outputFn h.1 ho.1) ho.2
  have hsl' := slack_pushLoop outputFn hs.1 hsl data 0 hl
  rw [pushPacket_of_opens outputFn ho hl]
  simp only
  rw [stream_pushEnd hs' rfl hsl', stream_pushLoop hs, hcount, hdone hl, Nat.zero_add,
    List.take_length, ← hopen, stream_of_shows hs]
  simp [owed, packet]

/-- The callback takes all that is offered until the last payload byte is
queued, and then refuses one of the bytes of the flush after it. -/
def LastFlushRefused (outputFn : OutputFn) (e : Encoder) (data : List UInt8) : Prop :=
  Goes (capacity e) e.maxSendChunk
      (taken outputFn .ok e.calls (queue e ++ (owed e.endPending ++ escape data))) (queued e)
      (reaching (pendingWidths e.endPending ++ widths data)) ∧
    ¬ Goes (capacity e) e.maxSendChunk
      (taken outputFn .ok e.calls (queue e ++ (owed e.endPending ++ escape data))) (queued e)
      (moves (pendingWidths e.endPending ++ widths data))

instance (outputFn : OutputFn) (e : Encoder) (data : List UInt8) :
    Decidable (LastFlushRefused outputFn e data) := inferInstanceAs (Decidable (_ ∧ _))

/-- A call that consumes all of its data has terminated its packet, unless the
flush after the last payload byte is refused: `END` is then in none of the
places a later call looks at. -/
theorem consumed_terminated_iff (h : Reachable outputFn e) {data : List UInt8} (hd : data ≠ []) :
    ((pushPacket outputFn e data).2.2 = data.length →
        stream (pushPacket outputFn e data).1 = stream e ++ packet data) ↔
      ¬ LastFlushRefused outputFn e data := by
  have hv := shows_view (valid_of_reachable h)
  have hlen : (view e).link.queue.length = queued e := length_queue hv
  obtain ⟨xs, c, rfl⟩ : ∃ xs c, data = xs ++ [c] :=
    ⟨_, _, (List.dropLast_append_getLast hd).symm⟩
  have hreach := (follows_reaching outputFn hv xs c []).success_iff
  have hload := (follows_payload outputFn hv (xs ++ [c])).success_iff
  have hesc : escape xs ++ stuffOne slip c = escape (xs ++ [c]) := by
    rw [escape_append, escape_cons, escape_nil, List.append_nil]
  rw [List.append_assoc, hesc, hlen] at hreach
  rw [hlen] at hload
  obtain ⟨_, _, _, hle, _⟩ := stream_pushPacket outputFn hv.1 (xs ++ [c])
  have hall : (pushPacket outputFn e (xs ++ [c])).2.2 = (xs ++ [c]).length ↔
      xs.length + 1 ≤ (pushPacket outputFn e (xs ++ [c])).2.2 := by
    rw [List.length_append, List.length_singleton] at hle ⊢
    omega
  rw [hall]
  constructor
  · rintro hterm ⟨hgoes, hstop⟩
    have hcons := hreach.mpr hgoes
    have ho : Opens outputFn e := by
      by_contra ho
      have hz := (pushPacket_of_not_opens outputFn (xs ++ [c]) ho).2
      omega
    have hl : (pushLoop outputFn (opened outputFn e) (xs ++ [c]) 0).2.1 ≠ .ok :=
      fun hl => hstop (hload.mp ⟨ho, hl⟩)
    have hstream := stream_of_stopped hv ho hl
    rw [hterm hcons, hall.mpr hcons, List.take_length, packet, List.append_cancel_left_eq]
      at hstream
    exact absurd (congrArg List.length hstream) (by simp)
  · intro hno hcons
    have hgoes := hreach.mp hcons
    have hload' := hload.mpr (by_contra fun hstop => hno ⟨hgoes, hstop⟩)
    exact stream_of_opens hv hload'.1 hload'.2

theorem consumed_terminated_iff_owed :
    (pushPacket (refusing 1) (new 1 0) [0x01]).2.2 = 1 ∧
      stream (pushPacket (refusing 1) (new 1 0) [0x01]).1 = [0x01, END] := by
  have hcons : (pushPacket (refusing 1) (new 1 0) [0x01]).2.2 = 1 := by decide
  exact ⟨hcons, (consumed_terminated_iff (Reachable.new 1 0) (List.cons_ne_nil _ _)).mpr
    (by decide) hcons⟩

/-- The callback refuses its first call, the flush after the only payload byte:
all data is reported as consumed, and `END` is neither queued nor owed. -/
theorem consumed_unterminated :
    (∀ calls b, refusing 0 calls b ≠ .error) ∧ Reachable (refusing 0) (new 2 64) ∧
      (pushPacket (refusing 0) (new 2 64) [0x01]).2 = (.retryLater, 1) ∧
      stream (pushPacket (refusing 0) (new 2 64) [0x01]).1 = [0x01] := by
  refine ⟨?_, Reachable.new 2 64, by decide, by decide⟩
  intro calls b
  simp only [refusing]
  split_ifs <;> simp

/-- Between `e` and `e'`, the payload bytes that went into the stream are the
first `j` of `data`. -/
def Took (e e' : Encoder) (data : List UInt8) (j : Nat) : Prop :=
  j ≤ data.length ∧ ∃ xs, stream e' = stream e ++ xs ∧
    xs.filter (· ≠ END) = escape (data.take j)

/-- No chunk is broken off: if the moves that bring in its first byte succeed,
then so do those that bring in the rest of it and its `END`. Of the packets a
chunked push makes, `t` more bytes will be taken, and `n` are waiting. -/
def Unbroken (cap m : Nat) : Nat → Nat → Bool → List (List UInt8) → Prop
  | _, _, _, [] => True
  | t, n, b, d :: ds =>
    Goes cap m t n (reaching (pendingWidths b ++ widths (d.take 1))) →
      Goes cap m t n (moves (callWidths b d)) ∧
        Unbroken cap m (t - sent cap m n (moves (callWidths b d)))
          (left cap m n (moves (callWidths b d))) false ds

instance decidableUnbroken (cap m : Nat) :
    ∀ t n b ds, Decidable (Unbroken cap m t n b ds)
  | _, _, _, [] => inferInstanceAs (Decidable True)
  | t, n, b, d :: ds =>
    haveI := decidableUnbroken cap m (t - sent cap m n (moves (callWidths b d)))
      (left cap m n (moves (callWidths b d))) false ds
    inferInstanceAs (Decidable (_ → _ ∧ _))

def ChunksUnbroken (outputFn : OutputFn) (e : Encoder) (ds : List (List UInt8)) : Prop :=
  Unbroken (capacity e) e.maxSendChunk
    (taken outputFn .ok e.calls (queue e ++ (owed e.endPending ++ ds.flatMap packet)))
    (queued e) e.endPending ds

instance (outputFn : OutputFn) (e : Encoder) (ds : List (List UInt8)) :
    Decidable (ChunksUnbroken outputFn e ds) :=
  inferInstanceAs (Decidable (Unbroken _ _ _ _ _ _))

theorem filter_escape (p : List UInt8) : (escape p).filter (· ≠ END) = escape p := by
  apply List.filter_eq_self.mpr
  intro x hx
  have hne : x ≠ END := fun h => END_notMem_escape p (h ▸ hx)
  simpa using hne

theorem filter_taken (p : List UInt8) {t : List UInt8} (ht : t = [] ∨ t = [END]) :
    (escape p ++ t).filter (· ≠ END) = escape p := by
  have hno : t.filter (· ≠ END) = [] := by
    obtain rfl | rfl := ht
    · rfl
    · rfl
  rw [List.filter_append, filter_escape, hno, List.append_nil]

theorem unbroken_cons (outputFn : OutputFn) (h : Shows e v) {d : List UInt8} (hd : d ≠ [])
    (ds : List (List UInt8)) :
    Unbroken v.capacity v.maxSendChunk
        (credit outputFn .ok (push v.link (owed v.endPending ++ packet d ++ ds.flatMap packet)))
        v.link.queue.length v.endPending (d :: ds) ↔
      (1 ≤ (pushPacket outputFn e d).2.2 → (pushPacket outputFn e d).2.1 = .ok ∧
        Unbroken v.capacity v.maxSendChunk
          (credit outputFn .ok (push v.link (owed v.endPending ++ packet d ++ ds.flatMap packet)) -
            sent v.capacity v.maxSendChunk v.link.queue.length (moves (callWidths v.endPending d)))
          (left v.capacity v.maxSendChunk v.link.queue.length (moves (callWidths v.endPending d)))
          false ds) := by
  obtain ⟨c, cs, rfl⟩ := List.exists_cons_of_ne_nil hd
  have hfirst := (follows_reaching outputFn h [] c cs).success_iff_append
    (escape cs ++ [END] ++ ds.flatMap packet)
  have hwhole := (follows_pushPacket outputFn h (c :: cs)).success_iff_append (ds.flatMap packet)
  have hbytes : owed v.endPending ++ escape [] ++ stuffOne slip c ++
        (escape cs ++ [END] ++ ds.flatMap packet) =
      owed v.endPending ++ packet (c :: cs) ++ ds.flatMap packet := by
    rw [packet, escape_cons, escape_nil]
    simp only [List.append_assoc, List.nil_append]
  rw [hbytes] at hfirst
  rw [Unbroken, ← hwhole]
  exact imp_congr hfirst.symm Iff.rfl

theorem unbroken_of_stopped (h : Shows e v) {d : List UInt8} (hd : d ≠ [])
    (ds : List (List UInt8)) (hst : (pushPacket outputFn e d).2.1 ≠ .ok) :
    Unbroken v.capacity v.maxSendChunk
        (credit outputFn .ok (push v.link (owed v.endPending ++ packet d ++ ds.flatMap packet)))
        v.link.queue.length v.endPending (d :: ds) ↔ (pushPacket outputFn e d).2.2 = 0 := by
  rw [unbroken_cons outputFn h hd ds]
  constructor
  · intro himp
    by_contra hne
    exact hst (himp (Nat.one_le_iff_ne_zero.mpr hne)).1
  · intro hz hpos
    omega

theorem unbroken_of_ok (h : Shows e v) {d : List UInt8} (hd : d ≠ []) (ds : List (List UInt8))
    (hst : (pushPacket outputFn e d).2.1 = .ok) :
    ∃ l, Shows (pushPacket outputFn e d).1 {v with link := l, endPending := false} ∧
      (Unbroken v.capacity v.maxSendChunk
          (credit outputFn .ok (push v.link (owed v.endPending ++ packet d ++ ds.flatMap packet)))
          v.link.queue.length v.endPending (d :: ds) ↔
        Unbroken v.capacity v.maxSendChunk (credit outputFn .ok (push l (ds.flatMap packet)))
          l.queue.length false ds) := by
  have hcall := follows_pushPacket outputFn h d
  have hsent := ((hcall.success_iff_append (ds.flatMap packet)).mp hst).2
  have hpos : 1 ≤ (pushPacket outputFn e d).2.2 := by
    rw [consumed_of_ok outputFn h.1 d hst]
    exact List.length_pos_of_ne_nil hd
  refine ⟨_, hcall.shows hst, ?_⟩
  rw [unbroken_cons outputFn h hd ds, length_advance_push v.link _ _ _ hcall.gains_eq,
    advance_push .ok _ _ (sent_le_length v.link _ _ hcall.gains_eq), ← push_append,
    credit_advance outputFn .ok _ hsent]
  exact ⟨fun himp => (himp hpos).2, fun hrest _ => ⟨hst, hrest⟩⟩

theorem pushPacketChunkLoop_took (h : Shows e v) {k : Nat} (hk : 1 ≤ k) {fuel : Nat}
    (data : List UInt8) (hfuel : data.length < fuel) (consumed : Nat) :
    ∃ r j i xs, pushPacketChunkLoop outputFn k fuel e data consumed = some r ∧
      r.2.2 = consumed + j ∧ j + i ≤ data.length ∧ stream r.1 = stream e ++ xs ∧
      xs.filter (· ≠ END) = escape (data.take (j + i)) ∧
      (i = 0 ↔ Unbroken v.capacity v.maxSendChunk
        (credit outputFn .ok
          (push v.link (owed v.endPending ++ (chunksLoop k fuel data).flatMap packet)))
        v.link.queue.length v.endPending (chunksLoop k fuel data)) := by
  induction fuel generalizing e v data consumed with
  | zero => omega
  | succ fuel ih =>
    by_cases hd : data = []
    · subst hd
      exact ⟨(e, .ok, consumed), 0, 0, [], rfl, rfl, Nat.le_refl _, (List.append_nil _).symm, rfl,
        iff_of_true rfl trivial⟩
    have hlen := List.length_pos_of_ne_nil hd
    have hmin : (data.take k).length = min k data.length := List.length_take
    have hchunk : data.take k ≠ [] := by
      apply List.ne_nil_of_length_pos
      omega
    obtain ⟨t, hstream, ht, hle, hdone⟩ := stream_pushPacket outputFn h.1 (data.take k)
    rw [chunksLoop, if_neg hd, List.flatMap_cons, ← List.append_assoc]
    simp only [pushPacketChunkLoop, if_neg hd, ← List.take_eq_take_min]
    by_cases hst : (pushPacket outputFn e (data.take k)).2.1 = .ok
    · obtain ⟨hcount, rfl⟩ := hdone hst
      rw [hcount, List.take_length] at hstream
      rw [hmin] at hcount
      obtain ⟨l, hs, hnext⟩ := unbroken_of_ok h hchunk (chunksLoop k fuel (data.drop k)) hst
      obtain ⟨r, j, i, xs, hr, hcons, hji, hxs, hfilter, hiff⟩ := ih hs (data.drop k)
        (by rw [List.length_drop]; omega) (consumed + min k data.length)
      refine ⟨r, min k data.length + j, i, packet (data.take k) ++ xs, ?_, ?_, ?_, ?_, ?_, ?_⟩
      · simp only [hst, hcount, ← List.drop_eq_drop_min]
        exact hr
      · rw [hcons, Nat.add_assoc]
      · rw [List.length_drop] at hji
        omega
      · rw [hxs, hstream, List.append_assoc]
        rfl
      · have htake : data.take (min k data.length + (j + i)) =
            data.take k ++ (data.drop k).take (j + i) := by
          rw [List.take_add, ← List.take_eq_take_min, ← List.drop_eq_drop_min]
        rw [List.filter_append, packet, filter_taken _ (.inr rfl), hfilter, Nat.add_assoc, htake,
          escape_append]
      · exact hiff.trans hnext.symm
    · refine ⟨((pushPacket outputFn e (data.take k)).1, (pushPacket outputFn e (data.take k)).2.1,
        consumed), 0, (pushPacket outputFn e (data.take k)).2.2, _, ?_, rfl, ?_, hstream, ?_, ?_⟩
      · simp only [ne_eq, hst, not_false_eq_true, ↓reduceIte]
      · omega
      · have hshort : min (pushPacket outputFn e (data.take k)).2.2 k =
            (pushPacket outputFn e (data.take k)).2.2 := by omega
        rw [filter_taken _ ht, List.take_take, hshort, Nat.zero_add]
      · exact (unbroken_of_stopped h hchunk _ hst).symm

theorem took_iff_eq_zero {e' : Encoder} {data xs : List UInt8} {j i : Nat}
    (hji : j + i ≤ data.length) (hxs : stream e' = stream e ++ xs)
    (hfilter : xs.filter (· ≠ END) = escape (data.take (j + i))) :
    Took e e' data j ↔ i = 0 := by
  constructor
  · rintro ⟨_, ys, hys, hys'⟩
    obtain rfl : xs = ys := List.append_cancel_left (hxs.symm.trans hys)
    rw [hfilter, List.take_add, escape_append] at hys'
    have hlen := length_le_escape ((data.drop j).take i)
    rw [List.append_right_eq_self.mp hys', List.length_take, List.length_drop, List.length_nil]
      at hlen
    omega
  · rintro rfl
    exact ⟨hji, xs, hxs, hfilter⟩

/-- The count that a chunked push returns is the number of payload bytes it
took in, exactly when no chunk is broken off. -/
theorem chunk_reports_taken_iff (h : Reachable outputFn e) (data : List UInt8) {chunkSize : Nat}
    (hc : 1 ≤ chunkSize) :
    ∃ r s, pushPacketChunk outputFn e data chunkSize = some r ∧
      pushPacketChunkEx outputFn e data chunkSize = some s ∧
      (Took e r.1 data r.2.2 ↔ ChunksUnbroken outputFn e (chunks chunkSize data)) ∧
      (Took e s.1 data s.2.consumed ↔ ChunksUnbroken outputFn e (chunks chunkSize data)) := by
  have hv := valid_of_reachable h
  obtain ⟨r, s, hr, hs, hfst, _, hcount⟩ :=
    pushPacketChunkLoop_eq outputFn hv hc data (Nat.lt_succ_self _) 0
  obtain ⟨r', j, i, xs, hr', hj, hji, hxs, hfilter, hiff⟩ :=
    pushPacketChunkLoop_took (shows_view hv) hc data (Nat.lt_succ_self _) 0
  obtain rfl : r = r' := Option.some.inj (hr.symm.trans hr')
  have htook : Took e r.1 data r.2.2 ↔ ChunksUnbroken outputFn e (chunks chunkSize data) := by
    have hlen : (view e).link.queue.length = queued e := length_queue (shows_view hv)
    rw [hlen] at hiff
    rw [hj, Nat.zero_add]
    exact (took_iff_eq_zero hji hxs hfilter).trans hiff
  refine ⟨r, s, hr, hs, htook, ?_⟩
  rw [hfst, hcount]
  exact htook

theorem chunk_reports_taken_iff_resumable :
    ∃ r, pushPacketChunk (refusing 2) (new 4 1) [END, 0x01] 1 = some r ∧
      r.2 = (.retryLater, 1) ∧ Took (new 4 1) r.1 [END, 0x01] r.2.2 := by
  obtain ⟨r, _, hr, _, hiff, _⟩ := chunk_reports_taken_iff
    (Reachable.new 4 1 : Reachable (refusing 2) _) [END, 0x01] (Nat.le_refl 1)
  have hret : (pushPacketChunk (refusing 2) (new 4 1) [END, 0x01] 1).map Prod.snd =
      some (.retryLater, 1) := by decide
  rw [hr] at hret
  exact ⟨r, hr, Option.some.inj hret, hiff.mpr (by decide)⟩

/-- The only byte is queued and its flush refused: the stream holds a byte that
the count leaves out, and a caller that resumes pushes it again. -/
theorem chunk_unreported :
    ∃ r s, pushPacketChunk (refusing 0) (new 2 64) [0x01] 1 = some r ∧
      pushPacketChunkEx (refusing 0) (new 2 64) [0x01] 1 = some s ∧
      r.2 = (.retryLater, 0) ∧ s.2.status = .retryLater ∧ s.2.consumed = 0 ∧
      stream r.1 = [0x01] ∧ stream s.1 = [0x01] ∧
      ¬ Took (new 2 64) r.1 [0x01] r.2.2 ∧ ¬ Took (new 2 64) s.1 [0x01] s.2.consumed := by
  have hno {e' : Encoder} (h : stream e' = [0x01]) : ¬ Took (new 2 64) e' [0x01] 0 := by
    rintro ⟨_, xs, hxs, hfilter⟩
    obtain rfl : [0x01] = xs := h.symm.trans hxs
    exact absurd hfilter (by decide)
  have hplain : (pushPacketChunk (refusing 0) (new 2 64) [0x01] 1).map
      (fun r => (r.2, stream r.1)) = some ((.retryLater, 0), [0x01]) := by decide
  have hex : (pushPacketChunkEx (refusing 0) (new 2 64) [0x01] 1).map
      (fun s => (s.2.status, s.2.consumed, stream s.1)) = some (.retryLater, 0, [0x01]) := by decide
  obtain ⟨r, hr, hval⟩ := Option.map_eq_some_iff.mp hplain
  obtain ⟨s, hs, hval'⟩ := Option.map_eq_some_iff.mp hex
  obtain ⟨hret, hstream⟩ := Prod.mk.inj hval
  obtain ⟨hst, hrest⟩ := Prod.mk.inj hval'
  obtain ⟨hcons, hstream'⟩ := Prod.mk.inj hrest
  refine ⟨r, s, hr, hs, hret, hst, hcons, hstream, hstream', ?_, ?_⟩
  · rw [hret]
    exact hno hstream
  · rw [hcons]
    exact hno hstream'

end SlipStream.EncoderPartial
