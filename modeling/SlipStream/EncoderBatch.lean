import SlipStream.EncoderAccepting

namespace SlipStream.EncoderBatch

open Channel hiding log
open Format Stuffing StreamEncoder EncoderQueue EncoderSteps EncoderReachable EncoderAccepting
open BufferFormat (frame frame_eq flatMap_frame)

variable (outputFn : OutputFn) {e : Encoder} {v : View}

section Storing

variable (h : Shows e v) (hm : v.maxSendChunk = 0)
include h hm

theorem flush_storing : flush outputFn e = (e, .ok) := by
  have hzero : e.maxSendChunk = 0 := (congrArg View.maxSendChunk h.2).trans hm
  rw [flush, hzero]
  rfl

theorem ensureFree_storing (n : Nat) :
    ensureFree outputFn e n =
      (e, if v.link.queue.length + n ≤ v.capacity then .ok else .retryLater) := by
  have hroom := room_iff h n
  simp only [ensureFree, flush_storing outputFn h hm, hroom, ne_eq, not_true, ↓reduceIte]
  split_ifs
  · rfl
  · rfl

theorem encodeOne_storing (c : UInt8) (cs : List UInt8) :
    (v.link.queue.length + (stuffOne slip c).length ≤ v.capacity ∧
      (encodeOne outputFn e (c :: cs)).2 = (.ok, 1) ∧
      Shows (encodeOne outputFn e (c :: cs)).1 {v with link := push v.link (stuffOne slip c)}) ∨
    (v.capacity < v.link.queue.length + (stuffOne slip c).length ∧
      encodeOne outputFn e (c :: cs) = (e, .retryLater, 0)) := by
  have hfree := ensureFree_storing outputFn h hm (stuffOne slip c).length
  obtain hfull | hroom :=
    Nat.lt_or_ge v.capacity (v.link.queue.length + (stuffOne slip c).length)
  · right
    rw [if_neg (Nat.not_le.mpr hfull)] at hfree
    have hst : (ensureFree outputFn e (stuffOne slip c).length).2 ≠ .ok := by
      rw [hfree]
      exact WriteStatus.noConfusion
    rw [encodeOne_failed outputFn hst, hfree]
    exact ⟨hfull, rfl⟩
  · left
    rw [if_pos hroom] at hfree
    have hone := shows_encodeOne outputFn cs (by rw [hfree]) (by rw [hfree]; exact h) hroom
    exact ⟨hroom, hone.2, hone.1⟩

end Storing

theorem pushLoop_storing (h : Shows e v) (hm : v.maxSendChunk = 0) (data : List UInt8) (j : Nat) :
    ∃ k ≤ data.length, (pushLoop outputFn e data j).2.2 = j + k ∧
      Shows (pushLoop outputFn e data j).1 {v with link := push v.link (escape (data.take k))} ∧
      ((pushLoop outputFn e data j).2.1 = .ok ∧ k = data.length ∨
        (pushLoop outputFn e data j).2.1 = .retryLater ∧ k < data.length ∧
          v.capacity < v.link.queue.length + (escape (data.take (k + 1))).length) := by
  induction data generalizing e v j with
  | nil =>
    refine ⟨0, Nat.le_refl _, rfl, ?_, Or.inl ⟨rfl, rfl⟩⟩
    rw [List.take_nil, escape_nil, push_nil]
    exact h
  | cons c cs ih =>
    obtain ⟨hroom, hres, hs⟩ | ⟨hfull, hres⟩ := encodeOne_storing outputFn h hm c cs
    · have hflush := flush_storing outputFn hs hm
      obtain ⟨k, hk, hcount, hshow, hend⟩ := ih hs hm (j + 1)
      have hnext : pushLoop outputFn e (c :: cs) j =
          pushLoop outputFn (encodeOne outputFn e (c :: cs)).1 cs (j + 1) := by
        rw [pushLoop_next j (by rw [hres]) (by rw [hflush]), hflush, hres]
      rw [hnext]
      refine ⟨k + 1, by simpa using hk, by omega, ?_, ?_⟩
      · rw [List.take_succ_cons, escape_cons, push_append]
        exact hshow
      · rw [List.take_succ_cons, escape_cons, List.length_append, List.length_cons]
        simp only [push, List.length_append] at hend
        obtain ⟨hst, hlen⟩ | ⟨hst, hlt, hover⟩ := hend
        · exact Or.inl ⟨hst, by omega⟩
        · exact Or.inr ⟨hst, by omega, by omega⟩
    · rw [pushLoop_failed j (by rw [hres]; exact WriteStatus.noConfusion), hres]
      refine ⟨0, Nat.zero_le _, rfl, ?_, Or.inr ⟨rfl, Nat.zero_lt_succ _, ?_⟩⟩
      · rw [List.take_zero, escape_nil, push_nil]
        exact h
      · rw [Nat.zero_add, List.take_succ_cons, List.take_zero, escape_cons, escape_nil,
          List.append_nil]
        exact hfull

theorem pushPending_storing (h : Shows e v) (hm : v.maxSendChunk = 0) :
    v.link.queue.length + (owed v.endPending).length ≤ v.capacity ∧
        (pushPending outputFn e).2 = .ok ∧
        Shows (pushPending outputFn e).1
          {v with link := push v.link (owed v.endPending), endPending := false} ∨
      v.capacity < v.link.queue.length + (owed v.endPending).length ∧
        pushPending outputFn e = (e, .retryLater) := by
  have hp : e.endPending = v.endPending := congrArg View.endPending h.2
  have hfree := ensureFree_storing outputFn h hm 1
  cases hv : v.endPending with
  | false =>
    left
    rw [hv] at hp
    have hdone : pushPending outputFn e = (e, .ok) := by
      rw [pushPending, hp]
      rfl
    rw [hdone, owed, if_neg Bool.false_ne_true, push_nil, ← hv]
    exact ⟨length_le_capacity h, rfl, h⟩
  | true =>
    rw [hv] at hp
    have hlen : (owed true).length = 1 := rfl
    obtain hfull | hroom := Nat.lt_or_ge v.capacity (v.link.queue.length + 1)
    · right
      rw [if_neg (Nat.not_le.mpr hfull)] at hfree
      refine ⟨hfull, ?_⟩
      simp [pushPending, hp, hfree]
    · left
      rw [if_pos hroom] at hfree
      have hqueued := shows_endPending (shows_queueByte h END hroom).1 false
      have hflush := flush_storing outputFn hqueued hm
      have hdone : pushPending outputFn e =
          ({(queueByte e END).1 with endPending := false}, .ok) := by
        simp [pushPending, hp, hfree, hflush]
      rw [hdone]
      exact ⟨hroom, rfl, hqueued⟩

theorem pushEnd_storing (h : Shows e v) (hm : v.maxSendChunk = 0) :
    v.link.queue.length + 1 ≤ v.capacity ∧ (pushEnd outputFn e).2 = .ok ∧
        Shows (pushEnd outputFn e).1 {v with link := push v.link [END]} ∨
      v.capacity < v.link.queue.length + 1 ∧
        pushEnd outputFn e = ({e with endPending := true}, .retryLater) := by
  have hfree := ensureFree_storing outputFn h hm 1
  obtain hfull | hroom := Nat.lt_or_ge v.capacity (v.link.queue.length + 1)
  · right
    rw [if_neg (Nat.not_le.mpr hfull)] at hfree
    refine ⟨hfull, ?_⟩
    simp [pushEnd, hfree]
  · left
    rw [if_pos hroom] at hfree
    have hqueued := (shows_queueByte h END hroom).1
    have hdone : pushEnd outputFn e = ((queueByte e END).1, .ok) := by
      simp [pushEnd, hfree, flush_storing outputFn hqueued hm]
    rw [hdone]
    exact ⟨hroom, rfl, hqueued⟩

/-- The bytes that a push adds to the queue if all of them fit. -/
def added (endPending : Bool) (data : List UInt8) : List UInt8 := owed endPending ++ packet data

/-- What a push that returns `r` leaves in the queue of its own packet. -/
def stored (data : List UInt8) (r : WriteStatus × Nat) : List UInt8 :=
  escape (data.take r.2) ++ if r.1 = .ok then [END] else []

/-- A push with flushing turned off. It takes its packet whole if that fits, and else
the bytes that do, and it asks nothing of the output callback. -/
structure Stores (v : View) (data : List UInt8) (r : Encoder × WriteStatus × Nat) : Prop where
  room : v.link.queue.length + (owed v.endPending).length ≤ v.capacity →
    Shows r.1 {v with link := push v.link (owed v.endPending ++ stored data r.2),
                      endPending := decide (r.2.1 ≠ .ok ∧ r.2.2 = data.length)}
  full : v.capacity < v.link.queue.length + (owed v.endPending).length → Shows r.1 v
  status_iff : r.2.1 = .ok ↔ v.link.queue.length + (added v.endPending data).length ≤ v.capacity
  le_consumed : ∀ k, k ≤ r.2.2 ↔ k = 0 ∨ k ≤ data.length ∧
    v.link.queue.length + (owed v.endPending ++ escape (data.take k)).length ≤ v.capacity

theorem escape_take_le (data : List UInt8) {j k : Nat} (h : j ≤ k) :
    (escape (data.take j)).length ≤ (escape (data.take k)).length := by
  obtain ⟨i, rfl⟩ := Nat.exists_eq_add_of_le h
  rw [List.take_add, escape_append, List.length_append]
  exact Nat.le_add_right _ _

theorem count_iff {data : List UInt8} {n cap k : Nat} (hk : k ≤ data.length)
    (hfit : n + (escape (data.take k)).length ≤ cap)
    (hmax : k < data.length → cap < n + (escape (data.take (k + 1))).length) (j : Nat) :
    j ≤ k ↔ j = 0 ∨ j ≤ data.length ∧ n + (escape (data.take j)).length ≤ cap := by
  constructor
  · intro hj
    have := escape_take_le data hj
    exact Or.inr ⟨by omega, by omega⟩
  · rintro (rfl | ⟨hj, hfits⟩)
    · exact Nat.zero_le k
    · by_contra hlt
      have hnext : k + 1 ≤ j := by omega
      have := escape_take_le data hnext
      have := hmax (by omega)
      omega

theorem retryLater_ne_ok : WriteStatus.retryLater ≠ .ok := WriteStatus.noConfusion

theorem length_added (endPending : Bool) (data : List UInt8) : (added endPending data).length =
    (owed endPending).length + ((escape data).length + 1) := by
  simp only [added, packet, List.length_append, List.length_singleton]

section Stores

variable {r : Encoder × WriteStatus × Nat} {data : List UInt8}

theorem Stores.keeps (hs : Stores v data r) :
    ∃ xs b, Shows r.1 {v with link := push v.link xs, endPending := b} := by
  obtain hfull | hroom :=
    Nat.lt_or_ge v.capacity (v.link.queue.length + (owed v.endPending).length)
  · refine ⟨[], v.endPending, ?_⟩
    rw [push_nil]
    exact hs.full hfull
  · exact ⟨_, _, hs.room hroom⟩

theorem Stores.result_of_ok (hs : Stores v data r) (hok : r.2.1 = .ok) : r.2 = (.ok, data.length) := by
  have hfit := hs.status_iff.mp hok
  have hmore := (hs.le_consumed data.length).mpr
    (Or.inr ⟨Nat.le_refl _, by
      simp only [added, packet, List.length_append, List.take_length] at hfit ⊢
      omega⟩)
  have hless := (hs.le_consumed r.2.2).mp (Nat.le_refl _)
  exact Prod.ext hok (by omega)

theorem Stores.shows_of_ok (hs : Stores v data r) (hok : r.2.1 = .ok) :
    Shows r.1 {v with link := push v.link (added v.endPending data), endPending := false} := by
  have hfit := hs.status_iff.mp hok
  rw [length_added] at hfit
  have hshows := hs.room (by omega)
  have hstored : stored data r.2 = packet data := by
    rw [stored, hs.result_of_ok hok, List.take_length]
    rfl
  have hpend : decide (r.2.1 ≠ .ok ∧ r.2.2 = data.length) = false :=
    decide_eq_false fun hne => hne.1 hok
  rw [hstored, hpend] at hshows
  exact hshows

end Stores

theorem le_taken_iff {data : List UInt8} {k : Nat} (hk : k ≤ data.length)
    (h : Shows e {v with link := push v.link (owed v.endPending ++ escape (data.take k)),
                         endPending := false})
    (hmax : k < data.length → v.capacity < v.link.queue.length + (owed v.endPending).length +
      (escape (data.take (k + 1))).length) (j : Nat) :
    j ≤ k ↔ j = 0 ∨ j ≤ data.length ∧
      v.link.queue.length + (owed v.endPending ++ escape (data.take j)).length ≤ v.capacity := by
  have hfit := length_le_capacity h
  simp only [push, List.length_append, ← Nat.add_assoc] at hfit
  rw [List.length_append, ← Nat.add_assoc]
  exact count_iff hk hfit hmax j

theorem stores_of_cut {data : List UInt8} {k : Nat}
    (hroom : v.link.queue.length + (owed v.endPending).length ≤ v.capacity) (hlt : k < data.length)
    (h : Shows e {v with link := push v.link (owed v.endPending ++ escape (data.take k)),
                         endPending := false})
    (hover : v.capacity < v.link.queue.length + (owed v.endPending).length +
      (escape (data.take (k + 1))).length) :
    Stores v data (e, .retryLater, k) := by
  have hall := escape_take_le data (show k + 1 ≤ data.length from hlt)
  rw [List.take_length] at hall
  have hstored : stored data (.retryLater, k) = escape (data.take k) := List.append_nil _
  have hpend : decide (WriteStatus.retryLater ≠ .ok ∧ k = data.length) = false :=
    decide_eq_false fun hne => hlt.ne hne.2
  refine ⟨fun _ => ?_, fun hfull => absurd hfull (Nat.not_lt.mpr hroom), ?_,
    le_taken_iff (Nat.le_of_lt hlt) h fun _ => hover⟩
  · rw [hstored, hpend]
    exact h
  · simp only [retryLater_ne_ok, false_iff, Nat.not_le, length_added]
    omega

theorem stores_pushEnd {data : List UInt8}
    (hroom : v.link.queue.length + (owed v.endPending).length ≤ v.capacity)
    (hm : v.maxSendChunk = 0)
    (h : Shows e {v with link := push v.link (owed v.endPending ++ escape data),
                         endPending := false}) :
    Stores v data ((pushEnd outputFn e).1, (pushEnd outputFn e).2, data.length) := by
  have hiff := le_taken_iff (Nat.le_refl data.length) (by rw [List.take_length]; exact h)
    fun hlt => absurd hlt (Nat.lt_irrefl _)
  have hadded := length_added v.endPending data
  have hnot := Nat.not_lt.mpr hroom
  obtain ⟨hend, hst, hs⟩ | ⟨hfull, hres⟩ := pushEnd_storing outputFn h hm
  · simp only [push, List.length_append] at hend
    rw [← push_append, List.append_assoc] at hs
    refine ⟨fun _ => ?_, fun hfull => absurd hfull hnot, iff_of_true hst (by omega), hiff⟩
    simp only [stored, hst, List.take_length]
    exact hs
  · simp only [push, List.length_append] at hfull
    rw [hres]
    refine ⟨fun _ => ?_, fun hfull => absurd hfull hnot,
      iff_of_false retryLater_ne_ok (by omega), hiff⟩
    simp only [stored, retryLater_ne_ok, List.take_length, ↓reduceIte, List.append_nil, ne_eq,
      not_false_eq_true, and_self, decide_true]
    exact shows_endPending h true

theorem stores_pushPacket (h : Shows e v) (hm : v.maxSendChunk = 0) (data : List UInt8) :
    Stores v data (pushPacket outputFn e data) := by
  have hflush := flush_storing outputFn h hm
  obtain ⟨hroom, hpst, hp⟩ | ⟨hfull, hpres⟩ := pushPending_storing outputFn h hm
  · obtain ⟨k, hk, hcount, hl, hend⟩ := pushLoop_storing outputFn hp hm data 0
    rw [← push_append] at hl
    simp only [push, List.length_append] at hend
    generalize hloop : pushLoop outputFn (pushPending outputFn e).1 data 0 = l at *
    obtain ⟨e', st, c⟩ := l
    obtain rfl : c = k := by simpa using hcount
    obtain ⟨rfl, rfl⟩ | ⟨rfl, hlt, hover⟩ := hend
    · have hpush : pushPacket outputFn e data =
          ((pushEnd outputFn e').1, (pushEnd outputFn e').2, data.length) := by
        simp [pushPacket, hflush, hpst, hloop]
      rw [List.take_length] at hl
      rw [hpush]
      exact stores_pushEnd outputFn hroom hm hl
    · have hpush : pushPacket outputFn e data = (e', .retryLater, c) := by
        simp [pushPacket, hflush, hpst, hloop]
      rw [hpush]
      exact stores_of_cut hroom hlt hl hover
  · have hpush : pushPacket outputFn e data = (e, .retryLater, 0) := by
      simp [pushPacket, hflush, hpres]
    rw [hpush]
    refine ⟨fun hroom => absurd hroom (Nat.not_le.mpr hfull), fun _ => h, ?_, ?_⟩
    · simp only [retryLater_ne_ok, false_iff, Nat.not_le, length_added]
      omega
    · intro k
      simp only [List.length_append]
      omega

theorem pushAll_storing (h : Shows e v) (hm : v.maxSendChunk = 0) (ps : List (List UInt8)) :
    (pushAll outputFn e ps).1.calls = v.link.calls ∧
      (v.endPending = false →
        ((pushAll outputFn e ps).2 = ps.map (fun p => (.ok, p.length)) ↔
          v.link.queue.length + (ps.flatMap packet).length ≤ v.capacity) ∧
        (v.link.queue.length + (ps.flatMap packet).length ≤ v.capacity →
          Shows (pushAll outputFn e ps).1 {v with link := push v.link (ps.flatMap packet)})) := by
  induction ps generalizing e v with
  | nil =>
    refine ⟨congrArg (fun v => v.link.calls) h.2, fun _ => ⟨?_, fun _ => ?_⟩⟩
    · exact iff_of_true rfl (length_le_capacity h)
    · rw [List.flatMap_nil, push_nil]
      exact h
  | cons p ps ih =>
    have hone := stores_pushPacket outputFn h hm p
    obtain ⟨xs, b, hkeep⟩ := hone.keeps
    refine ⟨(ih hkeep hm).1, fun hv => ?_⟩
    have hstatus := hone.status_iff
    have hshows := hone.shows_of_ok
    have hpacket : added v.endPending p = packet p := by rw [hv]; rfl
    rw [hpacket] at hstatus hshows
    rw [List.flatMap_cons, List.length_append, List.map_cons]
    by_cases hok : (pushPacket outputFn e p).2.1 = .ok
    · obtain ⟨hiff, hrest⟩ := (ih (hshows hok) hm).2 rfl
      simp only [push, List.length_append, Nat.add_assoc] at hiff hrest
      refine ⟨?_, fun hfit => ?_⟩
      · rw [← hiff, pushAll, hone.result_of_ok hok]
        exact List.cons_inj_right _
      · rw [push, ← List.append_assoc, hv]
        exact hrest hfit
    · have hover : ¬ v.link.queue.length + ((packet p).length + (ps.flatMap packet).length) ≤
          v.capacity := by
        rw [hstatus] at hok
        omega
      refine ⟨iff_of_false (fun heq => hok ?_) hover, fun hfit => absurd hfit hover⟩
      rw [pushAll] at heq
      exact congrArg Prod.fst (List.cons_eq_cons.mp heq).1

/-- With flushing turned off a push asks nothing of the output callback. It queues as
many bytes of its packet as there is room for and none of it before an `END` that is
still owed, and it succeeds exactly when all of them fit. -/
theorem push_stored (h : Reachable outputFn e) (hm : e.maxSendChunk = 0) (data : List UInt8) :
    (pushPacket outputFn e data).1.calls = e.calls ∧
      ((pushPacket outputFn e data).2.1 = .ok ↔
        queued e + (owed e.endPending ++ frame data).length ≤ capacity e) ∧
      (∀ k, k ≤ (pushPacket outputFn e data).2.2 ↔ k = 0 ∨ k ≤ data.length ∧
        queued e + (owed e.endPending ++ escape (data.take k)).length ≤ capacity e) ∧
      (queued e + (owed e.endPending).length ≤ capacity e →
        queue (pushPacket outputFn e data).1 =
            queue e ++ (owed e.endPending ++ stored data (pushPacket outputFn e data).2) ∧
          ((pushPacket outputFn e data).1.endPending = true ↔
            (pushPacket outputFn e data).2.1 ≠ .ok ∧
              (pushPacket outputFn e data).2.2 = data.length)) ∧
      (capacity e < queued e + (owed e.endPending).length →
        queue (pushPacket outputFn e data).1 = queue e ∧
          (pushPacket outputFn e data).1.endPending = e.endPending) := by
  have hv := shows_view (valid_of_reachable h)
  have hone := stores_pushPacket outputFn hv hm data
  obtain ⟨xs, b, hkeep⟩ := hone.keeps
  have hstatus := hone.status_iff
  have hcount := hone.le_consumed
  have hroom := hone.room
  have hfull := hone.full
  rw [length_queue hv] at hstatus hcount hroom hfull
  refine ⟨congrArg (fun v => v.link.calls) hkeep.2, ?_, hcount, fun hle => ?_, fun hlt => ?_⟩
  · rw [frame_eq]
    exact hstatus
  · have hview := (hroom hle).2
    refine ⟨congrArg (fun v => v.link.queue) hview, ?_⟩
    have hpend : (pushPacket outputFn e data).1.endPending =
        decide ((pushPacket outputFn e data).2.1 ≠ .ok ∧
          (pushPacket outputFn e data).2.2 = data.length) := congrArg View.endPending hview
    rw [hpend, decide_eq_true_iff]
  · have hview := (hfull hlt).2
    exact ⟨congrArg (fun v => v.link.queue) hview, congrArg View.endPending hview⟩

theorem push_stored_cut :
    (pushPacket accepting (new 3 0) [0x01, 0x02, END]).1.calls = [] ∧
      2 ≤ (pushPacket accepting (new 3 0) [0x01, 0x02, END]).2.2 ∧
      ¬ 3 ≤ (pushPacket accepting (new 3 0) [0x01, 0x02, END]).2.2 ∧
      queue (pushPacket accepting (new 3 0) [0x01, 0x02, END]).1 = [0x01, 0x02] ∧
      ¬ (pushPacket accepting (new 3 0) [0x01, 0x02, END]).1.endPending = true := by
  obtain ⟨hcalls, _, hcount, hroom, _⟩ :=
    push_stored accepting (Reachable.new 3 0) rfl [0x01, 0x02, END]
  obtain ⟨hqueue, hpend⟩ := hroom (by decide)
  have hres : (pushPacket accepting (new 3 0) [0x01, 0x02, END]).2 = (.retryLater, 2) := by decide
  refine ⟨hcalls, (hcount 2).mpr (by decide), ?_, ?_, ?_⟩
  · rw [hcount 3]
    decide
  · rw [hqueue, hres]
    decide
  · rw [hpend, hres]
    decide

/-- A batch is collected with flushing turned off and sent when it is turned on: all
packets are taken exactly when their frames fit, no byte goes out before that, and
then the frames do. -/
theorem batch_sent (h : Reachable outputFn e) (hm : e.maxSendChunk = 0)
    (hp : e.endPending = false) (ps : List (List UInt8)) :
    (pushAll outputFn e ps).1.calls = e.calls ∧
      ((pushAll outputFn e ps).2 = ps.map (fun p => (.ok, p.length)) ↔
        queued e + (ps.flatMap frame).length ≤ capacity e) ∧
      (queued e + (ps.flatMap frame).length ≤ capacity e →
        (∀ calls b, outputFn calls b = .ok) → ∀ m, 1 ≤ m →
          ∃ n, queued (flushes outputFn n (setMaxSendChunk (pushAll outputFn e ps).1 m)) = 0 ∧
            (flushes outputFn n (setMaxSendChunk (pushAll outputFn e ps).1 m)).calls =
              e.calls ++ (queue e ++ ps.flatMap frame).map (fun x => (x, .ok))) := by
  have hv := shows_view (valid_of_reachable h)
  obtain ⟨hcalls, hrest⟩ := pushAll_storing outputFn hv hm ps
  obtain ⟨hiff, hshows⟩ := hrest hp
  rw [length_queue hv, ← flatMap_frame] at hiff hshows
  refine ⟨hcalls, hiff, fun hfit hok m hm' => ?_⟩
  have hset := shows_setMaxSendChunk (hshows hfit) m
  obtain ⟨n, hn⟩ := exists_flushes_queued hok hset hm'
  refine ⟨n, hn, ?_⟩
  exact calls_of_drained (v := {view e with maxSendChunk := m}) (flushes_accepting hok hset n) hn

theorem batch_sent_two :
    ∃ n, (flushes accepting n (setMaxSendChunk
        (pushAll accepting (new 6 0) [[END], [0x01]]).1 4)).calls =
      [ESC, ESCEND, END, 0x01, END].map (fun x => (x, .ok)) := by
  obtain ⟨_, _, hsent⟩ := batch_sent accepting (Reachable.new 6 0) rfl rfl [[END], [0x01]]
  obtain ⟨n, _, hcalls⟩ := hsent (by decide) (fun _ _ => rfl) 4 (by decide)
  exact ⟨n, hcalls⟩

end SlipStream.EncoderBatch
