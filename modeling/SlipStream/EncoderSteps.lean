import SlipStream.EncoderQueue

namespace SlipStream.EncoderSteps

open Format Stuffing Channel StreamEncoder EncoderQueue

def owed (endPending : Bool) : List UInt8 := if endPending then [END] else []

/-- The encoder has gone on from `v` by taking in the bytes `xs`, and has lost
none of those before them. -/
def Adds (e : Encoder) (v : View) (xs : List UInt8) : Prop :=
  ∃ l, Shows e {v with link := l} ∧ log .ok l = log .ok v.link ++ xs

theorem adds_trans {e : Encoder} {v : View} {l : Link UInt8 WriteStatus} {xs ys : List UInt8}
    (hl : log .ok l = log .ok v.link ++ xs) (h : Adds e {v with link := l} ys) :
    Adds e v (xs ++ ys) := by
  obtain ⟨l', hs, hl'⟩ := h
  refine ⟨l', hs, ?_⟩
  rw [hl', hl, List.append_assoc]

variable (outputFn : OutputFn)

theorem adds_flush {e : Encoder} {v : View} (h : Shows e v) : Adds (flush outputFn e).1 v [] := by
  refine ⟨_, (shows_flush outputFn h).1, ?_⟩
  rw [drain_log, List.append_nil]

theorem adds_ensureFree {e : Encoder} {v : View} (h : Shows e v) (n : Nat) :
    ∃ l, Shows (ensureFree outputFn e n).1 {v with link := l} ∧ log .ok l = log .ok v.link ∧
      ((ensureFree outputFn e n).2 = .ok → l.queue.length + n ≤ v.capacity) := by
  obtain hfull | hroom := Nat.lt_or_ge v.capacity (v.link.queue.length + n)
  · obtain ⟨hs, hok⟩ := ensureFree_full outputFn h hfull
    exact ⟨_, hs, drain_log outputFn .ok _ _, fun hst => (hok.mp hst).2⟩
  · rw [ensureFree_room outputFn h hroom]
    exact ⟨v.link, h, rfl, fun _ => hroom⟩

theorem encodeOne_failed {e : Encoder} {c : UInt8} {cs : List UInt8}
    (hst : (ensureFree outputFn e (stuffOne slip c).length).2 ≠ .ok) :
    encodeOne outputFn e (c :: cs) =
      ((ensureFree outputFn e (stuffOne slip c).length).1,
        (ensureFree outputFn e (stuffOne slip c).length).2, 0) := by
  by_cases hs : c = END
  · subst c
    exact if_pos hst
  · by_cases he : c = ESC
    · subst c
      exact if_pos hst
    · rw [escapeOne_other hs he] at hst ⊢
      rw [encodeOne, if_neg hs, if_neg he]
      exact if_pos hst

theorem shows_encodeEscaped {e : Encoder} {v : View} {mark : UInt8}
    (hst : (ensureFree outputFn e 2).2 = .ok) (h : Shows (ensureFree outputFn e 2).1 v)
    (hroom : v.link.queue.length + 2 ≤ v.capacity) :
    Shows (encodeEscaped outputFn e mark).1 {v with link := push v.link [ESC, mark]} ∧
      (encodeEscaped outputFn e mark).2 = (.ok, 1) := by
  obtain ⟨hs1, hq1⟩ := shows_queueByte h ESC (by omega)
  obtain ⟨hs2, hq2⟩ := shows_queueByte hs1 mark (by simp [push]; omega)
  have he : encodeEscaped outputFn e mark =
      ((queueByte (queueByte (ensureFree outputFn e 2).1 ESC).1 mark).1, .ok, 1) := by
    simp [encodeEscaped, hst, hq1, hq2]
  rw [he]
  refine ⟨?_, rfl⟩
  simpa only [← push_append, List.cons_append, List.nil_append] using hs2

/-- Once there is room for the whole of it, the escaped form of a byte is
queued whole. -/
theorem shows_encodeOne {e : Encoder} {v : View} {c : UInt8} (cs : List UInt8)
    (hst : (ensureFree outputFn e (stuffOne slip c).length).2 = .ok)
    (h : Shows (ensureFree outputFn e (stuffOne slip c).length).1 v)
    (hroom : v.link.queue.length + (stuffOne slip c).length ≤ v.capacity) :
    Shows (encodeOne outputFn e (c :: cs)).1 {v with link := push v.link (stuffOne slip c)} ∧
      (encodeOne outputFn e (c :: cs)).2 = (.ok, 1) := by
  by_cases hs : c = END
  · subst c
    exact shows_encodeEscaped outputFn hst h hroom
  · by_cases he : c = ESC
    · subst c
      exact shows_encodeEscaped outputFn hst h hroom
    · rw [escapeOne_other hs he] at hst h hroom ⊢
      obtain ⟨hs1, hq1⟩ := shows_queueByte h c hroom
      have hc : encodeOne outputFn e (c :: cs) =
          ((queueByte (ensureFree outputFn e 1).1 c).1, .ok, 1) := by
        simp only [List.length_singleton] at hst hq1
        simp [encodeOne, hs, he, encodePlain, hst, hq1]
      rw [hc]
      exact ⟨hs1, rfl⟩

/-- A byte of the payload is taken in whole, with the second byte of its
escape, or not at all. -/
theorem adds_encodeOne {e : Encoder} {v : View} (h : Shows e v) (c : UInt8) (cs : List UInt8) :
    (encodeOne outputFn e (c :: cs)).2.1 = .ok ∧ (encodeOne outputFn e (c :: cs)).2.2 = 1 ∧
        Adds (encodeOne outputFn e (c :: cs)).1 v (stuffOne slip c) ∨
      (encodeOne outputFn e (c :: cs)).2.1 ≠ .ok ∧
        Adds (encodeOne outputFn e (c :: cs)).1 v [] := by
  obtain ⟨l, hs, hl, hroom⟩ := adds_ensureFree outputFn h (stuffOne slip c).length
  by_cases hst : (ensureFree outputFn e (stuffOne slip c).length).2 = .ok
  · left
    obtain ⟨hs1, hr⟩ := shows_encodeOne outputFn cs hst hs (hroom hst)
    rw [hr]
    refine ⟨rfl, rfl, _, hs1, ?_⟩
    rw [log_push, hl]
  · right
    rw [encodeOne_failed outputFn hst]
    exact ⟨hst, l, hs, by rw [hl, List.append_nil]⟩

section PushLoop

variable {outputFn} {e : Encoder} {c : UInt8} {cs : List UInt8} (k : Nat)

theorem pushLoop_failed (hst : (encodeOne outputFn e (c :: cs)).2.1 ≠ .ok) :
    pushLoop outputFn e (c :: cs) k =
      ((encodeOne outputFn e (c :: cs)).1, (encodeOne outputFn e (c :: cs)).2.1, k) := by
  rw [pushLoop]
  exact if_pos hst

theorem pushLoop_refused (hst : (encodeOne outputFn e (c :: cs)).2.1 = .ok)
    (hfl : (flush outputFn (encodeOne outputFn e (c :: cs)).1).2 ≠ .ok) :
    pushLoop outputFn e (c :: cs) k =
      ((flush outputFn (encodeOne outputFn e (c :: cs)).1).1,
        (flush outputFn (encodeOne outputFn e (c :: cs)).1).2,
        k + (encodeOne outputFn e (c :: cs)).2.2) := by
  rw [pushLoop]
  simp only [hst, hfl, ne_eq, not_true, not_false_eq_true, ↓reduceIte]

theorem pushLoop_next (hst : (encodeOne outputFn e (c :: cs)).2.1 = .ok)
    (hfl : (flush outputFn (encodeOne outputFn e (c :: cs)).1).2 = .ok) :
    pushLoop outputFn e (c :: cs) k =
      pushLoop outputFn (flush outputFn (encodeOne outputFn e (c :: cs)).1).1 cs
        (k + (encodeOne outputFn e (c :: cs)).2.2) := by
  rw [pushLoop]
  simp only [hst, hfl, ne_eq, not_true, ↓reduceIte]

theorem pushLoop_ok_iff :
    (pushLoop outputFn e (c :: cs) k).2.1 = .ok ↔
      ((encodeOne outputFn e (c :: cs)).2.1 = .ok ∧
        (flush outputFn (encodeOne outputFn e (c :: cs)).1).2 = .ok) ∧
      (pushLoop outputFn (flush outputFn (encodeOne outputFn e (c :: cs)).1).1 cs
        (k + (encodeOne outputFn e (c :: cs)).2.2)).2.1 = .ok := by
  by_cases hst : (encodeOne outputFn e (c :: cs)).2.1 = .ok
  · by_cases hfl : (flush outputFn (encodeOne outputFn e (c :: cs)).1).2 = .ok
    · rw [pushLoop_next k hst hfl]
      exact (and_iff_right ⟨hst, hfl⟩).symm
    · rw [pushLoop_refused k hst hfl]
      exact iff_of_false hfl fun h => hfl h.1.2
  · rw [pushLoop_failed k hst]
    exact iff_of_false hst fun h => hst h.1.1

end PushLoop

/-- The payload loop takes in the escaped form of the bytes it reports, and
nothing else. -/
theorem adds_pushLoop {e : Encoder} {v : View} (h : Shows e v) (data : List UInt8) (k : Nat) :
    ∃ c, c ≤ data.length ∧ (pushLoop outputFn e data k).2.2 = k + c ∧
      Adds (pushLoop outputFn e data k).1 v (escape (data.take c)) ∧
      ((pushLoop outputFn e data k).2.1 = .ok → c = data.length) := by
  induction data generalizing e v k with
  | nil =>
    refine ⟨0, Nat.le_refl _, rfl, ⟨v.link, h, ?_⟩, fun _ => rfl⟩
    rw [List.take_nil, escape_nil, List.append_nil]
  | cons c cs ih =>
    obtain ⟨hst, hone, l, hs, hl⟩ | ⟨hst, hadd⟩ := adds_encodeOne outputFn h c cs
    · obtain ⟨l', hs', hl'⟩ := adds_flush outputFn hs
      rw [List.append_nil] at hl'
      by_cases hok : (flush outputFn (encodeOne outputFn e (c :: cs)).1).2 = .ok
      · obtain ⟨n, hn, hcount, hadd, hdone⟩ := ih hs' (k + 1)
        rw [pushLoop_next k hst hok, hone]
        refine ⟨n + 1, Nat.succ_le_succ hn, ?_, ?_, ?_⟩
        · rw [hcount]
          omega
        · rw [List.take_succ_cons, escape_cons]
          exact adds_trans (hl'.trans hl) hadd
        · intro h
          rw [hdone h, List.length_cons]
      · rw [pushLoop_refused k hst hok, hone]
        refine ⟨1, by simp, rfl, ⟨l', hs', ?_⟩, fun h => absurd h hok⟩
        rw [hl', hl, List.take_succ_cons, List.take_zero, escape_cons, escape_nil, List.append_nil]
    · rw [pushLoop_failed k hst]
      exact ⟨0, Nat.zero_le _, rfl, hadd, fun h => absurd h hst⟩

theorem adds_pushPending {e : Encoder} {v : View} (h : Shows e v) :
    ∃ l b, Shows (pushPending outputFn e).1 {v with link := l, endPending := b} ∧
      log .ok l ++ owed b = log .ok v.link ++ owed v.endPending ∧
      ((pushPending outputFn e).2 = .ok → b = false) := by
  have hp : e.endPending = v.endPending := congrArg View.endPending h.2
  cases hv : v.endPending with
  | false =>
    have he : pushPending outputFn e = (e, .ok) := by simp [pushPending, hp, hv]
    rw [he, ← hv]
    exact ⟨v.link, v.endPending, h, rfl, fun _ => rfl⟩
  | true =>
    rw [hv] at hp
    obtain ⟨l, hs, hl, hroom⟩ := adds_ensureFree outputFn h 1
    by_cases hst : (ensureFree outputFn e 1).2 = .ok
    · obtain ⟨hq, _⟩ := shows_queueByte hs END (hroom hst)
      obtain ⟨l', hs', hl'⟩ := adds_flush outputFn (shows_endPending hq false)
      refine ⟨l', false, ?_, ?_, fun _ => rfl⟩
      · simpa [pushPending, hp, hst] using hs'
      · rw [hl', log_push, hl]
        simp [owed]
    · refine ⟨l, true, ?_, ?_, ?_⟩
      · simpa [pushPending, hp, hst, ← hv] using hs
      · rw [hl]
      · intro hok
        simp [pushPending, hp, hst] at hok

theorem adds_pushEnd {e : Encoder} {v : View} (h : Shows e v) (hv : v.endPending = false) :
    ∃ l b t, Shows (pushEnd outputFn e).1 {v with link := l, endPending := b} ∧
      log .ok l ++ owed b = log .ok v.link ++ t ∧
      (t = [] ∧ (ensureFree outputFn e 1).2 = .error ∨ t = [END]) ∧
      ((pushEnd outputFn e).2 = .ok → b = false ∧ t = [END]) := by
  obtain ⟨l, hs, hl, hroom⟩ := adds_ensureFree outputFn h 1
  cases hst : (ensureFree outputFn e 1).2 with
  | ok =>
    obtain ⟨hq, _⟩ := shows_queueByte hs END (hroom hst)
    obtain ⟨l', hs', hl'⟩ := adds_flush outputFn hq
    refine ⟨l', false, [END], ?_, ?_, Or.inr rfl, fun _ => ⟨rfl, rfl⟩⟩
    · simpa [pushEnd, hst, ← hv] using hs'
    · rw [hl', log_push, hl]
      simp [owed]
  | retryLater =>
    refine ⟨l, true, [END], ?_, ?_, Or.inr rfl, ?_⟩
    · simpa [pushEnd, hst] using shows_endPending hs true
    · rw [hl]
      simp [owed]
    · simp [pushEnd, hst]
  | error =>
    refine ⟨l, false, [], ?_, ?_, Or.inl ⟨rfl, rfl⟩, ?_⟩
    · simpa [pushEnd, hst, ← hv] using hs
    · rw [hl]
      simp [owed]
    · simp [pushEnd, hst]

/-- A call of `pushPacket` takes in the escaped form of the bytes it reports,
and the `END` of the packet only after the last of them. -/
theorem adds_pushPacket {e : Encoder} {v : View} (h : Shows e v) (data : List UInt8) :
    ∃ l b t, Shows (pushPacket outputFn e data).1 {v with link := l, endPending := b} ∧
      (pushPacket outputFn e data).2.2 ≤ data.length ∧ (t = [] ∨ t = [END]) ∧
      log .ok l ++ owed b = log .ok v.link ++ owed v.endPending ++
        escape (data.take (pushPacket outputFn e data).2.2) ++ t ∧
      (t = [END] → (pushPacket outputFn e data).2.2 = data.length) ∧
      ((pushPacket outputFn e data).2.1 = .ok →
        (pushPacket outputFn e data).2.2 = data.length ∧ t = [END] ∧ b = false) := by
  obtain ⟨l1, hs1, hl1⟩ := adds_flush outputFn h
  rw [List.append_nil] at hl1
  by_cases hst1 : (flush outputFn e).2 = .ok
  swap
  · have hp : pushPacket outputFn e data = ((flush outputFn e).1, (flush outputFn e).2, 0) := by
      simp [pushPacket, hst1]
    rw [hp]
    exact ⟨l1, v.endPending, [], hs1, Nat.zero_le _, Or.inl rfl, by simp [hl1], by simp,
      fun h => absurd h hst1⟩
  obtain ⟨l2, b2, hs2, hl2, hb2⟩ := adds_pushPending outputFn hs1
  simp only [hl1] at hl2
  by_cases hst2 : (pushPending outputFn (flush outputFn e).1).2 = .ok
  swap
  · have hp : pushPacket outputFn e data = ((pushPending outputFn (flush outputFn e).1).1,
        (pushPending outputFn (flush outputFn e).1).2, 0) := by
      simp [pushPacket, hst1, hst2]
    rw [hp]
    exact ⟨l2, b2, [], hs2, Nat.zero_le _, Or.inl rfl, by simp [hl2], by simp,
      fun h => absurd h hst2⟩
  obtain rfl := hb2 hst2
  have hl2' : log .ok l2 = log .ok v.link ++ owed v.endPending := by simpa [owed] using hl2
  obtain ⟨c, hc, hcount, ⟨l3, hs3, hl3⟩, hdone⟩ := adds_pushLoop outputFn hs2 data 0
  rw [Nat.zero_add] at hcount
  simp only [hl2'] at hl3
  generalize hloop : pushLoop outputFn (pushPending outputFn (flush outputFn e).1).1 data 0 = r
    at hs3 hcount hdone
  by_cases hst3 : r.2.1 = .ok
  swap
  · have hp : pushPacket outputFn e data = r := by simp [pushPacket, hst1, hst2, hloop, hst3]
    rw [hp, hcount]
    exact ⟨l3, false, [], hs3, hc, Or.inl rfl, by simp [hl3, owed], by simp,
      fun h => absurd h hst3⟩
  obtain rfl := hdone hst3
  obtain ⟨l4, b4, t, hs4, hl4, ht, hok⟩ := adds_pushEnd outputFn hs3 rfl
  have hp : pushPacket outputFn e data =
      ((pushEnd outputFn r.1).1, (pushEnd outputFn r.1).2, data.length) := by
    simp [pushPacket, hst1, hst2, hloop, hst3, hcount]
  rw [hp]
  simp only [hl3] at hl4
  exact ⟨l4, b4, t, hs4, Nat.le_refl _, ht.imp_left And.left, hl4, fun _ => rfl,
    fun h => ⟨rfl, (hok h).2, (hok h).1⟩⟩

end SlipStream.EncoderSteps
