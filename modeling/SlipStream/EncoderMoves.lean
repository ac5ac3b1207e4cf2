import SlipStream.EncoderPacing

namespace SlipStream.EncoderMoves

open Format Stuffing Channel StreamEncoder EncoderQueue EncoderSteps EncoderPacing

/-- What a push does to its queue: a flush, or taking in `w` bytes for which
`ensureFree` has made room. -/
inductive Move where
  | flush
  | take (w : Nat)

def gain : Move → Nat
  | .flush => 0
  | .take w => w

def gains : List Move → Nat
  | [] => 0
  | a :: ms => gain a + gains ms

section Counts

variable (cap m : Nat)

/-- The bytes a move offers to the output callback while `n` are waiting. -/
def cost (n : Nat) : Move → Nat
  | .flush => min m n
  | .take w => forced cap m n w

def after (n : Nat) (a : Move) : Nat := n - cost cap m n a + gain a

def left (n : Nat) (ms : List Move) : Nat := ms.foldl (after cap m) n

def sent : Nat → List Move → Nat
  | _, [] => 0
  | n, a :: ms => cost cap m n a + sent (after cap m n a) ms

/-- No move overfills the queue. -/
def Roomy : Nat → List Move → Prop
  | _, [] => True
  | n, a :: ms => after cap m n a ≤ cap ∧ Roomy (after cap m n a) ms

instance decidableRoomy : ∀ n ms, Decidable (Roomy cap m n ms)
  | _, [] => inferInstanceAs (Decidable True)
  | n, a :: ms =>
    haveI := decidableRoomy (after cap m n a) ms
    inferInstanceAs (Decidable (_ ∧ _))

/-- All moves succeed if the callback takes the next `t` bytes and no more. -/
def Goes (t n : Nat) (ms : List Move) : Prop := Roomy cap m n ms ∧ sent cap m n ms ≤ t

instance (t n : Nat) (ms : List Move) : Decidable (Goes cap m t n ms) :=
  inferInstanceAs (Decidable (_ ∧ _))

variable {cap m}

theorem cost_le (n : Nat) (a : Move) : cost cap m n a ≤ n := by
  cases a with
  | flush => exact Nat.min_le_right _ _
  | take w => exact forced_le cap m n w

theorem gains_append (ms ms' : List Move) : gains (ms ++ ms') = gains ms + gains ms' := by
  induction ms with
  | nil => exact (Nat.zero_add _).symm
  | cons a ms ih => rw [List.cons_append, gains, gains, ih, Nat.add_assoc]

theorem sent_append (n : Nat) (ms ms' : List Move) :
    sent cap m n (ms ++ ms') = sent cap m n ms + sent cap m (left cap m n ms) ms' := by
  induction ms generalizing n with
  | nil => simp [sent, left]
  | cons a ms ih =>
    simp only [List.cons_append, sent, ih, left, List.foldl_cons]
    omega

theorem roomy_append (n : Nat) (ms ms' : List Move) :
    Roomy cap m n (ms ++ ms') ↔ Roomy cap m n ms ∧ Roomy cap m (left cap m n ms) ms' := by
  induction ms generalizing n with
  | nil => simp [Roomy, left]
  | cons a ms ih => simp only [List.cons_append, Roomy, ih, left, List.foldl_cons, and_assoc]

theorem goes_append (t n : Nat) (ms ms' : List Move) :
    Goes cap m t n (ms ++ ms') ↔
      Goes cap m t n ms ∧ Goes cap m (t - sent cap m n ms) (left cap m n ms) ms' := by
  simp only [Goes, roomy_append, sent_append]
  constructor
  · rintro ⟨⟨h₁, h₂⟩, hs⟩
    exact ⟨⟨h₁, by omega⟩, h₂, by omega⟩
  · rintro ⟨⟨h₁, hs⟩, h₂, hs'⟩
    exact ⟨⟨h₁, h₂⟩, by omega⟩

/-- What has come in is either still waiting or has been offered. -/
theorem left_add_sent (n : Nat) (ms : List Move) :
    left cap m n ms + sent cap m n ms = n + gains ms := by
  induction ms generalizing n with
  | nil => simp [left, sent, gains]
  | cons a ms ih =>
    have h := ih (after cap m n a)
    have hc : cost cap m n a ≤ n := cost_le n a
    simp only [left, List.foldl_cons, sent, gains] at h ⊢
    simp only [after] at h ⊢
    omega

end Counts

variable (outputFn : OutputFn) {e : Encoder} {v : View}

/-- From `v`, the moves `ms` take the encoder to `e` and bring in `xs`. They
succeed when each finds room and the callback takes all they offer. -/
structure Follows (v : View) (b : Bool) (xs : List UInt8) (ms : List Move) (e : Encoder)
    (success : Prop) : Prop where
  gains_eq : gains ms = xs.length
  success_iff : success ↔ Goes v.capacity v.maxSendChunk
    (credit outputFn .ok (push v.link xs)) v.link.queue.length ms
  shows : success → Shows e {v with
    link := advance .ok (push v.link xs) (sent v.capacity v.maxSendChunk v.link.queue.length ms)
    endPending := b}

theorem length_advance_push (l : Link UInt8 WriteStatus) (xs : List UInt8) (cap m : Nat)
    {ms : List Move} (hg : gains ms = xs.length) :
    (advance .ok (push l xs) (sent cap m l.queue.length ms)).queue.length =
      left cap m l.queue.length ms := by
  have h : left cap m l.queue.length ms + sent cap m l.queue.length ms =
      l.queue.length + gains ms := left_add_sent l.queue.length ms
  rw [advance_length, push, List.length_append]
  omega

theorem sent_le_length (l : Link UInt8 WriteStatus) {xs : List UInt8} (cap m : Nat)
    {ms : List Move} (hg : gains ms = xs.length) :
    sent cap m l.queue.length ms ≤ (push l xs).queue.length := by
  have h : left cap m l.queue.length ms + sent cap m l.queue.length ms =
      l.queue.length + gains ms := left_add_sent l.queue.length ms
  rw [push, List.length_append]
  omega

variable {outputFn}

/-- What comes in behind `xs` does not matter for the moves that bring in `xs`. -/
theorem Follows.success_iff_append {b : Bool} {xs : List UInt8} {ms : List Move} {success : Prop}
    (h : Follows outputFn v b xs ms e success) (ys : List UInt8) :
    success ↔ Goes v.capacity v.maxSendChunk (credit outputFn .ok (push v.link (xs ++ ys)))
      v.link.queue.length ms := by
  rw [h.success_iff, push_append]
  exact and_congr_right fun _ => (le_credit_push outputFn .ok (push v.link xs) ys
    (sent_le_length v.link v.capacity v.maxSendChunk h.gains_eq)).symm

theorem Follows.congr {b : Bool} {xs : List UInt8} {ms : List Move} {p q : Prop} {e' : Encoder}
    (h : Follows outputFn v b xs ms e p) (hpq : q ↔ p) (he : q → e' = e) :
    Follows outputFn v b xs ms e' q := by
  refine ⟨h.gains_eq, hpq.trans h.success_iff, ?_⟩
  intro hq
  rw [he hq]
  exact h.shows (hpq.mp hq)

variable (outputFn)

theorem follows_trans {b b' : Bool} {xs ys : List UInt8} {ms ms' : List Move} {e₁ e₂ : Encoder}
    {p q : Prop} (h₁ : Follows outputFn v b xs ms e₁ p)
    (h₂ : p → Follows outputFn {v with
      link := advance .ok (push v.link xs) (sent v.capacity v.maxSendChunk v.link.queue.length ms)
      endPending := b} b' ys ms' e₂ q) (hg' : gains ms' = ys.length) :
    Follows outputFn v b' (xs ++ ys) (ms ++ ms') e₂ (p ∧ q) := by
  have hg := h₁.gains_eq
  have hle := sent_le_length v.link v.capacity v.maxSendChunk hg
  refine ⟨by rw [gains_append, hg, hg', List.length_append], ?_, ?_⟩
  · rw [goes_append, ← h₁.success_iff_append ys]
    refine and_congr_right fun hp => ?_
    have hsent := ((h₁.success_iff_append ys).mp hp).2
    have h := (h₂ hp).success_iff
    simp only [length_advance_push v.link xs _ _ hg, advance_push .ok _ ys hle, ← push_append,
      credit_advance outputFn .ok _ hsent] at h
    exact h
  · rintro ⟨hp, hq⟩
    have h := (h₂ hp).shows hq
    simp only [length_advance_push v.link xs _ _ hg, advance_push .ok _ ys hle, advance_advance,
      ← push_append] at h
    rw [sent_append]
    exact h

theorem follows_flush (h : Shows e v) :
    Follows outputFn v v.endPending [] [.flush] (flush outputFn e).1
      ((flush outputFn e).2 = .ok) := by
  obtain ⟨hs, hst⟩ := shows_flush outputFn h
  have hroom : Roomy v.capacity v.maxSendChunk v.link.queue.length [.flush] :=
    ⟨Nat.le_trans (Nat.sub_le _ _) (length_le_capacity h), trivial⟩
  refine ⟨rfl, ?_, ?_⟩
  · rw [hst, drain_ok_iff, push_nil]
    exact (and_iff_right hroom).symm
  · intro hok
    rw [hst] at hok
    rw [drain_of_ok outputFn .ok hok] at hs
    rw [push_nil]
    change Shows _ {v with link := advance .ok v.link (min v.maxSendChunk v.link.queue.length)}
    rw [advance_min]
    exact hs

/-- `ensureFree` succeeds when its flush, if it needs one, is not refused and
leaves enough room. -/
theorem ensureFree_iff (h : Shows e v) (w : Nat) :
    ((ensureFree outputFn e w).2 = .ok ↔
      v.link.queue.length - forced v.capacity v.maxSendChunk v.link.queue.length w + w ≤
        v.capacity ∧
      forced v.capacity v.maxSendChunk v.link.queue.length w ≤ credit outputFn .ok v.link) ∧
    ((ensureFree outputFn e w).2 = .ok → Shows (ensureFree outputFn e w).1 {v with
      link := advance .ok v.link (forced v.capacity v.maxSendChunk v.link.queue.length w)}) := by
  simp only [forced]
  split_ifs with hroom
  · rw [ensureFree_room outputFn h hroom, advance_zero]
    simp [h, hroom]
  · obtain ⟨hs, hok⟩ := ensureFree_full outputFn h (Nat.lt_of_not_le hroom)
    refine ⟨?_, ?_⟩
    · rw [hok, ← drain_ok_iff, and_comm]
      refine and_congr_left fun hd => ?_
      rw [drain_of_ok outputFn .ok hd, advance_length]
      omega
    · intro hst
      rw [drain_of_ok outputFn .ok (hok.mp hst).1] at hs
      rw [advance_min]
      exact hs

/-- A step that makes room for `xs` and then queues it. -/
theorem follows_take (h : Shows e v) {xs : List UInt8} {e' : Encoder} {success : Prop}
    (hiff : success ↔ (ensureFree outputFn e xs.length).2 = .ok)
    (hqueue : ∀ l, success → Shows (ensureFree outputFn e xs.length).1 {v with link := l} →
      l.queue.length + xs.length ≤ v.capacity → Shows e' {v with link := push l xs}) :
    Follows outputFn v v.endPending xs [.take xs.length] e' success := by
  obtain ⟨hok, hs⟩ := ensureFree_iff outputFn h xs.length
  have hf := forced_le v.capacity v.maxSendChunk v.link.queue.length xs.length
  have hsent : sent v.capacity v.maxSendChunk v.link.queue.length [.take xs.length] =
      forced v.capacity v.maxSendChunk v.link.queue.length xs.length := rfl
  have hroomy : Roomy v.capacity v.maxSendChunk v.link.queue.length [.take xs.length] ↔
      v.link.queue.length - forced v.capacity v.maxSendChunk v.link.queue.length xs.length +
        xs.length ≤ v.capacity := iff_of_eq (and_true _)
  refine ⟨by simp [gains, gain], ?_, ?_⟩
  · rw [hiff, hok, Goes, hroomy, hsent, le_credit_push outputFn .ok v.link xs hf]
  · intro hp
    have hfree := hiff.mp hp
    rw [hsent, ← advance_push .ok v.link xs hf]
    apply hqueue _ hp (hs hfree)
    rw [advance_length]
    exact (hok.mp hfree).1

theorem follows_encodeOne (h : Shows e v) (c : UInt8) (cs : List UInt8) :
    Follows outputFn v v.endPending (stuffOne slip c) [.take (stuffOne slip c).length]
      (encodeOne outputFn e (c :: cs)).1 ((encodeOne outputFn e (c :: cs)).2.1 = .ok) := by
  have hiff : (encodeOne outputFn e (c :: cs)).2.1 = .ok ↔
      (ensureFree outputFn e (stuffOne slip c).length).2 = .ok := by
    obtain ⟨l, hs, _, hroom⟩ := adds_ensureFree outputFn h (stuffOne slip c).length
    by_cases hst : (ensureFree outputFn e (stuffOne slip c).length).2 = .ok
    · rw [(shows_encodeOne outputFn cs hst hs (hroom hst)).2]
      exact iff_of_true rfl hst
    · rw [encodeOne_failed outputFn hst]
  apply follows_take outputFn h hiff
  intro l hok hs hroom
  exact (shows_encodeOne outputFn cs (hiff.mp hok) hs hroom).1

/-- Each unit that comes in is followed by a flush. -/
def rounds (ws : List Nat) : List Move := ws.flatMap fun w => [.take w, .flush]

def widths (data : List UInt8) : List Nat := data.map fun c => (stuffOne slip c).length

theorem rounds_append (ws ws' : List Nat) : rounds (ws ++ ws') = rounds ws ++ rounds ws' :=
  List.flatMap_append

theorem gains_rounds_cons (w : Nat) (ws : List Nat) :
    gains (rounds (w :: ws)) = w + gains (rounds ws) := by
  have h : gains (rounds (w :: ws)) = w + (0 + gains (rounds ws)) := rfl
  rw [h, Nat.zero_add]

theorem gains_widths (data : List UInt8) : gains (rounds (widths data)) = (escape data).length := by
  induction data with
  | nil => rfl
  | cons c cs ih =>
    rw [escape_cons, List.length_append, ← ih]
    exact gains_rounds_cons _ _

theorem follows_nil (h : Shows e v) : Follows outputFn v v.endPending [] [] e True := by
  refine ⟨rfl, iff_of_true trivial ⟨trivial, Nat.zero_le _⟩, ?_⟩
  intro _
  simp only [sent, advance_zero, push_nil]
  exact h

variable {outputFn}

/-- A flush at the end of a step. -/
theorem Follows.flush {b : Bool} {xs : List UInt8} {ms : List Move} {p : Prop}
    (h : Follows outputFn v b xs ms e p) :
    Follows outputFn v b xs (ms ++ [.flush]) (StreamEncoder.flush outputFn e).1
      (p ∧ (StreamEncoder.flush outputFn e).2 = .ok) := by
  have ht := follows_trans outputFn h (fun hp => follows_flush outputFn (h.shows hp)) rfl
  rwa [List.append_nil] at ht

theorem Follows.endPending {b : Bool} {xs : List UInt8} {ms : List Move} {p : Prop}
    (h : Follows outputFn v b xs ms e p) (b' : Bool) :
    Follows outputFn v b' xs ms {e with endPending := b'} p :=
  ⟨h.gains_eq, h.success_iff, fun hp => shows_endPending (h.shows hp) b'⟩

variable (outputFn)

/-- The payload loop: one round for each byte. -/
theorem follows_pushLoop (h : Shows e v) (data : List UInt8) (k : Nat) :
    Follows outputFn v v.endPending (escape data) (rounds (widths data))
      (pushLoop outputFn e data k).1 ((pushLoop outputFn e data k).2.1 = .ok) := by
  induction data generalizing e v k with
  | nil => exact (follows_nil outputFn h).congr (iff_of_true rfl trivial) fun _ => rfl
  | cons c cs ih =>
    have hround := (follows_encodeOne outputFn h c cs).flush
    have hall := follows_trans outputFn hround
      (fun hp => ih (hround.shows hp) (k + (encodeOne outputFn e (c :: cs)).2.2))
      (gains_widths cs)
    refine hall.congr (pushLoop_ok_iff k) ?_
    intro hok
    obtain ⟨⟨hst, hfl⟩, _⟩ := (pushLoop_ok_iff k).mp hok
    rw [pushLoop_next k hst hfl]

/-- The `END` a call before could not queue, as a round of its own. -/
def pendingWidths (endPending : Bool) : List Nat := if endPending then [1] else []

theorem gains_pendingWidths (b : Bool) : gains (rounds (pendingWidths b)) = (owed b).length := by
  cases b <;> rfl

theorem follows_queueEnd (h : Shows e v) :
    Follows outputFn v v.endPending [END] [.take 1] (queueByte (ensureFree outputFn e 1).1 END).1
      ((ensureFree outputFn e 1).2 = .ok) := by
  apply follows_take outputFn h Iff.rfl
  intro l _ hs hroom
  exact (shows_queueByte hs END hroom).1

theorem follows_pushPending (h : Shows e v) :
    Follows outputFn v false (owed v.endPending) (rounds (pendingWidths v.endPending))
      (pushPending outputFn e).1 ((pushPending outputFn e).2 = .ok) := by
  have hp : e.endPending = v.endPending := congrArg View.endPending h.2
  cases hv : v.endPending with
  | false =>
    rw [hv] at hp
    have hnil := follows_nil outputFn h
    rw [hv] at hnil
    refine hnil.congr ?_ ?_
    · simp [pushPending, hp]
    · simp [pushPending, hp]
  | true =>
    rw [hv] at hp
    have hend := ((follows_queueEnd outputFn h).endPending false).flush
    refine hend.congr ?_ ?_
    · by_cases hst : (ensureFree outputFn e 1).2 = .ok
      · simp [pushPending, hp, hst]
      · simp [pushPending, hp, hst]
    · intro hok
      by_cases hst : (ensureFree outputFn e 1).2 = .ok
      · simp [pushPending, hp, hst]
      · simp [pushPending, hp, hst] at hok

theorem follows_pushEnd (h : Shows e v) :
    Follows outputFn v v.endPending [END] (rounds [1]) (pushEnd outputFn e).1
      ((pushEnd outputFn e).2 = .ok) := by
  have hend := (follows_queueEnd outputFn h).flush
  refine hend.congr ?_ ?_
  · by_cases hst : (ensureFree outputFn e 1).2 = .ok
    · simp [pushEnd, hst]
    · simp [pushEnd, hst]
  · intro hok
    by_cases hst : (ensureFree outputFn e 1).2 = .ok
    · simp [pushEnd, hst]
    · simp [pushEnd, hst] at hok

/-- A call of `pushPacket`: a flush, then a round for each unit. -/
def moves (ws : List Nat) : List Move := .flush :: rounds ws

/-- The call up to the point where the last unit is in and not yet flushed. -/
def reaching (ws : List Nat) : List Move := (moves ws).dropLast

def callWidths (endPending : Bool) (data : List UInt8) : List Nat :=
  pendingWidths endPending ++ widths data ++ [1]

theorem moves_append (ws ws' : List Nat) : moves (ws ++ ws') = moves ws ++ rounds ws' := by
  rw [moves, rounds_append]
  rfl

theorem reaching_append (ws : List Nat) (w : Nat) :
    reaching (ws ++ [w]) = moves ws ++ [.take w] := by
  have h : moves ws ++ rounds [w] = moves ws ++ [.take w] ++ [.flush] := by
    rw [List.append_assoc]
    rfl
  rw [reaching, moves_append, h, List.dropLast_concat]

theorem widths_append (p q : List UInt8) : widths (p ++ q) = widths p ++ widths q :=
  List.map_append

theorem after_round (cap m n w : Nat) :
    after cap m (after cap m n (.take w)) .flush = waiting cap m n w := by
  simp only [after, cost, gain, waiting]
  omega

theorem roomy_rounds {cap m n : Nat} (hcap : 2 ≤ cap) (hm : 1 ≤ m) (hn : n < cap) (ws : List Nat)
    (hws : ∀ w ∈ ws, w ≤ 2) : Roomy cap m n (rounds ws) := by
  induction ws generalizing n with
  | nil => trivial
  | cons w ws ih =>
    have hw := hws w List.mem_cons_self
    have hlt := waiting_lt hcap hm hn hw
    rw [← after_round] at hlt
    refine ⟨forced_room hm hcap hn hw, hlt.le, ih hlt ?_⟩
    intro w' hw'
    exact hws w' (List.mem_cons_of_mem w hw')

/-- After every flush a byte is free, so that no call runs out of room. -/
theorem roomy_moves {cap m n : Nat} (hcap : 2 ≤ cap) (hm : 1 ≤ m) (hn : n ≤ cap) (ws : List Nat)
    (hws : ∀ w ∈ ws, w ≤ 2) : Roomy cap m n (moves ws) := by
  have hlt : after cap m n .flush < cap := by
    simp only [after, cost, gain]
    omega
  exact ⟨hlt.le, roomy_rounds hcap hm hlt ws hws⟩

theorem le_two_of_mem_widths {data : List UInt8} {w : Nat} (h : w ∈ widths data) : w ≤ 2 := by
  obtain ⟨c, _, rfl⟩ := List.mem_map.mp h
  exact (length_stuffOne c).2

theorem left_rounds (cap m n : Nat) (data : List UInt8) :
    left cap m n (rounds (widths data)) = backlog cap m n data := by
  induction data generalizing n with
  | nil => rfl
  | cons c cs ih =>
    rw [backlog, ← after_round, ← ih]
    rfl

/-- A payload offers everything but its backlog. -/
theorem sent_moves (cap m n : Nat) (data : List UInt8) :
    sent cap m n (moves (widths data)) =
      n + (escape data).length - backlog cap m (n - m) data := by
  have hsum : left cap m n (moves (widths data)) + sent cap m n (moves (widths data)) =
      n + gains (moves (widths data)) := left_add_sent n _
  have hleft : left cap m n (moves (widths data)) = backlog cap m (n - m) data := by
    have hflush : after cap m n .flush = n - m := by
      simp only [after, cost, gain]
      omega
    rw [← left_rounds, ← hflush]
    rfl
  have hgain : gains (moves (widths data)) = 0 + gains (rounds (widths data)) := rfl
  rw [hleft, hgain, gains_widths] at hsum
  omega

/-- The encoder when a call comes to its payload. -/
def opened (e : Encoder) : Encoder := (pushPending outputFn (flush outputFn e).1).1

def Opens (e : Encoder) : Prop :=
  (flush outputFn e).2 = .ok ∧ (pushPending outputFn (flush outputFn e).1).2 = .ok

theorem follows_opening (h : Shows e v) :
    Follows outputFn v false (owed v.endPending) (moves (pendingWidths v.endPending))
      (opened outputFn e) (Opens outputFn e) := by
  have hflush := follows_flush outputFn h
  exact follows_trans outputFn hflush
    (fun hok => follows_pushPending outputFn (hflush.shows hok))
    (gains_pendingWidths v.endPending)

theorem follows_payload (h : Shows e v) (data : List UInt8) :
    Follows outputFn v false (owed v.endPending ++ escape data)
      (moves (pendingWidths v.endPending ++ widths data))
      (pushLoop outputFn (opened outputFn e) data 0).1
      (Opens outputFn e ∧ (pushLoop outputFn (opened outputFn e) data 0).2.1 = .ok) := by
  have hopen := follows_opening outputFn h
  rw [moves_append]
  exact follows_trans outputFn hopen
    (fun hok => follows_pushLoop outputFn (hopen.shows hok) data 0)
    (gains_widths data)

theorem pushPacket_of_opens {data : List UInt8} (h : Opens outputFn e)
    (hl : (pushLoop outputFn (opened outputFn e) data 0).2.1 = .ok) :
    pushPacket outputFn e data =
      ((pushEnd outputFn (pushLoop outputFn (opened outputFn e) data 0).1).1,
        (pushEnd outputFn (pushLoop outputFn (opened outputFn e) data 0).1).2,
        (pushLoop outputFn (opened outputFn e) data 0).2.2) := by
  simp only [opened] at hl ⊢
  simp [pushPacket, h.1, h.2, hl]

theorem pushPacket_of_stopped {data : List UInt8} (h : Opens outputFn e)
    (hl : (pushLoop outputFn (opened outputFn e) data 0).2.1 ≠ .ok) :
    pushPacket outputFn e data = pushLoop outputFn (opened outputFn e) data 0 := by
  simp only [opened] at hl ⊢
  simp [pushPacket, h.1, h.2, hl]

theorem pushPacket_of_not_opens (data : List UInt8) (h : ¬ Opens outputFn e) :
    (pushPacket outputFn e data).2.1 ≠ .ok ∧ (pushPacket outputFn e data).2.2 = 0 := by
  by_cases hf : (flush outputFn e).2 = .ok
  · have hp : (pushPending outputFn (flush outputFn e).1).2 ≠ .ok := fun hp => h ⟨hf, hp⟩
    simp [pushPacket, hf, hp]
  · simp [pushPacket, hf]

/-- The whole of a call. -/
theorem follows_pushPacket (h : Shows e v) (data : List UInt8) :
    Follows outputFn v false (owed v.endPending ++ packet data)
      (moves (callWidths v.endPending data)) (pushPacket outputFn e data).1
      ((pushPacket outputFn e data).2.1 = .ok) := by
  have hload := follows_payload outputFn h data
  have hall := follows_trans outputFn hload
    (fun hok => follows_pushEnd outputFn (hload.shows hok)) rfl
  rw [callWidths, moves_append, packet, ← List.append_assoc]
  refine hall.congr ?_ ?_
  · by_cases ho : Opens outputFn e
    · by_cases hl : (pushLoop outputFn (opened outputFn e) data 0).2.1 = .ok
      · rw [pushPacket_of_opens outputFn ho hl]
        simp only [ho, hl, true_and]
      · rw [pushPacket_of_stopped outputFn ho hl]
        simp only [hl, and_false, false_and]
    · have hst := (pushPacket_of_not_opens outputFn data ho).1
      simp only [ho, hst, false_and]
  · intro hok
    by_cases ho : Opens outputFn e
    · by_cases hl : (pushLoop outputFn (opened outputFn e) data 0).2.1 = .ok
      · rw [pushPacket_of_opens outputFn ho hl]
      · rw [pushPacket_of_stopped outputFn ho hl] at hok
        exact absurd hok hl
    · exact absurd hok (pushPacket_of_not_opens outputFn data ho).1

/-- The payload loop reports a byte exactly when it took in all before it and
then the byte itself. -/
theorem le_pushLoop_iff (h : Shows e v) (xs : List UInt8) (c : UInt8) (cs : List UInt8) (k : Nat) :
    k + xs.length + 1 ≤ (pushLoop outputFn e (xs ++ c :: cs) k).2.2 ↔
      (pushLoop outputFn e xs k).2.1 = .ok ∧
        (encodeOne outputFn (pushLoop outputFn e xs k).1 (c :: cs)).2.1 = .ok := by
  induction xs generalizing e v k with
  | nil =>
    have hnil : pushLoop outputFn e [] k = (e, .ok, k) := rfl
    rw [List.nil_append, hnil, and_iff_right rfl]
    obtain ⟨hst, hone, l, hs, _⟩ | ⟨hst, _⟩ := adds_encodeOne outputFn h c cs
    · refine iff_of_true ?_ hst
      by_cases hfl : (flush outputFn (encodeOne outputFn e (c :: cs)).1).2 = .ok
      · obtain ⟨l', hs', _⟩ := adds_flush outputFn hs
        obtain ⟨n, _, hcount, _⟩ := adds_pushLoop outputFn hs' cs (k + 1)
        rw [pushLoop_next k hst hfl, hone, hcount]
        exact Nat.le_add_right _ _
      · rw [pushLoop_refused k hst hfl, hone]
        exact Nat.le_refl _
    · rw [pushLoop_failed k hst]
      exact iff_of_false (Nat.not_succ_le_self k) hst
  | cons d xs ih =>
    have hsame : encodeOne outputFn e (d :: (xs ++ c :: cs)) = encodeOne outputFn e (d :: xs) := rfl
    have hlen : (d :: xs).length = xs.length + 1 := rfl
    rw [List.cons_append, hlen]
    obtain ⟨hst, hone, l, hs, _⟩ | ⟨hst, _⟩ := adds_encodeOne outputFn h d xs
    · by_cases hfl : (flush outputFn (encodeOne outputFn e (d :: xs)).1).2 = .ok
      · obtain ⟨l', hs', _⟩ := adds_flush outputFn hs
        have hk : k + (xs.length + 1) + 1 = k + 1 + xs.length + 1 := by omega
        rw [pushLoop_next k (hsame ▸ hst) (hsame ▸ hfl), pushLoop_next k hst hfl, hsame, hone, hk]
        exact ih hs' (k + 1)
      · rw [pushLoop_refused k (hsame ▸ hst) (hsame ▸ hfl), pushLoop_refused k hst hfl, hsame, hone]
        exact iff_of_false (by simp only; omega) fun h => hfl h.1
    · rw [pushLoop_failed k (hsame ▸ hst), pushLoop_failed k hst]
      exact iff_of_false (by simp only; omega) fun h => hst h.1

theorem pushPacket_consumed {data : List UInt8} (h : Opens outputFn e) :
    (pushPacket outputFn e data).2.2 = (pushLoop outputFn (opened outputFn e) data 0).2.2 := by
  by_cases hl : (pushLoop outputFn (opened outputFn e) data 0).2.1 = .ok
  · rw [pushPacket_of_opens outputFn h hl]
  · rw [pushPacket_of_stopped outputFn h hl]

/-- A call reports the byte `c` exactly when the moves that lead to it succeed. -/
theorem follows_reaching (h : Shows e v) (xs : List UInt8) (c : UInt8) (cs : List UInt8) :
    Follows outputFn v false (owed v.endPending ++ escape xs ++ stuffOne slip c)
      (reaching (pendingWidths v.endPending ++ widths (xs ++ [c])))
      (encodeOne outputFn (pushLoop outputFn (opened outputFn e) xs 0).1 (c :: cs)).1
      (xs.length + 1 ≤ (pushPacket outputFn e (xs ++ c :: cs)).2.2) := by
  have hopen := follows_opening outputFn h
  have hload := follows_payload outputFn h xs
  have hall := follows_trans outputFn hload
    (fun hok => follows_encodeOne outputFn (hload.shows hok) c cs) (by simp [gains, gain])
  have hmoves : reaching (pendingWidths v.endPending ++ widths (xs ++ [c])) =
      moves (pendingWidths v.endPending ++ widths xs) ++ [.take (stuffOne slip c).length] := by
    rw [widths_append, ← List.append_assoc]
    exact reaching_append _ _
  rw [hmoves]
  refine hall.congr ?_ fun _ => rfl
  by_cases ho : Opens outputFn e
  · have hle := le_pushLoop_iff outputFn (hopen.shows ho) xs c cs 0
    rw [Nat.zero_add] at hle
    rw [pushPacket_consumed outputFn ho, and_iff_right ho]
    exact hle
  · have hz := (pushPacket_of_not_opens outputFn (xs ++ c :: cs) ho).2
    simp [hz, ho]

end SlipStream.EncoderMoves
