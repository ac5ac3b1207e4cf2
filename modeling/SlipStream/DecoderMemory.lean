import SlipStream.DecoderReceiver
import SlipStream.DecoderCalls
import SlipStream.Memory
import Mathlib.Data.Option.Defs

namespace SlipStream.DecoderMemory

open Errors Format Memory Transducer StreamDecoder DecoderReceiver DecoderCalls

/-- Two decoders that differ in memory only, and there only outside the bytes
received since the last reset. -/
def Alike (d₁ d₂ : Decoder) : Prop :=
  ∃ m, d₂ = {d₁ with rxbuf := m} ∧ ∀ i < d₁.rxbufPos.toNat, m i = d₁.rxbuf i

/-- Two outcomes that an observer cannot tell apart. -/
def Same (r₁ r₂ : Decoder × List Event) : Prop := Alike r₁.1 r₂.1 ∧ r₁.2 = r₂.2

variable {d₁ d₂ : Decoder} {r₁ r₂ : Decoder × List Event}

theorem contents_eq (h : Alike d₁ d₂) : contents d₁ = contents d₂ := by
  obtain ⟨m, rfl, hm⟩ := h
  apply List.map_congr_left
  intro i hi
  exact (hm i (List.mem_range.mp hi)).symm

theorem alike_reset (h : Alike d₁ d₂) : Alike (reset d₁) (reset d₂) := by
  obtain ⟨m, rfl, _⟩ := h
  exact ⟨m, rfl, fun i hi => absurd hi (Nat.not_lt_zero i)⟩

theorem same_store (h : Alike d₁ d₂) (b : UInt8) : Same (store d₁ b) (store d₂ b) := by
  obtain ⟨m, rfl, hm⟩ := h
  refine ⟨⟨Function.update m d₁.rxbufPos.toNat b, rfl, ?_⟩, rfl⟩
  intro i hi
  by_cases heq : i = d₁.rxbufPos.toNat
  · simp only [store, heq, Function.update_self]
  · -- the position may wrap around, which only makes it smaller
    have hlt : i < d₁.rxbufPos.toNat := by
      have hone : (1 : UInt64).toNat = 1 := rfl
      simp only [store, UInt64.toNat_add, hone] at hi
      have := Nat.mod_le (d₁.rxbufPos.toNat + 1) (2 ^ 64)
      omega
    simp only [store, Function.update_of_ne heq]
    exact hm i hlt

theorem same_overflow (h : Alike d₁ d₂) : Same (overflow d₁) (overflow d₂) := by
  obtain ⟨m, rfl, _⟩ := h
  exact ⟨⟨m, rfl, fun i hi => absurd hi (Nat.not_lt_zero i)⟩, rfl⟩

theorem alike_invalidEscape (h : Alike d₁ d₂) : Alike (invalidEscape d₁) (invalidEscape d₂) := by
  obtain ⟨m, rfl, _⟩ := h
  exact ⟨m, rfl, fun i hi => absurd hi (Nat.not_lt_zero i)⟩

theorem same_counted (h : Same r₁ r₂) : Same (counted r₁) (counted r₂) := by
  obtain ⟨⟨m, hr, hm⟩, he⟩ := h
  refine ⟨⟨m, ?_, hm⟩, he⟩
  simp only [counted, hr]

theorem same_escapeDone (h : Same r₁ r₂) : Same (escapeDone r₁) (escapeDone r₂) := by
  obtain ⟨⟨m, hr, hm⟩, he⟩ := h
  refine ⟨⟨m, ?_, hm⟩, he⟩
  simp only [escapeDone, hr]

theorem same_consumePlain (h : Alike d₁ d₂) (c : UInt8) :
    Same (consumePlain d₁ c) (consumePlain d₂ c) := by
  unfold consumePlain
  split_ifs
  · exact ⟨alike_reset h, by rw [contents_eq h]⟩
  · obtain ⟨m, rfl, hm⟩ := h
    exact ⟨⟨m, rfl, hm⟩, rfl⟩
  · exact same_store h c

theorem same_consumeEscaped (h : Alike d₁ d₂) (c : UInt8) :
    Same (consumeEscaped d₁ c) (consumeEscaped d₂ c) := by
  apply same_escapeDone
  split_ifs
  · exact same_store h END
  · exact same_store h ESC
  · exact ⟨alike_invalidEscape h, rfl⟩

theorem flags_eq (h : Alike d₁ d₂) :
    full d₁ = full d₂ ∧ d₁.lastCharIsEsc = d₂.lastCharIsEsc := by
  obtain ⟨m, rfl, _⟩ := h
  exact ⟨rfl, rfl⟩

theorem same_dispatch (h : Alike d₁ d₂) (c : UInt8) : Same (dispatch d₁ c) (dispatch d₂ c) := by
  rw [dispatch, dispatch, (flags_eq h).2]
  split_ifs
  · exact same_consumeEscaped h c
  · exact same_consumePlain h c

theorem same_consumeByte (h : Alike d₁ d₂) (c : UInt8) :
    Same (consumeByte d₁ c) (consumeByte d₂ c) := by
  have hfirst : Same (if full d₁ then overflow d₁ else (d₁, []))
      (if full d₂ then overflow d₂ else (d₂, [])) := by
    rw [(flags_eq h).1]
    split_ifs
    · exact same_overflow h
    · exact ⟨h, rfl⟩
  obtain ⟨hd, he⟩ := same_counted (same_dispatch hfirst.1 c)
  exact ⟨hd, congrArg₂ (· ++ ·) hfirst.2 he⟩

theorem same_consumeExByte (h : Alike d₁ d₂) (c : UInt8) :
    Same (consumeExByte d₁ c).1 (consumeExByte d₂ c).1 ∧
      (consumeExByte d₁ c).2 = (consumeExByte d₂ c).2 := by
  obtain ⟨hfull, hesc⟩ := flags_eq h
  unfold consumeExByte
  rw [hfull, hesc]
  split_ifs
  · exact ⟨same_overflow h, rfl⟩
  · exact ⟨same_counted (same_escapeDone (same_store h END)), rfl⟩
  · exact ⟨same_counted (same_escapeDone (same_store h ESC)), rfl⟩
  · exact ⟨⟨alike_invalidEscape h, rfl⟩, rfl⟩
  · exact ⟨same_counted (same_consumePlain h c), rfl⟩

theorem same_append {r₁ r₂ s₁ s₂ : Decoder × List Event} (h : Same r₁ r₂) (h' : Same s₁ s₂) :
    Same (s₁.1, r₁.2 ++ s₁.2) (s₂.1, r₂.2 ++ s₂.2) := ⟨h'.1, congrArg₂ (· ++ ·) h.2 h'.2⟩

theorem same_consume (h : Alike d₁ d₂) (xs : List UInt8) :
    Same (StreamDecoder.consume d₁ xs) (StreamDecoder.consume d₂ xs) := by
  induction xs generalizing d₁ d₂ with
  | nil => exact ⟨h, rfl⟩
  | cons c xs ih =>
    have hone := same_consumeByte h c
    exact same_append hone (ih hone.1)

theorem same_consumeExLoop (h : Alike d₁ d₂) (xs : List UInt8) (k : Nat) :
    Same (consumeExLoop d₁ xs k).1 (consumeExLoop d₂ xs k).1 ∧
      (consumeExLoop d₁ xs k).2 = (consumeExLoop d₂ xs k).2 := by
  induction xs generalizing d₁ d₂ k with
  | nil => exact ⟨⟨h, rfl⟩, rfl⟩
  | cons c xs ih =>
    obtain ⟨hone, hres⟩ := same_consumeExByte h c
    obtain ⟨hrest, hres'⟩ := ih hone.1 (k + 1)
    simp only [consumeExLoop, hres]
    split_ifs
    · exact ⟨hone, rfl⟩
    · exact ⟨same_append hone hrest, hres'⟩

/-- The same for a call that also returns a value. -/
def SameCall {β : Type} (r₁ r₂ : (Decoder × List Event) × β) : Prop :=
  Same r₁.1 r₂.1 ∧ r₁.2 = r₂.2

theorem same_map {β γ : Type} {o₁ o₂ : Option ((Decoder × List Event) × β)}
    (h : Option.Rel SameCall o₁ o₂) (f : β → γ) :
    Option.Rel SameCall (o₁.map fun r => (r.1, f r.2)) (o₂.map fun r => (r.1, f r.2)) := by
  cases h with
  | none => exact .none
  | some hr => exact .some ⟨hr.1, congrArg f hr.2⟩

theorem same_consumeChunkLoop (h : Alike d₁ d₂) (chunkSize fuel : Nat) (xs : List UInt8)
    (k : Nat) :
    Option.Rel SameCall (consumeChunkLoop chunkSize fuel d₁ xs k)
      (consumeChunkLoop chunkSize fuel d₂ xs k) := by
  induction fuel generalizing d₁ d₂ xs k with
  | zero => exact .none
  | succ fuel ih =>
    simp only [consumeChunkLoop]
    split_ifs
    · exact .some ⟨⟨h, rfl⟩, rfl⟩
    · have hone := same_consume h (xs.take (min chunkSize xs.length))
      have hrest := ih hone.1 (xs.drop (min chunkSize xs.length)) (k + min chunkSize xs.length)
      generalize consumeChunkLoop chunkSize fuel _ _ _ = o₁ at hrest ⊢
      generalize consumeChunkLoop chunkSize fuel _ _ _ = o₂ at hrest ⊢
      cases hrest with
      | none => exact .none
      | some hr => exact .some ⟨same_append hone hr.1, hr.2⟩

theorem same_consumeChunkExLoop (h : Alike d₁ d₂) (chunkSize fuel : Nat) (xs : List UInt8)
    (k : Nat) :
    Option.Rel SameCall (consumeChunkExLoop chunkSize fuel d₁ xs k)
      (consumeChunkExLoop chunkSize fuel d₂ xs k) := by
  induction fuel generalizing d₁ d₂ xs k with
  | zero => exact .none
  | succ fuel ih =>
    obtain ⟨hone, hres⟩ := same_consumeExLoop h (xs.take (min chunkSize xs.length)) 0
    rw [← StreamDecoder.consumeEx, ← StreamDecoder.consumeEx] at hone hres
    simp only [consumeChunkExLoop, hres]
    split_ifs
    · exact .some ⟨⟨h, rfl⟩, rfl⟩
    · exact .some ⟨hone, rfl⟩
    · have hrest := ih hone.1
        (xs.drop (StreamDecoder.consumeEx d₂ (xs.take (min chunkSize xs.length))).2.consumed)
        (k + (StreamDecoder.consumeEx d₂ (xs.take (min chunkSize xs.length))).2.consumed)
      generalize consumeChunkExLoop chunkSize fuel _ _ _ = o₁ at hrest ⊢
      generalize consumeChunkExLoop chunkSize fuel _ _ _ = o₂ at hrest ⊢
      cases hrest with
      | none => exact .none
      | some hr => exact .some ⟨same_append hone hr.1, hr.2⟩

theorem same_call (h : Alike d₁ d₂) (call : Call) :
    Option.Rel SameCall (call.exec d₁) (call.exec d₂) := by
  cases call with
  | consume xs => exact .some ⟨same_consume h xs, rfl⟩
  | consumeByte c => exact .some ⟨same_consumeByte h c, rfl⟩
  | consumeEx xs =>
    obtain ⟨hone, hres⟩ := same_consumeExLoop h xs 0
    exact .some ⟨hone, congrArg some hres⟩
  | consumeExByte c =>
    obtain ⟨hone, hres⟩ := same_consumeExByte h c
    exact .some ⟨hone, congrArg some hres⟩
  | consumeChunk xs chunkSize =>
    exact same_map (same_consumeChunkLoop h chunkSize _ xs 0) fun _ => none
  | consumeChunkEx xs chunkSize =>
    exact same_map (same_consumeChunkExLoop h chunkSize _ xs 0) some
  | reset => exact .some ⟨⟨alike_reset h, rfl⟩, rfl⟩

theorem same_exec (h : Alike d₁ d₂) (calls : List Call) :
    Option.Rel SameCall (exec d₁ calls) (exec d₂ calls) := by
  induction calls generalizing d₁ d₂ with
  | nil => exact .some ⟨⟨h, rfl⟩, rfl⟩
  | cons call calls ih =>
    have hone := same_call h call
    rw [exec, exec]
    generalize call.exec d₁ = o₁ at hone ⊢
    generalize call.exec d₂ = o₂ at hone ⊢
    cases hone with
    | none => exact .none
    | @some r₁ r₂ hr =>
      have hrest := ih hr.1.1
      simp only [Option.bind_some]
      generalize exec r₁.1.1 calls = p₁ at hrest ⊢
      generalize exec r₂.1.1 calls = p₂ at hrest ⊢
      cases hrest with
      | none => exact .none
      | some hs => exact .some ⟨same_append hr.1 hs.1, congrArg₂ List.cons hr.2 hs.2⟩

/-- What a caller gets to see of a run: the events, what the calls returned and
the error they left. -/
def outcome (r : (Decoder × List Event) × List (Option ConsumeResult)) :
    List Event × List (Option ConsumeResult) × ErrorInfo :=
  (r.1.2, r.2, getLastError r.1.1)

/-- `consume(const uint8_t*, size_t)` on bytes that lie in the memory behind `rxbuf`
themselves, `p` bytes from its start. -/
def consumeAt : Nat → Decoder → Nat → Decoder × List Event
  | 0, d, _ => (d, [])
  | size + 1, d, p =>
    let r := consumeByte d (d.rxbuf p)
    let s := consumeAt size r.1 (p + 1)
    (s.1, r.2 ++ s.2)

/-- One byte stores one byte at most, at the write position or before it. -/
def Creeps (d d' : Decoder) : Prop :=
  d'.rxbufPos.toNat ≤ d.rxbufPos.toNat + 1 ∧ ∀ i, d.rxbufPos.toNat < i → d'.rxbuf i = d.rxbuf i

theorem creeps_store (d : Decoder) (b : UInt8) : Creeps d (store d b).1 := by
  constructor
  · have hone : (1 : UInt64).toNat = 1 := rfl
    simp only [store, UInt64.toNat_add, hone]
    exact Nat.mod_le _ _
  · intro i hi
    exact Function.update_of_ne (by omega) _ _

theorem creeps_reset (d : Decoder) : Creeps d (reset d) :=
  ⟨Nat.zero_le _, fun _ _ => rfl⟩

theorem creeps_dispatch (d : Decoder) (c : UInt8) : Creeps d (dispatch d c).1 := by
  unfold dispatch
  split_ifs
  · unfold consumeEscaped
    split_ifs
    · exact creeps_store d END
    · exact creeps_store d ESC
    · exact creeps_reset d
  · unfold consumePlain
    split_ifs
    · exact creeps_reset d
    · exact ⟨Nat.le_succ _, fun _ _ => rfl⟩
    · exact creeps_store d c

theorem creeps_consumeByte (d : Decoder) (c : UInt8) : Creeps d (consumeByte d c).1 := by
  by_cases hfull : full d
  · -- the overflow has moved the write position to the start
    obtain ⟨hpos, hmem⟩ := creeps_dispatch (overflow d).1 c
    have hzero : (overflow d).1.rxbufPos.toNat = 0 := rfl
    rw [hzero] at hpos hmem
    simp only [consumeByte, hfull, ↓reduceIte]
    exact ⟨by simp only [counted]; omega, fun i hi => hmem i (by omega)⟩
  · simp only [consumeByte, hfull]
    exact creeps_dispatch d c

theorem consumeAt_eq (d : Decoder) (p size : Nat) (h : d.rxbufPos.toNat ≤ p) :
    consumeAt size d p = StreamDecoder.consume d (load d.rxbuf p size) := by
  induction size generalizing d p with
  | zero => rfl
  | succ size ih =>
    obtain ⟨hpos, hmem⟩ := creeps_consumeByte d (d.rxbuf p)
    have hload : load (consumeByte d (d.rxbuf p)).1.rxbuf (p + 1) size =
        load d.rxbuf (p + 1) size := by
      apply load_congr
      intro i hi _
      exact hmem i (by omega)
    rw [consumeAt, load_succ, StreamDecoder.consume, run_cons, ih _ (p + 1) (by omega), hload]
    rfl

/-- Bytes come into the memory `p` bytes behind `rxbuf`. -/
def arrive (d : Decoder) (p : Nat) (xs : List UInt8) : Decoder :=
  {d with rxbuf := fill d.rxbuf p xs}

/-- A driver that receives into the decoder's own buffer, each time with the place it
has chosen, and has the bytes consumed from there. -/
def receive : Decoder → List (Nat × List UInt8) → Decoder × List Event
  | d, [] => (d, [])
  | d, (p, xs) :: chunks =>
    let r := consumeAt xs.length (arrive d p xs) p
    let s := receive r.1 chunks
    (s.1, r.2 ++ s.2)

/-- The driver never writes before the write position of the decoder. -/
def Behind : Decoder → List (Nat × List UInt8) → Prop
  | _, [] => True
  | d, (p, xs) :: chunks =>
    d.rxbufPos.toNat ≤ p ∧ Behind (consumeAt xs.length (arrive d p xs) p).1 chunks

theorem alike_arrive (h : Alike d₁ d₂) {p : Nat} (hp : d₂.rxbufPos.toNat ≤ p) (xs : List UInt8) :
    Alike d₁ (arrive d₂ p xs) := by
  obtain ⟨m, rfl, hm⟩ := h
  refine ⟨fill m p xs, rfl, fun i hi => ?_⟩
  have hlt : i < p := Nat.lt_of_lt_of_le hi hp
  rw [fill_outside m (Or.inl hlt), hm i hi]

theorem same_receive (h : Alike d₁ d₂) (chunks : List (Nat × List UInt8))
    (hb : Behind d₂ chunks) :
    Same (StreamDecoder.consume d₁ (chunks.flatMap Prod.snd)) (receive d₂ chunks) := by
  induction chunks generalizing d₁ d₂ with
  | nil => exact ⟨h, rfl⟩
  | cons chunk chunks ih =>
    obtain ⟨p, xs⟩ := chunk
    obtain ⟨hp, hrest⟩ := hb
    have hread : consumeAt xs.length (arrive d₂ p xs) p =
        StreamDecoder.consume (arrive d₂ p xs) xs := by
      rw [consumeAt_eq (arrive d₂ p xs) p xs.length hp, arrive, load_fill]
    have hone := same_consume (alike_arrive h hp xs) xs
    rw [← hread] at hone
    rw [List.flatMap_cons, consume_append]
    exact same_append hone (ih hone.1 hrest)

/-- The decoder's buffer serves to receive the raw bytes as well. As long as they are
put at its write position or behind it, in pieces of any size, they are consumed from
there as from a buffer of their own. -/
theorem receive_eq_consume (d : Decoder) (chunks : List (Nat × List UInt8))
    (hb : Behind d chunks) :
    (receive d chunks).2 = (StreamDecoder.consume d (chunks.flatMap Prod.snd)).2 ∧
      view (receive d chunks).1 = view (StreamDecoder.consume d (chunks.flatMap Prod.snd)).1 := by
  obtain ⟨hd, hevents⟩ := same_receive ⟨d.rxbuf, rfl, fun _ _ => rfl⟩ chunks hb
  refine ⟨hevents.symm, ?_⟩
  rw [view, view, contents_eq hd, (flags_eq hd).2]

/-- The second piece is put right behind the byte that the first one left. -/
theorem receive_eq_consume_cut :
    (receive (new (fun _ => 0) 4 true) [(0, [0x01, ESC]), (1, [ESCEND, END, 0x02])]).2 =
      [.store 0 0x01, .store 1 END, .message [0x01, END], .store 0 0x02] := by
  have h := (receive_eq_consume (new (fun _ => 0) 4 true)
    [(0, [0x01, ESC]), (1, [ESCEND, END, 0x02])]
    ⟨by decide, by decide, trivial⟩).1
  rw [h]
  decide

end SlipStream.DecoderMemory
