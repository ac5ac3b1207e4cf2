import SlipStream.DecoderReceiver

namespace SlipStream.DecoderCalls

open Format Transducer Receiver StreamDecoder DecoderReceiver

inductive Call where
  | consume (data : List UInt8)
  | consumeByte (c : UInt8)
  | consumeEx (data : List UInt8)
  | consumeExByte (c : UInt8)
  | consumeChunk (data : List UInt8) (chunkSize : Nat)
  | consumeChunkEx (data : List UInt8) (chunkSize : Nat)
  | reset

/-- Whether a call is bound to return, whatever the decoder's state. -/
def Call.Returns : Call → Prop
  | .consumeChunk _ chunkSize => 1 ≤ chunkSize
  | .consumeChunkEx _ chunkSize => 1 ≤ chunkSize
  | _ => True

def Call.exec (d : Decoder) : Call → Option ((Decoder × List Event) × Option ConsumeResult)
  | .consume data => some (StreamDecoder.consume d data, none)
  | .consumeByte c => some (StreamDecoder.consumeByte d c, none)
  | .consumeEx data => some ((StreamDecoder.consumeEx d data).1, (StreamDecoder.consumeEx d data).2)
  | .consumeExByte c =>
    some ((StreamDecoder.consumeExByte d c).1, (StreamDecoder.consumeExByte d c).2)
  | .consumeChunk data chunkSize =>
    (StreamDecoder.consumeChunk d data chunkSize).map fun r => (r.1, none)
  | .consumeChunkEx data chunkSize =>
    (StreamDecoder.consumeChunkEx d data chunkSize).map fun r => (r.1, some r.2)
  | .reset => some ((StreamDecoder.reset d, []), none)

/-- Make a list of calls one after the other. What they return is listed in
order, `none` standing for a call that reports nothing. -/
def exec : Decoder → List Call → Option ((Decoder × List Event) × List (Option ConsumeResult))
  | d, [] => some ((d, []), [])
  | d, call :: calls =>
    (call.exec d).bind fun r =>
      (exec r.1.1 calls).map fun s => ((s.1.1, r.1.2 ++ s.1.2), r.2 :: s.2)

/-- The bytes `consume_ex` looks at: all of them, or up to the first error. -/
def exOps : Decoder → List UInt8 → List Op
  | _, [] => []
  | d, c :: cs =>
    .consumeEx c ::
      if (StreamDecoder.consumeExByte d c).2.hasError then []
      else exOps (StreamDecoder.consumeExByte d c).1.1 cs

def Call.ops (d : Decoder) : Call → List Op
  | .consume data => data.map .consume
  | .consumeByte c => [.consume c]
  | .consumeEx data => exOps d data
  | .consumeExByte c => [.consumeEx c]
  | .consumeChunk data _ => data.map .consume
  | .consumeChunkEx data _ => exOps d data
  | .reset => [.reset]

def ops : Decoder → List Call → List Op
  | _, [] => []
  | d, call :: calls => call.ops d ++ ops (run Op.step d (call.ops d)).1 calls

theorem run_map_consume (d : Decoder) (data : List UInt8) :
    run Op.step d (data.map .consume) = StreamDecoder.consume d data := by
  induction data generalizing d with
  | nil => rfl
  | cons c data ih =>
    rw [List.map_cons, run_cons, ih]
    rfl

theorem consumeExLoop_run (d : Decoder) (data : List UInt8) (k : Nat) :
    (consumeExLoop d data k).1 = run Op.step d (exOps d data) := by
  induction data generalizing d k with
  | nil => rfl
  | cons c data ih =>
    by_cases he : (StreamDecoder.consumeExByte d c).2.hasError = true
    · simp [consumeExLoop, exOps, he, Op.step]
    · simp [consumeExLoop, exOps, he, Op.step, ih]

theorem consumeExLoop_ok (d : Decoder) (data : List UInt8) (k : Nat)
    (h : (consumeExLoop d data k).2.hasError = false) :
    exOps d data = data.map .consumeEx ∧ (consumeExLoop d data k).2 = .ok (k + data.length) := by
  induction data generalizing d k with
  | nil => exact ⟨rfl, rfl⟩
  | cons c data ih =>
    by_cases he : (StreamDecoder.consumeExByte d c).2.hasError = true
    · simp [consumeExLoop, he, ConsumeResult.fail] at h
    · simp only [consumeExLoop, if_neg he] at h ⊢
      obtain ⟨ho, hr⟩ := ih _ _ h
      refine ⟨by simp [exOps, he, ho], ?_⟩
      rw [hr, List.length_cons]
      congr 1
      omega

theorem consumeExLoop_add (d : Decoder) (data : List UInt8) (k l : Nat) :
    consumeExLoop d data (k + l) =
      ((consumeExLoop d data l).1, {(consumeExLoop d data l).2 with
        consumed := k + (consumeExLoop d data l).2.consumed}) := by
  induction data generalizing d l with
  | nil => rfl
  | cons c data ih =>
    by_cases he : (StreamDecoder.consumeExByte d c).2.hasError = true
    · simp only [consumeExLoop, if_pos he, ConsumeResult.fail]
    · simp only [consumeExLoop, if_neg he]
      rw [Nat.add_assoc, ih]

theorem consumeExLoop_error_lt (d : Decoder) (data : List UInt8) (k : Nat)
    (h : (consumeExLoop d data k).2.hasError = true) :
    (consumeExLoop d data k).2.consumed < k + data.length := by
  induction data generalizing d k with
  | nil => cases h
  | cons c data ih =>
    rw [List.length_cons]
    by_cases he : (StreamDecoder.consumeExByte d c).2.hasError = true
    · simp only [consumeExLoop, if_pos he, ConsumeResult.fail]
      omega
    · simp only [consumeExLoop, if_neg he] at h ⊢
      have hlt := ih _ _ h
      omega

theorem consumeExLoop_append (d : Decoder) (xs ys : List UInt8) (k : Nat) :
    consumeExLoop d (xs ++ ys) k =
      if (consumeExLoop d xs k).2.hasError then consumeExLoop d xs k
      else
        let s := consumeExLoop (consumeExLoop d xs k).1.1 ys (k + xs.length)
        ((s.1.1, (consumeExLoop d xs k).1.2 ++ s.1.2), s.2) := by
  induction xs generalizing d k with
  | nil => simp [consumeExLoop, ConsumeResult.ok]
  | cons c xs ih =>
    by_cases he : (StreamDecoder.consumeExByte d c).2.hasError = true
    · simp [consumeExLoop, he, ConsumeResult.fail]
    · have hk : k + 1 + xs.length = k + (xs.length + 1) := by omega
      simp only [List.cons_append, consumeExLoop, if_neg he, ih, List.length_cons, hk]
      split_ifs <;> simp

theorem consume_append (d : Decoder) (xs ys : List UInt8) :
    StreamDecoder.consume d (xs ++ ys) =
      ((StreamDecoder.consume (StreamDecoder.consume d xs).1 ys).1,
        (StreamDecoder.consume d xs).2 ++
          (StreamDecoder.consume (StreamDecoder.consume d xs).1 ys).2) :=
  run_append StreamDecoder.consumeByte d xs ys

theorem consumeChunkLoop_eq (chunkSize : Nat) (hk : 1 ≤ chunkSize) (fuel : Nat) (d : Decoder)
    (data : List UInt8) (consumed : Nat) (hf : data.length < fuel) :
    consumeChunkLoop chunkSize fuel d data consumed =
      some (StreamDecoder.consume d data, consumed + data.length) := by
  induction fuel generalizing d data consumed with
  | zero => omega
  | succ fuel ih =>
    by_cases hd : data = []
    · simp [consumeChunkLoop, hd, StreamDecoder.consume]
    · have hpos : 0 < data.length := List.length_pos_iff.mpr hd
      have hlen : (data.drop (min chunkSize data.length)).length < fuel := by
        rw [List.length_drop]
        omega
      have happ := consume_append d (data.take (min chunkSize data.length))
        (data.drop (min chunkSize data.length))
      rw [List.take_append_drop] at happ
      have hsum : consumed + min chunkSize data.length + (data.length - min chunkSize data.length) =
          consumed + data.length := by omega
      rw [consumeChunkLoop, if_neg hd]
      dsimp only
      rw [ih _ _ _ hlen, Option.map_some, happ, List.length_drop, hsum]

/-- The bytes that `consume_chunk_ex` says it has consumed when `consume_ex` on
all of the data returns `r`: after an error only those of the chunks before. -/
def chunkConsumed (chunkSize : Nat) (data : List UInt8) (r : ConsumeResult) : Nat :=
  if r.hasError then r.consumed / chunkSize * chunkSize else data.length

theorem chunkConsumed_step (chunkSize t : Nat) (data : List UInt8) (r : ConsumeResult)
    (ht : t = min chunkSize data.length) (hk : 1 ≤ chunkSize)
    (hr : r.hasError = true → r.consumed < (data.drop t).length) :
    t + chunkConsumed chunkSize (data.drop t) r =
      chunkConsumed chunkSize data {r with consumed := t + r.consumed} := by
  by_cases he : r.hasError = true
  · -- more bytes follow, so the chunk in front was a full one
    have hlt := hr he
    rw [List.length_drop] at hlt
    have htk : t = chunkSize := by omega
    rw [chunkConsumed, chunkConsumed, if_pos he, if_pos he, htk,
      Nat.add_div_left _ (Nat.lt_of_succ_le hk), Nat.succ_mul]
    omega
  · rw [chunkConsumed, chunkConsumed, if_neg he, if_neg he, List.length_drop]
    omega

/-- `consume_chunk_ex` does what `consume_ex` does on all of the data, the
returned count apart. -/
theorem consumeChunkExLoop_eq (chunkSize : Nat) (hk : 1 ≤ chunkSize) (fuel : Nat) (d : Decoder)
    (data : List UInt8) (consumed : Nat) (hf : data.length < fuel) :
    consumeChunkExLoop chunkSize fuel d data consumed =
      some ((StreamDecoder.consumeEx d data).1, {(StreamDecoder.consumeEx d data).2 with
        consumed :=
          consumed + chunkConsumed chunkSize data (StreamDecoder.consumeEx d data).2}) := by
  induction fuel generalizing d data consumed with
  | zero => omega
  | succ fuel ih =>
    by_cases hd : data = []
    · subst hd
      rfl
    · have hpos : 0 < data.length := List.length_pos_iff.mpr hd
      obtain ⟨t, ht⟩ : ∃ t, t = min chunkSize data.length := ⟨_, rfl⟩
      have htake : (data.take t).length = t := List.length_take_of_le (by omega)
      have happ := consumeExLoop_append d (data.take t) (data.drop t) 0
      rw [List.take_append_drop, ← StreamDecoder.consumeEx, ← StreamDecoder.consumeEx] at happ
      rw [consumeChunkExLoop, if_neg hd, ← ht, happ]
      dsimp only
      by_cases he : (StreamDecoder.consumeEx d (data.take t)).2.hasError = true
      · have hlt := consumeExLoop_error_lt d (data.take t) 0 he
        rw [← StreamDecoder.consumeEx, Nat.zero_add, htake] at hlt
        have hz : (StreamDecoder.consumeEx d (data.take t)).2.consumed / chunkSize = 0 :=
          Nat.div_eq_of_lt (by omega)
        rw [if_pos he, if_pos he, chunkConsumed, if_pos he, hz, Nat.zero_mul, Nat.add_zero]
        simp only [ConsumeResult.fail, he]
      · obtain ⟨-, hres⟩ := consumeExLoop_ok d (data.take t) 0 (Bool.eq_false_iff.mpr he)
        have hcons : (StreamDecoder.consumeEx d (data.take t)).2.consumed = t := by
          rw [StreamDecoder.consumeEx, hres, Nat.zero_add, htake]
          rfl
        have hshift := consumeExLoop_add (StreamDecoder.consumeEx d (data.take t)).1.1
          (data.drop t) t 0
        have herr := consumeExLoop_error_lt (StreamDecoder.consumeEx d (data.take t)).1.1
          (data.drop t) 0
        rw [Nat.add_zero, ← StreamDecoder.consumeEx] at hshift
        rw [Nat.zero_add, ← StreamDecoder.consumeEx] at herr
        have hlen : (data.drop t).length < fuel := by
          rw [List.length_drop]
          omega
        rw [if_neg he, if_neg he, hcons, ih _ _ _ hlen, Option.map_some, Nat.zero_add, htake,
          hshift, ← chunkConsumed_step chunkSize t data _ ht hk herr, Nat.add_assoc]

theorem Call.exec_eq (d : Decoder) (call : Call) (h : call.Returns) :
    ∃ res, call.exec d = some (run Op.step d (call.ops d), res) := by
  cases call with
  | consume data => exact ⟨none, by rw [Call.ops, run_map_consume]; rfl⟩
  | consumeByte c => exact ⟨none, by simp [Call.exec, Call.ops, Op.step]⟩
  | consumeEx data => exact ⟨_, by rw [Call.ops, ← consumeExLoop_run d data 0]; rfl⟩
  | consumeExByte c =>
    refine ⟨some (StreamDecoder.consumeExByte d c).2, ?_⟩
    simp [Call.exec, Call.ops, Op.step]
  | consumeChunk data chunkSize =>
    refine ⟨none, ?_⟩
    rw [Call.exec, StreamDecoder.consumeChunk,
      consumeChunkLoop_eq chunkSize h _ d data 0 (Nat.lt_succ_self _), Call.ops, run_map_consume]
    rfl
  | consumeChunkEx data chunkSize =>
    have hr := consumeChunkExLoop_eq chunkSize h _ d data 0 (Nat.lt_succ_self _)
    rw [StreamDecoder.consumeEx, consumeExLoop_run] at hr
    exact ⟨_, by rw [Call.exec, StreamDecoder.consumeChunkEx, hr]; rfl⟩
  | reset => exact ⟨none, by simp [Call.exec, Call.ops, Op.step]⟩

/-- Every sequence of calls that returns amounts to a sequence of operations
on single bytes. -/
theorem exec_eq_run (d : Decoder) (calls : List Call) (h : ∀ call ∈ calls, call.Returns) :
    ∃ res, exec d calls = some (run Op.step d (ops d calls), res) := by
  induction calls generalizing d with
  | nil => exact ⟨[], rfl⟩
  | cons call calls ih =>
    obtain ⟨r, hr⟩ := call.exec_eq d (h call (by simp))
    obtain ⟨res, hres⟩ := ih (run Op.step d (call.ops d)).1 fun c hc => h c (by simp [hc])
    refine ⟨r :: res, ?_⟩
    rw [exec, hr, Option.bind_some, hres, Option.map_some, ops, run_append]

end SlipStream.DecoderCalls
