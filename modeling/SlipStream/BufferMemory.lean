import SlipStream.Memory
import SlipStream.BufferFormat

namespace SlipStream.BufferMemory

open Stuffing Format Memory Buffer BufferFormat

/-- The loop of `encode_packet` in memory, with `left` bytes between the read
pointer and the end of the input. -/
def encodeLoopAt (outStart outend : Nat) :
    Nat → (Nat → UInt8) → Nat → Nat → (Nat → UInt8) × Option Nat
  | 0, m, _, out =>
    if out + 1 > outend then (m, none)
    else (Function.update m out END, some (out + 1 - outStart))
  | left + 1, m, p, out =>
    if m p = END then
      if out + 2 ≥ outend then (m, none)
      else
        encodeLoopAt outStart outend left
          (Function.update (Function.update m out ESC) (out + 1) ESCEND) (p + 1) (out + 2)
    else if m p = ESC then
      if out + 2 ≥ outend then (m, none)
      else
        encodeLoopAt outStart outend left
          (Function.update (Function.update m out ESC) (out + 1) ESCESC) (p + 1) (out + 2)
    else if out + 1 ≥ outend then (m, none)
    else encodeLoopAt outStart outend left (Function.update m out (m p)) (p + 1) (out + 1)

def encodePacketAt (m : Nat → UInt8) (input inlen out outlen : Nat) : (Nat → UInt8) × Option Nat :=
  if outlen < inlen then (m, none) else encodeLoopAt out (out + outlen) inlen m input out

def decodeLoopAt (out wend : Nat) : Nat → (Nat → UInt8) → Nat → Nat → (Nat → UInt8) × Option Nat
  | 0, m, _, _ => (m, none)
  | left + 1, m, p, w =>
    if m p = END then (m, some (w - out))
    else if m p = ESC then
      match left with
      | 0 => (m, none)
      | left + 1 =>
        if m (p + 1) = ESCEND then
          if w ≥ wend then (m, none)
          else decodeLoopAt out wend left (Function.update m w END) (p + 2) (w + 1)
        else if m (p + 1) = ESCESC then
          if w ≥ wend then (m, none)
          else decodeLoopAt out wend left (Function.update m w ESC) (p + 2) (w + 1)
        else (m, none)
    else if w ≥ wend then (m, none)
    else decodeLoopAt out wend left (Function.update m w (m p)) (p + 1) (w + 1)

def decodePacketAt (m : Nat → UInt8) (input inlen out outlen : Nat) : (Nat → UInt8) × Option Nat :=
  decodeLoopAt out (out + outlen) inlen m input out

/-- Every byte is read before the write pointer comes to it: what is stored lies
before the read pointer or behind the input, or the output buffer is full before
the read pointer gets to it. -/
theorem decodeLoopAt_eq (m : Nat → UInt8) (out outlen k p : Nat) (w : List UInt8)
    (h : out + w.length ≤ p ∨ p + k ≤ out ∨
      w.length ≤ outlen ∧ p + 2 * (outlen - w.length) < out) :
    decodeLoopAt out (out + outlen) k (fill m out w) p (out + w.length) =
      (fill m out (decodeLoop outlen (load m p k) w).1, (decodeLoop outlen (load m p k) w).2) := by
  -- an escape takes two bytes at a time
  induction k using Nat.strongRecOn generalizing p w with
  | _ k ih =>
    have hfull : out + w.length ≥ out + outlen ↔ w.length ≥ outlen := by omega
    have hnext (c : UInt8) {i j : Nat} (hi : 1 ≤ i ∧ i ≤ 2) (hk : k = i + j)
        (hroom : ¬ w.length ≥ outlen) :
        decodeLoopAt out (out + outlen) j
            (Function.update (fill m out w) (out + w.length) c) (p + i) (out + w.length + 1) =
          (fill m out (decodeLoop outlen (load m (p + i) j) (w ++ [c])).1,
            (decodeLoop outlen (load m (p + i) j) (w ++ [c])).2) := by
      have hlen : (w ++ [c]).length = w.length + 1 := by simp
      rw [← fill_concat, Nat.add_assoc out, ← hlen]
      exact ih j (by omega) (p + i) (w ++ [c]) (by omega)
    match k with
    | 0 => rfl
    | 1 =>
      have hread : fill m out w p = m p := fill_outside m (by omega)
      simp only [decodeLoopAt, load_succ, load_zero, decodeLoop, hfull, hread]
      split_ifs
      · simp only [Nat.add_sub_cancel_left]
      · rfl
      · rfl
      · rw [← fill_concat]
    | k + 2 =>
      have hread : fill m out w p = m p := fill_outside m (by omega)
      simp only [decodeLoopAt, load_succ, decodeLoop, hfull, hread]
      by_cases hroom : w.length ≥ outlen
      · -- whatever comes after an `ESC`, the call fails
        simp only [hroom, ↓reduceIte, ite_self]
        split_ifs
        · simp only [Nat.add_sub_cancel_left]
        · rfl
      · have hread' : fill m out w (p + 1) = m (p + 1) := fill_outside m (by omega)
        simp only [hroom, ↓reduceIte, hread']
        split_ifs
        · simp only [Nat.add_sub_cancel_left]
        · exact hnext END (by omega) (by omega) hroom
        · exact hnext ESC (by omega) (by omega) hroom
        · rfl
        · exact hnext _ (by omega) (by omega) hroom

theorem decodeLoopAt_unit (m : Nat → UInt8) (out outlen k p : Nat) (w : List UInt8) (c : UInt8)
    (hload : load m p (stuffOne slip c).length = stuffOne slip c)
    (hp : p + (stuffOne slip c).length ≤ out) (hroom : w.length < outlen) :
    decodeLoopAt out (out + outlen) ((stuffOne slip c).length + k) (fill m out w) p
        (out + w.length) =
      decodeLoopAt out (out + outlen) k (fill m out (w ++ [c])) (p + (stuffOne slip c).length)
        (out + (w ++ [c]).length) := by
  have hfull : ¬ out + w.length ≥ out + outlen := by omega
  have hlen : out + (w ++ [c]).length = out + w.length + 1 := by simp [Nat.add_assoc]
  rw [fill_concat, hlen]
  by_cases hend : c = END
  · subst hend
    simp only [escapeOne_END, List.length_cons, List.length_nil, load_succ, load_zero,
      List.cons.injEq, and_true] at hload hp ⊢
    have hread : fill m out w p = ESC := by rw [fill_outside m (by omega), hload.1]
    have hread' : fill m out w (p + 1) = ESCEND := by rw [fill_outside m (by omega), hload.2]
    have hne : ESC ≠ END := by decide
    rw [Nat.add_comm _ k]
    simp only [decodeLoopAt, hread, hread', hne, hfull, ↓reduceIte]
  · by_cases hesc : c = ESC
    · subst hesc
      simp only [escapeOne_ESC, List.length_cons, List.length_nil, load_succ, load_zero,
        List.cons.injEq, and_true] at hload hp ⊢
      have hread : fill m out w p = ESC := by rw [fill_outside m (by omega), hload.1]
      have hread' : fill m out w (p + 1) = ESCESC := by rw [fill_outside m (by omega), hload.2]
      have hne : ESC ≠ END := by decide
      have hne' : ESCESC ≠ ESCEND := by decide
      rw [Nat.add_comm _ k]
      simp only [decodeLoopAt, hread, hread', hne, hne', hfull, ↓reduceIte]
    · simp only [escapeOne_other hend hesc, List.length_cons, List.length_nil, load_succ,
        load_zero, List.cons.injEq, and_true] at hload hp ⊢
      have hread : fill m out w p = c := by rw [fill_outside m (by omega), hload]
      rw [Nat.add_comm _ k]
      conv_lhs => unfold decodeLoopAt
      simp only [hread, hend, hesc, hfull, ↓reduceIte]

theorem decodeLoopAt_escape (m : Nat → UInt8) (out outlen k p : Nat) (w xs : List UInt8)
    (hload : load m p (escape xs).length = escape xs) (hp : p + (escape xs).length ≤ out)
    (hroom : w.length + xs.length ≤ outlen) :
    decodeLoopAt out (out + outlen) ((escape xs).length + k) (fill m out w) p (out + w.length) =
      decodeLoopAt out (out + outlen) k (fill m out (w ++ xs)) (p + (escape xs).length)
        (out + (w ++ xs).length) := by
  induction xs generalizing p w with
  | nil => simp
  | cons c xs ih =>
    rw [escape_cons, List.length_append] at hload hp ⊢
    rw [List.length_cons] at hroom
    obtain ⟨hfst, hsnd⟩ := List.append_inj (load_append m p _ _ ▸ hload) (length_load m p _)
    rw [Nat.add_assoc, decodeLoopAt_unit m out outlen _ p w c hfst (by omega) (by omega),
      ih (p + (stuffOne slip c).length) (w ++ [c]) hsnd (by omega) (by simp; omega),
      List.append_assoc, Nat.add_assoc]
    rfl

theorem decodeLoopAt_le (m : Nat → UInt8) (out wend k p w n : Nat) (hw : out ≤ w)
    (h : (decodeLoopAt out wend k m p w).2 = some n) :
    w ≤ out + n ∧ (m p ≠ END → w < out + n) := by
  induction k using Nat.strongRecOn generalizing m p w with
  | _ k ih =>
    have hnext {j p' : Nat} {m' : Nat → UInt8} (hj : j < k)
        (hrun : (decodeLoopAt out wend j m' p' (w + 1)).2 = some n) :
        w ≤ out + n ∧ (m p ≠ END → w < out + n) := by
      have hle := (ih j hj m' p' (w + 1) (by omega) hrun).1
      exact ⟨by omega, fun _ => by omega⟩
    match k with
    | 0 => simp [decodeLoopAt] at h
    | 1 =>
      simp only [decodeLoopAt] at h
      split_ifs at h with hend
      · simp only [Option.some.injEq] at h
        exact ⟨by omega, fun hne => absurd hend hne⟩
    | k + 2 =>
      simp only [decodeLoopAt] at h
      split_ifs at h with hend
      · simp only [Option.some.injEq] at h
        exact ⟨by omega, fun hne => absurd hend hne⟩
      · exact hnext (by omega) h
      · exact hnext (by omega) h
      · exact hnext (by omega) h

/-- The payload whose escaped form has `n` bytes and holds as many as can be of
the bytes that take two. -/
def dense (n : Nat) : List UInt8 := List.replicate (n % 2) 0 ++ List.replicate (n / 2) ESC

theorem length_escape_dense (n : Nat) : (escape (dense n)).length = n := by
  have hesc (k : Nat) : (escape (List.replicate k ESC)).length = 2 * k := by
    induction k with
    | zero => rfl
    | succ k ih =>
      rw [List.replicate_succ, escape_cons, List.length_append, ih, escapeOne_ESC]
      simp only [List.length_cons, List.length_nil]
      omega
  have hzero (k : Nat) : (escape (List.replicate k 0)).length = k := by
    induction k with
    | zero => rfl
    | succ k ih =>
      rw [List.replicate_succ, escape_cons, List.length_append, ih,
        escapeOne_other (by decide) (by decide), List.length_singleton]
      omega
  rw [dense, escape_append, List.length_append, hesc, hzero]
  omega

theorem END_notMem_dense (n : Nat) : END ∉ dense n := by
  intro h
  rcases List.mem_append.mp h with h | h
  · exact absurd (List.eq_of_mem_replicate h) (by decide)
  · exact absurd (List.eq_of_mem_replicate h) (by decide)

theorem decodePacketAt_collides {input inlen out outlen : Nat} (hgt : input < out)
    (hlt : out < input + inlen) (hle : out ≤ input + 2 * outlen) :
    ∃ m, (decodePacketAt m input inlen out outlen).2 ≠
      (decodePacket (load m input inlen) outlen).2 := by
  -- the payload ends where the output begins, so its first byte is stored over its `END`
  obtain ⟨n, rfl⟩ : ∃ n, out = input + n := ⟨out - input, by omega⟩
  obtain ⟨k, rfl⟩ : ∃ k, inlen = n + (k + 1) := ⟨inlen - n - 1, by omega⟩
  have hlen : (dense n).length ≤ outlen := by
    simp only [dense, List.length_append, List.length_replicate]
    omega
  have hesc := length_escape_dense n
  let m : Nat → UInt8 := fill (fun _ => 0) input (packet (dense n))
  have hload : load m input n ++ [m (input + n)] = packet (dense n) := by
    have hfill := load_fill (fun _ => 0) input (packet (dense n))
    rw [packet, List.length_append, List.length_singleton, hesc, load_append] at hfill
    exact hfill
  obtain ⟨hpay, hend⟩ := List.append_inj hload (by rw [length_load, hesc])
  refine ⟨m, ?_⟩
  have hlist : (decodePacket (load m input (n + (k + 1))) outlen).2 = some (dense n).length := by
    have hframe : load m input (n + (k + 1)) = frame (dense n) ++ load m (input + n + 1) k := by
      rw [load_append, load_succ, frame_eq, ← hpay, ← hend, List.append_assoc,
        List.singleton_append]
    rw [hframe, decodePacket_frame _ _ _ hlen]
  have hmem : decodePacketAt m input (n + (k + 1)) (input + n) outlen =
      decodeLoopAt (input + n) (input + n + outlen) (k + 1) (fill m (input + n) (dense n))
        (input + n) (input + n + (dense n).length) := by
    have h := decodeLoopAt_escape m (input + n) outlen (k + 1) input [] (dense n)
      (by rw [hesc, hpay]) (by omega) (by simpa using hlen)
    rw [hesc] at h
    simpa [decodePacketAt] using h
  have hstart : fill m (input + n) (dense n) (input + n) ≠ END := by
    cases hd : dense n with
    | nil =>
      rw [hd, escape_nil, List.length_nil] at hesc
      omega
    | cons d rest =>
      rw [fill_cons_self]
      rintro rfl
      exact END_notMem_dense n (hd ▸ List.mem_cons_self)
  rw [hlist, hmem]
  intro hrun
  have := (decodeLoopAt_le _ _ _ _ _ _ _ (Nat.le_add_right _ _) hrun).2 hstart
  omega

/-- `decode_packet` in memory does what it does on lists, for everything the memory
may hold, exactly when the output begins no later than the input, or behind it, or
so far on that the call runs out of room before it reads there. -/
theorem decodePacketAt_eq_iff (input inlen out outlen : Nat) :
    (∀ m, decodePacketAt m input inlen out outlen =
      (fill m out (decodePacket (load m input inlen) outlen).1,
        (decodePacket (load m input inlen) outlen).2)) ↔
      out ≤ input ∨ input + inlen ≤ out ∨ input + 2 * outlen < out := by
  constructor
  · intro h
    by_contra hn
    simp only [not_or, Nat.not_le, Nat.not_lt] at hn
    obtain ⟨m, hm⟩ := decodePacketAt_collides hn.1 hn.2.1 hn.2.2
    exact hm (congrArg Prod.snd (h m))
  · intro h m
    exact decodeLoopAt_eq m out outlen inlen input [] (by simpa using h)

theorem fill_concat_two (m : Nat → UInt8) (a : Nat) (xs : List UInt8) (x y : UInt8) :
    fill m a (xs ++ [x, y]) =
      Function.update (Function.update (fill m a xs) (a + xs.length) x) (a + xs.length + 1) y :=
  fill_append m a xs [x, y]

theorem encodeLoopAt_eq (m : Nat → UInt8) (out outlen k p : Nat) (w : List UInt8)
    (h : p + k ≤ out ∨ out + w.length + (escape (load m p k)).length ≤ p + k ∨
      w.length ≤ outlen ∧ out + outlen ≤ p) :
    encodeLoopAt out (out + outlen) k (fill m out w) p (out + w.length) =
      (fill m out (encodeLoop outlen (load m p k) w).1, (encodeLoop outlen (load m p k) w).2) := by
  induction k generalizing p w with
  | zero =>
    have hfull : out + w.length + 1 > out + outlen ↔ w.length + 1 > outlen := by omega
    have hsub : out + w.length + 1 - out = w.length + 1 := by omega
    simp only [encodeLoopAt, load_zero, encodeLoop, hfull, hsub]
    split_ifs
    · rfl
    · rw [fill_concat]
  | succ k ih =>
    have hlen := length_le_escape (load m p (k + 1))
    rw [length_load] at hlen
    have hread : fill m out w p = m p := fill_outside m (by omega)
    have hnext (hroom : w.length + (stuffOne slip (m p)).length < outlen) :
        encodeLoopAt out (out + outlen) k (fill m out (w ++ stuffOne slip (m p))) (p + 1)
            (out + (w.length + (stuffOne slip (m p)).length)) =
          (fill m out (encodeLoop outlen (load m (p + 1) k) (w ++ stuffOne slip (m p))).1,
            (encodeLoop outlen (load m (p + 1) k) (w ++ stuffOne slip (m p))).2) := by
      rw [load_succ, escape_cons, List.length_append] at h
      rw [← List.length_append]
      apply ih
      rw [List.length_append]
      omega
    have hfull (i : Nat) : out + w.length + i ≥ out + outlen ↔ w.length + i ≥ outlen := by omega
    rw [load_succ]
    simp only [encodeLoopAt, encodeLoop, hread, hfull]
    by_cases hend : m p = END
    · rw [hend, escapeOne_END, fill_concat_two] at hnext
      rw [if_pos hend, if_pos hend]
      split_ifs with hroom
      · rfl
      · exact hnext (Nat.lt_of_not_le hroom)
    · by_cases hesc : m p = ESC
      · rw [hesc, escapeOne_ESC, fill_concat_two] at hnext
        rw [if_neg hend, if_neg hend, if_pos hesc, if_pos hesc]
        split_ifs with hroom
        · rfl
        · exact hnext (Nat.lt_of_not_le hroom)
      · rw [escapeOne_other hend hesc, fill_concat] at hnext
        rw [if_neg hend, if_neg hend, if_neg hesc, if_neg hesc]
        split_ifs with hroom
        · rfl
        · exact hnext (Nat.lt_of_not_le hroom)

theorem encodePacketAt_eq (m : Nat → UInt8) (input inlen out outlen : Nat)
    (h : input + inlen ≤ out ∨ out + (escape (load m input inlen)).length ≤ input + inlen ∨
      out + outlen ≤ input) :
    encodePacketAt m input inlen out outlen =
      (fill m out (encodePacket (load m input inlen) outlen).1,
        (encodePacket (load m input inlen) outlen).2) := by
  rw [encodePacketAt, encodePacket, length_load]
  split_ifs
  · rfl
  · exact encodeLoopAt_eq m out outlen inlen input [] (by simpa using h)

/-- A payload with room in front of it for its escapes is encoded towards the front
of its own buffer and decoded again in place, and no byte outside the frame is
touched. -/
theorem round_trip_in_place (m : Nat → UInt8) (a input outlen : Nat) (p : List UInt8)
    (hp : load m input p.length = p) (hfront : a + (escape p).length ≤ input + p.length)
    (hfit : encodedLength p ≤ outlen) :
    ∃ m' m'', encodePacketAt m input p.length a outlen = (m', some (encodedLength p)) ∧
      load m' a (encodedLength p) = frame p ∧
      (∀ rest k, p.length ≤ k →
        decodePacketAt m' a (encodedLength p + rest) a k = (m'', some p.length)) ∧
      load m'' a p.length = p ∧
      ∀ i, i < a ∨ a + encodedLength p ≤ i → m'' i = m i := by
  have hframe : (frame p).length = encodedLength p := by
    rw [frame_eq, List.length_append, List.length_singleton, encodedLength_eq]
  have hshort := length_le_escape p
  have hcode := encodePacketAt_eq m input p.length a outlen (by rw [hp]; omega)
  rw [hp, encodePacket_of_le p outlen hfit, packet, ← frame_eq] at hcode
  have hload : load (fill m a (frame p)) a (encodedLength p) = frame p := by
    rw [← hframe, load_fill]
  refine ⟨fill m a (frame p), fill (fill m a (frame p)) a p, hcode, hload, ?_,
    load_fill _ a p, ?_⟩
  · intro rest k hk
    have hrun := decodeLoopAt_eq (fill m a (frame p)) a k (encodedLength p + rest) a []
      (Or.inl (Nat.le_refl a))
    rw [load_append, hload, ← decodePacket, decodePacket_frame p _ k hk] at hrun
    exact hrun
  · intro i hi
    have hlen := encodedLength_eq p
    rw [fill_outside _ (by omega), fill_outside _ (by omega)]

theorem round_trip_in_place_three :
    ∃ m' m'', encodePacketAt (fill (fun _ => 0) 13 [END, 0x01, ESC]) 13 3 11 6 = (m', some 6) ∧
      load m' 11 6 = [ESC, ESCEND, 0x01, ESC, ESCESC, END] ∧
      decodePacketAt m' 11 6 11 6 = (m'', some 3) ∧ load m'' 11 3 = [END, 0x01, ESC] := by
  obtain ⟨m', m'', hcode, hload, hrun, hback, _⟩ := round_trip_in_place
    (fill (fun _ => 0) 13 [END, 0x01, ESC]) 11 13 6 [END, 0x01, ESC] (load_fill _ 13 _)
    (by decide) (by decide)
  exact ⟨m', m'', hcode, hload, hrun 0 6 (by decide), hback⟩

end SlipStream.BufferMemory
