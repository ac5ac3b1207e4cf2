import SlipStream.DecoderCalls

namespace SlipStream.DecoderSafety

open Format Transducer Receiver StreamDecoder DecoderReceiver DecoderCalls

/-- Before each operation `rxbufPos` is within the buffer, so `rxbufSize -
rxbufPos` does not wrap, and what the operation stores is within it too. -/
def Safe (n : UInt64) (d : Decoder) (os : List Op) : Prop :=
  ∀ q op r, os = q ++ op :: r →
    (run Op.step d q).1.rxbufPos ≤ n ∧
      ∀ i b, .store i b ∈ (Op.step (run Op.step d q).1 op).2 → i < n.toNat

/-- The bytes a call hands to `consume`, directly or in chunks. -/
def plainData : Call → List UInt8
  | .consume data | .consumeChunk data _ => data
  | .consumeByte c => [c]
  | _ => []

theorem store_index {d : Decoder} {c : UInt8} {i : Nat} {b : UInt8}
    (h : Event.store i b ∈ (dispatch d c).2) : i = d.rxbufPos.toNat := by
  have hstore : ∀ v, Event.store i b ∈ (store d v).2 → i = d.rxbufPos.toNat := by
    intro v hv
    simp only [store, List.mem_singleton, Event.store.injEq] at hv
    exact hv.1
  simp only [dispatch, consumeEscaped, consumePlain] at h
  split_ifs at h
  · exact hstore END h
  · exact hstore ESC h
  · simp [escapeDone] at h
  · simp at h
  · simp at h
  · exact hstore c h

theorem store_not_overflow {d : Decoder} {i : Nat} {b : UInt8} :
    Event.store i b ∉ (overflow d).2 := by
  simp only [overflow]
  split_ifs <;> simp

theorem store_consumeByte {d : Decoder} {c : UInt8} {i : Nat} {b : UInt8}
    (h : Event.store i b ∈ (consumeByte d c).2) :
    i = if full d then 0 else d.rxbufPos.toNat := by
  by_cases hfull : full d = true
  · simp only [consumeByte, if_pos hfull, List.mem_append] at h ⊢
    obtain h | h := h
    · exact absurd h store_not_overflow
    · exact store_index h
  · rw [consumeByte_of_room hfull] at h
    rw [if_neg hfull]
    exact store_index (c := c) h

theorem store_consumeExByte {d : Decoder} {c : UInt8} {i : Nat} {b : UInt8}
    (h : Event.store i b ∈ (consumeExByte d c).1.2) :
    full d = false ∧ i = d.rxbufPos.toNat := by
  by_cases hfull : full d = true
  · rw [consumeExByte_of_full hfull] at h
    exact absurd h store_not_overflow
  · refine ⟨Bool.eq_false_iff.mpr hfull, ?_⟩
    obtain he | he := consumeExByte_of_room d c hfull
    · rw [he] at h
      exact store_index (c := c) h
    · rw [he] at h
      exact store_index h

theorem store_step {n : UInt64} {logging : Bool} {d : Decoder} {s : Partial UInt8}
    (h : Related n logging d s) (op : Op) (i : Nat) (b : UInt8)
    (hmem : .store i b ∈ (Op.step d op).2) : i < n.toNat := by
  have hpos := h.pos_eq
  have hroom : full d = false → d.rxbufPos.toNat < n.toNat := by
    intro hf
    have hn : ¬ n.toNat < s.acc.length + 2 := fun hlt =>
      Bool.eq_false_iff.mp hf ((full_iff h).mpr hlt)
    omega
  cases op with
  | consume c =>
    have hi := store_consumeByte hmem
    cases hf : full d with
    | true => simpa [hf, hi] using h.size_pos
    | false => simpa [hf, hi] using hroom hf
  | consumeEx c =>
    obtain ⟨hf, hi⟩ := store_consumeExByte hmem
    rw [hi]
    exact hroom hf
  | reset => simp [Op.step] at hmem

theorem safe_of_related {n : UInt64} {logging : Bool} {d : Decoder} {s : Partial UInt8}
    (h : Related n logging d s) (os : List Op) : Safe n d os := by
  intro q op r _
  have hr := (run_related h q).1
  exact ⟨UInt64.le_iff_toNat_le.mpr hr.pos_le, store_step hr op⟩

theorem safe_cons (n : UInt64) (d : Decoder) (op : Op) (os : List Op) :
    Safe n d (op :: os) ↔
      (d.rxbufPos ≤ n ∧ ∀ i b, .store i b ∈ (Op.step d op).2 → i < n.toNat) ∧
        Safe n (Op.step d op).1 os := by
  constructor
  · intro h
    refine ⟨h [] op os rfl, ?_⟩
    intro q op' r hq
    exact h (op :: q) op' r (by rw [hq, List.cons_append])
  · rintro ⟨hop, hrest⟩ q op' r hq
    cases q with
    | nil =>
      obtain ⟨rfl, -⟩ := List.cons.inj hq
      exact hop
    | cons op₀ q =>
      obtain ⟨rfl, hq'⟩ := List.cons.inj hq
      exact hrest q op' r hq'

/-- A decoder over an empty buffer that nothing has been stored in. -/
def Bare (d : Decoder) : Prop := d.rxbufSize = 0 ∧ d.rxbufPos = 0

theorem full_of_bare {d : Decoder} (h : Bare d) : full d = true := by
  rw [full, h.1, h.2]
  rfl

def Harmless : Op → Prop
  | .consume c => c = END ∨ c = ESC
  | _ => True

theorem consumeByte_of_bare {d : Decoder} (h : Bare d) (c : UInt8) :
    ((c = END ∨ c = ESC) ∧ Bare (consumeByte d c).1 ∧
        ∀ i b, Event.store i b ∉ (consumeByte d c).2) ∨
      (¬ (c = END ∨ c = ESC) ∧ Event.store 0 c ∈ (consumeByte d c).2) := by
  have hesc : (overflow d).1.lastCharIsEsc = false := rfl
  have hpos : (overflow d).1.rxbufPos.toNat = 0 := rfl
  simp only [consumeByte, if_pos (full_of_bare h), dispatch, hesc, Bool.false_eq_true, if_false]
  by_cases hs : c = END
  · subst hs
    left
    refine ⟨Or.inl rfl, ⟨h.1, rfl⟩, ?_⟩
    simp [consumePlain, counted, store_not_overflow]
  · by_cases he : c = ESC
    · subst he
      left
      simp only [consumePlain, if_neg hs, if_pos]
      refine ⟨Or.inr trivial, ⟨h.1, rfl⟩, ?_⟩
      simp [counted, store_not_overflow]
    · right
      refine ⟨by simp [hs, he], ?_⟩
      simp [consumePlain, counted, hs, he, store, hpos]

theorem step_of_bare {d : Decoder} (h : Bare d) (op : Op) :
    (Harmless op ∧ Bare (Op.step d op).1 ∧ ∀ i b, Event.store i b ∉ (Op.step d op).2) ∨
      (¬ Harmless op ∧ ∃ b, Event.store 0 b ∈ (Op.step d op).2) := by
  cases op with
  | consume c =>
    obtain hc | ⟨hc, hst⟩ := consumeByte_of_bare h c
    · exact Or.inl hc
    · exact Or.inr ⟨hc, c, hst⟩
  | consumeEx c =>
    left
    rw [Op.step, consumeExByte_of_full (full_of_bare h)]
    exact ⟨trivial, ⟨h.1, rfl⟩, fun i b => store_not_overflow⟩
  | reset => exact Or.inl ⟨trivial, ⟨h.1, rfl⟩, fun i b hm => by cases hm⟩

theorem safe_of_bare (os : List Op) {d : Decoder} (h : Bare d) :
    Safe 0 d os ↔ ∀ op ∈ os, Harmless op := by
  induction os generalizing d with
  | nil =>
    refine ⟨fun _ op hop => absurd hop List.not_mem_nil, ?_⟩
    intro _ q op r hq
    simp at hq
  | cons op os ih =>
    have hpos : d.rxbufPos ≤ 0 := by
      rw [h.2]
      exact UInt64.le_refl 0
    rw [safe_cons, List.forall_mem_cons]
    obtain ⟨hop, hb, hno⟩ | ⟨hop, b, hst⟩ := step_of_bare h op
    · rw [ih hb]
      exact ⟨fun hsafe => ⟨hop, hsafe.2⟩,
        fun hall => ⟨⟨hpos, fun i b hm => absurd hm (hno i b)⟩, hall.2⟩⟩
    · exact ⟨fun hsafe => absurd (hsafe.1.2 0 b hst) (Nat.not_lt_zero _),
        fun hall => absurd hall.1 hop⟩

theorem harmless_exOps (d : Decoder) (xs : List UInt8) : ∀ op ∈ exOps d xs, Harmless op := by
  induction xs generalizing d with
  | nil => simp [exOps]
  | cons c xs ih =>
    rw [exOps, List.forall_mem_cons]
    refine ⟨trivial, ?_⟩
    split_ifs
    · simp
    · exact ih _

theorem harmless_ops (d : Decoder) (calls : List Call) :
    (∀ op ∈ ops d calls, Harmless op) ↔
      ∀ call ∈ calls, ∀ b ∈ plainData call, b = END ∨ b = ESC := by
  induction calls generalizing d with
  | nil => simp [ops]
  | cons call calls ih =>
    rw [ops, List.forall_mem_append, ih, List.forall_mem_cons]
    have hcall : (∀ op ∈ call.ops d, Harmless op) ↔ ∀ b ∈ plainData call, b = END ∨ b = ESC := by
      cases call with
      | consume xs => simp [Call.ops, plainData, Harmless]
      | consumeByte c => simp [Call.ops, plainData, Harmless]
      | consumeEx xs => simpa [Call.ops, plainData] using harmless_exOps d xs
      | consumeExByte c => simp [Call.ops, plainData, Harmless]
      | consumeChunk xs chunkSize => simp [Call.ops, plainData, Harmless]
      | consumeChunkEx xs chunkSize => simpa [Call.ops, plainData] using harmless_exOps d xs
      | reset => simp [Call.ops, plainData, Harmless]
    rw [hcall]

/-- Whatever calls are made, nothing is stored outside the buffer, unless the
buffer is empty and `consume` gets to see a byte other than `END` and `ESC`. -/
theorem exec_safe_iff (n : UInt64) (d : Decoder) (hd : Fresh n d) (calls : List Call)
    (hcalls : ∀ call ∈ calls, call.Returns) :
    (∃ res, exec d calls = some (run Op.step d (ops d calls), res)) ∧
      (Safe n d (ops d calls) ↔
        1 ≤ n.toNat ∨ ∀ call ∈ calls, ∀ b ∈ plainData call, b = END ∨ b = ESC) := by
  refine ⟨exec_eq_run d calls hcalls, ?_⟩
  by_cases hn : 1 ≤ n.toNat
  · simp only [hn, true_or, iff_true]
    exact safe_of_related (related_of_fresh hd hn) _
  · have hzero : n = 0 := by
      apply UInt64.toNat_inj.mp
      rw [Nat.lt_one_iff.mp (Nat.not_le.mp hn)]
      rfl
    subst hzero
    have hbare : Bare d := by
      obtain ⟨rxbuf, callback, rfl | rfl⟩ := hd
      · exact ⟨rfl, rfl⟩
      · exact ⟨rfl, rfl⟩
    rw [safe_of_bare _ hbare, harmless_ops]
    simp

theorem exec_safe_iff_one :
    (∃ res, exec (new (fun _ => 0) 1 true) [.consume [0x01, 0x02], .reset, .consumeChunk [0x03] 2] =
        some (run Op.step (new (fun _ => 0) 1 true)
          (ops (new (fun _ => 0) 1 true) [.consume [0x01, 0x02], .reset, .consumeChunk [0x03] 2]),
          res)) ∧
      (Safe 1 (new (fun _ => 0) 1 true)
          (ops (new (fun _ => 0) 1 true) [.consume [0x01, 0x02], .reset, .consumeChunk [0x03] 2]) ↔
        1 ≤ (1 : UInt64).toNat ∨
          ∀ call ∈ [.consume [0x01, 0x02], .reset, .consumeChunk [0x03] 2],
            ∀ b ∈ plainData call, b = END ∨ b = ESC) :=
  exec_safe_iff 1 _ ⟨_, _, Or.inl rfl⟩ _ (by simp [Call.Returns])

theorem consume_writes_outside :
    Event.store 0 0x01 ∈ (consume (new (fun _ => 0) 0 true) [0x01]).2 ∧
      ¬ 0 < (0 : UInt64).toNat ∧
      ¬ (consume (new (fun _ => 0) 0 true) [0x01]).1.rxbufPos ≤ 0 := by
  decide

end SlipStream.DecoderSafety
