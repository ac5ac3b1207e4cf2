import SlipStream.DecoderCalls
import SlipStream.ReceiverLimits

namespace SlipStream.DecoderResync

open Format Transducer Receiver ReceiverLimits StreamDecoder DecoderReceiver DecoderCalls

theorem exOps_eq {n : UInt64} {l₁ l₂ : Bool} {d₁ d₂ : Decoder} {s : Partial UInt8}
    (h₁ : Related n l₁ d₁ s) (h₂ : Related n l₂ d₂ s) (xs : List UInt8) :
    exOps d₁ xs = exOps d₂ xs := by
  induction xs generalizing d₁ d₂ s with
  | nil => rfl
  | cons c xs ih =>
    have he : (StreamDecoder.consumeExByte d₁ c).2.hasError =
        (StreamDecoder.consumeExByte d₂ c).2.hasError := by
      rw [Bool.eq_iff_iff, hasError_iff_refuses, hasError_iff_refuses, refuses_iff h₁,
        refuses_iff h₂]
    rw [exOps, exOps, he, ih (related_consumeExByte h₁ c).1 (related_consumeExByte h₂ c).1]

theorem Call.ops_eq {n : UInt64} {l₁ l₂ : Bool} {d₁ d₂ : Decoder} {s : Partial UInt8}
    (h₁ : Related n l₁ d₁ s) (h₂ : Related n l₂ d₂ s) (call : Call) :
    call.ops d₁ = call.ops d₂ := by
  cases call with
  | consumeEx xs => exact exOps_eq h₁ h₂ xs
  | consumeChunkEx xs chunkSize => exact exOps_eq h₁ h₂ xs
  | _ => rfl

theorem ops_eq {n : UInt64} {l₁ l₂ : Bool} {d₁ d₂ : Decoder} {s : Partial UInt8}
    (h₁ : Related n l₁ d₁ s) (h₂ : Related n l₂ d₂ s) (calls : List Call) :
    ops d₁ calls = ops d₂ calls := by
  induction calls generalizing d₁ d₂ s with
  | nil => rfl
  | cons call calls ih =>
    have hc := Call.ops_eq h₁ h₂ call
    have hr₁ := (run_related h₁ (call.ops d₁)).1
    have hr₂ := (run_related h₂ (call.ops d₂)).1
    rw [hc] at hr₁
    rw [ops, ops, hc, ih hr₁ hr₂]

/-- The bytes a list of calls looks at end in `END`, read by `consume` or by
`consume_ex`. -/
def EndsFrame (d : Decoder) (calls : List Call) : Prop :=
  ∃ os, ops d calls = os ++ [.consume END] ∨ ops d calls = os ++ [.consumeEx END]

theorem related_after_END {n : UInt64} {logging : Bool} {d : Decoder} {s : Partial UInt8}
    (h : Related n logging d s) (calls : List Call) (hend : EndsFrame d calls) :
    Related n logging (run Op.step d (ops d calls)).1 .empty := by
  obtain ⟨os, hops⟩ := hend
  obtain ⟨keep, hin⟩ :
      ∃ keep, (ops d calls).map Op.input = os.map Op.input ++ [.symbol keep END] := by
    obtain hops | hops := hops
    · exact ⟨true, by rw [hops, List.map_append]; rfl⟩
    · exact ⟨false, by rw [hops, List.map_append]; rfl⟩
  have hr := (run_related h (ops d calls)).1
  rw [hin, run_append] at hr
  have hstop := receive_stop slip n.toNat (run (receive slip n.toNat) s (os.map Op.input)).1 keep
  simp only [run_cons, run_nil] at hr
  rwa [show (receive slip n.toNat (run (receive slip n.toNat) s (os.map Op.input)).1
    (.symbol keep END)).1 = _ from hstop] at hr

/-- After an `END` the messages depend on what follows it and on nothing that
came before. -/
theorem delivered_after_END (n : UInt64) (hn : 1 ≤ n.toNat) (d₁ d₂ : Decoder)
    (hd₁ : Fresh n d₁) (hd₂ : Fresh n d₂) (g₁ g₂ calls : List Call)
    (hg₁ : ∀ call ∈ g₁, call.Returns) (hg₂ : ∀ call ∈ g₂, call.Returns)
    (hcalls : ∀ call ∈ calls, call.Returns)
    (hend₁ : EndsFrame d₁ g₁) (hend₂ : EndsFrame d₂ g₂) :
    ∃ r₁ r₂ s₁ s₂, exec d₁ g₁ = some r₁ ∧ exec d₂ g₂ = some r₂ ∧
      exec r₁.1.1 calls = some s₁ ∧ exec r₂.1.1 calls = some s₂ ∧
      delivered s₁.1.2 = delivered s₂.1.2 := by
  obtain ⟨res₁, he₁⟩ := exec_eq_run d₁ g₁ hg₁
  obtain ⟨res₂, he₂⟩ := exec_eq_run d₂ g₂ hg₂
  have hr₁ := related_after_END (related_of_fresh hd₁ hn) g₁ hend₁
  have hr₂ := related_after_END (related_of_fresh hd₂ hn) g₂ hend₂
  obtain ⟨out₁, hs₁⟩ := exec_eq_run (run Op.step d₁ (ops d₁ g₁)).1 calls hcalls
  obtain ⟨out₂, hs₂⟩ := exec_eq_run (run Op.step d₂ (ops d₂ g₂)).1 calls hcalls
  refine ⟨_, _, _, _, he₁, he₂, hs₁, hs₂, ?_⟩
  rw [delivered_eq (run_related hr₁ _).2, delivered_eq (run_related hr₂ _).2, ops_eq hr₁ hr₂]

theorem delivered_after_END_escaped :
    ∃ r₁ r₂ s₁ s₂, exec (new (fun _ => 0) 4 true) [.consume [0x01, ESC, END]] = some r₁ ∧
      exec (new (fun _ => 7) 4 true) [.consumeEx [0x02], .consumeExByte END] = some r₂ ∧
      exec r₁.1.1 [.consume [0x05], .consumeEx [END]] = some s₁ ∧
      exec r₂.1.1 [.consume [0x05], .consumeEx [END]] = some s₂ ∧
      delivered s₁.1.2 = delivered s₂.1.2 :=
  delivered_after_END 4 (by decide) _ _ ⟨_, _, Or.inl rfl⟩ ⟨_, _, Or.inl rfl⟩ _ _ _
    (by simp [Call.Returns]) (by simp [Call.Returns]) (by simp [Call.Returns])
    ⟨[.consume 0x01, .consume ESC], Or.inl rfl⟩ ⟨[.consumeEx 0x02], Or.inr rfl⟩

def consumeExEach (d : Decoder) (xs : List UInt8) : Decoder × List Event :=
  run (fun d c => (StreamDecoder.consumeExByte d c).1) d xs

/-- What a stream leaves of an unfinished frame when there is no limit on its
length. -/
def unfinished (xs : List UInt8) : List UInt8 := (run (assemble slip) .empty xs).1.acc

theorem run_map_consumeEx (d : Decoder) (xs : List UInt8) :
    run Op.step d (xs.map .consumeEx) = consumeExEach d xs := by
  induction xs generalizing d with
  | nil => rfl
  | cons c xs ih =>
    rw [List.map_cons, run_cons, ih]
    rfl

theorem agree_iff {n : UInt64} {logging : Bool} {d : Decoder} {s : Partial UInt8}
    (h : Related n logging d s) (xs : List UInt8) :
    (delivered (consume d xs).2 = delivered (consumeExEach d xs).2 ∧
      (consume d xs).1.rxbufPos = (consumeExEach d xs).1.rxbufPos ∧
      (consume d xs).1.lastCharIsEsc = (consumeExEach d xs).1.lastCharIsEsc) ↔
      Agree slip n.toNat s xs := by
  obtain ⟨hc, hce⟩ := run_related h (xs.map .consume)
  obtain ⟨hx, hxe⟩ := run_related h (xs.map .consumeEx)
  rw [run_map_consume, List.map_map] at hc hce
  rw [run_map_consumeEx, List.map_map] at hx hxe
  rw [delivered_eq hce, delivered_eq hxe, ← UInt64.toNat_inj, hc.pos_eq, hx.pos_eq, hc.esc_eq,
    hx.esc_eq]
  rfl

/-- `consume_ex`, byte by byte, keeps in step with `consume` exactly as long as
no byte meets a buffer without two free places. -/
theorem consumeExEach_agrees_iff (n : UInt64) (hn : 2 ≤ n.toNat) (d : Decoder) (hd : Fresh n d)
    (xs : List UInt8) :
    (∀ q, q <+: xs →
      delivered (consume d q).2 = delivered (consumeExEach d q).2 ∧
        (consume d q).1.rxbufPos = (consumeExEach d q).1.rxbufPos ∧
        (consume d q).1.lastCharIsEsc = (consumeExEach d q).1.lastCharIsEsc) ↔
      ∀ q c r, xs = q ++ c :: r → (unfinished q).length + 2 ≤ n.toNat := by
  have hr := related_of_fresh hd (Nat.lt_of_lt_of_le Nat.zero_lt_two hn)
  have hfit := (agree_iff_fits slip n.toNat .empty xs).trans (fits_iff slip n.toNat .empty xs)
  rw [show (∀ q c r, xs = q ++ c :: r → (unfinished q).length + 2 ≤ n.toNat) ↔ _ from hfit.symm]
  constructor
  · intro h q hq
    exact (agree_iff hr q).mp (h q hq)
  · intro h q hq
    exact (agree_iff hr q).mpr (h q hq)

theorem consumeExEach_agrees_iff_short :
    (∀ q, q <+: [0x01, ESC, ESCEND, END] →
      delivered (consume (new (fun _ => 0) 4 true) q).2 =
          delivered (consumeExEach (new (fun _ => 0) 4 true) q).2 ∧
        (consume (new (fun _ => 0) 4 true) q).1.rxbufPos =
          (consumeExEach (new (fun _ => 0) 4 true) q).1.rxbufPos ∧
        (consume (new (fun _ => 0) 4 true) q).1.lastCharIsEsc =
          (consumeExEach (new (fun _ => 0) 4 true) q).1.lastCharIsEsc) ↔
      ∀ q c r, [0x01, ESC, ESCEND, END] = q ++ c :: r → (unfinished q).length + 2 ≤ 4 :=
  consumeExEach_agrees_iff 4 (by decide) _ ⟨_, _, Or.inl rfl⟩ [0x01, ESC, ESCEND, END]

theorem consumeExEach_drops_byte :
    2 ≤ (3 : UInt64).toNat ∧
      delivered (consume (new (fun _ => 0) 3 true) [0x01, 0x02, 0x03, END]).2 ≠
        delivered (consumeExEach (new (fun _ => 0) 3 true) [0x01, 0x02, 0x03, END]).2 := by
  decide

end SlipStream.DecoderResync
