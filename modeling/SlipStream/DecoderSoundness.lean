import SlipStream.DecoderRoundTrip
import SlipStream.ReceiverSoundness

namespace SlipStream.DecoderSoundness

open Format Transducer Receiver ReceiverSoundness StreamDecoder DecoderReceiver DecoderCalls
open DecoderRoundTrip

def bytes (os : List Op) : List UInt8 := (os.map Op.input).filterMap symbol?

theorem bytes_append (os os' : List Op) : bytes (os ++ os') = bytes os ++ bytes os' := by
  simp [bytes]

theorem bytes_consume (xs : List UInt8) : bytes (xs.map .consume) = xs := by
  simp [bytes, Function.comp_def, Op.input, symbol?]

theorem bytes_consumeEx (xs : List UInt8) : bytes (xs.map .consumeEx) = xs := by
  simp [bytes, Function.comp_def, Op.input, symbol?]

theorem exOps_bytes_le (d : Decoder) (xs : List UInt8) : bytes (exOps d xs) <+: xs := by
  induction xs generalizing d with
  | nil => exact List.nil_prefix
  | cons c xs ih =>
    rw [exOps]
    split_ifs
    · exact ⟨xs, rfl⟩
    · exact List.cons_prefix_cons.mpr ⟨rfl, ih _⟩

theorem ops_bytes_le (d : Decoder) (call : Call) : bytes (call.ops d) <+: data call := by
  cases call with
  | consume xs | consumeChunk xs _ =>
    rw [Call.ops, bytes_consume]
    exact List.prefix_refl xs
  | consumeEx xs | consumeChunkEx xs _ => exact exOps_bytes_le d xs
  | consumeByte c | consumeExByte c => exact List.prefix_refl [c]
  | reset => exact List.nil_prefix

theorem bytes_of_ok {d : Decoder} {call : Call} (hcall : call.Returns)
    {r : Decoder × List Event} {res : Option ConsumeResult} (h : call.exec d = some (r, res))
    (hok : ∀ x ∈ res, x.hasError = false) : bytes (call.ops d) = data call := by
  cases call with
  | consume xs | consumeChunk xs _ => exact bytes_consume xs
  | consumeByte c | consumeExByte c => rfl
  | reset => rfl
  | consumeEx xs =>
    obtain ⟨-, rfl⟩ := Prod.mk.inj (Option.some.inj h)
    rw [Call.ops, (consumeExLoop_ok d xs 0 (hok _ rfl)).1, bytes_consumeEx]
    rfl
  | consumeChunkEx xs chunkSize =>
    rw [Call.exec, StreamDecoder.consumeChunkEx,
      consumeChunkExLoop_eq chunkSize hcall _ d xs 0 (Nat.lt_succ_self _), Option.map_some] at h
    obtain ⟨-, rfl⟩ := Prod.mk.inj (Option.some.inj h)
    have hex := hok _ rfl
    rw [Call.ops, (consumeExLoop_ok d xs 0 hex).1, bytes_consumeEx]
    rfl

/-- The bytes that the calls look at: those given to them, without what stands
behind an error in a call of `consume_ex`. -/
def looked (d : Decoder) (calls : List Call) : List UInt8 := bytes (ops d calls)

theorem looked_cons (d : Decoder) (call : Call) (calls : List Call) :
    looked d (call :: calls) =
      bytes (call.ops d) ++ looked (run Op.step d (call.ops d)).1 calls := by
  rw [looked, ops, bytes_append]
  rfl

theorem looked_sublist (d : Decoder) (calls : List Call) :
    (looked d calls).Sublist (calls.flatMap data) := by
  induction calls generalizing d with
  | nil => exact List.Sublist.refl []
  | cons call calls ih =>
    rw [looked_cons, List.flatMap_cons]
    exact (ops_bytes_le d call).sublist.append (ih _)

theorem looked_of_ok {d : Decoder} {calls : List Call} (hcalls : ∀ call ∈ calls, call.Returns)
    {r : Decoder × List Event} {res : List (Option ConsumeResult)}
    (h : exec d calls = some (r, res)) (hok : ∀ x, some x ∈ res → x.hasError = false) :
    looked d calls = calls.flatMap data := by
  induction calls generalizing d r res with
  | nil => rfl
  | cons call calls ih =>
    have hret := hcalls call List.mem_cons_self
    obtain ⟨res₁, hexec⟩ := call.exec_eq d hret
    rw [exec, hexec, Option.bind_some] at h
    obtain ⟨t, ht, heq⟩ := Option.map_eq_some_iff.mp h
    obtain ⟨-, rfl⟩ := Prod.mk.inj heq
    have hfirst := bytes_of_ok hret hexec fun x hx => hok x (by rw [Option.mem_def.mp hx]; simp)
    have hrest := ih (fun c hc => hcalls c (List.mem_cons_of_mem call hc)) ht
      fun x hx => hok x (List.mem_cons_of_mem _ hx)
    rw [looked_cons, hfirst, hrest, List.flatMap_cons]

/-- Whatever bytes a decoder is given and by whatever calls, the escaped form of each
message it delivers and an `END` stand in a row in them, in order and apart from those of
the other messages. They may be the tail of a frame that was broken or too long. -/
theorem delivered_sound (n : UInt64) (hn : 1 ≤ n.toNat) (d : Decoder) (hd : Fresh n d)
    (calls : List Call) (hcalls : ∀ call ∈ calls, call.Returns) :
    ∃ d' events res, exec d calls = some ((d', events), res) ∧
      Carries slip (delivered events) (looked d calls) ∧
      (looked d calls).Sublist (calls.flatMap data) ∧
      ((∀ x, some x ∈ res → x.hasError = false) → looked d calls = calls.flatMap data) ∧
      ∀ m ∈ delivered events, m.length ≤ n.toNat - 2 := by
  obtain ⟨res, hexec⟩ := exec_eq_run d calls hcalls
  have hobs := (run_related (related_of_fresh hd hn) (ops d calls)).2
  refine ⟨_, _, res, hexec, ?_, looked_sublist d calls, looked_of_ok hcalls hexec, ?_⟩
  · rw [delivered_eq hobs]
    exact carries_run _
  · rw [delivered_eq hobs]
    exact length_of_messages .empty _

theorem delivered_sound_garbage :
    ∃ d' events res, exec (new (fun _ => 0) 4 true)
        [.consume [0x01, ESC, 0x05, 0x02, 0x03], .consumeEx [END, ESC, END, 0x06], .reset] =
          some ((d', events), res) ∧
      Carries slip (delivered events) [0x01, ESC, 0x05, 0x02, 0x03, END, ESC, END] := by
  obtain ⟨d', events, res, hexec, hc, _⟩ := delivered_sound 4 (by decide)
    (new (fun _ => 0) 4 true) ⟨_, _, Or.inl rfl⟩
    [.consume [0x01, ESC, 0x05, 0x02, 0x03], .consumeEx [END, ESC, END, 0x06], .reset]
    (by simp [Call.Returns])
  exact ⟨d', events, res, hexec, hc⟩

/-- The calls that report nothing and look at all of their bytes. -/
def Plain : Call → Prop
  | .consume _ | .consumeByte _ => True
  | .consumeChunk _ chunkSize => 1 ≤ chunkSize
  | _ => False

theorem returns_of_plain {call : Call} (h : Plain call) : call.Returns := by
  cases call with
  | consumeChunkEx xs chunkSize => exact absurd h id
  | _ => first | exact h | exact trivial

theorem ops_of_plain (d : Decoder) {calls : List Call} (h : ∀ call ∈ calls, Plain call) :
    ops d calls = (calls.flatMap data).map .consume := by
  induction calls generalizing d with
  | nil => rfl
  | cons call calls ih =>
    have hone : call.ops d = (data call).map .consume := by
      have hplain := h call List.mem_cons_self
      cases call <;> first | rfl | exact absurd hplain id
    rw [ops, hone, ih _ fun c hc => h c (List.mem_cons_of_mem call hc), List.flatMap_cons,
      List.map_append]

/-- Damage is contained: whatever bytes come between, the packets before them and
those behind the next `END` are delivered, and from the bytes between at most one
message for each `END` in them. -/
theorem damage_contained (n : UInt64) (hn : 2 ≤ n.toNat) (d : Decoder) (hd : Fresh n d)
    (before after : List (List UInt8)) (hfit : ∀ p ∈ before ++ after, p.length ≤ n.toNat - 2)
    (damage : List UInt8) (calls : List Call) (hcalls : ∀ call ∈ calls, Plain call)
    (hdata : calls.flatMap data =
      before.flatMap packet ++ ((damage ++ [END]) ++ after.flatMap packet)) :
    ∃ d' events res ms, exec d calls = some ((d', events), res) ∧
      delivered events = before ++ (ms ++ after) ∧ ms.length ≤ damage.count END + 1 := by
  have hroom {p : List UInt8} (hp : p ∈ before ++ after) : p.length + 2 ≤ n.toNat := by
    have := hfit p hp
    omega
  obtain ⟨res, hexec⟩ := exec_eq_run d calls fun c hc => returns_of_plain (hcalls c hc)
  have hobs := (run_related (related_of_fresh hd (by omega)) (ops d calls)).2
  obtain ⟨ms, hms, hle⟩ := messages_around (k := slip) (n := n.toNat) true damage
    (fun p hp => hroom (List.mem_append_left after hp))
    (fun p hp => hroom (List.mem_append_right before hp))
  refine ⟨_, _, res, ms, hexec, ?_, hle⟩
  rw [delivered_eq hobs, ops_of_plain d hcalls, hdata, ← hms, List.map_map]
  simp only [framed, Stuffing.stuff_nil, List.append_nil]
  rfl

theorem damage_contained_escape :
    ∃ d' events res ms, exec (new (fun _ => 0) 4 true)
        [.consume ([0x01, END] ++ ([0x02, ESC, 0x07, 0x03] ++ [END] ++ [0x04, END]))] =
          some ((d', events), res) ∧
      delivered events = [[0x01]] ++ (ms ++ [[0x04]]) ∧ ms.length ≤ 1 :=
  damage_contained 4 (by decide) _ ⟨_, _, Or.inl rfl⟩ [[0x01]] [[0x04]] (by decide)
    [0x02, ESC, 0x07, 0x03] _ (by simp [Plain]) (by decide)

end SlipStream.DecoderSoundness
