import SlipStream.Crc32Trailer

namespace SlipStream.Crc32Corruption

open BinaryDivision Crc32 Crc32Division Crc32Burst Crc32Trailer

/-- A set of numbers as the bits of one. -/
def bitSet (xs : List Nat) : Nat := xs.foldr (fun x s => s ||| 1 <<< x) 0

theorem testBit_bitSet {x : Nat} {xs : List Nat} (h : x ∈ xs) : (bitSet xs).testBit x = true := by
  induction xs with
  | nil => cases h
  | cons y ys ih =>
    have hcons : bitSet (y :: ys) = bitSet ys ||| 1 <<< y := rfl
    rw [hcons, Nat.testBit_or]
    obtain rfl | hmem := List.mem_cons.mp h
    · rw [Nat.testBit_shiftLeft]
      simp
    · rw [ih hmem, Bool.true_or]

theorem notMem_of_bitSet {x : Nat} {xs ys : List Nat} (h : bitSet xs &&& bitSet ys = 0)
    (hx : x ∈ xs) : x ∉ ys := by
  intro hy
  have hbit : (bitSet xs &&& bitSet ys).testBit x = true := by
    rw [Nat.testBit_and, testBit_bitSet hx, testBit_bitSet hy, Bool.true_and]
  rw [h, Nat.zero_testBit] at hbit
  cases hbit

theorem crc32Table_large : crc32Table.tail.all (fun t => 65536 ≤ t.toNat) = true := by
  decide +kernel

theorem crc32Table_apart :
    bitSet (crc32Table.tail.map fun t => t.toNat % 2 ^ 16) &&&
      bitSet (crc32Table.map fun t => t.toNat / 2 ^ 8 % 2 ^ 16) = 0 := by
  decide +kernel

theorem length_crc32Table : crc32Table.length = 256 := by
  decide +kernel

theorem updateCrc32_eq_table (c : UInt32) (b : UInt8) :
    ∃ t ∈ crc32Table, updateCrc32 c b = c <<< 8 ^^^ t ∧ (c = 0 → b ≠ 0 → t ∈ crc32Table.tail) := by
  have hlt := top_lt c b
  have hindex : (c >>> 24 ^^^ b.toUInt32) &&& (0xFF : UInt32) = c >>> 24 ^^^ b.toUInt32 :=
    and_eq_self (k := 8) rfl hlt
  have hall (x : UInt32) : x &&& 0xFFFFFFFF = x := and_eq_self (k := 32) rfl x.toNat_lt
  generalize hi : (c >>> 24 ^^^ b.toUInt32).toNat = i at hlt
  rw [← length_crc32Table] at hlt
  refine ⟨crc32Table[i], List.getElem_mem hlt, ?_, ?_⟩
  · rw [updateCrc32, hindex, hi, hall, List.getD_eq_getElem _ _ hlt]
  · rintro rfl hb
    have hpos : 0 < i := by
      rw [← hi]
      apply Nat.pos_of_ne_zero
      intro hz
      apply hb
      apply UInt8.toNat_inj.mp
      simpa using hz
    obtain ⟨j, rfl⟩ := Nat.exists_eq_succ_of_ne_zero hpos.ne'
    have htail : j < crc32Table.tail.length := by
      rw [List.length_tail]
      omega
    have hsame : crc32Table.tail[j] = crc32Table[j + 1] := List.getElem_tail htail
    exact hsame ▸ List.getElem_mem htail

theorem eq_zero_of_update_lt {b : UInt8} (h : (updateCrc32 0 b).toNat < 2 ^ 16) : b = 0 := by
  obtain ⟨t, _, heq, htail⟩ := updateCrc32_eq_table 0 b
  by_contra hb
  have hlarge := List.all_eq_true.mp crc32Table_large t (htail rfl hb)
  have hzero : (0 : UInt32) <<< 8 ^^^ t = t := by simp
  rw [heq, hzero] at h
  exact absurd (of_decide_eq_true hlarge) (Nat.not_le.mpr h)

theorem eq_zero_of_update_update_lt {b b' : UInt8}
    (h : (updateCrc32 (updateCrc32 0 b) b').toNat < 2 ^ 8) : b = 0 ∧ b' = 0 := by
  by_cases hb : b = 0
  · subst hb
    have hzero : updateCrc32 0 0 = 0 := by decide
    rw [hzero] at h
    exact ⟨rfl, eq_zero_of_update_lt (lt_of_lt_of_le h (by decide))⟩
  · obtain ⟨t, _, heq, htail⟩ := updateCrc32_eq_table 0 b
    obtain ⟨t', hmem', heq', _⟩ := updateCrc32_eq_table (updateCrc32 0 b) b'
    have hzero : (0 : UInt32) <<< 8 ^^^ t = t := by simp
    rw [heq'] at h
    rw [heq, hzero] at h
    have hbits : t.toNat % 2 ^ 16 = t'.toNat / 2 ^ 8 % 2 ^ 16 := by
      apply Nat.eq_of_testBit_eq
      intro i
      rw [Nat.testBit_mod_two_pow, Nat.testBit_mod_two_pow, Nat.testBit_div_two_pow]
      by_cases hi : i < 16
      · have hbit : (t <<< 8 ^^^ t').toNat.testBit (i + 8) = false := by
          apply Nat.testBit_lt_two_pow
          exact lt_of_lt_of_le h (Nat.pow_le_pow_right (by decide) (by omega))
        have hnat : (t <<< 8 ^^^ t').toNat = t.toNat <<< 8 % 2 ^ 32 ^^^ t'.toNat := by
          rw [UInt32.toNat_xor, UInt32.toNat_shiftLeft]
          rfl
        have hin : i + 8 < 32 := by omega
        rw [hnat, Nat.testBit_xor, Nat.testBit_mod_two_pow, Nat.testBit_shiftLeft,
          decide_eq_true hin, decide_eq_true (Nat.le_add_left 8 i), Nat.add_sub_cancel] at hbit
        rw [decide_eq_true hi]
        simpa using hbit
      · simp [hi]
    have hleft := List.mem_map_of_mem (f := fun t : UInt32 => t.toNat % 2 ^ 16) (htail rfl hb)
    have hright := List.mem_map_of_mem (f := fun t : UInt32 => t.toNat / 2 ^ 8 % 2 ^ 16) hmem'
    exact absurd (hbits ▸ hright) (notMem_of_bitSet crc32Table_apart hleft)

theorem xor_lt_of_agree {c c' : UInt32} {j : Nat}
    (h : ∀ m, j ≤ m → (littleEndian c).getD m 0 = (littleEndian c').getD m 0) :
    (c ^^^ c').toNat < 2 ^ (8 * j) := by
  apply Nat.lt_pow_two_of_testBit
  intro i hi
  have hbyte : byteBit (littleEndian c) i = byteBit (littleEndian c') i := by
    rw [byteBit, byteBit, h (i / 8) (by omega)]
  rw [byteBit_littleEndian, byteBit_littleEndian] at hbyte
  rw [UInt32.toNat_xor, Nat.testBit_xor, hbyte, Bool.xor_self]

/-- Payloads that differ in their last byte or two only, with checksums that
differ only as far as a window of three bytes reaches into them. -/
theorem eq_of_last_bytes {u a a' : List UInt8} (hlen : a.length = a'.length) (h1 : 1 ≤ a.length)
    (h2 : a.length ≤ 2)
    (h : (calculateCrc32 (u ++ a) ^^^ calculateCrc32 (u ++ a')).toNat < 2 ^ (8 * (3 - a.length))) :
    a = a' := by
  have hcrc : calculateCrc32 (u ++ a) ^^^ calculateCrc32 (u ++ a') =
      calculateCrc32WithInitial (List.zipWith (· ^^^ ·) a a') 0 := by
    have hxor := calculateCrc32WithInitial_xor hlen (calculateCrc32 u) (calculateCrc32 u)
    rw [UInt32.xor_self] at hxor
    rw [← hxor]
    simp only [calculateCrc32, calculateCrc32WithInitial, List.foldl_append]
  rw [hcrc] at h
  obtain hone | htwo : a.length = 1 ∨ a.length = 2 := by omega
  · obtain ⟨x, rfl⟩ := List.length_eq_one_iff.mp hone
    obtain ⟨x', rfl⟩ := List.length_eq_one_iff.mp hlen.symm
    have hx : x ^^^ x' = 0 := eq_zero_of_update_lt h
    rw [UInt8.xor_eq_zero_iff.mp hx]
  · obtain ⟨x, y, rfl⟩ := List.length_eq_two.mp htwo
    obtain ⟨x', y', rfl⟩ := List.length_eq_two.mp hlen.symm
    have hxy : x ^^^ x' = 0 ∧ y ^^^ y' = 0 := eq_zero_of_update_update_lt h
    rw [UInt8.xor_eq_zero_iff.mp hxy.1, UInt8.xor_eq_zero_iff.mp hxy.2]

theorem eq_of_payload_bytes {p p' : List UInt8} (hlen : p.length = p'.length) {k : Nat}
    (hwin : ∀ i, p'[i]? ≠ p[i]? → k ≤ i ∧ i < k + 3)
    (hcrc : calculateCrc32 p = calculateCrc32 p') : p = p' := by
  have h24 : 24 ≤ 31 := by decide
  refine eq_of_short_burst hlen h24 (k := 8 * k) ?_ hcrc
  intro i hi
  have hbyte : p'[i / 8]? ≠ p[i / 8]? := by
    intro heq
    apply hi
    rw [bitAt, bitAt, List.getD_eq_getElem?_getD, List.getD_eq_getElem?_getD, heq]
  have h := hwin (i / 8) hbyte
  omega

/-- A change that reaches the end of the payload, of which it can hold two bytes
at most, and goes on in the trailer. -/
theorem eq_of_boundary {p p' : List UInt8} (hlen : p.length = p'.length) {k : Nat}
    (hcross : p.length < k + 3) (hwin : ∀ i, p'[i]? ≠ p[i]? → k ≤ i ∧ i < k + 3)
    (hxor : (calculateCrc32 p ^^^ calculateCrc32 p').toNat < 2 ^ (8 * (k + 3 - p.length))) :
    p = p' := by
  have hbefore (i : Nat) (hi : i < k) : p'[i]? = p[i]? := by
    by_contra hne
    exact absurd (hwin i hne).1 (Nat.not_le.mpr hi)
  obtain hk | hk := Nat.lt_or_ge k p.length
  · have htake : p'.take k = p.take k := by
      apply List.ext_getElem?
      intro i
      rw [List.getElem?_take, List.getElem?_take]
      split
      · exact hbefore i ‹i < k›
      · rfl
    have hsplit : p.take k ++ p.drop k = p := List.take_append_drop k p
    have hsplit' : p.take k ++ p'.drop k = p' := htake ▸ List.take_append_drop k p'
    have hdrop : (p.drop k).length = p.length - k := List.length_drop
    have hend : p.drop k = p'.drop k := by
      apply eq_of_last_bytes (u := p.take k)
      · rw [List.length_drop, List.length_drop, hlen]
      · omega
      · omega
      · have hbytes : 3 - (p.length - k) = k + 3 - p.length := by omega
        rwa [hsplit, hsplit', hdrop, hbytes]
    rw [← hsplit, hend, hsplit']
  · -- all of the change is in the trailer
    apply List.ext_getElem?
    intro i
    obtain hi | hi := Nat.lt_or_ge i k
    · exact (hbefore i hi).symm
    · rw [List.getElem?_eq_none (by omega), List.getElem?_eq_none (by omega)]

theorem eq_of_window {p p' : List UInt8} (hlen : p.length = p'.length) {k : Nat}
    (hwin : ∀ i, (p' ++ littleEndian (calculateCrc32 p'))[i]? ≠
      (p ++ littleEndian (calculateCrc32 p))[i]? → k ≤ i ∧ i < k + 3) : p = p' := by
  have hpay (i : Nat) (hi : p'[i]? ≠ p[i]?) : k ≤ i ∧ i < k + 3 := by
    apply hwin
    obtain hlt | hge := Nat.lt_or_ge i p.length
    · rwa [List.getElem?_append_left (hlen ▸ hlt), List.getElem?_append_left hlt]
    · rw [List.getElem?_eq_none hge, List.getElem?_eq_none (hlen ▸ hge)] at hi
      exact absurd rfl hi
  have htrail (m : Nat) (hm : k + 3 - p.length ≤ m) :
      (littleEndian (calculateCrc32 p)).getD m 0 = (littleEndian (calculateCrc32 p')).getD m 0 := by
    by_contra hne
    have hdiff : (p' ++ littleEndian (calculateCrc32 p'))[p.length + m]? ≠
        (p ++ littleEndian (calculateCrc32 p))[p.length + m]? := by
      rw [List.getElem?_append_right (by omega), List.getElem?_append_right (by omega), ← hlen,
        Nat.add_sub_cancel_left]
      intro heq
      apply hne
      rw [List.getD_eq_getElem?_getD, List.getD_eq_getElem?_getD, heq]
    have h := hwin _ hdiff
    omega
  have hxor := xor_lt_of_agree htrail
  obtain hcross | hinside := Nat.lt_or_ge p.length (k + 3)
  · exact eq_of_boundary hlen hcross hpay hxor
  · -- the trailer is untouched
    have hz : k + 3 - p.length = 0 := by omega
    rw [hz, Nat.mul_zero, Nat.pow_zero, Nat.lt_one_iff] at hxor
    have hcrc : calculateCrc32 p = calculateCrc32 p' :=
      UInt32.xor_eq_zero_iff.mp (UInt32.toNat_inj.mp hxor)
    exact eq_of_payload_bytes hlen hpay hcrc

/-- Every change confined to three bytes in a row is rejected, whether it lies
in the payload, in its trailer or across the boundary of the two. -/
theorem local_corruption_rejected (p spare : List UInt8) (hp : p ≠ []) (hs : 4 ≤ spare.length) :
    ∃ buf, buf = p ++ littleEndian (calculateCrc32 p) ∧
      appendCrc32 (some (p ++ spare)) p.length = (some (buf ++ spare.drop 4), buf.length) ∧
      verifyCrc32 (some (buf ++ spare.drop 4)) buf.length = true ∧
      ∀ (buf' rest : List UInt8) (k : Nat), buf'.length = buf.length → buf' ≠ buf →
        (∀ i, buf'[i]? ≠ buf[i]? → k ≤ i ∧ i < k + 3) →
        verifyCrc32 (some (buf' ++ rest)) buf'.length = false := by
  have hlen : (p ++ littleEndian (calculateCrc32 p)).length = p.length + 4 := List.length_append
  refine ⟨p ++ littleEndian (calculateCrc32 p), rfl, ?_, ?_, ?_⟩
  · rw [appendCrc32_eq p hs, hlen]
  · rw [hlen]
    exact (verifyCrc32_iff p rfl _).mpr ⟨hp, rfl⟩
  · intro buf' rest k hbuf hne hwin
    obtain ⟨p', t', rfl, hp', ht'⟩ :
        ∃ p' t', buf' = p' ++ t' ∧ p'.length = p.length ∧ t'.length = 4 := by
      refine ⟨buf'.take p.length, buf'.drop p.length, (List.take_append_drop _ _).symm, ?_, ?_⟩
      · rw [List.length_take]
        omega
      · rw [List.length_drop]
        omega
    by_contra hok
    rw [Bool.not_eq_false, List.length_append, ht', verifyCrc32_iff p' ht' rest] at hok
    obtain ⟨_, rfl⟩ := hok
    obtain rfl := eq_of_window hp'.symm hwin
    exact hne rfl

theorem local_corruption_rejected_boundary :
    ([0x01] : List UInt8) ≠ [] ∧ 4 ≤ ([0x00, 0x00, 0x00, 0x00] : List UInt8).length ∧
      [0x01] ++ littleEndian (calculateCrc32 [0x01]) = [0x01, 0xBE, 0xA8, 0x9B, 0xB3] ∧
      appendCrc32 (some [0x01, 0x00, 0x00, 0x00, 0x00]) 1 =
        (some [0x01, 0xBE, 0xA8, 0x9B, 0xB3], 5) ∧
      verifyCrc32 (some [0x00, 0xBF, 0xA8, 0x9B, 0xB3]) 5 = false := by
  obtain ⟨buf, hlayout, happend, _, hreject⟩ :=
    local_corruption_rejected [0x01] [0x00, 0x00, 0x00, 0x00] (by decide) (by decide)
  have hbuf : buf = [0x01, 0xBE, 0xA8, 0x9B, 0xB3] := by
    rw [hlayout]
    decide
  subst hbuf
  refine ⟨by decide, by decide, hlayout.symm, happend, ?_⟩
  refine hreject [0x00, 0xBF, 0xA8, 0x9B, 0xB3] [] 0 rfl (by decide) ?_
  intro i hi
  match i with
  | 0 | 1 => omega
  | j + 2 => exact absurd rfl hi

end SlipStream.Crc32Corruption
