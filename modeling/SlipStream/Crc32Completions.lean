import SlipStream.BinaryPreimages
import SlipStream.Crc32Burst
import SlipStream.Crc32Trailer

namespace SlipStream.Crc32Completions

open BinaryDivision BinaryPreimages Crc32 Crc32Division Crc32Burst Crc32Trailer

theorem tableFactor_shift : tableFactor.toBitVec <<< 1 = tablePolynomial.toBitVec := by decide

theorem msb_tableFactor : tableFactor.toBitVec.msb = true := by decide

theorem low_tableFactor : tableFactor.toBitVec.getLsbD 0 = true := by decide

def placed (b : UInt8) (n : Nat) : BitVec 32 := b.toBitVec.setWidth 32 <<< n

theorem steps_placed (g : BitVec 32) (b : UInt8) {n : Nat} (hn : n ≤ 16) :
    (step g)^[8] (placed b n) = placed b (n + 8) := by
  rw [steps_of_clear, placed, ← BitVec.shiftLeft_add]
  · rfl
  · intro i hi
    have hclear : b.toBitVec.getLsbD (i - n) = false := BitVec.getLsbD_of_ge _ _ (by omega)
    simp [placed, hclear]

theorem updateCrc32_eq_steps (crc : UInt32) (b : UInt8) :
    (updateCrc32 crc b).toBitVec =
      (step tablePolynomial.toBitVec)^[8] (crc.toBitVec ^^^ placed b 24) := by
  rw [updateCrc32_eq, divideByte, toBitVec_divideBits]
  rfl

theorem stored_eq_placed (a b c d : UInt8) :
    (stored [d, c, b, a]).toBitVec = placed a 24 ^^^ placed b 16 ^^^ placed c 8 ^^^ placed d 0 := by
  apply BitVec.eq_of_toNat_eq
  apply Nat.eq_of_testBit_eq
  intro i
  have hd : d.toNat <<< (8 * 0) % 2 ^ 32 = d.toNat := by
    have hlt := d.toNat_lt
    rw [Nat.mul_zero, Nat.shiftLeft_zero]
    omega
  have hnat : (placed a 24 ^^^ placed b 16 ^^^ placed c 8 ^^^ placed d 0).toNat =
      a.toNat <<< (8 * 3) % 2 ^ 32 ^^^ b.toNat <<< (8 * 2) % 2 ^ 32 ^^^
        c.toNat <<< (8 * 1) % 2 ^ 32 ^^^ d.toNat <<< (8 * 0) % 2 ^ 32 := by
    rw [hd]
    simp [placed]
  have hstored : (stored [d, c, b, a]).toBitVec.toNat.testBit i = byteBit [d, c, b, a] i :=
    testBit_stored rfl i
  rw [hstored, hnat, Nat.testBit_xor, Nat.testBit_xor, Nat.testBit_xor,
    testBit_placed a (by decide), testBit_placed b (by decide), testBit_placed c (by decide),
    testBit_placed d (by decide), byteBit]
  -- one case for each of the four bytes, and one for the bits above them
  rcases i / 8 with _ | _ | _ | _ | n <;> simp

theorem crc_word (r : UInt32) (a b c d : UInt8) :
    (calculateCrc32WithInitial [a, b, c, d] r).toBitVec =
      (step tablePolynomial.toBitVec)^[32] (r.toBitVec ^^^ (stored [d, c, b, a]).toBitVec) := by
  have h32 (x : BitVec 32) : (step tablePolynomial.toBitVec)^[32] x =
      (step tablePolynomial.toBitVec)^[8] ((step tablePolynomial.toBitVec)^[8]
        ((step tablePolynomial.toBitVec)^[8] ((step tablePolynomial.toBitVec)^[8] x))) := rfl
  simp only [calculateCrc32WithInitial, List.foldl_cons, List.foldl_nil, updateCrc32_eq_steps]
  rw [stored_eq_placed, h32, ← BitVec.xor_assoc, ← BitVec.xor_assoc, ← BitVec.xor_assoc]
  -- a byte that comes later is a byte further down, divided as often as those before it
  rw [steps_xor _ _ (placed d 0), steps_placed _ d (by decide), steps_xor _ _ (placed c 8),
    steps_placed _ c (by decide), steps_xor _ _ (placed b 16), steps_placed _ b (by decide)]
  rw [steps_xor _ _ (placed d (0 + 8)), steps_placed _ d (by decide),
    steps_xor _ _ (placed c (8 + 8)), steps_placed _ c (by decide)]
  rw [steps_xor _ _ (placed d (0 + 8 + 8)), steps_placed _ d (by decide)]

/-- The checksum of no data at all apart, every checksum is even. -/
theorem crc_even (data : List UInt8) (hne : data ≠ []) (r : UInt32) :
    (calculateCrc32WithInitial data r).toNat % 2 = 0 := by
  have hlow : tablePolynomial.toBitVec.getLsbD 0 = false := by decide
  have hone (crc : UInt32) (b : UInt8) : (updateCrc32 crc b).toNat % 2 = 0 := by
    have h : (updateCrc32 crc b).toBitVec.getLsbD 0 = false := by
      rw [updateCrc32_eq_steps, Function.iterate_succ_apply']
      exact low_step hlow _
    rw [BitVec.getLsbD, Nat.testBit_zero] at h
    simpa using h
  obtain ⟨u, b, rfl⟩ := (List.eq_nil_or_concat data).resolve_left hne
  rw [calculateCrc32WithInitial, List.concat_eq_append, List.foldl_append]
  exact hone _ b

theorem crc_zero_iff {t : List UInt8} (ht : t.length = 4) :
    calculateCrc32WithInitial t 0 = 0 ↔
      t = [0x00, 0x00, 0x00, 0x00] ∨ t = [0x84, 0xC1, 0x1D, 0xB7] := by
  obtain ⟨a, b, c, d, rfl⟩ : ∃ a b c d, t = [a, b, c, d] := List.length_eq_four.mp ht
  have hrev (x : UInt32) : (stored [d, c, b, a]).toBitVec = x.toBitVec ↔
      [a, b, c, d] = (littleEndian x).reverse := by
    rw [UInt32.toBitVec_inj, eq_comm, stored_eq_iff rfl, ← List.reverse_inj]
    rfl
  have hz := hrev 0
  have hk := hrev tableFactor
  rw [← UInt32.toBitVec_inj, crc_word]
  have hsteps := steps_eq_zero_iff tableFactor_shift msb_tableFactor low_tableFactor
    (stored [d, c, b, a]).toBitVec 31
  have hxor : (0 : UInt32).toBitVec ^^^ (stored [d, c, b, a]).toBitVec =
      (stored [d, c, b, a]).toBitVec := BitVec.zero_xor
  rw [hxor]
  exact hsteps.trans (or_congr hz hk)

theorem calculateCrc32WithInitial_append (u t : List UInt8) (r : UInt32) :
    calculateCrc32WithInitial (u ++ t) r =
      calculateCrc32WithInitial t (calculateCrc32WithInitial u r) := List.foldl_append

theorem xor_eq_iff (x y k : UInt8) : x ^^^ y = k ↔ x = y ^^^ k := by
  constructor
  · rintro rfl
    rw [UInt8.xor_comm x y, ← UInt8.xor_assoc, UInt8.xor_self, UInt8.zero_xor]
  · rintro rfl
    rw [UInt8.xor_comm y k, UInt8.xor_assoc, UInt8.xor_self, UInt8.xor_zero]

/-- Two completions of the same data have the same checksum only if they differ in
nothing or in the bits of the factor. -/
theorem crc_completion_iff (r : UInt32) {t t' : List UInt8} (ht : t.length = 4)
    (ht' : t'.length = 4) :
    calculateCrc32WithInitial t' r = calculateCrc32WithInitial t r ↔
      t' = t ∨ t' = List.zipWith (· ^^^ ·) t [0x84, 0xC1, 0x1D, 0xB7] := by
  have hlen : t'.length = t.length := ht'.trans ht.symm
  have hxor := calculateCrc32WithInitial_xor hlen r r
  have hzero : calculateCrc32WithInitial t' r = calculateCrc32WithInitial t r ↔
      calculateCrc32WithInitial (List.zipWith (· ^^^ ·) t' t) 0 = 0 := by
    rw [UInt32.xor_self] at hxor
    rw [← hxor, UInt32.xor_eq_zero_iff]
  rw [hzero, crc_zero_iff (by simp [ht, ht'])]
  obtain ⟨a, b, c, d, rfl⟩ : ∃ a b c d, t = [a, b, c, d] := List.length_eq_four.mp ht
  obtain ⟨a', b', c', d', rfl⟩ : ∃ a b c d, t' = [a, b, c, d] := List.length_eq_four.mp ht'
  simp only [List.zipWith_cons_cons, List.zipWith_nil_left, List.cons.injEq, xor_eq_iff,
    UInt8.xor_zero]

/-- Four bytes that take the register from `r` to `crc`, found by dividing backwards. -/
def complete (r crc : UInt32) : List UInt8 :=
  (littleEndian ⟨r.toBitVec ^^^ (back tableFactor.toBitVec)^[32] crc.toBitVec⟩).reverse

theorem crc_complete (r crc : UInt32) (heven : crc.toNat % 2 = 0) :
    calculateCrc32WithInitial (complete r crc) r = crc := by
  have hlow : crc.toBitVec.getLsbD 0 = false := by
    rw [BitVec.getLsbD, Nat.testBit_zero]
    simpa using heven
  have hword := crc_word r ((complete r crc).getD 0 0) ((complete r crc).getD 1 0)
    ((complete r crc).getD 2 0) ((complete r crc).getD 3 0)
  have hstored := stored_littleEndian
    ⟨r.toBitVec ^^^ (back tableFactor.toBitVec)^[32] crc.toBitVec⟩
  apply UInt32.toBitVec_inj.mp
  refine hword.trans ?_
  have hlist : [(complete r crc).getD 3 0, (complete r crc).getD 2 0, (complete r crc).getD 1 0,
      (complete r crc).getD 0 0] =
      littleEndian ⟨r.toBitVec ^^^ (back tableFactor.toBitVec)^[32] crc.toBitVec⟩ := rfl
  rw [hlist, hstored, ← BitVec.xor_assoc, BitVec.xor_self, BitVec.zero_xor,
    steps_back tableFactor_shift msb_tableFactor low_tableFactor hlow]

theorem stored_mod_two (x y z w : UInt8) : (stored [x, y, z, w]).toNat % 2 = x.toNat % 2 := by
  have h := testBit_stored (t := [x, y, z, w]) rfl 0
  rw [byteBit, Nat.testBit_zero, Nat.testBit_zero, decide_eq_decide] at h
  change (stored [x, y, z, w]).toNat % 2 = 1 ↔ x.toNat % 2 = 1 at h
  omega

/-- `verify_crc32` knows 31 bits only. It accepts no trailer that begins with an odd
byte, and any other trailer behind any data with four more bytes put between, chosen
in exactly two ways. -/
theorem accepted_completions (u rest : List UInt8) (x y z w : UInt8) :
    (x.toNat % 2 = 1 →
      ∀ p : List UInt8, verifyCrc32 (some (p ++ [x, y, z, w] ++ rest)) (p.length + 4) = false) ∧
    (x.toNat % 2 = 0 →
      ∃ t : List UInt8, t.length = 4 ∧ ∀ t' : List UInt8, t'.length = 4 →
        (verifyCrc32 (some (u ++ t' ++ [x, y, z, w] ++ rest)) ((u ++ t').length + 4) = true ↔
          t' = t ∨ t' = List.zipWith (· ^^^ ·) t [0x84, 0xC1, 0x1D, 0xB7])) := by
  have haccept (p : List UInt8) :
      verifyCrc32 (some (p ++ [x, y, z, w] ++ rest)) (p.length + 4) = true ↔
        p ≠ [] ∧ calculateCrc32 p = stored [x, y, z, w] := by
    rw [verifyCrc32_iff p rfl rest, stored_eq_iff rfl]
  have hmod := stored_mod_two x y z w
  constructor
  · intro hodd p
    rw [Bool.eq_false_iff, ne_eq, haccept]
    rintro ⟨hne, heq⟩
    have := crc_even p hne 0xFFFFFFFF
    rw [← calculateCrc32, heq] at this
    omega
  · intro heven
    have hcrc := crc_complete (calculateCrc32 u) (stored [x, y, z, w]) (by omega)
    refine ⟨complete (calculateCrc32 u) (stored [x, y, z, w]), rfl, fun t' ht' => ?_⟩
    have hne : u ++ t' ≠ [] := by
      intro hnil
      rw [(List.append_eq_nil_iff.mp hnil).2] at ht'
      cases ht'
    rw [haccept, ← crc_completion_iff (calculateCrc32 u) rfl ht', hcrc, calculateCrc32,
      calculateCrc32WithInitial_append, ← calculateCrc32]
    exact and_iff_right hne

theorem accepted_completions_zero :
    (∃ t : List UInt8, t.length = 4 ∧
      verifyCrc32 (some ([0x01] ++ t ++ [0x00, 0x00, 0x00, 0x00])) 9 = true) ∧
      ∀ p : List UInt8,
        verifyCrc32 (some (p ++ [0x01, 0x00, 0x00, 0x00])) (p.length + 4) = false := by
  obtain ⟨t, ht, haccept⟩ :=
    (accepted_completions [0x01] [] 0x00 0x00 0x00 0x00).2 (by decide)
  have hok := (haccept t ht).mpr (Or.inl rfl)
  rw [List.append_nil, List.length_append, ht] at hok
  refine ⟨⟨t, ht, hok⟩, fun p => ?_⟩
  have hodd := (accepted_completions [] [] 0x01 0x00 0x00 0x00).1 (by decide) p
  rw [List.append_nil] at hodd
  exact hodd

end SlipStream.Crc32Completions
