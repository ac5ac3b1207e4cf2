import SlipStream.Crc32Burst

namespace SlipStream.Crc32Trailer

open Crc32

/-- The bits of a byte string, least significant bit of each byte first. -/
def byteBit (t : List UInt8) (i : Nat) : Bool := (t.getD (i / 8) 0).toNat.testBit (i % 8)

/-- The four bytes that `append_crc32` writes. -/
def littleEndian (crc : UInt32) : List UInt8 :=
  [(crc &&& 0xFF).toUInt8, ((crc >>> 8) &&& 0xFF).toUInt8, ((crc >>> 16) &&& 0xFF).toUInt8,
    ((crc >>> 24) &&& 0xFF).toUInt8]

/-- The value that `extract_crc32` reads from four bytes. -/
def stored (t : List UInt8) : UInt32 :=
  (t.getD 0 0).toUInt32 ||| (t.getD 1 0).toUInt32 <<< 8 ||| (t.getD 2 0).toUInt32 <<< 16 |||
    (t.getD 3 0).toUInt32 <<< 24

theorem testBit_of_ge (b : UInt8) {j : Nat} (hj : 8 ≤ j) : b.toNat.testBit j = false := by
  apply Nat.testBit_lt_two_pow
  exact lt_of_lt_of_le b.toNat_lt (Nat.pow_le_pow_right (by decide) hj)

theorem eq_of_byteBit_eq {t t' : List UInt8} (hlen : t.length = t'.length)
    (h : ∀ i, byteBit t i = byteBit t' i) : t = t' := by
  apply List.ext_getElem hlen
  intro k hk hk'
  apply UInt8.toNat_inj.mp
  apply Nat.eq_of_testBit_eq
  intro j
  obtain hj | hj := Nat.lt_or_ge j 8
  · have hbit := h (8 * k + j)
    have hdiv : (8 * k + j) / 8 = k := by omega
    have hmod : (8 * k + j) % 8 = j := by omega
    rw [byteBit, byteBit, hdiv, hmod, List.getD_eq_getElem t 0 hk, List.getD_eq_getElem t' 0 hk']
      at hbit
    exact hbit
  · rw [testBit_of_ge _ hj, testBit_of_ge _ hj]

theorem testBit_placed (b : UInt8) {m : Nat} (hm : m ≤ 3) (i : Nat) :
    (b.toNat <<< (8 * m) % 2 ^ 32).testBit i =
      (decide (i / 8 = m) && b.toNat.testBit (i % 8)) := by
  have hb := b.toNat_lt
  have hlt : b.toNat <<< (8 * m) < 2 ^ 32 := by
    rw [Nat.shiftLeft_eq]
    calc b.toNat * 2 ^ (8 * m) < 2 ^ 8 * 2 ^ (8 * m) :=
          Nat.mul_lt_mul_of_pos_right hb (Nat.two_pow_pos _)
      _ = 2 ^ (8 + 8 * m) := (Nat.pow_add 2 8 _).symm
      _ ≤ 2 ^ 32 := Nat.pow_le_pow_right (by decide) (by omega)
  rw [Nat.mod_eq_of_lt hlt, Nat.testBit_shiftLeft]
  by_cases hi : i / 8 = m
  · have hle : 8 * m ≤ i := by omega
    have hmod : i - 8 * m = i % 8 := by omega
    rw [hmod, decide_eq_true hle, decide_eq_true hi]
  · rw [decide_eq_false hi, Bool.false_and]
    by_cases hle : 8 * m ≤ i
    · rw [testBit_of_ge b (by omega), Bool.and_false]
    · rw [decide_eq_false hle, Bool.false_and]

theorem testBit_stored {t : List UInt8} (ht : t.length = 4) (i : Nat) :
    (stored t).toNat.testBit i = byteBit t i := by
  obtain ⟨a, b, c, d, rfl⟩ : ∃ a b c d, t = [a, b, c, d] := List.length_eq_four.mp ht
  have ha : a.toNat <<< (8 * 0) % 2 ^ 32 = a.toNat := by
    have hlt := a.toNat_lt
    rw [Nat.mul_zero, Nat.shiftLeft_zero]
    omega
  have hnat : (stored [a, b, c, d]).toNat = a.toNat <<< (8 * 0) % 2 ^ 32 |||
      b.toNat <<< (8 * 1) % 2 ^ 32 ||| c.toNat <<< (8 * 2) % 2 ^ 32 |||
      d.toNat <<< (8 * 3) % 2 ^ 32 := by
    rw [ha]
    simp [stored]
  rw [hnat, Nat.testBit_or, Nat.testBit_or, Nat.testBit_or, testBit_placed a (by decide),
    testBit_placed b (by decide), testBit_placed c (by decide), testBit_placed d (by decide),
    byteBit]
  match i / 8 with
  | 0 | 1 | 2 | 3 => simp
  | n + 4 => simp

theorem testBit_lowByte (x : UInt32) {j : Nat} (hj : j < 8) :
    (x &&& 0xFF).toUInt8.toNat.testBit j = x.toNat.testBit j := by
  have hnat : (x &&& 0xFF).toUInt8.toNat = x.toNat % 2 ^ 8 := by
    rw [UInt32.toNat_toUInt8, UInt32.toNat_and]
    have hmask : (0xFF : UInt32).toNat = 2 ^ 8 - 1 := rfl
    rw [hmask, Nat.and_two_pow_sub_one_eq_mod, Nat.mod_mod]
  rw [hnat, Nat.testBit_mod_two_pow, decide_eq_true hj, Bool.true_and]

theorem byteBit_littleEndian (crc : UInt32) (i : Nat) :
    byteBit (littleEndian crc) i = crc.toNat.testBit i := by
  have hj : i % 8 < 8 := Nat.mod_lt i (by decide)
  rw [byteBit]
  obtain hi | hi | hi | hi | hi : i / 8 = 0 ∨ i / 8 = 1 ∨ i / 8 = 2 ∨ i / 8 = 3 ∨ 4 ≤ i / 8 := by
    omega
  · have hplace : i % 8 = i := by omega
    rw [hi]
    exact (testBit_lowByte crc hj).trans (by rw [hplace])
  · have hplace : 8 + i % 8 = i := by omega
    rw [hi]
    refine (testBit_lowByte (crc >>> 8) hj).trans ?_
    simp [hplace]
  · have hplace : 16 + i % 8 = i := by omega
    rw [hi]
    refine (testBit_lowByte (crc >>> 16) hj).trans ?_
    simp [hplace]
  · have hplace : 24 + i % 8 = i := by omega
    rw [hi]
    refine (testBit_lowByte (crc >>> 24) hj).trans ?_
    simp [hplace]
  · have hbig : crc.toNat.testBit i = false := by
      apply Nat.testBit_lt_two_pow
      exact lt_of_lt_of_le crc.toNat_lt (Nat.pow_le_pow_right (by decide) (by omega))
    rw [List.getD_eq_default _ _ hi, hbig]
    exact Nat.zero_testBit _

theorem stored_littleEndian (crc : UInt32) : stored (littleEndian crc) = crc := by
  apply UInt32.toNat_inj.mp
  apply Nat.eq_of_testBit_eq
  intro i
  rw [testBit_stored rfl, byteBit_littleEndian]

theorem stored_eq_iff {t : List UInt8} (ht : t.length = 4) (crc : UInt32) :
    crc = stored t ↔ t = littleEndian crc := by
  constructor
  · rintro rfl
    apply eq_of_byteBit_eq ht
    intro i
    rw [byteBit_littleEndian, testBit_stored ht]
  · rintro rfl
    exact (stored_littleEndian crc).symm

theorem appendCrc32_eq (p : List UInt8) {spare : List UInt8} (hs : 4 ≤ spare.length) :
    appendCrc32 (some (p ++ spare)) p.length =
      (some (p ++ littleEndian (calculateCrc32 p) ++ spare.drop 4), p.length + 4) := by
  obtain ⟨a, b, c, d, rest, rfl⟩ : ∃ a b c d rest, spare = a :: b :: c :: d :: rest := by
    match spare, hs with
    | a :: b :: c :: d :: rest, _ => exact ⟨a, b, c, d, rest, rfl⟩
  have htake : (p ++ a :: b :: c :: d :: rest).take p.length = p := List.take_left
  simp only [appendCrc32, htake]
  simp [littleEndian]

theorem extractCrc32_eq (p : List UInt8) {t : List UInt8} (ht : t.length = 4) (rest : List UInt8) :
    extractCrc32 (some (p ++ t ++ rest)) (p.length + 4) true = (p.length, some (stored t)) := by
  have hget (k : Nat) (hk : k < 4) : (p ++ t ++ rest).getD (p.length + k) 0 = t.getD k 0 := by
    rw [List.append_assoc, List.getD_append_right _ _ _ _ (Nat.le_add_right _ _),
      Nat.add_sub_cancel_left, List.getD_append _ _ _ _ (ht ▸ hk)]
  have h0 : p.length + 4 - 4 = p.length + 0 := by omega
  have h1 : p.length + 4 - 3 = p.length + 1 := by omega
  have h2 : p.length + 4 - 2 = p.length + 2 := by omega
  have h3 : p.length + 4 - 1 = p.length + 3 := by omega
  have hcond : ¬ (p.length + 4 < 4 ∨ true = false) := by simp
  simp only [extractCrc32]
  rw [if_neg hcond, h0, h1, h2, h3, hget 0 (by decide), hget 1 (by decide), hget 2 (by decide),
    hget 3 (by decide)]
  rfl

/-- `verify_crc32` compares the trailer with the checksum of what precedes it,
but accepts no empty payload. -/
theorem verifyCrc32_iff (p : List UInt8) {t : List UInt8} (ht : t.length = 4) (rest : List UInt8) :
    verifyCrc32 (some (p ++ t ++ rest)) (p.length + 4) = true ↔
      p ≠ [] ∧ t = littleEndian (calculateCrc32 p) := by
  have hlong : ¬ p.length + 4 < 4 := by omega
  have htake : (p ++ t ++ rest).take p.length = p := by
    rw [List.append_assoc]
    exact List.take_left
  simp only [verifyCrc32]
  rw [if_neg hlong, extractCrc32_eq p ht rest, ← stored_eq_iff ht]
  simp only [htake]
  by_cases hp : p = []
  · simp [hp]
  · simp [hp]

/-- Append, extract and verify agree on a payload that stands in front of some
spare bytes. -/
def Agree (p spare : List UInt8) : Prop :=
  ∃ m, appendCrc32 (some (p ++ spare)) p.length = (some m, p.length + 4) ∧
    m.take p.length = p ∧
    extractCrc32 (some m) (p.length + 4) true = (p.length, some (calculateCrc32 p)) ∧
    verifyCrc32 (some m) (p.length + 4) = true

/-- The last four bytes are the checksum of those before them. -/
def Closed (buf : List UInt8) : Prop :=
  buf.drop (buf.length - 4) = littleEndian (calculateCrc32 (buf.take (buf.length - 4)))

theorem agree_iff {p spare : List UInt8} (hs : 4 ≤ spare.length) : Agree p spare ↔ p ≠ [] := by
  have htake : (p ++ littleEndian (calculateCrc32 p) ++ spare.drop 4).take p.length = p := by
    rw [List.append_assoc]
    exact List.take_left
  have hextract := extractCrc32_eq p (t := littleEndian (calculateCrc32 p)) rfl (spare.drop 4)
  rw [stored_littleEndian] at hextract
  have hverify := verifyCrc32_iff p (t := littleEndian (calculateCrc32 p)) rfl (spare.drop 4)
  constructor
  · rintro ⟨m, happ, _, _, hok⟩
    rw [appendCrc32_eq p hs] at happ
    obtain rfl := Option.some.inj (Prod.mk.inj happ).1
    exact (hverify.mp hok).1
  · intro hp
    exact ⟨_, appendCrc32_eq p hs, htake, hextract, hverify.mpr ⟨hp, rfl⟩⟩

theorem verify_closed_iff {buf : List UInt8} (hlen : 4 ≤ buf.length) (rest : List UInt8) :
    (verifyCrc32 (some (buf ++ rest)) buf.length = true ↔ Closed buf) ↔
      buf ≠ [0xFF, 0xFF, 0xFF, 0xFF] := by
  have hsplit : buf = buf.take (buf.length - 4) ++ buf.drop (buf.length - 4) :=
    (List.take_append_drop _ _).symm
  have ht : (buf.drop (buf.length - 4)).length = 4 := by
    rw [List.length_drop]
    omega
  have hp : (buf.take (buf.length - 4)).length + 4 = buf.length := by
    rw [List.length_take]
    omega
  have hverify := verifyCrc32_iff (buf.take (buf.length - 4)) ht rest
  rw [← hsplit, hp] at hverify
  have hempty : littleEndian (calculateCrc32 []) = [0xFF, 0xFF, 0xFF, 0xFF] := by decide
  rw [hverify, Closed, and_iff_right_iff_imp]
  constructor
  · rintro h rfl
    exact h (by decide) rfl
  · intro hne hclosed hq
    apply hne
    rw [hsplit, hclosed, hq, hempty]
    rfl

/-- The three functions agree on every payload but the empty one, whose
trailer `verify_crc32` takes for an error. -/
theorem trailer_agrees_iff {p spare buf : List UInt8} (hs : 4 ≤ spare.length)
    (hlen : 4 ≤ buf.length) (rest : List UInt8) :
    (Agree p spare ↔ p ≠ []) ∧
      ((verifyCrc32 (some (buf ++ rest)) buf.length = true ↔ Closed buf) ↔
        buf ≠ [0xFF, 0xFF, 0xFF, 0xFF]) :=
  ⟨agree_iff hs, verify_closed_iff hlen rest⟩

theorem trailer_agrees_iff_one_byte :
    Agree [0x01] [0x00, 0x00, 0x00, 0x00] ∧
      (verifyCrc32 (some [0x01, 0xBE, 0xA8, 0x9B, 0xB3]) 5 = true ↔
        Closed [0x01, 0xBE, 0xA8, 0x9B, 0xB3]) := by
  have hs : 4 ≤ ([0x00, 0x00, 0x00, 0x00] : List UInt8).length := Nat.le_refl 4
  have hlen : 4 ≤ ([0x01, 0xBE, 0xA8, 0x9B, 0xB3] : List UInt8).length := Nat.le_succ 4
  obtain ⟨hagree, hverify⟩ := trailer_agrees_iff (p := [0x01]) hs hlen []
  exact ⟨hagree.mpr (List.cons_ne_nil _ _), hverify.mpr (by decide)⟩

theorem trailer_empty_rejected :
    appendCrc32 (some [0x00, 0x00, 0x00, 0x00]) 0 = (some [0xFF, 0xFF, 0xFF, 0xFF], 4) ∧
      extractCrc32 (some [0xFF, 0xFF, 0xFF, 0xFF]) 4 true = (0, some (calculateCrc32 [])) ∧
      verifyCrc32 (some [0xFF, 0xFF, 0xFF, 0xFF]) 4 = false ∧
      [0xFF, 0xFF, 0xFF, 0xFF] = littleEndian (calculateCrc32 []) := by
  decide

end SlipStream.Crc32Trailer
