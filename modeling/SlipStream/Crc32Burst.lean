import SlipStream.Crc32Division

namespace SlipStream.Crc32Burst

open Polynomial BinaryDivision Crc32 Crc32Division

/-- The bits of the data, most significant bit of each byte first. -/
def bitAt (data : List UInt8) (i : Nat) : Bool := (data.getD (i / 8) 0).toBitVec.getMsbD (i % 8)

theorem bitAt_cons_lt (b : UInt8) (bs : List UInt8) {i : Nat} (hi : i < 8) :
    bitAt (b :: bs) i = b.toBitVec.getMsbD i := by
  rw [bitAt, Nat.div_eq_of_lt hi, Nat.mod_eq_of_lt hi]
  rfl

theorem bitAt_cons_add (b : UInt8) (bs : List UInt8) (i : Nat) :
    bitAt (b :: bs) (i + 8) = bitAt bs i := by
  rw [bitAt, Nat.add_div_right i (by decide), Nat.add_mod_right]
  rfl

theorem bitAt_of_ge {data : List UInt8} {i : Nat} (hi : 8 * data.length ≤ i) :
    bitAt data i = false := by
  have hle : data.length ≤ i / 8 := by omega
  rw [bitAt, List.getD_eq_default data 0 hle, BitVec.getMsbD_eq_getLsbD]
  simp

theorem coeff_dataPoly_of_ge (data : List UInt8) {i : Nat} (hi : 8 * data.length ≤ i) :
    (dataPoly data).coeff i = 0 := by
  induction data with
  | nil => exact coeff_zero i
  | cons b bs ih =>
    rw [List.length_cons] at hi
    rw [dataPoly_cons, coeff_add, coeff_mul_X_pow', if_pos (by omega), ih (by omega), add_zero,
      coeff_toPoly, BitVec.getLsbD_of_ge _ _ (by omega)]
    rfl

theorem coeff_dataPoly (data : List UInt8) {i : Nat} (hi : i < 8 * data.length) :
    (dataPoly data).coeff (8 * data.length - 1 - i) = bit (bitAt data i) := by
  induction data generalizing i with
  | nil => simp at hi
  | cons b bs ih =>
    rw [List.length_cons] at hi ⊢
    rw [dataPoly_cons, coeff_add, coeff_mul_X_pow']
    obtain hlt | hge := Nat.lt_or_ge i 8
    · have hexp : 8 * (bs.length + 1) - 1 - i - 8 * bs.length = 8 - 1 - i := by omega
      rw [if_pos (by omega), coeff_dataPoly_of_ge bs (by omega), add_zero, hexp, coeff_toPoly,
        bitAt_cons_lt b bs hlt, BitVec.getMsbD_eq_getLsbD, decide_eq_true hlt, Bool.true_and]
    · obtain ⟨j, rfl⟩ := Nat.exists_eq_add_of_le' hge
      have hexp : 8 * (bs.length + 1) - 1 - (j + 8) = 8 * bs.length - 1 - j := by omega
      rw [if_neg (by omega), zero_add, hexp, ih (by omega), bitAt_cons_add]

theorem coeff_sub_dataPoly {p q : List UInt8} (hlen : p.length = q.length) {i : Nat}
    (hi : i < 8 * p.length) :
    (dataPoly p - dataPoly q).coeff (8 * p.length - 1 - i) = bit (bitAt p i ^^ bitAt q i) := by
  rw [coeff_sub, coeff_dataPoly p hi, hlen, coeff_dataPoly q (hlen ▸ hi), CharTwo.sub_eq_add,
    bit_xor]

theorem coeff_sub_dataPoly_of_ge {p q : List UInt8} (hlen : p.length = q.length) {i : Nat}
    (hi : 8 * p.length ≤ i) : (dataPoly p - dataPoly q).coeff i = 0 := by
  rw [coeff_sub, coeff_dataPoly_of_ge p hi, coeff_dataPoly_of_ge q (hlen ▸ hi), sub_zero]

theorem eq_of_bitAt_eq {p q : List UInt8} (hlen : p.length = q.length)
    (h : ∀ i, bitAt p i = bitAt q i) : p = q := by
  induction p generalizing q with
  | nil => exact (List.length_eq_zero_iff.mp hlen.symm).symm
  | cons b bs ih =>
    cases q with
    | nil => simp at hlen
    | cons c cs =>
      have hhead : b = c := by
        apply UInt8.toBitVec_inj.mp
        apply BitVec.eq_of_getMsbD_eq
        intro i hi
        have hbit := h i
        rwa [bitAt_cons_lt b bs hi, bitAt_cons_lt c cs hi] at hbit
      have htail : bs = cs := by
        apply ih (Nat.succ.inj hlen)
        intro i
        have hbit := h (i + 8)
        rwa [bitAt_cons_add, bitAt_cons_add] at hbit
      rw [hhead, htail]

/-- What remains of the divisor of the table without its factor `X`: the terms
of `CRC32_POLYNOMIAL` below `X ^ 31` instead of `X ^ 32`. -/
def tableFactor : UInt32 := 0x84C11DB7

theorem divisor_tablePolynomial :
    divisor tablePolynomial.toBitVec = X * toPoly tableFactor.toBitVec := by
  have hshift : tableFactor.toBitVec <<< 1 = tablePolynomial.toBitVec := by decide
  have hmsb : tableFactor.toBitVec.msb = true := by decide
  rw [toPoly_shiftLeft_one, hshift, hmsb]
  simp only [divisor, bit, ↓reduceIte, C_1, one_mul]
  rw [add_comm]

theorem degree_tableFactor : (toPoly tableFactor.toBitVec).degree = (31 : Nat) := by
  have h := degree_divisor tablePolynomial.toBitVec
  have hne : toPoly tableFactor.toBitVec ≠ 0 := by
    intro hz
    rw [divisor_tablePolynomial, hz, mul_zero, degree_zero] at h
    cases h
  rw [divisor_tablePolynomial, degree_mul, degree_X, degree_eq_natDegree hne] at h
  have hnat : 1 + (toPoly tableFactor.toBitVec).natDegree = 32 := by exact_mod_cast h
  rw [degree_eq_natDegree hne]
  exact_mod_cast (by omega : (toPoly tableFactor.toBitVec).natDegree = 31)

/-- Two messages of one length have the same checksum exactly when they differ
by a multiple of `tableFactor`. -/
theorem calculateCrc32_eq_iff {p q : List UInt8} (hlen : p.length = q.length) :
    calculateCrc32 p = calculateCrc32 q ↔
      toPoly tableFactor.toBitVec ∣ dataPoly p - dataPoly q := by
  have hlow : (toPoly tableFactor.toBitVec).coeff 0 = 1 := by
    rw [coeff_toPoly]
    decide
  have hsub : message p 0xFFFFFFFF - message q 0xFFFFFFFF =
      (dataPoly p - dataPoly q) * X ^ (31 + 1) := by
    simp only [message]
    rw [hlen]
    ring
  rw [← X_mul_dvd_mul_X_pow_iff hlow 31, ← hsub, ← divisor_tablePolynomial,
    ← mod_eq_mod_iff_dvd_sub (monic_divisor _), ← toPoly_divide, ← toPoly_divide, calculateCrc32,
    calculateCrc32, calculateCrc32WithInitial_eq, calculateCrc32WithInitial_eq]
  refine ⟨fun h => by rw [h], fun h => ?_⟩
  exact UInt32.toBitVec_inj.mp (toPoly_injective h)

theorem exists_window {p q : List UInt8} (hlen : p.length = q.length) {k n : Nat}
    (h : ∀ i, bitAt p i ≠ bitAt q i → k ≤ i ∧ i < k + n) :
    ∃ d : (ZMod 2)[X], dataPoly p - dataPoly q = X ^ (8 * p.length - (k + n)) * d ∧
      d.degree < n := by
  have hsame {i : Nat} (hi : ¬ (k ≤ i ∧ i < k + n)) (hlt : i < 8 * p.length) :
      (dataPoly p - dataPoly q).coeff (8 * p.length - 1 - i) = 0 := by
    have heq : bitAt p i = bitAt q i := by_contra fun hne => hi (h i hne)
    rw [coeff_sub_dataPoly hlen hlt, heq, Bool.xor_self]
    rfl
  refine exists_eq_X_pow_mul ?_ ?_
  · intro i hi
    have hplace : i = 8 * p.length - 1 - (8 * p.length - 1 - i) := by omega
    rw [hplace]
    exact hsame (by omega) (by omega)
  · intro i hi
    obtain hlt | hge := Nat.lt_or_ge i (8 * p.length)
    · have hplace : i = 8 * p.length - 1 - (8 * p.length - 1 - i) := by omega
      rw [hplace]
      exact hsame (by omega) (by omega)
    · exact coeff_sub_dataPoly_of_ge hlen hge

theorem dataPoly_ne {p q : List UInt8} (hlen : p.length = q.length) (hne : p ≠ q) :
    dataPoly p - dataPoly q ≠ 0 := by
  intro hz
  apply hne
  apply eq_of_bitAt_eq hlen
  intro i
  obtain hlt | hge := Nat.lt_or_ge i (8 * p.length)
  · have hbit := coeff_sub_dataPoly hlen hlt
    rw [hz, coeff_zero] at hbit
    have hxor : (bitAt p i ^^ bitAt q i) = false := bit_injective hbit.symm
    exact bne_eq_false_iff_eq.mp hxor
  · rw [bitAt_of_ge hge, bitAt_of_ge (hlen ▸ hge)]

/-- The bits in which `p` and `q` differ are those of the word `w`, from some
place on. -/
def DiffersBy (w : UInt32) (p q : List UInt8) : Prop :=
  ∃ k, ∀ i, (bitAt p i ^^ bitAt q i) = (decide (k ≤ i) && w.toBitVec.getMsbD (i - k))

theorem coeff_moved (w : BitVec 32) {n a i : Nat} (ha : a + 32 ≤ n) (hi : i < n) :
    (X ^ a * toPoly w).coeff (n - 1 - i) =
      bit (decide (n - (a + 32) ≤ i) && w.getMsbD (i - (n - (a + 32)))) := by
  rw [coeff_X_pow_mul', coeff_toPoly, BitVec.getMsbD_eq_getLsbD]
  by_cases hlow : n - (a + 32) ≤ i
  · by_cases hhigh : i - (n - (a + 32)) < 32
    · have hplace : n - 1 - i - a = 32 - 1 - (i - (n - (a + 32))) := by omega
      rw [if_pos (by omega), hplace, decide_eq_true hlow, decide_eq_true hhigh, Bool.true_and,
        Bool.true_and]
    · rw [if_neg (by omega), decide_eq_false hhigh, Bool.false_and, Bool.and_false]
      rfl
  · rw [if_pos (by omega), BitVec.getLsbD_of_ge w _ (by omega), decide_eq_false hlow,
      Bool.false_and]

theorem differsBy_iff {p q : List UInt8} (hlen : p.length = q.length) :
    DiffersBy tableFactor p q ↔
      ∃ a, dataPoly p - dataPoly q = X ^ a * toPoly tableFactor.toBitVec := by
  constructor
  · rintro ⟨k, hk⟩
    have hend : k + 32 ≤ 8 * p.length := by
      by_contra hlt
      have hlast := hk (k + 31)
      rw [bitAt_of_ge (by omega), bitAt_of_ge (by omega), Nat.add_sub_cancel_left] at hlast
      simp [tableFactor] at hlast
    refine ⟨8 * p.length - (k + 32), ?_⟩
    ext e
    obtain hlt | hge := Nat.lt_or_ge e (8 * p.length)
    · have hplace : e = 8 * p.length - 1 - (8 * p.length - 1 - e) := by omega
      have hback : 8 * p.length - (8 * p.length - (k + 32) + 32) = k := by omega
      rw [hplace, coeff_sub_dataPoly hlen (by omega), coeff_moved _ (by omega) (by omega), hback,
        hk]
    · rw [coeff_sub_dataPoly_of_ge hlen hge, coeff_X_pow_mul', if_pos (by omega), coeff_toPoly,
        BitVec.getLsbD_of_ge _ _ (by omega)]
      rfl
  · rintro ⟨a, ha⟩
    have hend : a + 32 ≤ 8 * p.length := by
      by_contra hlt
      have hge : 8 * p.length ≤ 31 + a := by omega
      have hlast := coeff_sub_dataPoly_of_ge hlen hge
      rw [ha, coeff_X_pow_mul, coeff_toPoly] at hlast
      revert hlast
      decide
    refine ⟨8 * p.length - (a + 32), ?_⟩
    intro i
    obtain hlt | hge := Nat.lt_or_ge i (8 * p.length)
    · apply bit_injective
      rw [← coeff_sub_dataPoly hlen hlt, ha, coeff_moved _ hend hlt]
    · rw [bitAt_of_ge hge, bitAt_of_ge (hlen ▸ hge), BitVec.getMsbD_of_ge _ _ (by omega),
        Bool.and_false]
      rfl

theorem tableFactor_dvd_of_dvd_mul {a : Nat} {d : (ZMod 2)[X]}
    (h : toPoly tableFactor.toBitVec ∣ X ^ a * d) : toPoly tableFactor.toBitVec ∣ d := by
  have hcop : IsCoprime (toPoly tableFactor.toBitVec) (X ^ a) := by
    apply IsCoprime.symm
    apply IsCoprime.pow_left
    apply isCoprime_X_of_coeff_zero
    rw [coeff_toPoly]
    decide
  exact hcop.dvd_of_dvd_mul_left h

theorem eq_of_short_burst {p q : List UInt8} (hlen : p.length = q.length) {k n : Nat}
    (hn : n ≤ 31) (hburst : ∀ i, bitAt p i ≠ bitAt q i → k ≤ i ∧ i < k + n)
    (hcrc : calculateCrc32 p = calculateCrc32 q) : p = q := by
  obtain ⟨d, hd, hdeg⟩ := exists_window hlen hburst
  have hdvd := (calculateCrc32_eq_iff hlen).mp hcrc
  rw [hd] at hdvd
  have hlt : d.degree < (toPoly tableFactor.toBitVec).degree := by
    rw [degree_tableFactor]
    exact lt_of_lt_of_le hdeg (by exact_mod_cast hn)
  have hz := eq_zero_of_dvd_of_degree_lt (tableFactor_dvd_of_dvd_mul hdvd) hlt
  by_contra hne
  apply dataPoly_ne hlen hne
  rw [hd, hz, mul_zero]

/-- A burst of at most 32 bits is detected unless it is `tableFactor` itself,
which takes all of them. -/
theorem burst_detected_iff {p q : List UInt8} (hlen : p.length = q.length) (hne : p ≠ q) {k : Nat}
    (hburst : ∀ i, bitAt p i ≠ bitAt q i → k ≤ i ∧ i < k + 32) :
    calculateCrc32 p ≠ calculateCrc32 q ↔ ¬ DiffersBy tableFactor p q := by
  rw [ne_eq, not_iff_not, calculateCrc32_eq_iff hlen, differsBy_iff hlen]
  constructor
  · intro hdvd
    obtain ⟨d, hd, hdeg⟩ := exists_window hlen hburst
    rw [hd] at hdvd
    obtain hz | hfac := eq_zero_or_eq_of_dvd degree_tableFactor hdeg
      (tableFactor_dvd_of_dvd_mul hdvd)
    · rw [hz, mul_zero] at hd
      exact absurd hd (dataPoly_ne hlen hne)
    · exact ⟨_, hfac ▸ hd⟩
  · rintro ⟨a, ha⟩
    rw [ha]
    exact dvd_mul_left _ _

theorem lt_of_bitAt_ne {p q : List UInt8} (hlen : p.length = q.length) {i : Nat}
    (h : bitAt p i ≠ bitAt q i) : i < 8 * p.length := by
  by_contra hge
  exact h (by rw [bitAt_of_ge (by omega), bitAt_of_ge (by omega)])

theorem burst_detected_iff_one_bit : calculateCrc32 [0x00] ≠ calculateCrc32 [0x01] := by
  refine (burst_detected_iff (by rfl) (by decide) (k := 0) ?_).mpr ?_
  · intro i hi
    have hlt := lt_of_bitAt_ne (by rfl) hi
    simp only [List.length_singleton] at hlt
    omega
  · rintro ⟨k, hk⟩
    have hlast := hk (k + 31)
    rw [bitAt_of_ge (by simp), bitAt_of_ge (by simp), Nat.add_sub_cancel_left]
      at hlast
    simp [tableFactor] at hlast

theorem burst_undetected :
    ([0x00, 0x00, 0x00, 0x00] : List UInt8) ≠ [0x84, 0xC1, 0x1D, 0xB7] ∧
      (∀ i, bitAt [0x00, 0x00, 0x00, 0x00] i ≠ bitAt [0x84, 0xC1, 0x1D, 0xB7] i →
        0 ≤ i ∧ i < 0 + 32) ∧
      calculateCrc32 [0x00, 0x00, 0x00, 0x00] = calculateCrc32 [0x84, 0xC1, 0x1D, 0xB7] := by
  refine ⟨by decide, ?_, by decide +kernel⟩
  intro i hi
  have hlt := lt_of_bitAt_ne (by rfl) hi
  simp only [List.length_cons, List.length_nil] at hlt
  omega

end SlipStream.Crc32Burst
