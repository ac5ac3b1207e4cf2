import SlipStream.BinaryDivision
import SlipStream.Crc32

namespace SlipStream.Crc32Division

open Polynomial BinaryDivision Crc32

/-- Shift the register left, and XOR the polynomial when the bit shifted out
is set. -/
def divideBit (poly crc : UInt32) : UInt32 :=
  if crc.toBitVec.msb then (crc <<< 1) ^^^ poly else crc <<< 1

def divideByte (poly crc : UInt32) (byte : UInt8) : UInt32 :=
  (divideBit poly)^[8] (crc ^^^ byte.toUInt32 <<< 24)

/-- The declared computation: division bit by bit, most significant bit first
and without reflection. -/
def divide (poly : UInt32) (data : List UInt8) (initialCrc : UInt32) : UInt32 :=
  data.foldl (divideByte poly) initialCrc

/-- The polynomial the table of the source is made for. It is
`CRC32_POLYNOMIAL` moved up by one place. -/
def tablePolynomial : UInt32 := 0x09823B6E

theorem toBitVec_divideBit (poly crc : UInt32) :
    (divideBit poly crc).toBitVec = step poly.toBitVec crc.toBitVec := by
  simp only [divideBit, step]
  cases crc.toBitVec.msb with
  | false => rfl
  | true => rfl

theorem toBitVec_divideBits (poly crc : UInt32) (k : Nat) :
    ((divideBit poly)^[k] crc).toBitVec = (step poly.toBitVec)^[k] crc.toBitVec := by
  induction k with
  | zero => rfl
  | succ k ih =>
    rw [Function.iterate_succ_apply', Function.iterate_succ_apply', toBitVec_divideBit, ih]

theorem crc32Table_eq : ∀ i : Fin 256,
    crc32Table.getD i 0 = (divideBit tablePolynomial)^[8] (UInt32.ofNat i <<< 24) := by
  decide +kernel

/-- The byte that selects the table entry, and the bits it leaves alone. -/
theorem split_top (c : BitVec 32) (b : BitVec 8) :
    c ^^^ b.setWidth 32 <<< 24 =
      ((c >>> 24) ^^^ b.setWidth 32) <<< 24 ^^^ ((c <<< 8) >>> 8) := by
  apply BitVec.eq_of_getLsbD_eq
  intro i hi
  simp only [BitVec.getLsbD_xor, BitVec.getLsbD_shiftLeft, BitVec.getLsbD_ushiftRight,
    BitVec.getLsbD_setWidth]
  by_cases h : i < 24
  · have h8 : 8 + i < 32 := by omega
    simp [h, h8]
  · have h8 : ¬ 8 + i < 32 := by omega
    have h24 : 24 + (i - 24) = i := by omega
    have h32 : i - 24 < 32 := by omega
    simp [h, h8, h24, h32, hi]

theorem steps_low (g c : BitVec 32) : (step g)^[8] ((c <<< 8) >>> 8) = c <<< 8 := by
  rw [steps_of_clear]
  · apply BitVec.eq_of_getLsbD_eq
    intro i hi
    simp only [BitVec.getLsbD_shiftLeft, BitVec.getLsbD_ushiftRight]
    by_cases h : i < 8
    · simp [h]
    · have h8 : 8 + (i - 8) = i := by omega
      simp [h, h8, hi]
  · intro i hi
    simp only [BitVec.getLsbD_shiftLeft, BitVec.getLsbD_ushiftRight]
    have h8 : ¬ 8 + i < 32 := by omega
    simp [h8]

theorem top_lt (crc : UInt32) (byte : UInt8) : (crc >>> 24 ^^^ byte.toUInt32).toNat < 256 := by
  have hcrc : (crc >>> 24).toNat < 2 ^ 8 := by
    have h := crc.toNat_lt
    rw [UInt32.toNat_shiftRight]
    simp only [UInt32.reduceToNat, Nat.reduceMod, Nat.shiftRight_eq_div_pow]
    omega
  have hbyte : byte.toUInt32.toNat < 2 ^ 8 := by
    simpa using byte.toNat_lt
  rw [UInt32.toNat_xor]
  exact Nat.xor_lt_two_pow hcrc hbyte

theorem and_eq_self {x m : UInt32} {k : Nat} (hm : m.toNat = 2 ^ k - 1) (hx : x.toNat < 2 ^ k) :
    x &&& m = x := by
  apply UInt32.toNat_inj.mp
  rw [UInt32.toNat_and, hm, Nat.and_two_pow_sub_one_eq_mod, Nat.mod_eq_of_lt hx]

/-- One look at the table does the eight divisions of a byte. -/
theorem updateCrc32_eq (crc : UInt32) (byte : UInt8) :
    updateCrc32 crc byte = divideByte tablePolynomial crc byte := by
  have hindex : (crc >>> 24 ^^^ byte.toUInt32) &&& (0xFF : UInt32) =
      crc >>> 24 ^^^ byte.toUInt32 := and_eq_self (k := 8) rfl (top_lt crc byte)
  have hall (x : UInt32) : x &&& 0xFFFFFFFF = x := and_eq_self (k := 32) rfl x.toNat_lt
  have hentry := crc32Table_eq ⟨_, top_lt crc byte⟩
  simp only [UInt32.ofNat_toNat] at hentry
  simp only [updateCrc32, divideByte]
  rw [hall, hindex, hentry]
  apply UInt32.toBitVec_inj.mp
  have hsplit := split_top crc.toBitVec byte.toBitVec
  have hlow := steps_low tablePolynomial.toBitVec crc.toBitVec
  have hbyte : (crc ^^^ byte.toUInt32 <<< 24).toBitVec =
      crc.toBitVec ^^^ byte.toBitVec.setWidth 32 <<< 24 := rfl
  have htop : ((crc >>> 24 ^^^ byte.toUInt32) <<< 24).toBitVec =
      ((crc.toBitVec >>> 24) ^^^ byte.toBitVec.setWidth 32) <<< 24 := rfl
  rw [UInt32.toBitVec_xor, toBitVec_divideBits, toBitVec_divideBits, hbyte, htop, hsplit,
    steps_xor, hlow, BitVec.xor_comm]
  rfl

theorem calculateCrc32WithInitial_eq (data : List UInt8) (initialCrc : UInt32) :
    calculateCrc32WithInitial data initialCrc = divide tablePolynomial data initialCrc := by
  simp only [calculateCrc32WithInitial, divide]
  congr 1
  funext crc byte
  exact updateCrc32_eq crc byte

noncomputable def dataPoly : List UInt8 → (ZMod 2)[X]
  | [] => 0
  | b :: bs => toPoly b.toBitVec * X ^ (8 * bs.length) + dataPoly bs

theorem dataPoly_cons (b : UInt8) (bs : List UInt8) :
    dataPoly (b :: bs) = toPoly b.toBitVec * X ^ (8 * bs.length) + dataPoly bs := rfl

/-- The polynomial the division divides: the data followed by 32 zero bits,
with the initial value added to its first 32 bits. -/
noncomputable def message (data : List UInt8) (initialCrc : UInt32) : (ZMod 2)[X] :=
  toPoly initialCrc.toBitVec * X ^ (8 * data.length) + dataPoly data * X ^ 32

theorem divisor_dvd_divideByte (poly crc : UInt32) (byte : UInt8) :
    divisor poly.toBitVec ∣ toPoly crc.toBitVec * X ^ 8 + toPoly byte.toBitVec * X ^ 32 -
      toPoly (divideByte poly crc byte).toBitVec := by
  have h := divisor_dvd_steps poly.toBitVec (crc ^^^ byte.toUInt32 <<< 24).toBitVec 8
  have hbyte : (crc ^^^ byte.toUInt32 <<< 24).toBitVec =
      crc.toBitVec ^^^ byte.toBitVec.setWidth 32 <<< 24 := rfl
  rw [← toBitVec_divideBits, hbyte, toPoly_xor, toPoly_setWidth_shiftLeft _ (by decide)] at h
  have hsum : toPoly crc.toBitVec * X ^ 8 + toPoly byte.toBitVec * X ^ 32 =
      X ^ 8 * (toPoly crc.toBitVec + X ^ 24 * toPoly byte.toBitVec) := by ring
  rw [hsum]
  exact h

theorem divisor_dvd_divide (poly : UInt32) (data : List UInt8) (initialCrc : UInt32) :
    divisor poly.toBitVec ∣
      message data initialCrc - toPoly (divide poly data initialCrc).toBitVec := by
  induction data generalizing initialCrc with
  | nil => simp [message, dataPoly, divide]
  | cons b bs ih =>
    have hbyte := divisor_dvd_divideByte poly initialCrc b
    have hsum : message (b :: bs) initialCrc -
        toPoly (divide poly (b :: bs) initialCrc).toBitVec =
        (toPoly initialCrc.toBitVec * X ^ 8 + toPoly b.toBitVec * X ^ 32 -
          toPoly (divideByte poly initialCrc b).toBitVec) * X ^ (8 * bs.length) +
        (message bs (divideByte poly initialCrc b) -
          toPoly (divide poly bs (divideByte poly initialCrc b)).toBitVec) := by
      simp only [message, divide]
      rw [List.length_cons, List.foldl_cons, dataPoly_cons]
      ring
    rw [hsum]
    exact dvd_add (Dvd.dvd.mul_right hbyte _) (ih _)

/-- Bit by bit, the register ends up with the remainder of the message. -/
theorem toPoly_divide (poly : UInt32) (data : List UInt8) (initialCrc : UInt32) :
    toPoly (divide poly data initialCrc).toBitVec =
      message data initialCrc %ₘ divisor poly.toBitVec :=
  toPoly_eq_mod (divisor_dvd_divide poly data initialCrc)

theorem isCoprime_polynomials :
    IsCoprime (divisor CRC32_POLYNOMIAL.toBitVec) (divisor tablePolynomial.toBitVec) := by
  have hshift : tablePolynomial.toBitVec = CRC32_POLYNOMIAL.toBitVec <<< 1 := by decide
  rw [hshift]
  refine isCoprime_divisor_shift (by decide) (by decide) ?_
  simp only [toPoly]
  rw [eval_finsetSum]
  simp only [eval_mul, eval_C, eval_pow, eval_X, one_pow, mul_one]
  decide

/-- The table gives the declared CRC exactly for the messages whose remainder
modulo both divisors together fits the register. -/
theorem calculateCrc32WithInitial_eq_divide_iff (data : List UInt8) (initialCrc : UInt32) :
    calculateCrc32WithInitial data initialCrc = divide CRC32_POLYNOMIAL data initialCrc ↔
      (message data initialCrc %ₘ
        (divisor CRC32_POLYNOMIAL.toBitVec * divisor tablePolynomial.toBitVec)).degree < 32 := by
  rw [calculateCrc32WithInitial_eq]
  have hmod := mod_eq_mod_iff (monic_divisor CRC32_POLYNOMIAL.toBitVec)
    (monic_divisor tablePolynomial.toBitVec) (degree_divisor _) (degree_divisor _)
    isCoprime_polynomials (message data initialCrc)
  rw [← toPoly_divide, ← toPoly_divide] at hmod
  refine Iff.trans ?_ hmod
  refine ⟨?_, ?_⟩
  · intro h
    rw [h]
  · intro h
    exact (UInt32.toBitVec_inj.mp (toPoly_injective h)).symm

theorem calculateCrc32WithInitial_one :
    calculateCrc32WithInitial [0x01] 0 = 0x09823B6E ∧
      divide CRC32_POLYNOMIAL [0x01] 0 = 0x04C11DB7 ∧
      calculateCrc32WithInitial [0x01] 0 ≠ divide CRC32_POLYNOMIAL [0x01] 0 := by
  decide +kernel

theorem xor_xor_swap {w : Nat} (a b c d : BitVec w) :
    a ^^^ b ^^^ (c ^^^ d) = a ^^^ c ^^^ (b ^^^ d) := by
  rw [BitVec.xor_assoc, BitVec.xor_assoc, ← BitVec.xor_assoc b, BitVec.xor_comm b c,
    BitVec.xor_assoc c]

theorem updateCrc32_xor (c c' : UInt32) (b b' : UInt8) :
    updateCrc32 c b ^^^ updateCrc32 c' b' = updateCrc32 (c ^^^ c') (b ^^^ b') := by
  have hin : (c ^^^ b.toUInt32 <<< 24).toBitVec ^^^ (c' ^^^ b'.toUInt32 <<< 24).toBitVec =
      (c ^^^ c' ^^^ (b ^^^ b').toUInt32 <<< 24).toBitVec := by
    change c.toBitVec ^^^ b.toBitVec.setWidth 32 <<< 24 ^^^
        (c'.toBitVec ^^^ b'.toBitVec.setWidth 32 <<< 24) =
      c.toBitVec ^^^ c'.toBitVec ^^^ (b.toBitVec ^^^ b'.toBitVec).setWidth 32 <<< 24
    rw [BitVec.setWidth_xor, BitVec.shiftLeft_xor_distrib, xor_xor_swap]
  rw [updateCrc32_eq, updateCrc32_eq, updateCrc32_eq]
  apply UInt32.toBitVec_inj.mp
  simp only [divideByte]
  rw [UInt32.toBitVec_xor, toBitVec_divideBits, toBitVec_divideBits, toBitVec_divideBits,
    ← steps_xor, hin]

theorem calculateCrc32WithInitial_xor {p q : List UInt8} (hlen : p.length = q.length)
    (c c' : UInt32) :
    calculateCrc32WithInitial p c ^^^ calculateCrc32WithInitial q c' =
      calculateCrc32WithInitial (List.zipWith (· ^^^ ·) p q) (c ^^^ c') := by
  induction p generalizing q c c' with
  | nil =>
    obtain rfl := List.length_eq_zero_iff.mp hlen.symm
    rfl
  | cons b bs ih =>
    cases q with
    | nil => simp at hlen
    | cons b' bs' =>
      have h := ih (Nat.succ.inj hlen) (updateCrc32 c b) (updateCrc32 c' b')
      rw [updateCrc32_xor] at h
      exact h

/-- The checksum of a bytewise XOR is the XOR of the checksums, initial values
included. -/
theorem calculateCrc32WithInitial_linear (d d' : List UInt8) (i i' : UInt32)
    (hlen : d.length = d'.length) :
    calculateCrc32WithInitial (List.zipWith (fun b b' => b ^^^ b') d d') (i ^^^ i') =
      calculateCrc32WithInitial d i ^^^ calculateCrc32WithInitial d' i' :=
  (calculateCrc32WithInitial_xor hlen i i').symm

theorem calculateCrc32WithInitial_linear_two :
    calculateCrc32WithInitial [0xB2, 0x01] 0xFFFFFFFE =
      calculateCrc32WithInitial [0x4D, 0x80] 1 ^^^
        calculateCrc32WithInitial [0xFF, 0x81] 0xFFFFFFFF :=
  calculateCrc32WithInitial_linear [0x4D, 0x80] [0xFF, 0x81] 1 0xFFFFFFFF (by decide)

end SlipStream.Crc32Division
