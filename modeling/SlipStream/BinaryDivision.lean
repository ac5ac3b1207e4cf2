import Mathlib.Algebra.CharP.Two
import Mathlib.Algebra.Field.ZMod
import Mathlib.Algebra.Polynomial.FieldDivision

namespace SlipStream.BinaryDivision

open Polynomial

variable {v w : Nat}

def bit (b : Bool) : ZMod 2 := if b then 1 else 0

/-- A word as a polynomial over the two-element field, bit `i` for `X ^ i`. -/
noncomputable def toPoly (r : BitVec w) : (ZMod 2)[X] :=
  ∑ i ∈ Finset.range w, C (bit (r.getLsbD i)) * X ^ i

/-- The monic divisor of degree `w` whose lower coefficients are `g`. -/
noncomputable def divisor (g : BitVec w) : (ZMod 2)[X] := X ^ w + toPoly g

/-- One bit of the long division: multiply by `X` and subtract the divisor
when its leading term appears. -/
def step (g r : BitVec w) : BitVec w := if r.msb then r <<< 1 ^^^ g else r <<< 1

theorem bit_xor (a b : Bool) : bit (a ^^ b) = bit a + bit b := by
  cases a <;> cases b <;> decide

theorem bit_injective {a b : Bool} (h : bit a = bit b) : a = b := by
  cases a <;> cases b <;> simp_all [bit]

@[simp] theorem coeff_toPoly (r : BitVec w) (i : Nat) : (toPoly r).coeff i = bit (r.getLsbD i) := by
  simp only [toPoly]
  rw [finsetSum_coeff]
  simp only [coeff_C_mul_X_pow]
  obtain hi | hi := Nat.lt_or_ge i w
  · rw [Finset.sum_ite_eq, if_pos (Finset.mem_range.mpr hi)]
  · rw [Finset.sum_ite_eq, if_neg (by simpa using hi), BitVec.getLsbD_of_ge r i hi]
    rfl

theorem toPoly_injective {a b : BitVec w} (h : toPoly a = toPoly b) : a = b := by
  apply BitVec.eq_of_getLsbD_eq
  intro i _
  have hi := congrArg (fun p => p.coeff i) h
  simp only [coeff_toPoly] at hi
  exact bit_injective hi

theorem toPoly_xor (a b : BitVec w) : toPoly (a ^^^ b) = toPoly a + toPoly b := by
  ext i
  simp only [coeff_toPoly, coeff_add, BitVec.getLsbD_xor, bit_xor]

theorem degree_toPoly_lt (r : BitVec w) : (toPoly r).degree < w := by
  rw [degree_lt_iff_coeff_zero]
  intro i hi
  rw [coeff_toPoly, BitVec.getLsbD_of_ge r i hi]
  rfl

theorem monic_divisor (g : BitVec w) : (divisor g).Monic := monic_X_pow_add (degree_toPoly_lt g)

theorem degree_divisor (g : BitVec w) : (divisor g).degree = w := by
  have hlt : (toPoly g).degree < (X ^ w : (ZMod 2)[X]).degree := by
    rw [degree_X_pow]
    exact degree_toPoly_lt g
  simp only [divisor]
  rw [degree_add_eq_left_of_degree_lt hlt, degree_X_pow]

theorem toPoly_setWidth_shiftLeft (r : BitVec v) {k : Nat} (h : v + k ≤ w) :
    toPoly (r.setWidth w <<< k) = X ^ k * toPoly r := by
  ext i
  rw [coeff_X_pow_mul', coeff_toPoly]
  simp only [BitVec.getLsbD_shiftLeft, BitVec.getLsbD_setWidth, coeff_toPoly]
  by_cases hk : k ≤ i
  · rw [if_pos hk]
    by_cases hv : i - k < v
    · have hi : i < w := by omega
      have hi' : i - k < w := by omega
      simp [Nat.not_lt.mpr hk, hi, hi']
    · simp [BitVec.getLsbD_of_ge r (i - k) (by omega), bit]
  · have hlt : i < k := by omega
    simp [hk, hlt, bit]

theorem toPoly_shiftLeft_one (r : BitVec w) :
    X * toPoly r = toPoly (r <<< 1) + C (bit r.msb) * X ^ w := by
  ext i
  rw [coeff_add, coeff_C_mul_X_pow, coeff_toPoly, BitVec.getLsbD_shiftLeft]
  cases i with
  | zero =>
    cases w with
    | zero => simp [bit, BitVec.of_length_zero]
    | succ w => simp [bit]
  | succ i =>
    rw [coeff_X_mul, coeff_toPoly]
    obtain hi | hi | hi := Nat.lt_trichotomy (i + 1) w
    · have hne : i + 1 ≠ w := by omega
      simp [hi, hne]
    · subst hi
      simp [BitVec.msb_eq_getLsbD_last, bit]
    · have hne : i + 1 ≠ w := by omega
      have hge : ¬ i + 1 < w := by omega
      simp [hne, hge, BitVec.getLsbD_of_ge r i (by omega), bit]

theorem divisor_dvd_step (g r : BitVec w) : divisor g ∣ X * toPoly r - toPoly (step g r) := by
  refine ⟨C (bit r.msb), ?_⟩
  rw [toPoly_shiftLeft_one]
  simp only [step, divisor]
  cases r.msb with
  | false => simp [bit]
  | true =>
    simp only [↓reduceIte, bit, C_1, one_mul, mul_one, toPoly_xor]
    rw [add_sub_add_left_eq_sub, CharTwo.sub_eq_add]

theorem divisor_dvd_steps (g r : BitVec w) (k : Nat) :
    divisor g ∣ X ^ k * toPoly r - toPoly ((step g)^[k] r) := by
  induction k with
  | zero => simp
  | succ k ih =>
    have hstep := divisor_dvd_step g ((step g)^[k] r)
    have hsum : X ^ (k + 1) * toPoly r - toPoly ((step g)^[k + 1] r) =
        X * (X ^ k * toPoly r - toPoly ((step g)^[k] r)) +
          (X * toPoly ((step g)^[k] r) - toPoly (step g ((step g)^[k] r))) := by
      rw [Function.iterate_succ_apply']
      ring
    rw [hsum]
    exact dvd_add (Dvd.dvd.mul_left ih X) hstep

/-- A word that differs from `p` by a multiple of the divisor is its remainder. -/
theorem toPoly_eq_mod {g r : BitVec w} {p : (ZMod 2)[X]} (h : divisor g ∣ p - toPoly r) :
    toPoly r = p %ₘ divisor g := by
  have hself : toPoly r %ₘ divisor g = toPoly r := by
    rw [modByMonic_eq_self_iff (monic_divisor g), degree_divisor]
    exact degree_toPoly_lt r
  rw [modByMonic_eq_of_dvd_sub (monic_divisor g) h, hself]

theorem step_xor (g a b : BitVec w) : step g (a ^^^ b) = step g a ^^^ step g b := by
  simp only [step]
  rw [BitVec.msb_xor, BitVec.shiftLeft_xor_distrib]
  cases a.msb <;> cases b.msb
  · simp
  · simp [BitVec.xor_assoc]
  · simp only [Bool.xor_false, ↓reduceIte, Bool.false_eq_true]
    rw [BitVec.xor_assoc, BitVec.xor_assoc, BitVec.xor_comm g]
  · simp only [Bool.xor_self, Bool.false_eq_true, ↓reduceIte]
    rw [BitVec.xor_assoc, ← BitVec.xor_assoc g, BitVec.xor_comm g, BitVec.xor_assoc (b <<< 1),
      BitVec.xor_self, BitVec.xor_zero]

theorem steps_xor (g a b : BitVec w) (k : Nat) :
    (step g)^[k] (a ^^^ b) = (step g)^[k] a ^^^ (step g)^[k] b := by
  induction k with
  | zero => rfl
  | succ k ih => simp only [Function.iterate_succ_apply', ih, step_xor]

theorem steps_of_clear (g r : BitVec w) {k : Nat}
    (h : ∀ i, w ≤ i + k → r.getLsbD i = false) : (step g)^[k] r = r <<< k := by
  induction k with
  | zero => simp
  | succ k ih =>
    have hk := ih fun i hi => h i (by omega)
    have hmsb : (r <<< k).msb = false := by
      rw [BitVec.msb_eq_getLsbD_last, BitVec.getLsbD_shiftLeft]
      simp [h (w - 1 - k) (by omega)]
    rw [Function.iterate_succ_apply', hk, step, hmsb, BitVec.shiftLeft_add]
    simp

theorem isCoprime_X_of_coeff_zero {p : (ZMod 2)[X]} (h : p.coeff 0 = 1) : IsCoprime X p := by
  refine ⟨-divX p, 1, ?_⟩
  have hp := divX_mul_X_add p
  rw [h, C_1] at hp
  rw [one_mul]
  nth_rewrite 2 [← hp]
  ring

/-- A divisor and the one with its lower coefficients moved up by one place
have no common factor, given a constant term and an even number of terms. -/
theorem isCoprime_divisor_shift {g : BitVec w} (hlow : g.getLsbD 0 = true) (hmsb : g.msb = false)
    (heven : (toPoly g).eval 1 = 0) : IsCoprime (divisor g) (divisor (g <<< 1)) := by
  have hshift : toPoly (g <<< 1) = X * toPoly g := by
    rw [toPoly_shiftLeft_one, hmsb]
    simp [bit]
  have hsum : divisor (g <<< 1) = (X - C 1) * toPoly g + divisor g * 1 := by
    simp only [divisor]
    rw [hshift, C_1]
    ring
  have hroot : IsCoprime (X - C (1 : ZMod 2)) (divisor g) := by
    rw [(irreducible_X_sub_C (1 : ZMod 2)).coprime_iff_not_dvd, dvd_iff_isRoot, IsRoot.def]
    simp only [divisor]
    rw [eval_add, eval_pow, eval_X, one_pow, heven, add_zero]
    exact one_ne_zero
  have hpoly : IsCoprime (toPoly g) (divisor g) := by
    have hX : IsCoprime X (toPoly g) := by
      apply isCoprime_X_of_coeff_zero
      rw [coeff_toPoly, hlow]
      rfl
    have hpow : IsCoprime (toPoly g) (X ^ w) := (hX.pow_left).symm
    have hadd := hpow.add_mul_left_right 1
    rw [mul_one] at hadd
    exact hadd
  rw [hsum]
  exact ((hroot.mul_left hpoly).symm).add_mul_left_right 1

/-- Two coprime divisors of one degree leave the same remainder exactly when
their product leaves one that is short enough for each of them. -/
theorem mod_eq_mod_iff {f g : (ZMod 2)[X]} {n : Nat} (hf : f.Monic) (hg : g.Monic)
    (hfn : f.degree = n) (hgn : g.degree = n) (hfg : IsCoprime f g) (p : (ZMod 2)[X]) :
    p %ₘ f = p %ₘ g ↔ (p %ₘ (f * g)).degree < n := by
  have hmod (q : (ZMod 2)[X]) : q ∣ p - p %ₘ q := by
    refine ⟨p /ₘ q, ?_⟩
    nth_rewrite 1 [← modByMonic_add_div p q]
    ring
  refine ⟨?_, ?_⟩
  · intro heq
    have hlt : (p %ₘ f).degree < n := hfn ▸ degree_modByMonic_lt p hf
    have hdvd : f * g ∣ p - p %ₘ f := hfg.mul_dvd (hmod f) (heq ▸ hmod g)
    have hself : (p %ₘ f) %ₘ (f * g) = p %ₘ f := by
      rw [modByMonic_eq_self_iff (hf.mul hg), degree_mul, hfn, hgn]
      refine lt_of_lt_of_le hlt ?_
      exact_mod_cast Nat.le_add_left n n
    rw [modByMonic_eq_of_dvd_sub (hf.mul hg) hdvd, hself]
    exact hlt
  · intro hlt
    have hdvd := hmod (f * g)
    have hrem (q : (ZMod 2)[X]) (hq : q.Monic) (hqn : q.degree = n) (hqd : q ∣ f * g) :
        p %ₘ q = p %ₘ (f * g) := by
      rw [modByMonic_eq_of_dvd_sub hq (hqd.trans hdvd), modByMonic_eq_self_iff hq, hqn]
      exact hlt
    rw [hrem f hf hfn (dvd_mul_right f g), hrem g hg hgn (dvd_mul_left g f)]

theorem exists_eq_X_pow_mul {p : (ZMod 2)[X]} {a n : Nat} (hlow : ∀ i < a, p.coeff i = 0)
    (hhigh : ∀ i, a + n ≤ i → p.coeff i = 0) :
    ∃ q : (ZMod 2)[X], p = X ^ a * q ∧ q.degree < n := by
  obtain ⟨q, rfl⟩ := X_pow_dvd_iff.mpr hlow
  refine ⟨q, rfl, ?_⟩
  rw [degree_lt_iff_coeff_zero]
  intro i hi
  have h := hhigh (i + a) (by omega)
  rwa [coeff_X_pow_mul] at h

theorem eq_zero_or_eq_of_dvd {f p : (ZMod 2)[X]} {n : Nat} (hf : f.degree = n)
    (hp : p.degree < (n + 1 : Nat)) (h : f ∣ p) : p = 0 ∨ p = f := by
  obtain ⟨q, rfl⟩ := h
  have hq : q.degree ≤ 0 := by
    by_cases hz : q = 0
    · simp [hz]
    · rw [degree_mul, hf, degree_eq_natDegree hz] at hp
      have hle : q.natDegree ≤ 0 := by
        have : n + q.natDegree < n + 1 := by exact_mod_cast hp
        omega
      exact natDegree_le_iff_degree_le.mp hle
  rw [eq_C_of_degree_le_zero hq]
  have hbit : ∀ c : ZMod 2, c = 0 ∨ c = 1 := by decide
  obtain h0 | h1 := hbit (q.coeff 0)
  · left
    rw [h0, C_0, mul_zero]
  · right
    rw [h1, C_1, mul_one]

theorem mod_eq_mod_iff_dvd_sub {f : (ZMod 2)[X]} (hf : f.Monic) (p q : (ZMod 2)[X]) :
    p %ₘ f = q %ₘ f ↔ f ∣ p - q := by
  rw [← modByMonic_eq_zero_iff_dvd hf, sub_modByMonic, sub_eq_zero]

/-- A factor `X` of the divisor, and powers of it in the dividend, do not
matter for the rest of the divisor. -/
theorem X_mul_dvd_mul_X_pow_iff {f p : (ZMod 2)[X]} (hf : f.coeff 0 = 1) (n : Nat) :
    X * f ∣ p * X ^ (n + 1) ↔ f ∣ p := by
  have hcop : IsCoprime f (X ^ n) := ((isCoprime_X_of_coeff_zero hf).pow_left).symm
  have hpow : p * X ^ (n + 1) = X * (p * X ^ n) := by ring
  rw [hpow, mul_dvd_mul_iff_left X_ne_zero]
  exact ⟨fun h => hcop.dvd_of_dvd_mul_right h, fun h => h.mul_right _⟩

end SlipStream.BinaryDivision
