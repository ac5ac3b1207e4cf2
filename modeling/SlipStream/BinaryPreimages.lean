import SlipStream.BinaryDivision

namespace SlipStream.BinaryPreimages

open BinaryDivision

variable {w : Nat} {k g : BitVec w}

/-- Undo one bit of the division by `X * k`: of the two words it may come from, the
one without a constant term. -/
def back (k y : BitVec w) : BitVec w :=
  if (y >>> 1).getLsbD 0 then y >>> 1 ^^^ k else y >>> 1

theorem low_step (hg : g.getLsbD 0 = false) (r : BitVec w) : (step g r).getLsbD 0 = false := by
  unfold step
  split_ifs <;> simp [hg]

theorem low_shift (hg : k <<< 1 = g) : g.getLsbD 0 = false := by
  rw [← hg]
  simp

theorem step_factor (hg : k <<< 1 = g) (hk : k.msb = true) : step g k = 0 := by
  rw [step, hk, hg]
  simp

theorem eq_zero_of_shift {r : BitVec w} (hmsb : r.msb = false) (h : r <<< 1 = 0) : r = 0 := by
  have hlt := BitVec.msb_eq_false_iff_two_mul_lt.mp hmsb
  have hz : (r <<< 1).toNat = 0 := by rw [h]; rfl
  rw [BitVec.toNat_shiftLeft, Nat.shiftLeft_eq, Nat.mod_eq_of_lt (by omega)] at hz
  apply BitVec.eq_of_toNat_eq
  change r.toNat = 0
  omega

/-- The words that one bit of the division makes zero. -/
theorem step_eq_zero_iff (hg : k <<< 1 = g) (hk : k.msb = true) (r : BitVec w) :
    step g r = 0 ↔ r = 0 ∨ r = k := by
  constructor
  · intro h
    cases hr : r.msb with
    | false =>
      rw [step, hr] at h
      exact Or.inl (eq_zero_of_shift hr (by simpa using h))
    | true =>
      -- the leading terms of `r` and `k` cancel
      have hmsb : (r ^^^ k).msb = false := by rw [BitVec.msb_xor, hr, hk]; rfl
      have hx : step g (r ^^^ k) = 0 := by rw [step_xor, h, step_factor hg hk]; simp
      rw [step, hmsb] at hx
      have hz := eq_zero_of_shift hmsb (by simpa using hx)
      exact Or.inr (BitVec.xor_eq_zero_iff.mp hz)
  · rintro (rfl | rfl)
    · simp [step]
    · exact step_factor hg hk

theorem steps_eq_zero_iff (hg : k <<< 1 = g) (hk : k.msb = true) (hlow : k.getLsbD 0 = true)
    (r : BitVec w) (n : Nat) : (step g)^[n + 1] r = 0 ↔ r = 0 ∨ r = k := by
  induction n generalizing r with
  | zero => exact step_eq_zero_iff hg hk r
  | succ n ih =>
    rw [Function.iterate_succ_apply, ih, ← step_eq_zero_iff hg hk r]
    have hne : step g r ≠ k := by
      intro heq
      have hbit := low_step (low_shift hg) r
      rw [heq, hlow] at hbit
      cases hbit
    simp [hne]

theorem low_back (hlow : k.getLsbD 0 = true) (y : BitVec w) : (back k y).getLsbD 0 = false := by
  unfold back
  split_ifs with h
  · rw [BitVec.getLsbD_xor, h, hlow]
    rfl
  · simpa using h

theorem step_back (hg : k <<< 1 = g) (hk : k.msb = true) {y : BitVec w}
    (hy : y.getLsbD 0 = false) : step g (back k y) = y := by
  have hhalf : step g (y >>> 1) = y := by
    have hmsb : (y >>> 1).msb = false := by simp
    rw [step, hmsb]
    apply BitVec.eq_of_getLsbD_eq
    intro i hi
    cases i with
    | zero => simp [hy]
    | succ i => simp [hi, Nat.add_comm 1 i]
  unfold back
  split_ifs
  · rw [step_xor, hhalf, step_factor hg hk]
    simp
  · exact hhalf

theorem steps_back (hg : k <<< 1 = g) (hk : k.msb = true) (hlow : k.getLsbD 0 = true)
    {y : BitVec w} (hy : y.getLsbD 0 = false) (n : Nat) :
    (step g)^[n] ((back k)^[n] y) = y := by
  induction n generalizing y with
  | zero => rfl
  | succ n ih =>
    rw [Function.iterate_succ_apply' (step g), Function.iterate_succ_apply, ih (low_back hlow y),
      step_back hg hk hy]

end SlipStream.BinaryPreimages
