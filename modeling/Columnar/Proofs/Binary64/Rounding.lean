import Columnar.Binary64

/-!
# Rounding

Rounding a finite number gives an integral one (`isIntegral_of_isFinite_round`), and rounding never
makes a NaN nor loses one (`isNaN_round`). Between two powers of two the representable numbers are
evenly spaced, and rounding picks a multiple of the magnitude that stands for `1.0` there; the
result lies in the same binade or at the start of the next, where the spacing is a multiple.
-/

set_option autoImplicit false
set_option relaxedAutoImplicit false

namespace Columnar.Binary64

theorem infinity_lt_signBit : infinity < signBit := by decide

theorem magnitude_ofParts (negative : Bool) {magnitude : Nat} (h : magnitude < signBit) :
    (ofParts negative magnitude).magnitude = magnitude := by
  have hsign : signBit = 9223372036854775808 := by decide
  unfold ofParts Binary64.magnitude
  rw [hsign] at h ⊢
  cases negative with
  | true =>
    simp only [if_pos, UInt64.toNat_ofNat']
    omega
  | false =>
    simp only [Bool.false_eq_true, if_false, UInt64.toNat_ofNat']
    omega

/-! ### Multiples -/

/-- A multiple of the step below a number stays below the number rounded to steps. -/
theorem le_rounded {step bound number : Nat} (hstep : 0 < step) (hdvd : step ∣ bound)
    (h : bound ≤ number) : bound ≤ (number + step / 2) / step * step := by
  obtain ⟨count, rfl⟩ := hdvd
  have hcount : count ≤ (number + step / 2) / step := by
    rw [Nat.le_div_iff_mul_le hstep, Nat.mul_comm]
    omega
  rw [Nat.mul_comm]
  exact Nat.mul_le_mul_right step hcount

/-- A multiple of the step above a number stays above the number rounded to steps. -/
theorem rounded_le {step bound number : Nat} (hstep : 0 < step) (hdvd : step ∣ bound)
    (h : number ≤ bound) : (number + step / 2) / step * step ≤ bound := by
  obtain ⟨count, rfl⟩ := hdvd
  have hcount : (number + step / 2) / step < count + 1 := by
    rw [Nat.div_lt_iff_lt_mul hstep, Nat.add_mul, Nat.one_mul, Nat.mul_comm count]
    omega
  rw [Nat.mul_comm step]
  exact Nat.mul_le_mul_right step (Nat.le_of_lt_succ hcount)

/-- From `1.0` on, the spacing of integers divides every power of two. -/
theorem pow_fractionBits_dvd_binade {x : Binary64} (h : unit ≤ x.magnitude) :
    Nat.pow 2 x.fractionBits ∣ binade := by
  have hbinade : binade = Nat.pow 2 52 := by decide
  have hexponent : 1023 ≤ x.magnitude / binade := by
    rw [Nat.le_div_iff_mul_le (by decide)]
    exact h
  rw [hbinade]
  apply Nat.pow_dvd_pow
  unfold fractionBits
  omega

/-! ### Rounding a number of magnitude at least one -/

/-- The magnitude of the nearest integer. -/
def roundedMagnitude (x : Binary64) : Nat :=
  let fraction := Nat.pow 2 x.fractionBits
  (x.magnitude + fraction / 2) / fraction * fraction

variable {x : Binary64}

theorem pow_fractionBits_pos (x : Binary64) : 0 < Nat.pow 2 x.fractionBits :=
  Nat.two_pow_pos x.fractionBits

theorem roundedMagnitude_le_infinity (hfinite : x.isFinite) (hunit : unit ≤ x.magnitude) :
    x.roundedMagnitude ≤ infinity := by
  have hle : x.magnitude ≤ infinity := Nat.le_of_lt (of_decide_eq_true hfinite)
  have hdvd : Nat.pow 2 x.fractionBits ∣ infinity :=
    Nat.dvd_trans (pow_fractionBits_dvd_binade hunit) (Nat.dvd_mul_left binade 2047)
  exact rounded_le (pow_fractionBits_pos x) hdvd hle

theorem le_roundedMagnitude (hunit : unit ≤ x.magnitude) {exponent : Nat}
    (h : exponent * binade ≤ x.magnitude) : exponent * binade ≤ x.roundedMagnitude := by
  have hdvd : Nat.pow 2 x.fractionBits ∣ exponent * binade :=
    Nat.dvd_trans (pow_fractionBits_dvd_binade hunit) (Nat.dvd_mul_left binade exponent)
  exact le_rounded (pow_fractionBits_pos x) hdvd h

theorem isIntegral_ofParts_roundedMagnitude (negative : Bool) (hfinite : x.isFinite)
    (hunit : unit ≤ x.magnitude) : (ofParts negative x.roundedMagnitude).isIntegral := by
  have hlt : x.roundedMagnitude < signBit :=
    Nat.lt_of_le_of_lt (roundedMagnitude_le_infinity hfinite hunit) infinity_lt_signBit
  have hmagnitude := magnitude_ofParts negative hlt
  have hleUnit : unit ≤ x.roundedMagnitude := le_roundedMagnitude hunit hunit
  -- The exponent does not go down, so the spacing at the result divides the spacing at `x`.
  have hexponent : x.magnitude / binade ≤ x.roundedMagnitude / binade := by
    rw [Nat.le_div_iff_mul_le (by decide)]
    exact le_roundedMagnitude hunit (Nat.div_mul_le_self _ _)
  have hbits : (ofParts negative x.roundedMagnitude).fractionBits ≤ x.fractionBits := by
    unfold fractionBits
    rw [hmagnitude]
    omega
  have hdvd : Nat.pow 2 (ofParts negative x.roundedMagnitude).fractionBits ∣
      x.roundedMagnitude :=
    Nat.dvd_trans (Nat.pow_dvd_pow 2 hbits) (Nat.dvd_mul_left _ _)
  unfold isIntegral
  rw [hmagnitude, Nat.mod_eq_zero_of_dvd hdvd]
  simp [hleUnit]

/-! ### Rounding any number -/

theorem round_eq (x : Binary64) :
    x.round =
      if !x.isFinite then x
      else if x.magnitude < unit then
        ofParts x.negative (if x.magnitude < 1022 * binade then 0 else unit)
      else ofParts x.negative x.roundedMagnitude := rfl

theorem isIntegral_ofParts_zero (negative : Bool) : (ofParts negative 0).isIntegral := by
  cases negative <;> decide

theorem isIntegral_ofParts_unit (negative : Bool) : (ofParts negative unit).isIntegral := by
  cases negative <;> decide

/-- A rounded number is integral unless it is infinite or NaN. -/
theorem isIntegral_of_isFinite_round (h : x.round.isFinite) : x.round.isIntegral := by
  rw [round_eq] at h ⊢
  by_cases hfinite : x.isFinite
  · rw [if_neg (by simp [hfinite])]
    by_cases hsmall : x.magnitude < unit
    · rw [if_pos hsmall]
      split
      · exact isIntegral_ofParts_zero _
      · exact isIntegral_ofParts_unit _
    · rw [if_neg hsmall]
      exact isIntegral_ofParts_roundedMagnitude _ hfinite (Nat.not_lt.mp hsmall)
  · rw [if_pos (by simp [hfinite])] at h
    exact absurd h hfinite

theorem isNaN_ofParts (negative : Bool) {magnitude : Nat} (h : magnitude ≤ infinity) :
    (ofParts negative magnitude).isNaN = false := by
  unfold isNaN
  rw [magnitude_ofParts negative (Nat.lt_of_le_of_lt h infinity_lt_signBit)]
  simpa using h

theorem isNaN_eq_false_of_isFinite (h : x.isFinite) : x.isNaN = false := by
  have hlt : x.magnitude < infinity := of_decide_eq_true h
  unfold isNaN
  simpa using Nat.le_of_lt hlt

/-- Rounding neither makes a NaN nor loses one. -/
theorem isNaN_round (x : Binary64) : x.round.isNaN = x.isNaN := by
  rw [round_eq]
  by_cases hfinite : x.isFinite
  · rw [if_neg (by simp [hfinite]), isNaN_eq_false_of_isFinite hfinite]
    by_cases hsmall : x.magnitude < unit
    · rw [if_pos hsmall]
      split
      · exact isNaN_ofParts _ (by decide)
      · exact isNaN_ofParts _ (by decide)
    · rw [if_neg hsmall]
      exact isNaN_ofParts _ (roundedMagnitude_le_infinity hfinite (Nat.not_lt.mp hsmall))
  · rw [if_pos (by simp [hfinite])]

/-! ### Integers -/

theorem magnitudeOfNat_le_infinity (n : Nat) : magnitudeOfNat n ≤ infinity := by
  unfold magnitudeOfNat
  by_cases hexponent : n.log2 ≤ 52
  · simp only [if_pos hexponent]
    have hscaled : n * Nat.pow 2 (52 - n.log2) ≤ 2 * binade := by
      calc n * Nat.pow 2 (52 - n.log2)
          ≤ Nat.pow 2 (n.log2 + 1) * Nat.pow 2 (52 - n.log2) :=
            Nat.mul_le_mul_right _ (Nat.le_of_lt Nat.lt_log2_self)
        _ = 2 ^ (n.log2 + 1 + (52 - n.log2)) := (Nat.pow_add 2 _ _).symm
        _ = 2 * binade := by
          rw [show n.log2 + 1 + (52 - n.log2) = 53 by omega]
          rfl
    unfold infinity
    rw [show binade = 4503599627370496 from rfl] at hscaled ⊢
    omega
  · simp only [if_neg hexponent]
    exact Nat.min_le_left _ _

/-- The number nearest to an integer is one. -/
theorem isNaN_ofInt (n : Int) : (ofInt n).isNaN = false := by
  unfold ofInt
  split
  · exact isNaN_ofParts _ (Nat.zero_le _)
  · exact isNaN_ofParts _ (magnitudeOfNat_le_infinity _)

end Columnar.Binary64
