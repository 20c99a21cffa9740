import Mathlib.Algebra.Order.Field.Power
import Mathlib.Data.Rat.Cast.Order
import Mathlib.Data.Real.Basic
import Mathlib.Tactic.FieldSimp
import Mathlib.Tactic.Linarith
import Mathlib.Tactic.Positivity
import Mathlib.Tactic.Ring
import SolverScript.Value.FloatDatum
import SolverScript.Value.RoundingMode

/-!
# Floats and rounding

The floats of a format, as the standard for binary floats defines them: what a bit pattern stands
for, which numbers are finite floats, which of them a real number is rounded to in each direction,
and when two floats are equal. A number that is a float itself is rounded to that float, whatever
the direction.

## Main definitions

* `FloatFormat.IsFinite` - the numbers that a format has
* `FloatFormat.Datum` - the floats of a format
* `FloatFormat.Reads` - what a bit pattern stands for
* `FloatFormat.round` - the float that a real number is rounded to
* `FloatDatum.equal` - equality of floats

## Main results

* `FloatFormat.reads_ofBits` - the datum of a bit pattern is the one that it stands for
* `FloatFormat.Reads.contains` - a bit pattern stands for a float of the format
* `FloatFormat.round_of_isFinite` - rounding leaves the numbers of the format alone
-/

namespace SolverScript

/-! ### Formats -/

namespace FloatFormat

variable (format : FloatFormat)

/-- What the exponents of a format are shifted by, which is also the greatest of them. -/
def bias : ℤ := 2 ^ (format.exponent - 1) - 1

/-- The exponent of the last place in the smallest numbers. -/
def leastScale : ℤ := 1 - format.bias - (format.significand - 1 : ℕ)

/-- The exponent of the last place in the largest numbers. -/
def greatestScale : ℤ := format.bias - (format.significand - 1 : ℕ)

/-- Whether a number has a significand and a scale that the format has places for. -/
structure Represents (m e : ℤ) (q : ℚ) : Prop where
  value : q = m * 2 ^ e
  lt_significand : |m| < 2 ^ format.significand
  least_le : format.leastScale ≤ e
  le_greatest : e ≤ format.greatestScale

/-- Whether a number is one of the format. -/
def IsFinite (q : ℚ) : Prop := ∃ m e, format.Represents m e q

/-- Whether the last place of a number is even. Only the smallest numbers have leading zeros. -/
def IsEven (q : ℚ) : Prop :=
  ∃ m e, format.Represents m e q ∧
    (2 ^ (format.significand - 1) ≤ |m| ∨ e = format.leastScale) ∧ Even m

/-- Half a place behind the largest number, from where on numbers are rounded to infinity. -/
def overflow : ℚ := (2 ^ format.significand - 1 / 2) * 2 ^ format.greatestScale

/-- The data that a format has. A zero has a sign, and so is not one of its numbers. -/
inductive Contains : FloatDatum → Prop
  | nan : Contains .nan
  | infinite (negative : Bool) : Contains (.infinite negative)
  | zero (negative : Bool) : Contains (.zero negative)
  | number {q : ℚ} (hne : q ≠ 0) (hq : format.IsFinite q) : Contains (.number q)

/-- The floats of a format. -/
def Datum : Type := { d : FloatDatum // format.Contains d }

variable {format}

/-- The numbers of a format are too small to be rounded to infinity. -/
theorem IsFinite.abs_lt_overflow {q : ℚ} (h : format.IsFinite q) : |q| < format.overflow := by
  obtain ⟨m, e, hm⟩ := h
  have hpos (e : ℤ) : (0 : ℚ) < 2 ^ e := zpow_pos two_pos e
  have hsignificand : |m| ≤ 2 ^ format.significand - 1 := Int.le_sub_one_of_lt hm.lt_significand
  have hcast : |(m : ℚ)| ≤ 2 ^ format.significand - 1 := by exact_mod_cast hsignificand
  have hscale : (2 : ℚ) ^ e ≤ 2 ^ format.greatestScale :=
    zpow_le_zpow_right₀ one_le_two hm.le_greatest
  calc
    |q| = |(m : ℚ)| * 2 ^ e := by rw [hm.value, abs_mul, abs_of_pos (hpos e)]
    _ ≤ (2 ^ format.significand - 1) * 2 ^ format.greatestScale :=
      mul_le_mul hcast hscale (hpos e).le ((abs_nonneg _).trans hcast)
    _ < format.overflow := mul_lt_mul_of_pos_right (by linarith) (hpos _)

end FloatFormat

/-! ### Rounding -/

namespace FloatFormat

/-- Whether no number of the format is closer to a real number. -/
def IsNearest (format : FloatFormat) (x : ℝ) (q : ℚ) : Prop :=
  format.IsFinite q ∧ ∀ r : ℚ, format.IsFinite r → |x - q| ≤ |x - r|

/-- The number of the format that a real number is rounded to. There is none where the result is
infinite. -/
def RoundsTo (format : FloatFormat) (mode : RoundingMode) (x : ℝ) (q : ℚ) : Prop :=
  let below := IsGreatest { r : ℚ | format.IsFinite r ∧ (r : ℝ) ≤ x } q
  let above := IsLeast { r : ℚ | format.IsFinite r ∧ x ≤ (r : ℝ) } q
  let nearest := |x| < format.overflow ∧ format.IsNearest x q
  match mode with
  | .towardNegative => below
  | .towardPositive => above
  | .towardZero => if 0 ≤ x then below else above
  | .nearestTiesToEven => nearest ∧ ∀ r, format.IsNearest x r → r ≠ q → format.IsEven q
  | .nearestTiesToAway => nearest ∧ ∀ r, format.IsNearest x r → |r| ≤ |q|

variable {format : FloatFormat}

theorem RoundsTo.isFinite {mode : RoundingMode} {x : ℝ} {q : ℚ} (h : format.RoundsTo mode x q) :
    format.IsFinite q := by
  cases mode with
  | towardNegative | towardPositive => exact h.1.1
  | nearestTiesToEven | nearestTiesToAway => exact h.1.2.1
  | towardZero =>
    simp only [RoundsTo] at h
    split at h <;> exact h.1.1

/-- What is nearest to a number of the format is that number. -/
theorem IsNearest.eq_of_isFinite {q r : ℚ} (hq : format.IsFinite q)
    (h : format.IsNearest q r) : r = q := by
  have hdistance : |(q : ℝ) - r| ≤ |(q : ℝ) - q| := h.2 q hq
  rw [sub_self, abs_zero, abs_nonpos_iff, sub_eq_zero] at hdistance
  exact_mod_cast hdistance.symm

/-- A number of the format is rounded to itself, and to nothing else. -/
theorem roundsTo_iff_of_isFinite {q r : ℚ} (hq : format.IsFinite q) (mode : RoundingMode) :
    format.RoundsTo mode q r ↔ r = q := by
  -- The number is at once the greatest one below, the least one above and the only nearest one.
  have hbelow : IsGreatest { r : ℚ | format.IsFinite r ∧ (r : ℝ) ≤ q } q :=
    ⟨⟨hq, le_rfl⟩, fun r hr => by exact_mod_cast hr.2⟩
  have habove : IsLeast { r : ℚ | format.IsFinite r ∧ (q : ℝ) ≤ r } q :=
    ⟨⟨hq, le_rfl⟩, fun r hr => by exact_mod_cast hr.2⟩
  have hnearest : format.IsNearest q q := ⟨hq, fun r _ => by simp⟩
  have hsmall : |(q : ℝ)| < format.overflow := by exact_mod_cast hq.abs_lt_overflow
  cases mode with
  | towardNegative => exact ⟨fun h => h.unique hbelow, fun h => h ▸ hbelow⟩
  | towardPositive => exact ⟨fun h => h.unique habove, fun h => h ▸ habove⟩
  | towardZero =>
    simp only [RoundsTo]
    split
    · exact ⟨fun h => h.unique hbelow, fun h => h ▸ hbelow⟩
    · exact ⟨fun h => h.unique habove, fun h => h ▸ habove⟩
  | nearestTiesToEven =>
    refine ⟨fun h => h.1.2.eq_of_isFinite hq, ?_⟩
    rintro rfl
    exact ⟨⟨hsmall, hnearest⟩, fun r hr hne => absurd (hr.eq_of_isFinite hq) hne⟩
  | nearestTiesToAway =>
    refine ⟨fun h => h.1.2.eq_of_isFinite hq, ?_⟩
    rintro rfl
    exact ⟨⟨hsmall, hnearest⟩, fun r hr => (congrArg abs (hr.eq_of_isFinite hq)).le⟩

/-- A number of the format as a float. A zero has the sign of what was rounded to it. -/
def ofFinite (negative : Bool) (q : ℚ) (hq : format.IsFinite q) : format.Datum :=
  if h : q = 0 then ⟨.zero negative, .zero negative⟩ else ⟨.number q, .number h hq⟩

theorem ofFinite_of_ne {negative : Bool} {q : ℚ} {hq : format.IsFinite q} (hne : q ≠ 0) :
    ofFinite negative q hq = ⟨.number q, .number hne hq⟩ := dif_neg hne

open Classical in
/-- The float that a real number is rounded to. -/
noncomputable def round (format : FloatFormat) (mode : RoundingMode) (x : ℝ) : format.Datum :=
  if h : ∃ q, format.RoundsTo mode x q then
    ofFinite (decide (x < 0)) h.choose h.choose_spec.isFinite
  else ⟨.infinite (decide (x < 0)), .infinite _⟩

/-- Rounding leaves the numbers of the format alone, in every direction. -/
theorem round_of_isFinite (mode : RoundingMode) {q : ℚ} (hne : q ≠ 0) (hq : format.IsFinite q) :
    format.round mode q = ⟨.number q, .number hne hq⟩ := by
  have hexists : ∃ r, format.RoundsTo mode q r := ⟨q, (roundsTo_iff_of_isFinite hq mode).mpr rfl⟩
  have hround (r : ℚ) (hr : format.RoundsTo mode q r) :
      ofFinite (decide ((q : ℝ) < 0)) r hr.isFinite = ⟨.number q, .number hne hq⟩ := by
    obtain rfl := (roundsTo_iff_of_isFinite hq mode).mp hr
    exact ofFinite_of_ne hne
  -- Whatever number is chosen, there is only one.
  exact (dif_pos hexists).trans (hround _ hexists.choose_spec)

end FloatFormat

/-! ### Bit patterns -/

namespace FloatFormat

section

variable (format : FloatFormat) (x : BitVec (format.exponent + format.significand))

/-- The biased exponent in a bit pattern. -/
def biasedExponent : ℕ := (x.extractLsb' (format.significand - 1) format.exponent).toNat

/-- The fraction in a bit pattern: the significand without its leading bit. -/
def fraction : ℕ := (x.extractLsb' 0 (format.significand - 1)).toNat

/-- The factor for the sign in a bit pattern. -/
def sign : ℚ := if x.msb then -1 else 1

/-- What a bit pattern stands for. The leading bit of a significand is hidden: it is set, unless the
exponent is the smallest. -/
inductive Reads : FloatDatum → Prop
  | nan (he : format.biasedExponent x = 2 ^ format.exponent - 1) (hf : format.fraction x ≠ 0) :
    Reads .nan
  | infinite (he : format.biasedExponent x = 2 ^ format.exponent - 1)
    (hf : format.fraction x = 0) : Reads (.infinite x.msb)
  | zero (he : format.biasedExponent x = 0) (hf : format.fraction x = 0) : Reads (.zero x.msb)
  | subnormal (he : format.biasedExponent x = 0) (hf : format.fraction x ≠ 0) :
    Reads (.number (format.sign x * (format.fraction x / 2 ^ (format.significand - 1)) *
      2 ^ (1 - format.bias)))
  | normal (hpos : format.biasedExponent x ≠ 0)
    (hlt : format.biasedExponent x ≠ 2 ^ format.exponent - 1) :
    Reads (.number (format.sign x * (1 + format.fraction x / 2 ^ (format.significand - 1)) *
      2 ^ (format.biasedExponent x - format.bias)))

end

end FloatFormat

/-- A scaled integer is its product with the power of two. -/
theorem FloatDatum.scaled_eq (m e : ℤ) : scaled m e = m * 2 ^ e := by
  unfold scaled powerOfTwo
  split
  · next he =>
    obtain ⟨n, rfl⟩ := Int.eq_ofNat_of_zero_le he
    simp [Rat.mkRat_eq_div]
  · next he =>
    obtain ⟨n, hn⟩ := Int.exists_eq_neg_ofNat (Int.not_le.mp he).le
    subst hn
    simp [Rat.mkRat_eq_div, div_eq_mul_inv]

namespace FloatFormat

variable {format : FloatFormat} {x : BitVec (format.exponent + format.significand)}

theorem toNat_div_mod_eq_biasedExponent :
    x.toNat / powerOfTwo (format.significand - 1) % powerOfTwo format.exponent =
      format.biasedExponent x := by
  rw [biasedExponent, BitVec.extractLsb'_toNat, Nat.shiftRight_eq_div_pow]
  rfl

theorem toNat_mod_eq_fraction :
    x.toNat % powerOfTwo (format.significand - 1) = format.fraction x := by
  rw [fraction, BitVec.extractLsb'_toNat, Nat.shiftRight_zero]
  rfl

theorem toNat_div_mod_eq_msb :
    (x.toNat / powerOfTwo (format.significand - 1 + format.exponent) % 2 == 1) = x.msb := by
  have hplaces := format.two_le_significand
  have hwidth : format.exponent + format.significand - 1 =
      format.significand - 1 + format.exponent := by omega
  have hlt := x.isLt
  have hdouble : 2 ^ (format.exponent + format.significand) =
      2 * 2 ^ (format.significand - 1 + format.exponent) := by
    rw [← pow_succ']
    congr 1
    omega
  rw [hdouble] at hlt
  rw [BitVec.msb_eq_decide, hwidth, powerOfTwo, Nat.pow_eq]
  -- The quotient by the power in front of the sign is zero or one.
  generalize 2 ^ (format.significand - 1 + format.exponent) = top at hlt
  by_cases hx : top ≤ x.toNat
  · have hquotient : x.toNat / top = 1 := Nat.div_eq_of_lt_le (by omega) (by omega)
    simp [hquotient, hx]
  · have hquotient : x.toNat / top = 0 := Nat.div_eq_of_lt (by omega)
    simp [hquotient, hx]

theorem cast_withSign (x : BitVec (format.exponent + format.significand)) (m : ℕ) :
    (FloatDatum.withSign x.msb m : ℚ) = format.sign x * m := by
  unfold FloatDatum.withSign sign
  split <;> simp

/-- The places behind the leading bit can be part of the significand or of the scale. -/
theorem scaled_withSign (x : BitVec (format.exponent + format.significand)) (m : ℕ) (e : ℤ) :
    FloatDatum.scaled (FloatDatum.withSign x.msb m) (e - (format.significand - 1 : ℕ)) =
      format.sign x * (m / 2 ^ (format.significand - 1)) * 2 ^ e := by
  rw [FloatDatum.scaled_eq, cast_withSign, zpow_sub₀ two_ne_zero, zpow_natCast]
  ring

/-- The leading bit counts one, in front of the fraction. -/
theorem leading_add_div (m : ℕ) :
    ((2 ^ (format.significand - 1) + m : ℕ) : ℚ) / 2 ^ (format.significand - 1) =
      1 + m / 2 ^ (format.significand - 1) := by
  have hpower : (2 : ℚ) ^ (format.significand - 1) ≠ 0 := pow_ne_zero _ two_ne_zero
  push_cast
  rw [add_div, div_self hpower]

/-- The datum of a bit pattern is the one that it stands for. -/
theorem reads_ofBits : format.Reads x (.ofBits format x.toNat) := by
  have hbias : ((powerOfTwo (format.exponent - 1) : ℕ) : ℤ) - 1 = format.bias := by
    simp [bias, powerOfTwo]
  unfold FloatDatum.ofBits
  simp only [toNat_div_mod_eq_biasedExponent, toNat_mod_eq_fraction, toNat_div_mod_eq_msb, hbias,
    scaled_withSign]
  split
  · next he =>
    split
    · next hf => exact .infinite he hf
    · next hf => exact .nan he hf
  · next hlt =>
    split
    · next he =>
      split
      · next hf => exact .zero he hf
      · next hf => exact .subnormal he hf
    · next hpos =>
      rw [powerOfTwo, Nat.pow_eq, leading_add_div]
      exact .normal hpos hlt

/-- A significand and a scale that the format has places for make one of its numbers. -/
theorem isFinite_scaled {m : ℕ} {e : ℤ} (hm : m < 2 ^ format.significand)
    (hleast : format.leastScale ≤ e) (hgreatest : e ≤ format.greatestScale) (negative : Bool) :
    format.IsFinite (FloatDatum.scaled (FloatDatum.withSign negative m) e) := by
  refine ⟨FloatDatum.withSign negative m, e, FloatDatum.scaled_eq _ _, ?_, hleast, hgreatest⟩
  have habs : |FloatDatum.withSign negative m| = m := by
    unfold FloatDatum.withSign
    split <;> simp
  rw [habs]
  exact_mod_cast hm

theorem sign_ne_zero (x : BitVec (format.exponent + format.significand)) :
    format.sign x ≠ 0 := by
  unfold sign
  split <;> decide

theorem fraction_lt : format.fraction x < 2 ^ (format.significand - 1) := BitVec.isLt _

theorem two_pow_significand :
    2 ^ format.significand = 2 ^ (format.significand - 1) + 2 ^ (format.significand - 1) := by
  have hplaces := format.two_le_significand
  exact (Nat.two_pow_pred_add_two_pow_pred (by omega)).symm

/-- The exponents of numbers reach as far up as down. -/
theorem two_pow_exponent : ((2 ^ format.exponent : ℕ) : ℤ) = 2 * format.bias + 2 := by
  have hexponent := format.two_le_exponent
  rw [← Nat.two_pow_pred_add_two_pow_pred (by omega), bias]
  push_cast
  ring

theorem one_le_bias : 1 ≤ format.bias := by
  have hexponent := format.two_le_exponent
  have hpower : 2 ^ 2 ≤ 2 ^ format.exponent := Nat.pow_le_pow_right two_pos hexponent
  have hbias := format.two_pow_exponent
  omega

/-- A bit pattern stands for a float of the format. -/
theorem Reads.contains {d : FloatDatum} (h : format.Reads x d) : format.Contains d := by
  have hfraction := format.fraction_lt (x := x)
  have hsignificand := format.two_pow_significand
  have hbias := format.one_le_bias
  have hpower (e : ℤ) : (2 : ℚ) ^ e ≠ 0 := zpow_ne_zero e two_ne_zero
  cases h with
  | nan => exact .nan
  | infinite => exact .infinite _
  | zero => exact .zero _
  | subnormal he hf =>
    have hmagnitude : (format.fraction x : ℚ) / 2 ^ (format.significand - 1) ≠ 0 :=
      div_ne_zero (Nat.cast_ne_zero.mpr hf) (pow_ne_zero _ two_ne_zero)
    refine .number (mul_ne_zero (mul_ne_zero (sign_ne_zero x) hmagnitude) (hpower _)) ?_
    rw [← scaled_withSign]
    refine isFinite_scaled (by omega) ?_ ?_ _ <;> simp only [leastScale, greatestScale] <;> omega
  | normal hpos hlt =>
    have hmagnitude : (1 + format.fraction x / 2 ^ (format.significand - 1) : ℚ) ≠ 0 := by
      positivity
    refine .number (mul_ne_zero (mul_ne_zero (sign_ne_zero x) hmagnitude) (hpower _)) ?_
    have hbiased : format.biasedExponent x < 2 ^ format.exponent := BitVec.isLt _
    have hexponent := format.two_pow_exponent
    rw [← leading_add_div, ← scaled_withSign]
    refine isFinite_scaled (by omega) ?_ ?_ _ <;> simp only [leastScale, greatestScale] <;> omega

end FloatFormat

/-! ### Equality -/

/-- Equality of floats: neither zero differs from the other one, and nothing equals a datum that is
not a number. -/
def FloatDatum.equal : FloatDatum → FloatDatum → Bool
  | nan, _ => false
  | zero _, zero _ => true
  | a, b => a == b

end SolverScript
