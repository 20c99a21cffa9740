import SolverScript.Kind.Basic
import SolverScript.Text.Numeral

/-!
# Floating point data

What a bit pattern of a binary float stands for, exactly: a number is kept as a rational, so that it
can be written as a fraction in lowest terms without any rounding.

## Main definitions

* `FloatDatum` - not a number, the infinities, the two zeros, and the other numbers
* `FloatDatum.ofBits` - the datum of a bit pattern in a given format
* `FloatDatum.ofInt` - the datum of an integer
-/

namespace SolverScript

/-- The meaning of a bit pattern. -/
inductive FloatDatum where
  | nan
  | infinite (negative : Bool)
  | zero (negative : Bool)
  /-- Any other number; it is not zero. -/
  | number (value : Rat)
  deriving DecidableEq, Repr

namespace FloatDatum

/-- The integer `m` times the power of two with exponent `e`, which may be negative. -/
def scaled (m e : Int) : Rat :=
  if 0 ≤ e then mkRat (m * powerOfTwo e.toNat) 1 else mkRat m (powerOfTwo (-e).toNat)

/-- The integer `m` with a sign. -/
def withSign (negative : Bool) (m : Nat) : Int := if negative then -(m : Int) else m

/-- The datum of a bit pattern: from the top, a sign, a biased exponent and a fraction. The largest
exponent is kept for the infinities and for data that are not numbers, the smallest for the numbers
without a hidden bit. -/
def ofBits (format : FloatFormat) (pattern : Nat) : FloatDatum :=
  let places := format.significand - 1
  let fraction := pattern % powerOfTwo places
  let exponent := pattern / powerOfTwo places % powerOfTwo format.exponent
  let negative := pattern / powerOfTwo (places + format.exponent) % 2 == 1
  let bias : Int := powerOfTwo (format.exponent - 1) - 1
  if exponent = powerOfTwo format.exponent - 1 then
    if fraction = 0 then infinite negative else nan
  else if exponent = 0 then
    if fraction = 0 then zero negative
    else number (scaled (withSign negative fraction) (1 - bias - places))
  else number (scaled (withSign negative (powerOfTwo places + fraction)) (exponent - bias - places))

/-- The datum of an integer, which is taken to be representable. -/
def ofInt (n : Int) : FloatDatum :=
  if n = 0 then zero false else number (mkRat n 1)

end FloatDatum

end SolverScript
