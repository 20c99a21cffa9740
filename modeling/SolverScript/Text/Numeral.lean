/-!
# Numerals and alignment

Powers of two, decimal, hexadecimal and binary numerals, and the padding that lines of a script are
aligned with.

## Main definitions

* `powerOfTwo` - the number of values of a bit-vector
* `fitsIn` - whether a number has a place among them
* `Numeral.decimal` - an integer in base ten, with a bare minus sign
* `Numeral.padded` - digits filled up with zeros on the left
* `blanks`, `joined` - runs of blanks and separated lists
-/

namespace SolverScript

/-- The power of two with a given exponent. -/
def powerOfTwo (n : Nat) : Nat := Nat.pow 2 n

/-- Whether a number has at most `bits` binary digits. No power is computed for the answer, as the
number of digits can be large. -/
def fitsIn (bits n : Nat) : Bool := n >>> bits == 0

/-- The numbers of at most `bits` binary digits are those below the power of two. -/
theorem fitsIn_iff {bits n : Nat} : fitsIn bits n ↔ n < powerOfTwo bits := by
  simp [fitsIn, powerOfTwo, Nat.shiftRight_eq_div_pow, Nat.div_eq_zero_iff]

namespace Numeral

/-- An integer in base ten; a negative one starts with a minus sign. -/
def decimal : Int → String
  | .ofNat n => Nat.repr n
  | .negSucc n => "-" ++ Nat.repr (n + 1)

/-- The digits of `n` in a base up to sixteen, in lower case. -/
def digits (base n : Nat) : List Char := Nat.toDigits base n

/-- The digits of `n`, filled up on the left with zeros to at least `length` places. -/
def padded (base length n : Nat) : String :=
  let ds := digits base n
  String.ofList (List.replicate (length - ds.length) '0' ++ ds)

/-- Lower-case hexadecimal digits without leading zeros. -/
def hexadecimal (n : Nat) : String := String.ofList (digits 16 n)

end Numeral

/-- A run of blanks. -/
def blanks (n : Nat) : String := String.ofList (List.replicate n ' ')

/-- The parts in order, with `separator` between neighbours. -/
def joined (separator : String) : List String → String
  | [] => ""
  | [part] => part
  | part :: next :: rest => part ++ separator ++ joined separator (next :: rest)

end SolverScript
