import SolverScript.Kind.Checked
import SolverScript.Text.Utf8
import SolverScript.Value.FloatDatum
import SolverScript.Value.RoundingMode

/-!
# Concrete values

The constants of a symbolic program. A value determines its kind. Bit-vectors are kept as such, so
that integers wrap on the way in; reals are rationals in lowest terms; the rationals of the program
are kept as they are given, because they are printed as a pair and compared by their ratio.

## Main definitions

* `Value` - the values, with `Value.kind`
* `Value.ofInteger`, `Value.constant` - the value of an integer at a kind
* `Value.ofReal`, `Value.ofRational`, `Value.ofCodePoint`, `Value.ofBitStrings`,
  `Value.ofConstructor` - values from data that have to be checked
-/

namespace SolverScript

/-- A concrete value. -/
inductive Value where
  | bool (value : Bool)
  | bounded (signed : Bool) (width : Width) (bits : BitVec width.bits)
  | unbounded (value : Int)
  | real (value : Rat)
  | float (datum : FloatDatum)
  | double (datum : FloatDatum)
  | floating (format : FloatFormat) (negative : Bool) (exponent : BitVec format.exponent)
      (fraction : BitVec (format.significand - 1))
  | rational (numerator denominator : Int) (nonzero : denominator ≠ 0)
  | char (character : Char)
  | string (text : String)
  | userSort (sort : UserSort) (constructor : String)
  | list (element : Kind) (elements : List Value)
  /-- The listed members, or all values of the element kind but those. -/
  | set (element : Kind) (members : List Value) (complemented : Bool)
  | tuple (components : List Value)
  | nothing (element : Kind)
  | just (value : Value)
  | left (value : Value) (rightKind : Kind)
  | right (leftKind : Kind) (value : Value)

namespace Value

mutual

/-- The kind of a value. -/
def kind : Value → Kind
  | bool _ => .bool
  | bounded signed width _ => .bounded signed width
  | unbounded _ => .unbounded
  | real _ => .real
  | float _ => .float
  | double _ => .double
  | floating format .. => .floating format
  | rational .. => .rational
  | char _ => .char
  | string _ => .string
  | userSort sort _ => .userSort sort
  | list element _ => .list element
  | set element .. => .set element
  | tuple components => .tuple (kinds components)
  | nothing element => .maybe element
  | just value => .maybe (kind value)
  | left value rightKind => .either (kind value) rightKind
  | right leftKind value => .either leftKind (kind value)

/-- The kinds of several values. -/
def kinds : List Value → List Kind
  | [] => []
  | v :: vs => kind v :: kinds vs

end

/-- The position of a value's shape among the shapes of values. -/
def tag : Value → Nat
  | bool _ | bounded .. | unbounded _ => 0
  | real _ => 1
  | float _ => 2
  | double _ => 3
  | floating .. => 4
  | rational .. => 5
  | char _ => 6
  | string _ => 7
  | userSort .. => 8
  | list .. => 9
  | set .. => 10
  | tuple _ => 11
  | nothing _ | just _ => 12
  | left .. | right .. => 13

/-- The integer that a bit-vector stands for. -/
def readBits (signed : Bool) {w : Nat} (bits : BitVec w) : Int :=
  if signed then bits.toInt else bits.toNat

/-- The integer behind a value, or the numerator of a quotient; zero for other values. -/
def numerator : Value → Int
  | bool value => if value then 1 else 0
  | bounded signed _ bits => readBits signed bits
  | unbounded value => value
  | real value => value.num
  | rational numerator .. => numerator
  | _ => 0

/-- The denominator of a quotient; one for other values. -/
def denominator : Value → Int
  | real value => value.den
  | rational _ denominator _ => denominator
  | _ => 1

/-- The text of a character, a string or a constructor; empty for other values. -/
def text : Value → String
  | char character => Utf8.encode character
  | string text => text
  | userSort _ constructor => constructor
  | _ => ""

/-- The values that a value is made of. -/
def parts : Value → List Value
  | list _ elements => elements
  | set _ members _ => members
  | tuple components => components
  | just value | left value _ | right _ value => [value]
  | _ => []

/-- Whether a set is complemented, an optional present, or a sum on its right side. -/
def flag : Value → Bool
  | set _ _ complemented => complemented
  | just _ | right .. => true
  | _ => false

/-- The value of an integer at a discrete kind; bit-vectors keep its residue. -/
def ofInteger (kind : Kind) (n : Int) : Except Failure Value :=
  match kind with
  | .bool => .ok (bool (n != 0))
  | .unbounded => .ok (unbounded n)
  | .bounded signed width => .ok (bounded signed width (BitVec.ofInt width.bits n))
  | _ => .error (.integerOfKind kind)

/-- The quotient of two integers as a real. -/
def ofReal (numerator denominator : Int) : Except Failure Value :=
  if denominator = 0 then .error .realZeroDenominator
  else .ok (real (Rat.divInt numerator denominator))

/-- The pair of two integers as a rational, not reduced. -/
def ofRational (numerator denominator : Int) : Except Failure Value :=
  if h : denominator = 0 then .error .rationalZeroDenominator
  else .ok (rational numerator denominator h)

/-- The character with a given code point. -/
def ofCodePoint (n : Nat) : Except Failure Value :=
  if h : n.isValidChar then .ok (char (Char.ofNatAux n h)) else .error (.codePoint n)

/-- The number that a sequence of binary digits stands for; `none` if it has another character. -/
def readDigits? (digits : String) : Option Nat :=
  digits.toList.foldlM
    (fun n c => if c = '0' then some (2 * n) else if c = '1' then some (2 * n + 1) else none) 0

/-- A float of any format, from its sign, its exponent and its fraction in binary digits. The
significand counts a hidden bit that the fraction does not show. -/
def ofBitStrings (exponent significand : Nat) (negative : Bool)
    (exponentDigits fractionDigits : String) : Except Failure Value := do
  let malformed := Failure.floatBits exponent significand
  unless exponentDigits.length = exponent ∧ fractionDigits.length + 1 = significand do
    throw malformed
  match readDigits? exponentDigits, readDigits? fractionDigits with
  | some e, some f =>
    let format ← FloatFormat.check exponent significand
    return floating format negative (BitVec.ofNat _ e) (BitVec.ofNat _ f)
  | _, _ => throw malformed

/-- A constructor of a user sort. An uninterpreted sort takes any name. -/
def ofConstructor (kind : Kind) (constructor : String) : Except Failure Value :=
  match kind with
  | .userSort sort =>
    match sort.constructors with
    | none => .ok (userSort sort constructor)
    | some constructors =>
      if constructors.contains constructor then .ok (userSort sort constructor)
      else .error (.unknownConstructor constructor sort.name)
  | _ => .error (.userSortExpected kind)

/-- The value of an integer at a numeric kind. -/
def constant (kind : Kind) (n : Int) : Except Failure Value :=
  match kind with
  | .bool | .bounded .. | .unbounded => ofInteger kind n
  | .real => ofReal n 1
  | .rational => ofRational n 1
  | .float => .ok (float (FloatDatum.ofInt n))
  | .double => .ok (double (FloatDatum.ofInt n))
  | _ => .error (.constantOfKind kind)

end Value

end SolverScript
