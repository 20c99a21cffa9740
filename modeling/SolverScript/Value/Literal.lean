import SolverScript.Script.RationalFunction
import SolverScript.Value.Basic

/-!
# Literals

The term that denotes a concrete value. Only string literals can fail: the bytes of a string have to
be valid UTF-8.

## Main definitions

* `quotedText` - the literal of a text
* `FloatDatum.term` - the literal of a float
* `Value.term` - the literal of a value
* `Value.describe` - the literal as text, with the kind if asked for
-/

namespace SolverScript

/-- The literal of a text, which has to be valid UTF-8. -/
def quotedText (text : String) : Except Failure Term :=
  match Utf8.decode? text.toList with
  | some characters => .ok (.quoted characters)
  | none => .error (.malformedText text)

/-- A bit-vector literal, with hexadecimal digits where the width allows them. -/
def bitsTerm (width value : Nat) : Term :=
  if width % 4 = 0 then .hexadecimal (width / 4) value else .binary width value

/-- A signed bit-vector. The least one is not the negation of a literal of its width that stands for
a positive number, so it is written digit by digit. -/
def signedTerm (width : Nat) (value : Int) : Term :=
  if value = -(powerOfTwo (width - 1) : Int) then .binary width (powerOfTwo (width - 1))
  else if value < 0 then .app (.symbol "bvneg") [bitsTerm width value.natAbs]
  else bitsTerm width value.natAbs

/-- A special float of a format. -/
def FloatFormat.special (format : FloatFormat) (name : String) : Term :=
  .indexed name [format.exponent, format.significand]

/-- The literal of a float: one of the special terms, or the conversion of an exact fraction. -/
def FloatDatum.term (format : FloatFormat) (mode : RoundingMode) : FloatDatum → Term
  | nan => format.special "NaN"
  | infinite negative => format.special (if negative then "-oo" else "+oo")
  | zero negative => format.special (if negative then "-zero" else "+zero")
  | number value =>
    .app (format.special "to_fp") [.symbol mode.symbol, Term.fraction value]

namespace Value

/-- A real; zero is written as a decimal. -/
def realTerm (value : Rat) : Term :=
  if value.num = 0 then .decimal 0 else Term.fraction value

/-- A constructor of a user sort; rounding modes have symbols of their own. -/
def constructorTerm (sort : UserSort) (constructor : String) : Term :=
  match sort.isRoundingMode, RoundingMode.ofConstructorName? constructor with
  | true, some mode => .symbol mode.symbol
  | _, _ => .symbol constructor

/-- A list of terms as a sequence. -/
def sequenceTerm (sort : SortExpr) : List Term → Term
  | [] => .ascribed "seq.empty" sort
  | [t] => .app (.symbol "seq.unit") [t]
  | ts => .app (.symbol "seq.++") (ts.map fun t => .app (.symbol "seq.unit") [t])

/-- The membership function of a set: a constant one with exceptions. -/
def membershipTerm (sort : SortExpr) (complemented : Bool) (members : List Term) : Term :=
  members.foldr
    (fun member rest => .app (.symbol "store") [rest, member, Term.ofBool !complemented])
    (.app (.ascribed "const" sort) [Term.ofBool complemented])

/-- The components of a tuple, with the sort that the constructor cannot infer. -/
def tupleTerm (sort : SortExpr) : List Term → Term
  | [] => .symbol "mkSBVTuple0"
  | ts => .app (.ascribed ("mkSBVTuple" ++ Nat.repr ts.length) sort) ts

mutual

/-- The literal of a value; `mode` is the rounding of float conversions. -/
def term (mode : RoundingMode) : Value → Except Failure Term
  | bool value => .ok (Term.ofBool value)
  | bounded true width bits => .ok (signedTerm width.bits bits.toInt)
  | bounded false width bits => .ok (bitsTerm width.bits bits.toNat)
  | unbounded value => .ok (Term.int value)
  | real value => .ok (realTerm value)
  | float datum => .ok (datum.term .single mode)
  | double datum => .ok (datum.term .double mode)
  | floating format negative exponent fraction =>
    .ok (.app (.symbol "fp")
      [.binary 1 negative.toNat, .binary format.exponent exponent.toNat,
        .binary (format.significand - 1) fraction.toNat])
  | rational numerator denominator _ =>
    .ok (.app (.symbol RationalFunction.constructor) [Term.int numerator, Term.int denominator])
  | char character => .ok (.quoted [character])
  | string text => quotedText text
  | userSort sort constructor => .ok (constructorTerm sort constructor)
  | list element elements => do
    return sequenceTerm (Kind.list element).sort (← terms mode elements)
  | set element members complemented => do
    return membershipTerm (Kind.set element).sort complemented (← termsLastFirst mode members)
  | tuple components => do
    return tupleTerm (Kind.tuple (kinds components)).sort (← terms mode components)
  | nothing element => .ok (.ascribed "nothing_SBVMaybe" (Kind.maybe element).sort)
  | just value => do
    return .app (.ascribed "just_SBVMaybe" (Kind.maybe value.kind).sort) [← term mode value]
  | left value rightKind => do
    return .app (.ascribed "left_SBVEither" (Kind.either value.kind rightKind).sort)
      [← term mode value]
  | right leftKind value => do
    return .app (.ascribed "right_SBVEither" (Kind.either leftKind value.kind).sort)
      [← term mode value]

/-- The literals of several values; the first one that has none decides the failure. -/
def terms (mode : RoundingMode) : List Value → Except Failure (List Term)
  | [] => .ok []
  | v :: vs => do
    let t ← term mode v
    return t :: (← terms mode vs)

/-- The literals of several values; the last one that has none decides the failure. -/
def termsLastFirst (mode : RoundingMode) : List Value → Except Failure (List Term)
  | [] => .ok []
  | v :: vs => do
    let ts ← termsLastFirst mode vs
    return (← term mode v) :: ts

end

/-- The literal of a value as text, followed by the kind if `full` is set. -/
def describe (full : Bool) (v : Value) : Except Failure String := do
  let t ← v.term .nearestTiesToEven
  return if full then t.render ++ " :: " ++ v.kind.name else t.render

end Value

end SolverScript
