import SolverScript.Encoding.Scope

/-!
# Casts

Conversions between kinds. Bit-vectors are extended according to the sign of their source or cut to
their low bits; integers are reduced to a bit-vector by a conversion function or, where the solver
has none, bit by bit; everything that involves a float of a named format goes through the floating
casts.

## Main definitions

* `Cast.floating` - conversions from and to floats, with a rounding mode
* `Cast.ofKinds` - conversions between kinds
-/

namespace SolverScript

/-- The named float formats are floats of their formats. -/
def Kind.anonymous (k : Kind) : Kind :=
  match k.floatFormat? with
  | some format => .floating format
  | none => k

namespace Cast

/-- A conversion to floats of a format, which rounds. -/
def toFloat (format : FloatFormat) (name : String) (mode argument : Term) : Term :=
  .app (format.special name) [mode, argument]

/-- Conversions that involve floats. Integers become floats through the reals, and floats become
integers through them. -/
def floating (source target : Kind) (mode argument : Term) : Except Failure Term :=
  if source.anonymous == target.anonymous then .ok argument
  else
    match target.anonymous, source.anonymous with
    | .floating format, .unbounded =>
      .ok (toFloat format "to_fp" mode (.app (.symbol "to_real") [argument]))
    | .floating format, .bounded false _ => .ok (toFloat format "to_fp_unsigned" mode argument)
    | .floating format, .bounded true _
    | .floating format, .real
    | .floating format, .floating _ => .ok (toFloat format "to_fp" mode argument)
    | .unbounded, .floating _ =>
      .ok (.app (.symbol "to_int") [.app (.symbol "fp.to_real") [argument]])
    | .bounded signed width, .floating _ =>
      .ok (.app (.indexed (if signed then "fp.to_sbv" else "fp.to_ubv") [width.bits])
        [mode, argument])
    | .real, .floating _ => .ok (.app (.symbol "fp.to_real") [argument])
    | _, _ => .error (.unexpectedFloatCast source target)

/-- The bits from `high` down to `low`. -/
def bits (high low : Nat) (argument : Term) : Term :=
  .app (.indexed "extract" [high, low]) [argument]

/-- A case distinction on whether a single bit is zero. -/
def ifZero (bit whenZero otherwise : Term) : Term :=
  .app (.symbol "ite") [.app (.symbol "=") [bit, .binary 1 0], whenZero, otherwise]

/-- The integer of a bit-vector: a natural number, or in two's complement if it is signed. -/
def bitVectorToInt (signed : Bool) (width : Nat) (argument : Term) : Term :=
  let natural := fun t => Term.app (.symbol "bv2nat") [t]
  if !signed then natural argument
  else if width = 1 then ifZero argument (.numeral 0) (Term.int (-1))
  else
    let rest := natural (bits (width - 2) 0 argument)
    ifZero (bits (width - 1) (width - 1) argument) rest
      (.app (.symbol "-") [rest, .numeral (powerOfTwo (width - 1))])

/-- The name of bit `i` of the integer `__a`. -/
def bitName (i : Nat) : String := "__a" ++ Nat.repr i

/-- Bit `i` of the integer `__a`. -/
def bitOf (i : Nat) : Term :=
  let shifted := if i = 0 then .symbol "__a" else
    .app (.symbol "div") [.symbol "__a", .numeral (powerOfTwo i)]
  .app (.symbol "ite")
    [.app (.symbol "=") [.app (.symbol "mod") [shifted, .numeral 2], .numeral 0],
      .binary 1 0, .binary 1 1]

/-- The bits `__a0` to `__a<n>` put together, the last one at the top. -/
def concatenated : Nat → Term
  | 0 => .symbol (bitName 0)
  | n + 1 => .app (.symbol "concat") [.symbol (bitName (n + 1)), concatenated n]

/-- The residue of an integer as a bit-vector. Without a conversion function, the residue is named
and taken apart into its bits, which serves signed and unsigned targets alike. -/
def intToBitVector (hasConversion : Bool) (width : Nat) (argument : Term) : Term :=
  if hasConversion then .app (.indexed "int2bv" [width]) [argument]
  else
    .bind ["__a"] [.app (.symbol "mod") [argument, .numeral (powerOfTwo width)]]
      (.bind ((List.range width).map bitName) ((List.range width).map bitOf)
        (concatenated (width - 1)))

/-- A bit-vector at another width. -/
def resize (signed : Bool) (source target : Nat) (argument : Term) : Term :=
  if source < target then
    .app (.indexed (if signed then "sign_extend" else "zero_extend") [(target - source : Nat)])
      [argument]
  else if target = source then argument
  else bits (target - 1) 0 argument

/-- Whether a kind is one of the two named float formats. -/
def isNamedFloat : Kind → Bool
  | .float | .double => true
  | _ => false

/-- Conversions between kinds. Those that involve a named float format round to nearest, ties to
even. -/
def ofKinds (hasConversion : Bool) (source target : Kind) (argument : Term) :
    Except Failure Term :=
  if source == target then .ok argument
  else
    match source, target with
    | .bounded signed m, .bounded _ n => .ok (resize signed m.bits n.bits argument)
    | .bounded signed m, .unbounded => .ok (bitVectorToInt signed m.bits argument)
    | .unbounded, .real => .ok (.app (.symbol "to_real") [argument])
    | .unbounded, .bounded _ n => .ok (intToBitVector hasConversion n.bits argument)
    | .real, .unbounded => .ok (.app (.symbol "to_int") [argument])
    | _, _ =>
      if isNamedFloat source || isNamedFloat target then
        floating source target (.symbol RoundingMode.nearestTiesToEven.symbol) argument
      else .error (.unexpectedCast source target)

end Cast

end SolverScript
