import SolverScript.Graph.RegExp

/-!
# Operators

The operators of a symbolic program. Most are bare, many carry data: bit ranges, table and array
numbers, kinds, a name. Data that have to fit together are checked when the operator is made and are
part of its type from then on.

## Main definitions

* `Operator` - the operators, with the families `FloatOp`, `RealFunction`, `OverflowCheck`,
  `Threshold`, `StringOp`, `SequenceOp` and `SetOp`
* `BitRange`, `Projection`, `Reversible` - checked data of operators
* `FloatOp.ofName` and its neighbours - the member of a family with a given name
-/

namespace SolverScript

/-- The operations on floats that need no further data. -/
inductive FloatOp where
  | abs | neg | add | sub | mul | div | fma | sqrt | rem | roundToIntegral | min | max
  | isNormal | isSubnormal | isZero | isInfinite | isNaN | isNegative | isPositive | objEqual
  deriving DecidableEq, Repr

/-- The functions on reals that are not polynomial. -/
inductive RealFunction where
  | sin | cos | tan | asin | acos | atan | sqrt | sinh | cosh | tanh | exp | log | pow
  deriving DecidableEq, Repr

/-- The checks for overflow of bit-vector products. -/
inductive OverflowCheck where
  | signedNoOverflow | signedNoUnderflow | unsignedNoOverflow
  deriving DecidableEq, Repr

/-- How many of some formulas hold, or how much they weigh together. -/
inductive Threshold where
  | atMost | atLeast | exactly | le | ge | eq
  deriving DecidableEq, Repr

/-- The operations on strings that need no further data. -/
inductive StringOp where
  | concat | length | at | substring | indexOf | contains | prefixOf | suffixOf | replace
  | toInt | fromInt | toCode | fromCode | lessThan | lessEq | unit
  deriving DecidableEq, Repr

/-- The operations on sequences that need no further data. -/
inductive SequenceOp where
  | concat | length | unit | nth | extract | indexOf | contains | prefixOf | suffixOf | replace
  deriving DecidableEq, Repr

/-- The operations on sets. -/
inductive SetOp where
  | equal | member | insert | delete | intersect | union | subset | difference | complement
  | hasSize
  deriving DecidableEq, Repr

/-- A nonempty range of bits, both ends included. -/
structure BitRange where
  high : Nat
  low : Nat
  low_le_high : low ≤ high
  deriving DecidableEq, Repr

/-- A component of a tuple, counted from one. -/
structure Projection where
  position : Nat
  arity : Nat
  one_le : 1 ≤ position
  le_arity : position ≤ arity
  deriving DecidableEq, Repr

/-- What can be reversed. -/
inductive Reversible where
  | string
  | list (element : Kind)
  deriving Repr

/-- The kind of what is reversed. -/
def Reversible.kind : Reversible → Kind
  | string => .string
  | list element => .list element

/-- A look-up in a table: its number and length, the kinds of indices and results, the index, and
the value outside the table. -/
structure Lookup where
  table : Int
  indexKind : Kind
  resultKind : Kind
  length : Nat
  index : Node
  default : Node
  deriving Repr

/-- The operators. -/
inductive Operator where
  | ite | plus | times | minus | uneg | abs | quot | rem
  | equal | notEqual | lessThan | greaterThan | lessEq | greaterEq
  | and | or | xor | not | shl | shr
  | rol (amount : Nat)
  | ror (amount : Nat)
  | extract (range : BitRange)
  | join
  | lookup (lookup : Lookup)
  | arrayEqual (left right : Int)
  | arrayRead (array : Int)
  | kindCast (source target : Kind)
  | uninterpreted (symbol : String)
  | label (text : String)
  | float (op : FloatOp)
  | floatCast (source target : Kind) (rounding : Node)
  | floatReinterpret (source target : Kind)
  | nonlinear (function : RealFunction)
  | overflow (check : OverflowCheck)
  | pseudoBoolean (threshold : Threshold) (coefficients : List Int) (bound : Int)
  | string (op : StringOp)
  | stringIn (language : RegExp)
  /-- Whether two languages are equal, or whether they differ. -/
  | regExpEqual (positive : Bool) (left right : RegExp)
  | sequence (op : SequenceOp)
  | reverse (what : Reversible)
  | set (op : SetOp)
  | tupleConstructor (arity : Nat)
  | tupleAccess (projection : Projection)
  | eitherConstructor (left right : Kind) (isRight : Bool)
  | eitherIs (left right : Kind) (isRight : Bool)
  | eitherAccess (isRight : Bool)
  | rationalConstructor
  | maybeConstructor (element : Kind) (isJust : Bool)
  | maybeIs (element : Kind) (isJust : Bool)
  | maybeAccess
  deriving Repr

/-- A range of bits, which must not be empty. -/
def BitRange.check (high low : Nat) : Except Failure BitRange :=
  if h : low ≤ high then .ok ⟨high, low, h⟩ else .error (.emptyExtraction high low)

/-- A component of a tuple, which has to exist. -/
def Projection.check (position arity : Nat) : Except Failure Projection :=
  if h₁ : 1 ≤ position then
    if h₂ : position ≤ arity then .ok ⟨position, arity, h₁, h₂⟩
    else .error (.invalidProjection position arity)
  else .error (.invalidProjection position arity)

/-- The view of a kind as something that can be reversed. -/
def Reversible.ofKind? : Kind → Option Reversible
  | .string => some .string
  | .list element => some (.list element)
  | _ => none

/-- A kind to be reversed: strings or a list kind. -/
def Reversible.check (kind : Kind) : Except Failure Reversible :=
  match Reversible.ofKind? kind with
  | some what => .ok what
  | none => .error (.irreversible kind)

/-- The names under which operations on floats are asked for. -/
def FloatOp.names : List (String × FloatOp) :=
  [("Abs", .abs), ("Neg", .neg), ("Add", .add), ("Sub", .sub), ("Mul", .mul), ("Div", .div),
    ("FMA", .fma), ("Sqrt", .sqrt), ("Rem", .rem), ("RoundToIntegral", .roundToIntegral),
    ("Min", .min), ("Max", .max), ("IsNormal", .isNormal), ("IsSubnormal", .isSubnormal),
    ("IsZero", .isZero), ("IsInfinite", .isInfinite), ("IsNaN", .isNaN),
    ("IsNegative", .isNegative), ("IsPositive", .isPositive), ("ObjEqual", .objEqual)]

/-- The names of the functions on reals. -/
def RealFunction.names : List (String × RealFunction) :=
  [("Sin", .sin), ("Cos", .cos), ("Tan", .tan), ("ASin", .asin), ("ACos", .acos),
    ("ATan", .atan), ("Sqrt", .sqrt), ("Sinh", .sinh), ("Cosh", .cosh), ("Tanh", .tanh),
    ("Exp", .exp), ("Log", .log), ("Pow", .pow)]

/-- The names of the checks for overflow. -/
def OverflowCheck.names : List (String × OverflowCheck) :=
  [("SMulNoOverflow", .signedNoOverflow), ("SMulNoUnderflow", .signedNoUnderflow),
    ("UMulNoOverflow", .unsignedNoOverflow)]

/-- The names of the thresholds. -/
def Threshold.names : List (String × Threshold) :=
  [("AtMost", .atMost), ("AtLeast", .atLeast), ("Exactly", .exactly), ("Le", .le), ("Ge", .ge),
    ("Eq", .eq)]

/-- The names of the operations on strings. -/
def StringOp.names : List (String × StringOp) :=
  [("Concat", .concat), ("Len", .length), ("At", .at), ("Substr", .substring),
    ("IndexOf", .indexOf), ("Contains", .contains), ("PrefixOf", .prefixOf),
    ("SuffixOf", .suffixOf), ("Replace", .replace), ("ToInt", .toInt), ("FromInt", .fromInt),
    ("ToCode", .toCode), ("FromCode", .fromCode), ("LessThan", .lessThan),
    ("LessEq", .lessEq), ("Unit", .unit)]

/-- The names of the operations on sequences. -/
def SequenceOp.names : List (String × SequenceOp) :=
  [("Concat", .concat), ("Len", .length), ("Unit", .unit), ("Nth", .nth), ("Extract", .extract),
    ("IndexOf", .indexOf), ("Contains", .contains), ("PrefixOf", .prefixOf),
    ("SuffixOf", .suffixOf), ("Replace", .replace)]

/-- The names of the operations on sets. -/
def SetOp.names : List (String × SetOp) :=
  [("Equal", .equal), ("Member", .member), ("Insert", .insert), ("Delete", .delete),
    ("Intersect", .intersect), ("Union", .union), ("Subset", .subset),
    ("Difference", .difference), ("Complement", .complement), ("HasSize", .hasSize)]

namespace Operator

/-- An operation on floats by its name, if there is one. Casts carry their kinds, so their bare
names are refused. -/
def ofFloatName (name : String) : Except Failure (Option Operator) :=
  if name == "Cast" || name == "Reinterp" then .error .bareFloatCast
  else .ok ((FloatOp.names.lookup name).map float)

/-- An operation on strings by its name, if there is one. Membership in a language carries the
language, so its bare name is refused. -/
def ofStringName (name : String) : Except Failure (Option Operator) :=
  if name == "InRe" then .error .bareMembership
  else .ok ((StringOp.names.lookup name).map string)

/-- An operation on sequences by its name, if there is one. Reversal carries the kind of its
operand, so its bare name is refused. -/
def ofSequenceName (name : String) : Except Failure (Option Operator) :=
  if name == "Reverse" then .error .bareReversal
  else .ok ((SequenceOp.names.lookup name).map sequence)

end Operator

end SolverScript
