/-!
# Kinds

A kind says what sort of values a node of a symbolic program takes. Besides the sorts of the target
language there are distinctions that the target does not make: bit-vectors are signed or unsigned,
characters differ from strings, and the two common float formats have names of their own.

The bounds that make a kind meaningful are part of the types: a `Width` is not zero, and both parts
of a `FloatFormat` have at least two bits.

## Main definitions

* `Kind` - the kinds, with `Kind.children` for the immediate components
* `Kind.describe` - the display name of a kind
* `Kind.isSigned`, `Kind.isFloating` and other tests
-/

namespace SolverScript

/-- The number of bits of a bit-vector. -/
structure Width where
  bits : Nat
  pos : 0 < bits
  deriving DecidableEq, Repr

/-- The widths of exponent and significand of a float; the significand counts its hidden bit. -/
structure FloatFormat where
  exponent : Nat
  significand : Nat
  two_le_exponent : 2 ≤ exponent
  two_le_significand : 2 ≤ significand
  deriving DecidableEq, Repr

namespace FloatFormat

/-- Single precision. -/
def single : FloatFormat := ⟨8, 24, by decide, by decide⟩

/-- Double precision. -/
def double : FloatFormat := ⟨11, 53, by decide, by decide⟩

end FloatFormat

/-- A sort that the user names. Without constructors it is uninterpreted; with a list of them it is
an enumeration, possibly an empty one. -/
structure UserSort where
  name : String
  constructors : Option (List String)
  deriving DecidableEq, Repr

namespace UserSort

/-- The rounding modes, as an enumeration that every solver knows. -/
def roundingMode : UserSort where
  name := "RoundingMode"
  constructors := some
    ["RoundNearestTiesToEven", "RoundNearestTiesToAway", "RoundTowardPositive",
      "RoundTowardNegative", "RoundTowardZero"]

/-- A sort of this name is taken for the built-in one, whatever its constructors. -/
def isRoundingMode (s : UserSort) : Bool := s.name == "RoundingMode"

/-- Whether the sort lists its constructors. -/
def isEnumerated (s : UserSort) : Bool := s.constructors.isSome

end UserSort

/-- The kinds of symbolic values. -/
inductive Kind where
  | bool
  | bounded (signed : Bool) (width : Width)
  | unbounded
  | real
  | userSort (sort : UserSort)
  | float
  | double
  | floating (format : FloatFormat)
  | char
  | string
  | list (element : Kind)
  | set (element : Kind)
  | tuple (components : List Kind)
  | maybe (element : Kind)
  | rational
  | either (left right : Kind)
  deriving Repr, Inhabited

namespace Kind

/-- The position of a kind's shape in the order of kinds. -/
def tag : Kind → Nat
  | bool => 0
  | bounded .. => 1
  | unbounded => 2
  | real => 3
  | userSort _ => 4
  | float => 5
  | double => 6
  | floating _ => 7
  | char => 8
  | string => 9
  | list _ => 10
  | set _ => 11
  | tuple _ => 12
  | maybe _ => 13
  | rational => 14
  | either .. => 15

/-- The immediate components of a kind. -/
def children : Kind → List Kind
  | list k | set k | maybe k => [k]
  | tuple ks => ks
  | either l r => [l, r]
  | _ => []

/-- Whether values of the kind carry a sign. -/
def isSigned : Kind → Bool
  | bounded signed _ => signed
  | unbounded | real | float | double | floating _ | rational => true
  | _ => false

/-- The format of a floating kind. -/
def floatFormat? : Kind → Option FloatFormat
  | float => some .single
  | double => some .double
  | floating format => some format
  | _ => none

/-- Whether the kind is a float of any format. -/
def isFloating (k : Kind) : Bool := k.floatFormat?.isSome

/-- Whether the kind is the Booleans. -/
def isBool : Kind → Bool
  | bool => true
  | _ => false

/-- Whether the kind is a bit-vector. -/
def isBounded : Kind → Bool
  | bounded .. => true
  | _ => false

/-- Whether the kind is the integers. -/
def isUnbounded : Kind → Bool
  | unbounded => true
  | _ => false

/-- Whether the kind is the reals. -/
def isReal : Kind → Bool
  | real => true
  | _ => false

/-- Whether the kind is the rationals. -/
def isRational : Kind → Bool
  | rational => true
  | _ => false

/-- Whether the kind is a single character. -/
def isChar : Kind → Bool
  | char => true
  | _ => false

/-- Whether the kind is the strings. -/
def isString : Kind → Bool
  | string => true
  | _ => false

/-- Whether the kind is a list. -/
def isList : Kind → Bool
  | list _ => true
  | _ => false

/-- The user sort behind a kind. -/
def userSort? : Kind → Option UserSort
  | userSort sort => some sort
  | _ => none

/-- Whether the kind is built from others: a list, set, tuple, optional or sum. -/
def isComposite : Kind → Bool
  | list _ | set _ | tuple _ | maybe _ | either .. => true
  | _ => false

end Kind

end SolverScript
