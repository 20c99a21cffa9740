import SolverScript.Kind.Set
import SolverScript.Problem.Basic

/-!
# Features

What a script has to declare, and which logic it needs, depends on the sorts of values that occur
and on a few constructs. The features of a problem collect this from the closure of its kinds, its
arrays and its assignments.

## Main definitions

* `Features` - the features
* `Features.ofKinds` - the features that kinds alone determine
* `Features.detect` - the features of kinds, assignments and arrays together
-/

namespace SolverScript

/-- The features of a problem. -/
structure Features where
  integers : Bool := false
  reals : Bool := false
  floats : Bool := false
  strings : Bool := false
  regExps : Bool := false
  chars : Bool := false
  rounding : Bool := false
  bitVectors : Bool := false
  nonBitVectorArrays : Bool := false
  arrayInitializers : Bool := false
  overflows : Bool := false
  lists : Bool := false
  sets : Bool := false
  sums : Bool := false
  optionals : Bool := false
  rationals : Bool := false
  flattening : Bool := false
  /-- The user sorts in the order of kinds, the rounding modes included. -/
  userSorts : List UserSort := []
  /-- The arities of tuples, in increasing order. -/
  tupleArities : List Nat := []
  /-- What is reversed, in the order of first use. -/
  reversals : List Reversible := []
  deriving Repr

namespace Kind

/-- Whether the kind is a set. -/
def isSet : Kind → Bool
  | set _ => true
  | _ => false

/-- Whether the kind is a sum. -/
def isEither : Kind → Bool
  | either .. => true
  | _ => false

/-- Whether the kind is an optional. -/
def isMaybe : Kind → Bool
  | maybe _ => true
  | _ => false

/-- The number of components of a tuple kind. -/
def arity? : Kind → Option Nat
  | tuple components => some components.length
  | _ => none

end Kind

namespace Features

/-- Whether tuples of some arity occur. -/
def tuples (f : Features) : Bool := !f.tupleArities.isEmpty

/-- The names of the user sorts that are not built in. -/
def trueUserSorts (f : Features) : List String :=
  (f.userSorts.filter fun s => !s.isRoundingMode).map UserSort.name

/-- Places a number into an increasing list, unless it is there already. -/
def placeNumber (n : Nat) : List Nat → List Nat
  | [] => [n]
  | m :: ms => if n < m then n :: m :: ms else if n = m then m :: ms else m :: placeNumber n ms

/-- The features that a set of kinds determines. -/
def ofKinds (kinds : KindSet) : Features :=
  let occurs := kinds.toList.any
  let userSorts := kinds.toList.filterMap Kind.userSort?
  { integers := occurs Kind.isUnbounded
    reals := occurs Kind.isReal
    floats := occurs Kind.isFloating
    strings := occurs Kind.isString
    chars := occurs Kind.isChar
    rounding := userSorts.any UserSort.isRoundingMode
    bitVectors := occurs Kind.isBounded
    lists := occurs Kind.isList
    sets := occurs Kind.isSet
    sums := occurs Kind.isEither
    optionals := occurs Kind.isMaybe
    rationals := occurs Kind.isRational
    flattening := occurs Kind.needsFlattening
    userSorts := userSorts
    tupleArities := (kinds.toList.filterMap Kind.arity?).foldr placeNumber [] }

/-- Whether an operator checks for overflow. -/
def checksOverflow : Operator → Bool
  | .overflow _ => true
  | _ => false

/-- Whether an operator carries a regular expression. -/
def usesRegExp : Operator → Bool
  | .regExpEqual .. | .stringIn _ => true
  | _ => false

/-- What an operator reverses. -/
def reversal? : Operator → Option Reversible
  | .reverse what => some what
  | _ => none

/-- Appends what is not in the list yet. -/
def appendNew (found : List Reversible) (what : Reversible) : List Reversible :=
  if found.any fun other => other.kind == what.kind then found else found ++ [what]

/-- What some operators reverse, each thing once, in the order of first use. -/
def reversalsOf (operators : List Operator) : List Reversible :=
  (operators.filterMap reversal?).foldl appendNew []

/-- Whether a free array has all its elements given. -/
def isInitialized : ArrayContext → Bool
  | .free initializer => initializer.isSome
  | _ => false

/-- The features of a set of kinds, assignments and arrays. -/
def detect (kinds : KindSet) (assignments : List Assignment) (arrays : List ArrayDatum) :
    Features :=
  let operators := assignments.map fun a => a.operation.operator
  { ofKinds kinds with
    nonBitVectorArrays := arrays.any fun a => !a.domain.isBounded || !a.range.isBounded
    arrayInitializers := arrays.any fun a => isInitialized a.context
    overflows := operators.any checksOverflow
    regExps := operators.any usesRegExp
    reversals := reversalsOf operators }

/-- The flags by the names that traces use. -/
def flags (f : Features) : List (String × Bool) :=
  [("unbounded", f.integers), ("reals", f.reals), ("floats", f.floats), ("strings", f.strings),
    ("regexps", f.regExps), ("chars", f.chars), ("rounding", f.rounding),
    ("bitvectors", f.bitVectors), ("non-bv-arrays", f.nonBitVectorArrays),
    ("array-inits", f.arrayInitializers), ("overflows", f.overflows), ("lists", f.lists),
    ("sets", f.sets), ("tuples", f.tuples), ("either", f.sums), ("maybe", f.optionals),
    ("rationals", f.rationals), ("flattening", f.flattening)]

/-- Names between braces. -/
def braced (names : List String) : String := "\x7b" ++ joined ", " names ++ "\x7d"

/-- A clause of the description, which is left out when there is nothing to list. -/
def clause (heading : String) (names : List String) : String :=
  if names.isEmpty then "" else heading ++ braced names

/-- The features in words; `full` mentions the reversals. -/
def describe (full : Bool) (f : Features) : String :=
  let present := (f.flags.filter Prod.snd).map Prod.fst
  let reversed :=
    if full && !f.reversals.isEmpty then
      joined " " (", reversals of:" :: f.reversals.map fun what => what.kind.name)
    else ""
  "Features: " ++ braced present ++ clause ", user sorts: " f.trueUserSorts ++
    clause ", tuple arities: " (f.tupleArities.map Nat.repr) ++ reversed

end Features

end SolverScript
