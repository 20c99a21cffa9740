import SolverScript.Script.RationalFunction

/-!
# Data types of the target language

The declarations behind the composite kinds: enumerations with the position of each constructor,
tuples of each arity, sums, optionals, and rationals with the functions that compute with them. The
layout of the lines is part of the format.

## Main definitions

* `Datatype.enumeration`, `Datatype.constructorIndex` - an enumeration and its order
* `Datatype.tuple`, `Datatype.sum`, `Datatype.optional` - the generic data types
* `Datatype.rationals` - rationals and their arithmetic
-/

namespace SolverScript.Datatype

/-- The function that numbers the constructors of an enumeration. -/
def indexName (sort : String) : String := sort ++ "_constrIndex"

/-- The declaration of an enumeration. -/
def enumeration (name : String) (constructors : List String) : String :=
  "(declare-datatypes ((" ++ name ++ " 0)) ((" ++
    joined " " (constructors.map fun c => "(" ++ c ++ ")") ++ ")))"

/-- The position of `x` among constructors that are numbered from `n` on. The last one needs no
test, and without constructors there is nothing to say. -/
def positionOf (n : Nat) : List String → Term
  | [] => .adjacent []
  | [_] => .numeral n
  | c :: next :: rest =>
    .app (.symbol "ite")
      [.app (.symbol "=") [.symbol "x", .symbol c], .numeral n,
        positionOf (n + 1) (next :: rest)]

/-- The definition of the function that numbers the constructors of an enumeration. -/
def constructorIndex (name : String) (constructors : List String) : FunctionDefinition where
  name := indexName name
  parameters := [("x", .named name)]
  result := Kind.unbounded.sort
  body := .flat (positionOf 0 constructors)

/-- The projections of a tuple as the lines of its declaration, from component `i` on. All lines but
the first are indented; the last one closes the declaration. -/
def projections (arity i : Nat) (first indent : String) : Nat → List String
  | 0 => []
  | remaining + 1 =>
    (first ++ "(proj_" ++ Nat.repr i ++ "_SBVTuple" ++ Nat.repr arity ++ " T" ++ Nat.repr i ++
        ")" ++ (if remaining = 0 then ")))))" else "")) ::
      projections arity (i + 1) indent indent remaining

/-- The declaration of the tuples with a given number of components. -/
def tuple (arity : Nat) : List String :=
  if arity = 0 then ["(declare-datatypes ((SBVTuple0 0)) (((mkSBVTuple0))))"]
  else
    let n := Nat.repr arity
    let opening := "(declare-datatypes ((SBVTuple" ++ n ++ " " ++ n ++ ")) ("
    let constructor := blanks opening.length ++ "((mkSBVTuple" ++ n ++ " "
    let parameters := (List.range arity).map fun i => "T" ++ Nat.repr (i + 1)
    (opening ++ "(par (" ++ joined " " parameters ++ ")") ::
      projections arity 1 constructor (blanks constructor.length) arity

/-- The declaration of sums. -/
def sum : List String :=
  ["(declare-datatypes ((SBVEither 2)) ((par (T1 T2)",
    "                                    ((left_SBVEither  (get_left_SBVEither  T1))",
    "                                     (right_SBVEither (get_right_SBVEither T2))))))"]

/-- The declaration of optionals. -/
def optional : List String :=
  ["(declare-datatypes ((SBVMaybe 1)) ((par (T)",
    "                                    ((nothing_SBVMaybe)",
    "                                     (just_SBVMaybe (get_just_SBVMaybe T))))))"]

/-- The declaration of rationals and the definitions of the functions on them, an empty line before
each. -/
def rationals : List String :=
  ("(declare-datatype SBVRational ((" ++ RationalFunction.constructor ++ " (" ++
      RationalFunction.numerator ++ " Int) (" ++ RationalFunction.denominator ++ " Int))))") ::
    RationalFunction.all.flatMap fun f => "" :: f.definition.lines

end SolverScript.Datatype
