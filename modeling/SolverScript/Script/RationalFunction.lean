import SolverScript.Script.FunctionDefinition

/-!
# Arithmetic of rationals

A rational is a pair of integers that is not kept in lowest terms, so a script defines the functions
that compute with rationals itself. Comparisons multiply crosswise, which is right for positive
denominators.

## Main definitions

* `RationalFunction` - the functions, with `RationalFunction.symbol`
* `RationalFunction.definition` - their definitions
-/

namespace SolverScript

/-- The functions on rationals. -/
inductive RationalFunction where
  | eq | notEq | lt | leq | plus | minus | times | uneg | abs
  deriving DecidableEq, Repr

namespace RationalFunction

/-- All functions, in the order of their definitions. -/
def all : List RationalFunction := [eq, notEq, lt, leq, plus, minus, times, uneg, abs]

/-- The symbol of a function. -/
def symbol : RationalFunction → String
  | eq => "sbv.rat.eq"
  | notEq => "sbv.rat.notEq"
  | lt => "sbv.rat.lt"
  | leq => "sbv.rat.leq"
  | plus => "sbv.rat.plus"
  | minus => "sbv.rat.minus"
  | times => "sbv.rat.times"
  | uneg => "sbv.rat.uneg"
  | abs => "sbv.rat.abs"

/-- The constructor of rationals. -/
def constructor : String := "SBV.Rational"

/-- The accessor of the numerator. -/
def numerator : String := "sbv.rat.numerator"

/-- The accessor of the denominator. -/
def denominator : String := "sbv.rat.denominator"

/-- The numerator of a parameter. -/
def numeratorOf (parameter : String) : Term := .app (.symbol numerator) [.symbol parameter]

/-- The numerator of a parameter, as wide as the denominator. -/
def wideNumeratorOf (parameter : String) : Term :=
  .app (.symbol numerator) [.adjacent [], .adjacent [], .symbol parameter]

/-- The denominator of a parameter. -/
def denominatorOf (parameter : String) : Term := .app (.symbol denominator) [.symbol parameter]

/-- A product of integers. -/
def product (a b : Term) : Term := .app (.symbol "*") [a, b]

/-- The numerators of both parameters over a common denominator. -/
def crosswise : List Layout :=
  [.flat (product (wideNumeratorOf "x") (denominatorOf "y")),
    .flat (product (denominatorOf "x") (wideNumeratorOf "y"))]

/-- The common denominator of both parameters. -/
def commonDenominator : Layout := .flat (product (denominatorOf "x") (denominatorOf "y"))

/-- The parameters of a function. -/
def parameters : RationalFunction → List String
  | uneg | abs => ["x"]
  | _ => ["x", "y"]

/-- The kind of a function's results. -/
def result : RationalFunction → Kind
  | eq | notEq | lt | leq => .bool
  | _ => .rational

/-- The body of a function. -/
def body : RationalFunction → Layout
  | eq => .stacked "=" 0 crosswise
  | notEq => .flat (Term.negation (.app (.symbol eq.symbol) [.symbol "x", .symbol "y"]))
  | lt => .stacked "<" 1 crosswise
  | leq => .stacked "<=" 0 crosswise
  | plus => .stacked constructor 0 [.stacked "+" 0 crosswise, commonDenominator]
  | minus => .stacked constructor 0 [.stacked "-" 0 crosswise, commonDenominator]
  | times =>
    .stacked constructor 0
      [.flat (product (wideNumeratorOf "x") (numeratorOf "y")), commonDenominator]
  | uneg =>
    .flat (.app (.symbol constructor)
      [product (Term.int (-1)) (numeratorOf "x"), denominatorOf "x"])
  | abs =>
    .flat (.app (.symbol constructor)
      [.app (.symbol "abs") [numeratorOf "x"], denominatorOf "x"])

/-- The definition of a function. -/
def definition (f : RationalFunction) : FunctionDefinition where
  name := f.symbol
  parameters := f.parameters.map fun x => (x, Kind.rational.sort)
  result := f.result.sort
  body := f.body

end RationalFunction

end SolverScript
