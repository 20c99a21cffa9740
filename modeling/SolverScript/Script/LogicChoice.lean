import SolverScript.Problem.Features
import SolverScript.Script.Command
import SolverScript.Solver.Config

/-!
# Choice of the logic

A script names the logic that it needs. A logic that the user asks for is taken as it is. Otherwise
the solver has to support what the problem requires, and the most specific logic is chosen that
covers its features; many features are covered by the logic of all theories only.

## Main definitions

* `LogicQuery` - what the choice depends on
* `LogicQuery.choose` - the command that sets the logic, and the reason
* `catchAllReason?` - the first feature that needs all theories
-/

namespace SolverScript

/-- What the choice of a logic depends on besides the configuration. -/
structure LogicQuery where
  features : Features
  context : QueryContext := .internal
  hasUniversals : Bool := false
  hasPostulates : Bool := false
  hasArrays : Bool := false
  /-- Whether there are functions without interpretation, which tables are as well. -/
  hasFunctions : Bool := false

/-- A choice: the command that makes it, and why. -/
structure LogicChoice where
  command : Command
  reason : String

/-- The features that only the logic of all theories covers, in the order in which they are given as
the reason. -/
def catchAllReasons (f : Features) : List (Bool × String) :=
  [(f.integers, "has unbounded values"),
    (f.rationals, "has rational values"),
    (f.reals, "has algebraic reals"),
    (!f.trueUserSorts.isEmpty, "has user-defined sorts"),
    (f.nonBitVectorArrays, "has non-bitvector arrays"),
    (f.tuples, "has tuples"),
    (f.sums, "has either type"),
    (f.optionals, "has maybe type"),
    (f.sets, "has sets"),
    (f.lists, "has lists"),
    (f.chars, "has chars"),
    (f.strings, "has strings"),
    (f.regExps, "has regular expressions"),
    (f.arrayInitializers, "has array initializers"),
    (f.overflows, "has overflow checks")]

/-- The first present feature that needs all theories. -/
def catchAllReason? (f : Features) : Option String :=
  ((catchAllReasons f).find? Prod.fst).map Prod.snd

namespace Capabilities

/-- What a problem requires and the solver lacks. -/
def unmet (c : Capabilities) (f : Features) : List String :=
  (if (f.tuples || f.sums || f.optionals) && !c.dataTypes then ["data types"] else []) ++
    (if f.sets && !c.sets then ["set operations"] else []) ++
    (if f.bitVectors && !c.bitVectors then ["bit vectors"] else [])

end Capabilities

namespace LogicQuery

/-- The logic of bit-vector problems: quantifiers, arrays and functions show in its name. -/
def bitVectorLogic (q : LogicQuery) : String :=
  (if q.hasUniversals || q.hasPostulates then "" else "QF_") ++
    (if q.hasArrays then "A" else "") ++ (if q.hasFunctions then "UF" else "") ++ "BV"

/-- The logic of floats. -/
def floatLogic (q : LogicQuery) : String :=
  if q.hasUniversals then "ALL" else if q.features.bitVectors then "QF_FPBV" else "QF_FP"

/-- The choice for a problem whose requirements are met. -/
def bestChoice (q : LogicQuery) (c : Capabilities) : LogicChoice :=
  match catchAllReason? q.features with
  | some reason => ⟨.setLogic "ALL" (reason ++ ", using catch-all."), reason⟩
  | none =>
    if q.features.floats || q.features.rounding then
      ⟨.setLogic q.floatLogic "", "has floating point values"⟩
    else if q.context = .external then
      ⟨.setLogic "ALL" "external query, using all logics.", "external query"⟩
    else if c.bitVectors then ⟨.setLogic q.bitVectorLogic "", "bit-vector problem"⟩
    else ⟨.setLogic "ALL" "", "solver does not support bit vectors"⟩

/-- The choice that a user asks for. -/
def userChoice (l : Logic) : LogicChoice :=
  ⟨if l.isUnset then .note "NB. Not setting the logic per user request of Logic_NONE"
    else .setLogic l.name "NB. User specified.",
    "user specified"⟩

/-- The choice of the logic. -/
def choose (q : LogicQuery) (config : Config) : Except Failure LogicChoice :=
  match config.requestedLogics with
  | [l] => .ok (userChoice l)
  | [] =>
    match config.capabilities.unmet q.features with
    | [] => .ok (q.bestChoice config.capabilities)
    | missing => .error (.unmetRequirements config.capabilities.name missing)
  | several => .error (.severalLogics (several.map Logic.describe))

end LogicQuery

namespace Problem

/-- What the choice of the logic for a problem depends on. -/
def logicQuery (p : Problem) (features : Features) : LogicQuery where
  features := features
  context := p.context
  hasUniversals := !p.universals.isEmpty
  hasPostulates := !p.postulates.isEmpty
  hasArrays := !p.arrays.isEmpty
  hasFunctions := !p.freeSymbols.isEmpty || !p.tables.isEmpty

end Problem

end SolverScript
