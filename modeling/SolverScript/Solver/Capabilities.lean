import SolverScript.Failure

/-!
# Solver capabilities

What a solver understands, as far as scripts depend on it, and the solvers that are known by name.
-/

namespace SolverScript

/-- The capabilities of a solver. -/
structure Capabilities where
  name : String := "Unknown"
  quantifiers : Bool := false
  /-- Definitions; without them, a definition is a declaration and an equation. -/
  defineFun : Bool := true
  /-- Pairwise difference; without it, the pairs are spelt out. -/
  distinct : Bool := true
  bitVectors : Bool := false
  uninterpretedSorts : Bool := false
  unboundedInts : Bool := false
  reals : Bool := false
  floats : Bool := false
  sets : Bool := false
  optimization : Bool := false
  /-- Cardinality and weight constraints; without them, sums are compared. -/
  pseudoBooleans : Bool := false
  dataTypes : Bool := false
  /-- Tests for constructors without a signature. -/
  directAccessors : Bool := false
  /-- Conversion of integers to bit-vectors; without it, the bits are computed one by one. -/
  intToBitVector : Bool := false
  /-- Lines that make models of composite values easier to read. -/
  flattenedModelSettings : List String := []
  deriving DecidableEq, Repr

namespace Capabilities

/-- A solver that supports almost everything here. -/
def z3 : Capabilities where
  name := "Z3"
  quantifiers := true
  bitVectors := true
  uninterpretedSorts := true
  unboundedInts := true
  reals := true
  floats := true
  sets := true
  optimization := true
  pseudoBooleans := true
  dataTypes := true
  intToBitVector := true
  flattenedModelSettings :=
    ["(set-option :pp.max_depth 4294967295)",
      "(set-option :pp.min_alias_size 4294967295)",
      "(set-option :model.inline_def true)"]

/-- A solver that tests constructors without signatures. -/
def cvc5 : Capabilities where
  name := "CVC5"
  quantifiers := true
  bitVectors := true
  uninterpretedSorts := true
  unboundedInts := true
  reals := true
  floats := true
  sets := true
  dataTypes := true
  directAccessors := true
  intToBitVector := true

/-- A solver without quantifiers, floats and data types. -/
def yices : Capabilities where
  name := "Yices"
  bitVectors := true
  uninterpretedSorts := true
  unboundedInts := true
  reals := true

/-- A solver for bit-vectors only. -/
def boolector : Capabilities where
  name := "Boolector"
  bitVectors := true

/-- A solver with floats and data types, without quantifiers. -/
def mathSAT : Capabilities where
  name := "MathSAT"
  bitVectors := true
  uninterpretedSorts := true
  unboundedInts := true
  reals := true
  floats := true
  dataTypes := true

/-- The solvers that are known by name. -/
def known : List Capabilities := [z3, cvc5, yices, boolector, mathSAT]

/-- Whether two names are the same up to the case of their letters. -/
def sameName (a b : String) : Bool :=
  a.toList.map Char.toLower == b.toList.map Char.toLower

/-- The capabilities of a solver with a given name. -/
def ofName (name : String) : Except Failure Capabilities :=
  match known.find? fun c => sameName c.name name with
  | some c => .ok c
  | none => .error (.unknownSolver name)

end Capabilities

end SolverScript
