import SolverScript.Graph.Operator

/-!
# Pseudo-Boolean constraints

Bounds on how many formulas hold, or on how much they weigh together. A solver that knows such
constraints gets them as they are; for the others they are comparisons of a sum of case distinctions
with the bound.

## Main definitions

* `PseudoBoolean.native` - the constraint itself
* `PseudoBoolean.reduced` - the comparison of a sum
-/

namespace SolverScript.PseudoBoolean

/-- Whether the formulas have weights of their own. -/
def isWeighted : Threshold → Bool
  | .le | .ge | .eq => true
  | .atMost | .atLeast | .exactly => false

/-- The name of a native constraint. -/
def nativeName : Threshold → String
  | .atMost => "at-most"
  | .atLeast => "at-least"
  | .exactly | .eq => "pbeq"
  | .le => "pble"
  | .ge => "pbge"

/-- The weights that follow the bound of a native constraint. -/
def nativeWeights (threshold : Threshold) (coefficients : List Int) (count : Nat) : List Int :=
  match threshold with
  | .atMost | .atLeast => []
  | .exactly => List.replicate count 1
  | .le | .ge | .eq => coefficients

/-- The constraint as a solver knows it. -/
def native (threshold : Threshold) (coefficients : List Int) (bound : Int) (formulas : List Term) :
    Term :=
  Term.applyTo
    (.indexed (nativeName threshold)
      (bound :: nativeWeights threshold coefficients formulas.length))
    formulas

/-- The formulas with their weights. A weighted constraint ends with the shorter list. -/
def weighted (threshold : Threshold) (coefficients : List Int) (formulas : List Term) :
    List (Term × Int) :=
  if isWeighted threshold then formulas.zip coefficients else formulas.map fun f => (f, 1)

/-- The contribution of a formula to the sum. -/
def summand (formula : Term) (weight : Int) : Term :=
  .app (.symbol "ite") [formula, .numeral weight, .numeral 0]

/-- The comparison of the sum with the bound. Comparison symbols are aligned to two characters. -/
def comparison (threshold : Threshold) (sum bound : Term) : Term :=
  match threshold with
  | .atMost | .le => .app (.symbol "<=") [sum, bound]
  | .atLeast | .ge => .app (.symbol ">=") [sum, bound]
  | .exactly | .eq => .app (.symbol "=") [.adjacent [], sum, bound]

/-- The constraint as a comparison of integers. -/
def reduced (threshold : Threshold) (coefficients : List Int) (bound : Int)
    (formulas : List Term) : Term :=
  let summands := (weighted threshold coefficients formulas).map fun (f, w) => summand f w
  comparison threshold (Term.apply "+" summands) (.numeral bound)

end SolverScript.PseudoBoolean
