import SolverScript.Encoding.Operands

/-!
# Composite values

Operations on sets, tuples, optionals and sums. Sets are functions to truth values, so membership
reads an array and insertion writes one. Constructors are written with the sort of their result;
tests for constructors are written with a signature unless the solver does without.
-/

namespace SolverScript

namespace Composite

/-- The operations on sets. Elements come before the set they are compared with. -/
def set (op : SetOp) (ts : List Term) : Except Failure Term :=
  let onElement := fun (result : Term → Term → Term) =>
    match ts with
    | [element, set] => .ok (result element set)
    | _ => wrongOperands "SetOp" ts
  match op with
  | .equal => .ok (Term.apply "=" ts)
  | .member => onElement fun e s => .app (.symbol "select") [s, e]
  | .insert => onElement fun e s => .app (.symbol "store") [s, e, Term.ofBool true]
  | .delete => onElement fun e s => .app (.symbol "store") [s, e, Term.ofBool false]
  | .intersect => .ok (Term.apply "intersection" ts)
  | .union => .ok (Term.apply "union" ts)
  | .subset => .ok (Term.apply "subset" ts)
  | .difference => .ok (Term.apply "setminus" ts)
  | .complement => .ok (Term.apply "complement" ts)
  | .hasSize => .ok (Term.apply "set-has-size" ts)

/-- A tuple of some components; the arity is that of the operator, the sort that of the components.
-/
def tuple (arity : Nat) (kinds : List Kind) (ts : List Term) : Term :=
  if arity = 0 && ts.isEmpty then .symbol "mkSBVTuple0"
  else Term.applyTo (.ascribed ("mkSBVTuple" ++ Nat.repr arity) (Kind.tuple kinds).sort) ts

/-- The name of a projection from tuples. -/
def projection (position arity : Nat) : String :=
  "proj_" ++ Nat.repr position ++ "_SBVTuple" ++ Nat.repr arity

/-- The constructor of one side of a sum. -/
def sideConstructor (isRight : Bool) : String :=
  if isRight then "right_SBVEither" else "left_SBVEither"

/-- The accessor of one side of a sum. -/
def sideAccessor (isRight : Bool) : String :=
  if isRight then "get_right_SBVEither" else "get_left_SBVEither"

/-- The constructor of an optional. -/
def maybeConstructor (isJust : Bool) : String :=
  if isJust then "just_SBVMaybe" else "nothing_SBVMaybe"

/-- The accessor of a present optional. -/
def maybeAccessor : String := "get_just_SBVMaybe"

/-- The test for a constructor, with its signature. -/
def testerWithSignature (constructor : String) (parameters : List Kind) (result : Kind) : Term :=
  .tester constructor (some (parameters.map Kind.sort, result.sort))

end Composite

/-- The test for a constructor, as the solver wants it. -/
def Capabilities.tester (c : Capabilities) (constructor : String) (parameters : List Kind)
    (result : Kind) : Term :=
  if c.directAccessors then .tester constructor none
  else Composite.testerWithSignature constructor parameters result

end SolverScript
