import SolverScript.Problem.Basic

/-!
# References

A script can only be written for a problem whose parts refer to nodes and arrays that exist.
Assignments have to be in the order of creation and refer to earlier nodes; the other parts may
refer to any node.

## Main definitions

* `Operator.hiddenOperands` - the nodes that an operator carries besides its operands
* `Problem.checkReferences` - succeeds when every reference is to something known
-/

namespace SolverScript

/-- The nodes that are part of the operator itself. -/
def Operator.hiddenOperands : Operator → List Node
  | lookup l => [l.index, l.default]
  | floatCast _ _ rounding => [rounding]
  | _ => []

/-- Every node that an operation refers to. -/
def Operation.references (o : Operation) : List Node :=
  o.operands ++ o.operator.hiddenOperands

namespace Problem

/-- The identities that are known before any assignment: the truth values, the inputs of all sorts
and the constants. -/
def initiallyKnown (p : Problem) : List Int :=
  [(Node.ofBool true).id, (Node.ofBool false).id] ++ p.inputs.map (·.node.id) ++
    p.trackers.map (·.node.id) ++ p.quantified.map (·.node.id) ++ p.constants.map (·.node.id)

/-- The first of some nodes that is not known is a failure. -/
def checkKnown (known : List Int) (failure : Node → Failure) : List Node → Except Failure Unit
  | [] => .ok ()
  | n :: rest => if known.contains n.id then checkKnown known failure rest else .error (failure n)

/-- Checks assignments from left to right and returns what is known after them. -/
def checkAssignments (known : List Int) (last : Int) :
    List Assignment → Except Failure (List Int)
  | [] => .ok known
  | a :: rest => do
    if a.node.id ≤ last then throw (.creationOrder a.node last)
    checkKnown known (.unknownOperand a.node) a.operation.references
    checkAssignments (a.node.id :: known) a.node.id rest

/-- An array has to be one of the listed ones. -/
def checkArray (listed : List Int) (user other : Int) : Except Failure Unit :=
  if listed.contains other then .ok () else .error (.unknownArray user other)

/-- The references of one array. -/
def checkArrayContext (known listed : List Int) (a : ArrayDatum) : Except Failure Unit :=
  let part := checkKnown known (.unknownPart (arrayName a.id))
  match a.context with
  | .free initializer => part initializer.toList
  | .mutate base index value => do
    checkArray listed a.id base
    part [index, value]
  | .merge condition thenArray elseArray => do
    part [condition]
    checkArray listed a.id thenArray
    checkArray listed a.id elseArray

/-- Whether everything that the problem refers to is known; if not, the first reference that is
not. -/
def checkReferences (p : Problem) : Except Failure Unit := do
  let known ← checkAssignments p.initiallyKnown (-1) p.assignments
  checkKnown known (fun n => .unknownOperand n n) (p.constraints.map (·.literal) ++ [p.goal])
  p.tables.forM fun t => checkKnown known (.unknownPart (tableName t.id)) t.elements
  p.arrays.forM (checkArrayContext known (p.arrays.map (·.id)))

end Problem

end SolverScript
