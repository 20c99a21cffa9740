import SolverScript.Script.Datatype
import SolverScript.Encoding.Operands

/-!
# Comparisons

Equality, difference and the orders, by the kinds they compare. Where the target language has only
one direction of an order, the other one exchanges the operands.

## Main definitions

* `Comparison.pairwiseDifferent` - the difference of every pair of operands
* `Comparison.bool?` - the order of truth values
* `Comparison.ordered?` - the comparisons of strings and lists
* `Comparison.enumerated?` - the comparisons of every other kind
-/

namespace SolverScript.Comparison

/-- The pairs of elements at different positions, the earlier one first. -/
def pairs {α : Type} : List α → List (α × α)
  | [] => []
  | a :: rest => rest.map (fun b => (a, b)) ++ pairs rest

/-- The negation of an equation. -/
def unequal (equality : String) (a b : Term) : Term :=
  Term.negation (.app (.symbol equality) [a, b])

/-- The difference of every pair of operands. -/
def pairwiseDifferent (equality : String) : List Term → Term
  | [a, b] => unequal equality a b
  | ts => Term.apply "and" ((pairs ts).map fun (a, b) => unequal equality a b)

/-- Pairwise difference of operands. Floats differ by their own equality, which tells neither zero
from the other and which nothing that is not a number satisfies. -/
def different (capabilities : Capabilities) (profile : OperandProfile) (ts : List Term) : Term :=
  if !profile.anyFloating && capabilities.distinct then Term.apply "distinct" ts
  else pairwiseDifferent (if profile.anyFloating then "fp.eq" else "=") ts

/-- A formula about two truth values, the first one negated. -/
def ofNegated (connective : String) : List Term → Except Failure Term
  | [a, b] => .ok (.app (.symbol connective) [Term.negation a, b])
  | ts => wrongOperands "a Boolean comparison" ts

/-- The order of truth values, in which `false` comes before `true`; `none` for other operators. -/
def bool? (op : Operator) (ts : List Term) : Option (Except Failure Term) :=
  match op with
  | .lessThan => some (ofNegated "and" ts)
  | .greaterThan => some (exchanged ts >>= ofNegated "and")
  | .lessEq => some (ofNegated "or" ts)
  | .greaterEq => some (exchanged ts >>= ofNegated "or")
  | _ => none

/-- The comparisons of a kind with two order relations; `none` for other operators. -/
def ordered? (less lessEq : String) (op : Operator) (ts : List Term) :
    Option (Except Failure Term) :=
  match op with
  | .equal => some (binary "=" ts)
  | .notEqual => some (.ok (Term.apply "distinct" ts))
  | .lessThan => some (binary less ts)
  | .greaterThan => some (exchanged ts >>= binary less)
  | .lessEq => some (binary lessEq ts)
  | .greaterEq => some (exchanged ts >>= binary lessEq)
  | _ => none

/-- The integer relation behind an order operator. -/
def relation? : Operator → Option String
  | .lessThan => some "<"
  | .greaterThan => some ">"
  | .lessEq => some "<="
  | .greaterEq => some ">="
  | _ => none

/-- An order on an enumeration: the positions of the constructors are compared. -/
def byPosition? (relation : String) (operation : Operation) (ts : List Term) :
    Option (Except Failure Term) :=
  match operation.operands, ts with
  | [n, _], [a, b] =>
    match n.kind with
    | .userSort sort =>
      if sort.isEnumerated then
        let position := fun t => Term.app (.symbol (Datatype.indexName sort.name)) [t]
        some (.ok (.app (.symbol relation) [position a, position b]))
      else none
    | _ => none
  | _, ts => some do wrongOperands (← operation.describe false) ts

/-- Comparisons that work for every kind: equality and difference, and the order of enumerations;
`none` where there is no comparison. -/
def enumerated? (operation : Operation) (ts : List Term) : Option (Except Failure Term) :=
  match operation.operator with
  | .equal => some (binary "=" ts)
  | .notEqual => some (.ok (Term.apply "distinct" ts))
  | op => do byPosition? (← relation? op) operation ts

end SolverScript.Comparison
