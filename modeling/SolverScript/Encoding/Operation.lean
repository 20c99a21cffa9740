import SolverScript.Encoding.Arithmetic
import SolverScript.Encoding.Cast
import SolverScript.Encoding.Composite
import SolverScript.Encoding.Lookup
import SolverScript.Encoding.PseudoBoolean

/-!
# Operations as terms

The term of an operation in a scope. Operators that mean the same at every kind are encoded here;
the arithmetic operators and comparisons are left to `Scope.generic`.

## Main definitions

* `Scope.term` - the term of an operation
* `Scope.definition` - the defining term of a node, with the remark of a label
-/

namespace SolverScript.Scope

/-- The term of the only operand. -/
def onlyOperand (scope : Scope) (operation : Operation) : Except Failure Term :=
  match operation.operands with
  | [n] => .ok (scope.nodeTerm n)
  | ns => do wrongOperands (← operation.operator.describe) (scope.nodeTerms ns)

/-- The failure of an operation on something other than bit-vectors. -/
def bitVectorsExpected {α : Type} (operation : Operation) : Except Failure α := do
  let profile := OperandProfile.ofNodes operation.operands
  throw (.bitVectorsExpected profile.anyUnbounded (← operation.describe true))

/-- A function with numeric indices, applied to a bit-vector. -/
def indexedBits (scope : Scope) (name : String) (indices : List Int) (operation : Operation) :
    Except Failure Term := do
  unless (OperandProfile.ofNodes operation.operands).allBounded do bitVectorsExpected operation
  return .app (.indexed name indices) [← scope.onlyOperand operation]

/-- A shift; to the right, it repeats the sign of its first operand. -/
def shift (scope : Scope) (isLeft : Bool) (operation : Operation) : Except Failure Term := do
  unless (OperandProfile.ofNodes operation.operands).allBounded do bitVectorsExpected operation
  match operation.operands with
  | [a, b] =>
    let name := if isLeft then "bvshl" else if a.isSigned then "bvashr" else "bvlshr"
    return .app (.symbol name) [scope.nodeTerm a, scope.nodeTerm b]
  | ns => wrongOperands (← operation.operator.describe) (scope.nodeTerms ns)

/-- A connective, on truth values or bit by bit. -/
def connective (scope : Scope) (onBools onBits : String)
    (build : String → List Term → Except Failure Term) (operation : Operation) :
    Except Failure Term := do
  let profile := OperandProfile.ofNodes operation.operands
  unless profile.allBounded || profile.allBool do bitVectorsExpected operation
  build (if profile.allBool then onBools else onBits) (scope.nodeTerms operation.operands)

/-- The function symbol of a member of a family, applied to the operands. -/
def bySymbol (scope : Scope) (operation : Operation) : Except Failure Term := do
  return Term.applyTo (← operation.operator.symbol) (scope.nodeTerms operation.operands)

/-- The test for a constructor, applied to the only operand. -/
def test (scope : Scope) (constructor : String) (parameters : List Kind) (result : Kind)
    (operation : Operation) : Except Failure Term := do
  let argument ← scope.onlyOperand operation
  return .app (scope.config.capabilities.tester constructor parameters result) [argument]

/-- A symbol applied to the operands; without operands, the symbol itself. -/
def freeSymbol (scope : Scope) (symbol : String) (operation : Operation) : Term :=
  match operation.operands with
  | [] => .symbol symbol
  | ns => .app (.symbol symbol) (scope.nodeTerms ns)

/-- The term of an operation. -/
def term (scope : Scope) (operation : Operation) : Except Failure Term :=
  let ts := scope.nodeTerms operation.operands
  match operation.operator with
  | .ite =>
    match ts with
    | [c, a, b] => .ok (.app (.symbol "ite") [c, a, b])
    | _ => wrongOperands "ite" ts
  | .lookup l => scope.lookup l operation
  | .kindCast source target => do
    let argument ← scope.onlyOperand operation
    Cast.ofKinds scope.config.capabilities.intToBitVector source target argument
  | .arrayEqual a b => .ok (.app (.symbol "=") [.symbol (arrayName a), .symbol (arrayName b)])
  | .arrayRead a => do
    return .app (.symbol "select") [.symbol (arrayName a), ← scope.onlyOperand operation]
  | .uninterpreted symbol => .ok (scope.freeSymbol symbol operation)
  | .extract range => scope.indexedBits "extract" [range.high, range.low] operation
  | .rol amount => scope.indexedBits "rotate_left" [amount] operation
  | .ror amount => scope.indexedBits "rotate_right" [amount] operation
  | .shl => scope.shift true operation
  | .shr => scope.shift false operation
  | .and => scope.connective "and" "bvand" binary operation
  | .or => scope.connective "or" "bvor" binary operation
  | .xor => scope.connective "xor" "bvxor" binary operation
  | .not => scope.connective "not" "bvnot" unary operation
  | .join => scope.connective "concat" "concat" binary operation
  | .label _ => scope.onlyOperand operation
  | .floatCast source target rounding =>
    Cast.floating source target (scope.nodeTerm rounding) (Term.sideBySide ts)
  | .float _ | .floatReinterpret .. | .nonlinear _ | .sequence _ => scope.bySymbol operation
  | .pseudoBoolean threshold coefficients bound =>
    .ok (if scope.config.capabilities.pseudoBooleans then
        PseudoBoolean.native threshold coefficients bound ts
      else PseudoBoolean.reduced threshold coefficients bound ts)
  | .overflow _ => do return Term.negation (← scope.bySymbol operation)
  | .string .unit =>
    match ts with
    | [t] => .ok t
    | _ => scope.bySymbol operation
  | .string _ => scope.bySymbol operation
  | .stringIn language => do
    return .app (.symbol "str.in_re") [Term.sideBySide ts, ← language.term]
  | .regExpEqual positive l r => do
    let lt ← l.term
    let rt ← r.term
    return .app (.symbol (if positive then "=" else "distinct")) [lt, rt]
  | .reverse what =>
    match scope.reversals.name? what.kind with
    | some name => .ok (Term.apply name ts)
    | none => do throw (.missingReversal (← operation.describe true))
  | .set op => Composite.set op ts
  | .tupleConstructor arity =>
    .ok (Composite.tuple arity (operation.operands.map Node.kind) ts)
  | .tupleAccess p => do
    return .app (.symbol (Composite.projection p.position p.arity))
      [← scope.onlyOperand operation]
  | .eitherConstructor l r isRight => do
    return .app (.ascribed (Composite.sideConstructor isRight) (Kind.either l r).sort)
      [← scope.onlyOperand operation]
  | .eitherIs l r isRight =>
    scope.test (Composite.sideConstructor isRight) [if isRight then r else l] (.either l r)
      operation
  | .eitherAccess isRight => do
    return .app (.symbol (Composite.sideAccessor isRight)) [← scope.onlyOperand operation]
  | .rationalConstructor => binary RationalFunction.constructor ts
  | .maybeConstructor k true => do
    return .app (.ascribed (Composite.maybeConstructor true) (Kind.maybe k).sort)
      [← scope.onlyOperand operation]
  | .maybeConstructor k false =>
    .ok (.ascribed (Composite.maybeConstructor false) (Kind.maybe k).sort)
  | .maybeIs k isJust =>
    scope.test (Composite.maybeConstructor isJust) (if isJust then [k] else []) (.maybe k)
      operation
  | .maybeAccess => do
    return .app (.symbol Composite.maybeAccessor) [← scope.onlyOperand operation]
  | _ => scope.generic operation

/-- The text of a label that names a single node; such a node is defined as the node it labels. -/
def labelled? (operation : Operation) : Option (String × Node) :=
  match operation.operator, operation.operands with
  | .label text, [n] => some (text, n)
  | _, _ => none

/-- The defining term of an operation, and the text of its label if it is one. -/
def definition (scope : Scope) (operation : Operation) : Except Failure (Term × Option String) :=
  match labelled? operation with
  | some (text, n) => .ok (scope.nodeTerm n, some text)
  | none => do return (← scope.term operation, none)

end SolverScript.Scope
