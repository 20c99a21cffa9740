import SolverScript.Encoding.Scope

/-!
# Operands

Most operators take a fixed number of operands, and what they mean depends on the kinds of all of
them. This file has the applications that check how many operands there are, and the summary of
kinds that the encoding looks at.

## Main definitions

* `unary`, `binary`, `roundedBinary` - applications to one or two operands
* `exchanged` - two operands in the opposite order
* `OperandProfile` - which kinds occur among operands
-/

namespace SolverScript

/-- A failure that shows the operands of a construct. -/
def wrongOperands {α : Type} (construct : String) (ts : List Term) : Except Failure α :=
  .error (.operandCount construct (ts.map Term.render))

/-- A function of one operand. -/
def unary (name : String) : List Term → Except Failure Term
  | [a] => .ok (.app (.symbol name) [a])
  | ts => wrongOperands name ts

/-- A function of two operands. -/
def binary (name : String) : List Term → Except Failure Term
  | [a, b] => .ok (.app (.symbol name) [a, b])
  | ts => wrongOperands name ts

/-- A function of two operands that rounds its result. -/
def roundedBinary (name : String) (mode : RoundingMode) : List Term → Except Failure Term
  | [a, b] => .ok (.app (.symbol name) [.symbol mode.symbol, a, b])
  | ts => wrongOperands (name ++ " " ++ mode.symbol) ts

/-- Two operands in the opposite order. -/
def exchanged : List Term → Except Failure (List Term)
  | [a, b] => .ok [b, a]
  | ts => wrongOperands "a swapped comparison" ts

/-- What the kinds of operands have in common, and which kinds occur among them. -/
structure OperandProfile where
  allBounded : Bool
  allBool : Bool
  anyUnbounded : Bool
  anyRational : Bool
  anyReal : Bool
  anyFloating : Bool
  anyChar : Bool
  anyString : Bool
  anyList : Bool
  anySigned : Bool
  deriving DecidableEq, Repr

/-- The profile of some operands. -/
def OperandProfile.ofNodes (ns : List Node) : OperandProfile :=
  let kinds := ns.map Node.kind
  { allBounded := kinds.all Kind.isBounded
    allBool := kinds.all Kind.isBool
    anyUnbounded := kinds.any Kind.isUnbounded
    anyRational := kinds.any Kind.isRational
    anyReal := kinds.any Kind.isReal
    anyFloating := kinds.any Kind.isFloating
    anyChar := kinds.any Kind.isChar
    anyString := kinds.any Kind.isString
    anyList := kinds.any Kind.isList
    anySigned := kinds.any Kind.isSigned }

end SolverScript
