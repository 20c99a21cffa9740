import SolverScript.Graph.Operator

/-!
# Operations

An operator applied to nodes, and how operators and operations are shown in messages. Members of the
families of operators have a function symbol of their own in the target language; showing them goes
through it.

## Main definitions

* `Operation` - an operator with its operands, and `Assignment`, a node defined by an operation
* `Operator.symbol` - the function symbol of an operator that has one
* `Operator.describe`, `Operation.describe` - the texts for messages
-/

namespace SolverScript

/-- The function symbol of an operation on floats. -/
def FloatOp.symbol : FloatOp → String
  | abs => "fp.abs"
  | neg => "fp.neg"
  | add => "fp.add"
  | sub => "fp.sub"
  | mul => "fp.mul"
  | div => "fp.div"
  | fma => "fp.fma"
  | sqrt => "fp.sqrt"
  | rem => "fp.rem"
  | roundToIntegral => "fp.roundToIntegral"
  | min => "fp.min"
  | max => "fp.max"
  | isNormal => "fp.isNormal"
  | isSubnormal => "fp.isSubnormal"
  | isZero => "fp.isZero"
  | isInfinite => "fp.isInfinite"
  | isNaN => "fp.isNaN"
  | isNegative => "fp.isNegative"
  | isPositive => "fp.isPositive"
  | objEqual => "="

/-- The function symbol of a function on reals. -/
def RealFunction.symbol : RealFunction → String
  | sin => "sin"
  | cos => "cos"
  | tan => "tan"
  | asin => "asin"
  | acos => "acos"
  | atan => "atan"
  | sqrt => "sqrt"
  | sinh => "sinh"
  | cosh => "cosh"
  | tanh => "tanh"
  | exp => "exp"
  | log => "log"
  | pow => "pow"

/-- The predicate that holds when a product does not overflow. -/
def OverflowCheck.symbol : OverflowCheck → String
  | signedNoOverflow => "bvsmul_noovfl"
  | signedNoUnderflow => "bvsmul_noudfl"
  | unsignedNoOverflow => "bvumul_noovfl"

/-- The function symbol of an operation on strings. -/
def StringOp.symbol : StringOp → String
  | concat => "str.++"
  | length => "str.len"
  | «at» => "str.at"
  | substring => "str.substr"
  | indexOf => "str.indexof"
  | contains => "str.contains"
  | prefixOf => "str.prefixof"
  | suffixOf => "str.suffixof"
  | replace => "str.replace"
  | toInt => "str.to_int"
  | fromInt => "str.from_int"
  | toCode => "str.to_code"
  | fromCode => "str.from_code"
  | lessThan => "str.<"
  | lessEq => "str.<="
  | unit => "str.unit"

/-- The function symbol of an operation on sequences. -/
def SequenceOp.symbol : SequenceOp → String
  | concat => "seq.++"
  | length => "seq.len"
  | unit => "seq.unit"
  | nth => "seq.nth"
  | extract => "seq.extract"
  | indexOf => "seq.indexof"
  | contains => "seq.contains"
  | prefixOf => "seq.prefixof"
  | suffixOf => "seq.suffixof"
  | replace => "seq.replace"

namespace Operator

/-- The position of an operator's shape among the shapes of operators, and the shape's name. -/
def shape : Operator → Nat × String
  | ite => (0, "Ite")
  | plus => (1, "Plus")
  | times => (2, "Times")
  | minus => (3, "Minus")
  | uneg => (4, "UNeg")
  | abs => (5, "Abs")
  | quot => (6, "Quot")
  | rem => (7, "Rem")
  | equal => (8, "Equal")
  | notEqual => (9, "NotEqual")
  | lessThan => (10, "LessThan")
  | greaterThan => (11, "GreaterThan")
  | lessEq => (12, "LessEq")
  | greaterEq => (13, "GreaterEq")
  | and => (14, "And")
  | or => (15, "Or")
  | xor => (16, "XOr")
  | not => (17, "Not")
  | shl => (18, "Shl")
  | shr => (19, "Shr")
  | rol _ => (20, "Rol")
  | ror _ => (21, "Ror")
  | extract _ => (22, "Extract")
  | join => (23, "Join")
  | lookup _ => (24, "LkUp")
  | arrayEqual .. => (25, "ArrEq")
  | arrayRead _ => (26, "ArrRead")
  | kindCast .. => (27, "KindCast")
  | uninterpreted _ => (28, "Uninterpreted")
  | label _ => (29, "Label")
  | float _ | floatCast .. | floatReinterpret .. => (30, "IEEEFP")
  | nonlinear _ => (31, "NonLinear")
  | overflow _ => (32, "OverflowOp")
  | pseudoBoolean .. => (33, "PseudoBoolean")
  | string _ | stringIn _ => (34, "StrOp")
  | regExpEqual .. => (35, "RegExOp")
  | sequence _ | reverse _ => (36, "SeqOp")
  | set _ => (37, "SetOp")
  | tupleConstructor _ => (38, "TupleConstructor")
  | tupleAccess _ => (39, "TupleAccess")
  | eitherConstructor .. => (40, "EitherConstructor")
  | eitherIs .. => (41, "EitherIs")
  | eitherAccess _ => (42, "EitherAccess")
  | rationalConstructor => (43, "RationalConstructor")
  | maybeConstructor .. => (44, "MaybeConstructor")
  | maybeIs .. => (45, "MaybeIs")
  | maybeAccess => (46, "MaybeAccess")

/-- The function symbol of an operator of a family; `none` for the other operators. -/
def ownSymbol? : Operator → Except Failure (Option Term)
  | float op => .ok (some (.symbol op.symbol))
  | floatReinterpret _ target =>
    match target.floatFormat? with
    | some format => .ok (some (format.special "to_fp"))
    | none => .error (.floatExpected target)
  | nonlinear function => .ok (some (.symbol function.symbol))
  | overflow check => .ok (some (.symbol check.symbol))
  | string op => .ok (some (.symbol op.symbol))
  | stringIn _ => .ok (some (.symbol "str.in_re"))
  | sequence op => .ok (some (.symbol op.symbol))
  | reverse _ => .ok (some (.symbol "seq.reverse"))
  | _ => .ok none

/-- The data of an operator as they follow its name, a blank before each. -/
def details : Operator → Except Failure String
  | extract range => .ok (" " ++ Nat.repr range.high ++ " " ++ Nat.repr range.low)
  | rol amount | ror amount => .ok (" " ++ Nat.repr amount)
  | lookup l =>
    .ok (" table" ++ Numeral.decimal l.table ++ " " ++ l.index.name ++ " " ++ l.default.name)
  | arrayEqual a b => .ok (" array_" ++ Numeral.decimal a ++ " array_" ++ Numeral.decimal b)
  | arrayRead a => .ok (" array_" ++ Numeral.decimal a)
  | kindCast source target => .ok (" " ++ source.name ++ " -> " ++ target.name)
  | uninterpreted symbol => .ok (" " ++ symbol)
  | label text => .ok (" " ++ text)
  | floatCast source target _ => .ok (" fp.cast " ++ source.name ++ " -> " ++ target.name)
  | regExpEqual positive l r => do
    let lt ← l.term
    let rt ← r.term
    return (if positive then " = " else " distinct ") ++ lt.render ++ " " ++ rt.render
  | tupleConstructor arity => .ok (" " ++ Nat.repr arity)
  | tupleAccess p => .ok (" " ++ Nat.repr p.position ++ " " ++ Nat.repr p.arity)
  | op => do
    match ← op.ownSymbol? with
    | some symbol => return " " ++ symbol.render
    | none => return ""

/-- An operator in words: the name of its shape and its data. -/
def describe (op : Operator) : Except Failure String := do
  return op.shape.2 ++ (← op.details)

/-- The function symbol of an operator that has one of its own. -/
def symbol (op : Operator) : Except Failure Term := do
  match ← op.ownSymbol? with
  | some symbol => return symbol
  | none => throw (.noOwnSymbol (← op.describe))

end Operator

/-- An operator applied to nodes. -/
structure Operation where
  operator : Operator
  operands : List Node
  deriving Repr

/-- An operation in words; `full` shows the kinds of the operands. -/
def Operation.describe (full : Bool) (o : Operation) : Except Failure String := do
  return "(" ++ joined " " ((← o.operator.describe) :: o.operands.map (Node.describe full)) ++ ")"

/-- A node and the operation that defines it. -/
structure Assignment where
  node : Node
  operation : Operation
  deriving Repr

end SolverScript
