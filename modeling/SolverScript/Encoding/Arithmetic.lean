import SolverScript.Encoding.Comparison

/-!
# Arithmetic

The arithmetic operators and comparisons of numbers. Which function they become depends on the kinds
of the operands: one unbounded integer among them makes an operation one on integers, while an
operation is one on bit-vectors only if all operands are.

## Main definitions

* `Arithmetic.integer?`, `Arithmetic.bitVector?`, `Arithmetic.realOrFloat?`,
  `Arithmetic.rational?` - the operations by the kind they compute in
* `Scope.generic` - the operation that the kinds of the operands call for
-/

namespace SolverScript

namespace Arithmetic

/-- A case distinction on the sign of a number. -/
def absoluteValue (less negate : String) (zero t : Term) : Term :=
  .app (.symbol "ite")
    [.app (.symbol less) [t, zero], .app (.symbol negate) [t], t]

/-- The absolute value. -/
def abs (scope : Scope) (profile : OperandProfile) (ns : List Node) (ts : List Term) :
    Except Failure Term :=
  if profile.anyFloating then unary "fp.abs" ts
  else if profile.anyUnbounded then unary "abs" ts
  else
    match ns, ts with
    | [n], [t] =>
      if profile.allBounded && !profile.anySigned then .ok t
      else do
        let zero ← scope.constantTerm n.kind 0
        return if profile.allBounded then absoluteValue "bvslt" "bvneg" zero t
          else absoluteValue "<" "-" zero t
    | _, ts => wrongOperands "abs" ts

/-- The operations that integers, reals and floats share; `none` for other operators. -/
def shared? (scope : Scope) (profile : OperandProfile) (operation : Operation) (ts : List Term) :
    Option (Except Failure Term) :=
  let float := profile.anyFloating
  let rounded := fun name floatName =>
    if float then roundedBinary floatName scope.config.roundingMode ts else binary name ts
  let plain := fun name floatName => binary (if float then floatName else name) ts
  match operation.operator with
  | .plus => some (rounded "+" "fp.add")
  | .minus => some (rounded "-" "fp.sub")
  | .times => some (rounded "*" "fp.mul")
  | .uneg => some (unary (if float then "fp.neg" else "-") ts)
  | .abs => some (abs scope profile operation.operands ts)
  | .equal => some (plain "=" "fp.eq")
  | .notEqual => some (.ok (Comparison.different scope.config.capabilities profile ts))
  | .lessThan => some (plain "<" "fp.lt")
  | .greaterThan => some (plain ">" "fp.gt")
  | .lessEq => some (plain "<=" "fp.leq")
  | .greaterEq => some (plain ">=" "fp.geq")
  | _ => none

/-- The operations on integers. -/
def integer? (scope : Scope) (profile : OperandProfile) (operation : Operation)
    (ts : List Term) : Option (Except Failure Term) :=
  match operation.operator with
  | .quot => some (binary "div" ts)
  | .rem => some (binary "mod" ts)
  | _ => shared? scope profile operation ts

/-- The operations on bit-vectors. -/
def bitVector? (scope : Scope) (profile : OperandProfile) (operation : Operation)
    (ts : List Term) : Option (Except Failure Term) :=
  let bySign := fun signed unsigned => binary (if profile.anySigned then signed else unsigned) ts
  match operation.operator with
  | .plus => some (binary "bvadd" ts)
  | .minus => some (binary "bvsub" ts)
  | .times => some (binary "bvmul" ts)
  | .uneg => some (unary (if profile.allBool then "not" else "bvneg") ts)
  | .abs => some (abs scope profile operation.operands ts)
  | .quot => some (bySign "bvsdiv" "bvudiv")
  | .rem => some (bySign "bvsrem" "bvurem")
  | .equal => some (binary "=" ts)
  | .notEqual => some (.ok (Term.apply "distinct" ts))
  | .lessThan => some (bySign "bvslt" "bvult")
  | .greaterThan => some (bySign "bvsgt" "bvugt")
  | .lessEq => some (bySign "bvsle" "bvule")
  | .greaterEq => some (bySign "bvsge" "bvuge")
  | _ => none

/-- The operations on reals and floats. -/
def realOrFloat? (scope : Scope) (profile : OperandProfile) (operation : Operation)
    (ts : List Term) : Option (Except Failure Term) :=
  match operation.operator with
  | .quot =>
    some (if profile.anyFloating then roundedBinary "fp.div" scope.config.roundingMode ts
      else binary "/" ts)
  | _ => shared? scope profile operation ts

/-- The operations on rationals, which are functions that the script defines. -/
def rational? (op : Operator) (ts : List Term) : Option (Except Failure Term) :=
  let direct := fun (f : RationalFunction) => some (binary f.symbol ts)
  let flipped := fun (f : RationalFunction) => some (exchanged ts >>= binary f.symbol)
  match op with
  | .plus => direct .plus
  | .minus => direct .minus
  | .times => direct .times
  | .uneg => some (unary RationalFunction.uneg.symbol ts)
  | .abs => some (unary RationalFunction.abs.symbol ts)
  | .equal => direct .eq
  | .notEqual => direct .notEq
  | .lessThan => direct .lt
  | .greaterThan => flipped .lt
  | .lessEq => direct .leq
  | .greaterEq => flipped .leq
  | _ => none

end Arithmetic

/-- A result under a condition. -/
def onlyIf {α : Type} (condition : Bool) (result : Option α) : Option α :=
  if condition then result else none

/-- Texts without repetitions, in the order of their first occurrence. -/
def withoutRepetitions : List String → List String
  | [] => []
  | a :: rest => a :: (withoutRepetitions rest).filter (· != a)

namespace Scope

/-- The failure of an operation that no kind of its operands supports. -/
def noEncoding (operation : Operation) : Except Failure Term := do
  let userSorted :=
    match operation.operands with
    | n :: _ => n.kind.userSort?.isSome
    | [] => false
  if userSorted then
    throw (.userSortOperator (← operation.operator.describe)
      (withoutRepetitions (operation.operands.map fun n => n.kind.name))
      (← operation.describe false))
  throw (.inexpressible (← operation.describe true))

/-- The term of an operator that many kinds share: the first kind of operation that the
operands call for and that has the operator. -/
def generic (scope : Scope) (operation : Operation) : Except Failure Term :=
  let profile := OperandProfile.ofNodes operation.operands
  let op := operation.operator
  let ts := scope.nodeTerms operation.operands
  let result? :=
    onlyIf profile.anyUnbounded (Arithmetic.integer? scope profile operation ts) <|>
    onlyIf profile.allBool (Comparison.bool? op ts) <|>
    onlyIf profile.allBounded (Arithmetic.bitVector? scope profile operation ts) <|>
    onlyIf profile.anyReal (Arithmetic.realOrFloat? scope profile operation ts) <|>
    onlyIf profile.anyRational (Arithmetic.rational? op ts) <|>
    onlyIf profile.anyFloating (Arithmetic.realOrFloat? scope profile operation ts) <|>
    onlyIf (profile.anyChar || profile.anyString)
      (Comparison.ordered? "str.<" "str.<=" op ts) <|>
    onlyIf profile.anyList (Comparison.ordered? "seq.<" "seq.<=" op ts) <|>
    Comparison.enumerated? operation ts
  result?.getD (noEncoding operation)

end Scope

end SolverScript
