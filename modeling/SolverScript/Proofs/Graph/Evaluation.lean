import Mathlib.Algebra.Group.Int.Defs
import Mathlib.Algebra.Group.Nat.Defs
import Mathlib.Logic.Function.Basic
import SolverScript.Problem.Basic
import SolverScript.Proofs.Semantics.Element

/-!
# Evaluation of programs

A symbolic program over truth values and bit-vectors is evaluated node by node. Every operator
computes an integer from the integers behind its operands, which are read with a sign or without as
their kinds say; the result is the element of that integer at the kind of the node, so that
bit-vectors wrap around.

## Main definitions

* `Operator.value?` - the result of an operator
* `Valuation` - the elements of nodes, with `Valuation.evaluate` for assignments
* `Problem.valuation` - the elements of all nodes of a problem, from those of its inputs
* `Problem.HoldsAt` - whether the hard constraints and the goal of a problem hold
-/

namespace SolverScript

variable {α : Type}

/-! ### Operators -/

/-- An operand of an operation: an element of a kind. -/
structure Operand (α : Type) where
  kind : Kind
  value : Element α

namespace Operand

/-- The integer behind an operand, with a sign if its kind has one. -/
def int (o : Operand α) : Int := o.value.read o.kind.isSigned

/-- The natural number that the bits of an operand stand for. -/
def nat (o : Operand α) : Nat := (o.value.read false).toNat

/-- The number of bits of an operand. -/
def width (o : Operand α) : Nat :=
  match o.kind with
  | .bounded _ width => width.bits
  | _ => 0

end Operand

/-- A number of `w` bits, rotated to the left; bits beyond the width have to be dropped. -/
def rotatedLeft (w k n : Nat) : Nat := n <<< (k % w) ||| n >>> (w - k % w)

/-- A number of `w` bits, rotated to the right; bits beyond the width have to be dropped. -/
def rotatedRight (w k n : Nat) : Nat := n >>> (k % w) ||| n <<< (w - k % w)

/-- The quotient rounds to zero. A number divided by zero is the integer of all bits set, or one if
the number is negative. -/
def divided (a b : Int) : Int := if b = 0 then (if a < 0 then 1 else -1) else a.tdiv b

/-- The integer that an operator computes. Truth values count as zero and one. -/
def Operator.number? : Operator → List (Operand α) → Option Int
  | ite, [c, a, b] => some (if c.int = 1 then a.int else b.int)
  | label _, [a] => some a.int
  | plus, [a, b] => some (a.int + b.int)
  | minus, [a, b] => some (a.int - b.int)
  | times, [a, b] => some (a.int * b.int)
  | uneg, [a] => some (-a.int)
  | abs, [a] => some a.int.natAbs
  | quot, [a, b] => some (divided a.int b.int)
  | rem, [a, b] => some (a.int.tmod b.int)
  | equal, [a, b] => some (decide (a.int = b.int)).toInt
  | notEqual, os => some (decide (os.map Operand.int).Nodup).toInt
  | lessThan, [a, b] => some (decide (a.int < b.int)).toInt
  | greaterThan, [a, b] => some (decide (a.int > b.int)).toInt
  | lessEq, [a, b] => some (decide (a.int ≤ b.int)).toInt
  | greaterEq, [a, b] => some (decide (a.int ≥ b.int)).toInt
  | and, [a, b] => some (a.nat &&& b.nat : Nat)
  | or, [a, b] => some (a.nat ||| b.nat : Nat)
  | xor, [a, b] => some (a.nat ^^^ b.nat : Nat)
  | not, [a] => some (if a.kind.isBool then 1 - a.int else -1 - a.int)
  | shl, [a, b] => some (a.int * 2 ^ b.nat)
  | shr, [a, b] => some (a.int / 2 ^ b.nat)
  | rol k, [a] => some (rotatedLeft a.width k a.nat)
  | ror k, [a] => some (rotatedRight a.width k a.nat)
  | extract range, [a] => some (a.nat / 2 ^ range.low : Nat)
  | join, [a, b] => some (a.nat * 2 ^ b.width + b.nat : Nat)
  | _, _ => none

/-- The result of an operator at a kind. -/
def Operator.value? (op : Operator) (result : Kind) (os : List (Operand α)) :
    Option (Element α) :=
  (op.number? os).bind (Element.ofInt? result)

/-! ### Valuations -/

/-- The elements of nodes, by their identities. -/
abbrev Valuation (α : Type) := Int → Option (Element α)

namespace Valuation

/-- The element of a node. The truth values need no entry. -/
def «at» (ν : Valuation α) (n : Node) : Option (Element α) :=
  if n.isTrue then some (.bool true) else if n.isFalse then some (.bool false) else ν n.id

/-- A node as an operand. -/
def operand? (ν : Valuation α) (n : Node) : Option (Operand α) := (ν.at n).map (Operand.mk n.kind)

/-- The element that an operation has at a kind. -/
def result? (ν : Valuation α) (kind : Kind) (operation : Operation) : Option (Element α) :=
  (operation.operands.mapM ν.operand?).bind (operation.operator.value? kind)

/-- The valuation in which a node has the element that it is defined by. -/
def assign (ν : Valuation α) (a : Assignment) : Valuation α :=
  Function.update ν a.node.id (ν.result? a.node.kind a.operation)

/-- The valuation after some assignments, from left to right. -/
def evaluate (ν : Valuation α) (assignments : List Assignment) : Valuation α :=
  assignments.foldl assign ν

/-- The valuation in which constants have their elements. -/
def withConstants (ν : Valuation α) (constants : Constants) : Valuation α :=
  constants.foldl (fun ν c => Function.update ν c.node.id c.value.element?) ν

/-- Whether a node is true, or false if it is negated. -/
def Holds (ν : Valuation α) (negated : Bool) (n : Node) : Prop := ν.at n = some (.bool !negated)

end Valuation

namespace Problem

/-- The elements of the nodes of a problem, from those of its inputs. -/
def valuation (p : Problem) (inputs : Valuation α) : Valuation α :=
  (inputs.withConstants p.constants).evaluate p.assignments

/-- The hard constraints hold, or fail if they are negated, and the goal holds if it is to be
satisfied and fails if it is to be refuted. -/
def HoldsAt (p : Problem) (ν : Valuation α) : Prop :=
  (∀ c ∈ p.constraints, c.soft = false → ν.Holds c.negated c.literal) ∧
    ν.Holds (!p.satisfiability) p.goal

end Problem

end SolverScript
