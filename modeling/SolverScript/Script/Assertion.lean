import SolverScript.Script.Command
import SolverScript.Encoding.Scope

/-!
# Final assertions

The constraints of a problem and its goal become the final assertions of its script. Constraints
that are trivially true are dropped. Without universals each of them is an assertion of its own,
first the hard ones and then the soft ones. Under universals there can be one assertion only, so
they are combined into a conjunction without repetitions; soft constraints and attributes have no
place there.

## Main definitions

* `Literal` - a node or its negation
* `FinalFormula` - a literal with what the solver has to know about it
* `FinalFormula.ofProblem` - the constraints and the goal
* `FinalFormula.commands` - the assertions without universals
* `FinalFormula.conjoined` - the formula under universals
* `Conclusion` - the final assertions of a script, in either form
-/

namespace SolverScript

/-- A node or its negation. -/
structure Literal where
  negated : Bool
  node : Node
  deriving Repr

namespace Literal

/-- The literal that holds when a node does; `none` if that is always the case. -/
def positive? (n : Node) : Option Literal :=
  if n.isTrue then none else some ⟨false, if n.isFalse then Node.ofBool false else n⟩

/-- The literal that holds when a node does not; `none` if that is always the case. -/
def negative? (n : Node) : Option Literal :=
  if n.isFalse then none
  else if n.isTrue then some ⟨false, Node.ofBool false⟩
  else some ⟨true, n⟩

/-- The literal of a node, which may be negated. -/
def ofNode? (negated : Bool) (n : Node) : Option Literal :=
  if negated then negative? n else positive? n

/-- The term of a literal. -/
def term (skolems : SkolemMap) (l : Literal) : Term :=
  if l.negated then Term.negation (skolems.nodeTerm l.node) else skolems.nodeTerm l.node

/-- Nodes come before negations, and each by identity. -/
def cmp (a b : Literal) : Ordering :=
  (compare a.negated b.negated).then (compare a.node.id b.node.id)

/-- Places a literal into an increasing list, unless it is there already. -/
def place (l : Literal) : List Literal → List Literal
  | [] => [l]
  | m :: ms =>
    match l.cmp m with
    | .lt => l :: m :: ms
    | .eq => m :: ms
    | .gt => m :: place l ms

/-- Whether the literal holds always. -/
def isTrivial (l : Literal) : Bool := if l.negated then l.node.isFalse else l.node.isTrue

/-- Whether the literal holds never. -/
def isContradiction (l : Literal) : Bool := if l.negated then l.node.isTrue else l.node.isFalse

/-- The conjunction of literals, in order and without repetitions. A contradiction beside other
literals makes all of it false. -/
def conjunction (skolems : SkolemMap) (literals : List Literal) : Term :=
  match (literals.foldr place []).filter fun l => !l.isTrivial with
  | [] => Term.ofBool true
  | [l] => l.term skolems
  | ls =>
    if ls.any isContradiction then Term.ofBool false
    else .app (.symbol "and") (ls.map (term skolems))

end Literal

/-- A formula that a script asserts in the end. -/
structure FinalFormula where
  literal : Literal
  soft : Bool := false
  attributes : List (String × String) := []
  deriving Repr

namespace FinalFormula

/-- A constraint, unless it is trivially true. -/
def ofConstraint? (c : Constraint) : Option FinalFormula :=
  (Literal.ofNode? c.negated c.literal).map fun l => ⟨l, c.soft, c.attributes⟩

/-- The constraints that are not trivially true, and then the goal, which is asserted if the problem
is about satisfiability and refuted if it is about validity. -/
def ofProblem (constraints : List Constraint) (goal : Node) (satisfiability : Bool) :
    List FinalFormula :=
  constraints.filterMap ofConstraint? ++
    ((Literal.ofNode? (!satisfiability) goal).map fun l => FinalFormula.mk l false []).toList

/-- The term of a formula with its attributes. -/
def term (skolems : SkolemMap) (f : FinalFormula) : Term :=
  Term.withAttributes f.attributes (f.literal.term skolems)

/-- The assertions without universals. -/
def commands (skolems : SkolemMap) (formulas : List FinalFormula) : List Command :=
  (formulas.filter fun f => !f.soft).map (fun f => .assert (f.term skolems)) ++
    (formulas.filter fun f => f.soft).map (fun f => .assertSoft (f.term skolems))

/-- The name by which messages speak of a formula with attributes. -/
def displayName (f : FinalFormula) : String :=
  "\"" ++ (f.attributes.lookup ":named").getD "<anonymous>" ++ "\""

/-- The formula under universals. -/
def conjoined (skolems : SkolemMap) (universals : List Node) (formulas : List FinalFormula) :
    Except Failure Term :=
  let attributed := formulas.filter fun f => !f.attributes.isEmpty
  let soft := formulas.filter fun f => f.soft
  if !attributed.isEmpty then
    .error (.attributesUnderQuantifiers universals (attributed.map displayName))
  else if !soft.isEmpty then
    .error (.softUnderQuantifiers universals
      (soft.map fun f => (f.literal.term skolems).render))
  else .ok (Literal.conjunction skolems (formulas.map FinalFormula.literal))

end FinalFormula

/-- The final assertions of a script, with or without universals. -/
inductive Conclusion where
  | separate (commands : List Command)
  | underUniversals (formula : Term)

namespace Conclusion

/-- The assertions of some formulas under some universals. -/
def ofFormulas (skolems : SkolemMap) (universals : List Node) (formulas : List FinalFormula) :
    Except Failure Conclusion :=
  if universals.isEmpty then .ok (.separate (FinalFormula.commands skolems formulas))
  else (FinalFormula.conjoined skolems universals formulas).map .underUniversals

/-- How many parentheses the assertions close that were opened before them. -/
def closingParens (nesting : Nesting) : Conclusion → UInt32
  | separate _ => 0
  | underUniversals _ => nesting.closingParens

/-- The lines of the assertions. -/
def lines (nesting : Nesting) : Conclusion → List String
  | separate commands => Script.lines commands
  | underUniversals formula => [nesting.closingLine formula]

end Conclusion

end SolverScript
