import SolverScript.Kind.Order
import SolverScript.Problem.Basic
import SolverScript.Solver.Config

/-!
# Scopes

What the symbols around an operation stand for. An existential node that depends on universal ones
is written as an application to them, a table may take the universal nodes as further arguments, and
the function that reverses a kind has a name chosen by the script.

## Main definitions

* `SkolemMap`, `TableMap`, `ReversalMap` - the three sorts of names
* `SkolemMap.nodeTerm` - the term of a node
* `Scope` - the names together with the configuration
-/

namespace SolverScript

/-- The value of the last entry whose key passes the test. -/
def latest? {κ α : Type} (isKey : κ → Bool) : List (κ × α) → Option α
  | [] => none
  | (k, a) :: rest =>
    match latest? isKey rest with
    | some later => some later
    | none => if isKey k then some a else none

/-- Nodes that depend on others, with what they depend on. A later entry replaces an earlier one. -/
abbrev SkolemMap := List (Node × List Node)

namespace SkolemMap

/-- What a node depends on, if it is a function of other nodes. -/
def dependencies? (skolems : SkolemMap) (n : Node) : Option (List Node) :=
  latest? n.same skolems

/-- The term of a node: its symbol, applied to what it depends on. -/
def nodeTerm (skolems : SkolemMap) (n : Node) : Term :=
  match skolems.dependencies? n with
  | some dependencies => .app n.term (dependencies.map Node.term)
  | none => n.term

end SkolemMap

/-- How a table is written: its symbol and the nodes that it takes before the index. -/
structure TableHead where
  symbol : String
  leading : List Node := []
  deriving Repr

/-- The heads of tables by their numbers. A later entry replaces an earlier one. -/
abbrev TableMap := List (Int × TableHead)

/-- The head of a table; one that has no entry is a function of the index only. -/
def TableMap.head (tables : TableMap) (id : Int) : TableHead :=
  (latest? (· == id) tables).getD ⟨tableName id, []⟩

/-- A table applied to an index. -/
def TableHead.at (head : TableHead) (index : Term) : Term :=
  .app (.symbol head.symbol) (head.leading.map Node.term ++ [index])

/-- The names of reversal functions by kind. A later entry replaces an earlier one. -/
abbrev ReversalMap := List (Kind × String)

/-- The function that reverses a kind. -/
def ReversalMap.name? (reversals : ReversalMap) (kind : Kind) : Option String :=
  latest? (kind == ·) reversals

/-- The names in force, and the configuration. -/
structure Scope where
  config : Config := {}
  skolems : SkolemMap := []
  tables : TableMap := []
  reversals : ReversalMap := []
  deriving Repr

namespace Scope

/-- The term of a node. -/
def nodeTerm (scope : Scope) (n : Node) : Term := scope.skolems.nodeTerm n

/-- The terms of several nodes. -/
def nodeTerms (scope : Scope) (ns : List Node) : List Term := ns.map scope.nodeTerm

/-- The literal of an integer at a numeric kind. -/
def constantTerm (scope : Scope) (kind : Kind) (n : Int) : Except Failure Term := do
  (← Value.constant kind n).term scope.config.roundingMode

end Scope

end SolverScript
