import SolverScript.Kind.Describe
import SolverScript.Script.Term

/-!
# Nodes

A symbolic program is a graph of nodes. A node is known by its identity; the kind is carried along
but does not take part in comparisons. Two identities are reserved for the truth values, which need
no definition in a script.
-/

namespace SolverScript

/-- A node of the graph. -/
structure Node where
  id : Int
  kind : Kind
  deriving Repr, Inhabited

namespace Node

/-- The node of a truth value. -/
def ofBool : Bool → Node
  | true => ⟨-1, .bool⟩
  | false => ⟨-2, .bool⟩

/-- Whether the node is the constant `true`. -/
def isTrue (n : Node) : Bool := n.id == -1

/-- Whether the node is the constant `false`. -/
def isFalse (n : Node) : Bool := n.id == -2

/-- Whether values of the node carry a sign. -/
def isSigned (n : Node) : Bool := n.kind.isSigned

/-- Nodes with the same identity are the same node. -/
def same (a b : Node) : Bool := a.id == b.id

/-- Nodes are ordered by creation. -/
def before (a b : Node) : Bool := a.id < b.id

/-- The symbol of the node. -/
def name (n : Node) : String := nodeName n.id

/-- The symbol of the node, with its kind if `full` is set. -/
def describe (full : Bool) (n : Node) : String :=
  if full then n.name ++ " :: " ++ n.kind.name else n.name

/-- The node as a term. -/
def term (n : Node) : Term := .node n.id

end Node

end SolverScript
