import SolverScript.Graph.Operation

/-!
# Problems

What is to be turned into a script. A problem is a whole symbolic program with a goal; an increment
is what is added to a session after its first script. Both list the parts of the program that need
declarations, and the assignments that define the other nodes in the order of their creation.

## Main definitions

* `Table`, `ArrayDatum`, `FreeSymbol`, `Postulate`, `Constraint` - the parts of a program
* `Problem`, `Increment` - what scripts are made from
* `Constants` - nodes with known values
-/

namespace SolverScript

/-- A node with a known value. -/
structure Constant where
  node : Node
  value : Value

/-- The nodes with known values. -/
abbrev Constants := List Constant

namespace Constants

/-- The value of a node; the first entry for it counts. -/
def value? (constants : Constants) (n : Node) : Option Value :=
  (constants.find? fun c => c.node.same n).map Constant.value

/-- Whether the value of a node is known. The truth values need no entry. -/
def fixes (constants : Constants) (n : Node) : Bool :=
  n.isTrue || n.isFalse || (constants.value? n).isSome

end Constants

/-- A table: its elements are the results at the indices from zero on. -/
structure Table where
  id : Int
  indexKind : Kind
  resultKind : Kind
  elements : List Node
  deriving Repr

/-- The symbol of the table with a given number. -/
def tableName (id : Int) : String := "table" ++ Numeral.decimal id

/-- Where the contents of an array come from. -/
inductive ArrayContext where
  /-- Nowhere, or from one value for all elements. -/
  | free (initializer : Option Node)
  /-- From another array with one element changed. -/
  | mutate (base : Int) (index value : Node)
  /-- From one of two arrays. -/
  | merge (condition : Node) (thenArray elseArray : Int)
  deriving Repr

/-- An array of a program. -/
structure ArrayDatum where
  id : Int
  name : String
  domain : Kind
  range : Kind
  context : ArrayContext
  deriving Repr

/-- The symbol of the array with a given number. -/
def arrayName (id : Int) : String := "array_" ++ Numeral.decimal id

/-- A symbol without interpretation; the last kind of its signature is the kind of the result. -/
structure FreeSymbol where
  name : String
  signature : List Kind
  deriving Repr

/-- Lines that the user adds to a script, as a definition or as an assumption. -/
structure Postulate where
  isDefinition : Bool
  name : String
  lines : List String
  deriving DecidableEq, Repr

/-- An input that is quantified over. Only an existential input may depend on others. -/
inductive QuantifiedInput where
  | universal (node : Node)
  | existential (node : Node) (dependencies : List Node)
  deriving Repr

namespace QuantifiedInput

/-- The input that stands for a node, if the quantifier admits the dependencies. -/
def ofNode (isUniversal : Bool) (n : Node) (dependencies : List Node) :
    Except Failure QuantifiedInput :=
  if !isUniversal then .ok (.existential n dependencies)
  else if dependencies.isEmpty then .ok (.universal n)
  else .error (.dependentUniversal n)

/-- The node that the input stands for. -/
def node : QuantifiedInput → Node
  | universal n => n
  | existential n _ => n

/-- The node of a universal input. -/
def universal? : QuantifiedInput → Option Node
  | universal n => some n
  | existential .. => none

/-- The node of an existential input, and the nodes it depends on. -/
def existential? : QuantifiedInput → Option (Node × List Node)
  | universal _ => none
  | existential n dependencies => some (n, dependencies)

end QuantifiedInput

/-- A node with the name that the user knows it by. -/
structure NamedNode where
  node : Node
  userName : String
  deriving Repr

/-- A formula to be asserted. Soft ones may be violated, and attributes are passed to the solver. -/
structure Constraint where
  literal : Node
  soft : Bool := false
  attributes : List (String × String) := []
  negated : Bool := false
  deriving Repr

/-- Where a query comes from: from the program alone, or from a user's own formulas. -/
inductive QueryContext where
  | internal
  | external
  deriving DecidableEq, Repr

/-- A symbolic program with a goal, which is to be satisfied or shown valid. -/
structure Problem where
  context : QueryContext := .internal
  satisfiability : Bool := true
  comments : List String := []
  kinds : List Kind := []
  inputs : List NamedNode := []
  trackers : List NamedNode := []
  quantified : List QuantifiedInput := []
  constants : Constants := []
  tables : List Table := []
  arrays : List ArrayDatum := []
  freeSymbols : List FreeSymbol := []
  postulates : List Postulate := []
  assignments : List Assignment := []
  constraints : List Constraint := []
  goal : Node := Node.ofBool true

/-- What a session adds to its script. -/
structure Increment where
  inputs : List NamedNode := []
  kinds : List Kind := []
  /-- All constants of the session so far. -/
  knownConstants : Constants := []
  /-- The constants that are new. -/
  constants : Constants := []
  arrays : List ArrayDatum := []
  tables : List Table := []
  freeSymbols : List FreeSymbol := []
  assignments : List Assignment := []
  constraints : List Constraint := []

namespace Problem

/-- The universally quantified inputs. -/
def universals (p : Problem) : List Node := p.quantified.filterMap QuantifiedInput.universal?

/-- The existentially quantified inputs, each with the nodes it depends on. -/
def existentials (p : Problem) : List (Node × List Node) :=
  p.quantified.filterMap QuantifiedInput.existential?

end Problem

end SolverScript
