import SolverScript.Problem.Basic
import SolverScript.Script.Datatype
import SolverScript.Script.Reversal

/-!
# Commands

A script is a list of commands. Each command knows what it declares, defines or asserts as data; the
lines are made last. The whole quantified part of a script is a single command, because its binder,
its local definitions and its final formula close together.

## Main definitions

* `Command` - the commands, with `Command.lines`
* `QuantifiedBlock` - the assertion under universal quantifiers
* `Nesting` - what the final formula of such an assertion stands in
* `Script.lines` - the lines of a list of commands
-/

namespace SolverScript

/-- A local definition under quantifiers: a node, its term, and a remark if it was labelled. -/
structure LocalDefinition where
  node : Node
  value : Term
  remark : Option String := none
  deriving Repr

/-- The assertion under universal quantifiers. Equations that hold for the universal values are
conjoined with the formula. -/
structure QuantifiedBlock where
  universals : List Node
  definitions : List LocalDefinition
  equations : List Term
  formula : Term
  deriving Repr

/-- A command of a script. -/
inductive Command where
  /-- A line that solvers ignore. -/
  | note (text : String)
  /-- A setting, as it stands. -/
  | setting (line : String)
  | setLogic (name remark : String)
  | declareSort (name : String)
  | declareEnumeration (name : String) (constructors : List String)
  | defineConstructorIndex (name : String) (constructors : List String)
  | declareTuple (arity : Nat)
  | declareSum
  | declareOptional
  | declareRationals
  | declareFun (name : String) (domain : List SortExpr) (range : SortExpr) (remark : String)
  | defineFun (name : String) (sort : SortExpr) (value : Term) (remark : String)
  | defineReversal (what : Reversible) (name : String)
  | assert (formula : Term)
  | assertSoft (formula : Term)
  /-- The conjunction of several formulas, one on each line. -/
  | assertAll (formulas : List Term)
  /-- Formulas about the result of a function, for all its arguments. -/
  | assertResults (name : String) (arguments : List SortExpr) (formulas : List Term)
  | postulate (postulate : Postulate)
  | assertForAll (block : QuantifiedBlock)

/-- A remark behind a command; an empty one is left out. -/
def remarkText (remark : String) : String := if remark.isEmpty then "" else " ; " ++ remark

/-- The name of the argument with a given index, counted from zero. -/
def argumentName (i : Nat) : String := "a" ++ Nat.repr (i + 1)

/-- The name of a function's result in the formulas about it. -/
def resultName : String := "result"

namespace LocalDefinition

/-- The opening of a local definition; its scope is closed at the end of the block. A labelled one
ends with its remark, even an empty one. -/
def line (d : LocalDefinition) : String :=
  "(let ((" ++ d.node.name ++ " " ++ d.value.render ++ "))" ++
    (match d.remark with
      | some remark => " ; " ++ remark
      | none => "")

end LocalDefinition

/-- What the final formula of a quantified part stands in: local definitions, whose number is a
32-bit word, and the conjunction with equations if there are any. -/
structure Nesting where
  definitions : UInt32
  hasEquations : Bool
  deriving Repr

namespace Nesting

/-- How many parentheses close the quantified part: one for each local definition, two for the
quantifier and its assertion, and one for the conjunction with equations. The number is a 32-bit
word as well, so it wraps around. -/
def closingParens (n : Nesting) : UInt32 := n.definitions + 2 + if n.hasEquations then 1 else 0

/-- The last line of the quantified part, with the parentheses that close it. -/
def closingLine (n : Nesting) (formula : Term) : String :=
  (if n.hasEquations then blanks 5 else "") ++ blanks 12 ++ formula.render ++
    String.ofList (List.replicate n.closingParens.toNat ')')

end Nesting

namespace QuantifiedBlock

/-- The line that opens the quantifier; it has a line break after each universal but the last. -/
def opening (universals : List Node) : String :=
  "(assert (forall (" ++
    joined ("\n" ++ blanks 17) (universals.map fun n => Term.renderBinder (n.name, n.kind.sort)) ++
    ")"

/-- The equations, the first of which opens the conjunction. -/
def equationLines : List Term → List String
  | [] => []
  | e :: es =>
    (blanks 12 ++ "(and " ++ e.render) :: es.map fun e => blanks 12 ++ blanks 5 ++ e.render

/-- What the final formula of the block stands in. -/
def nesting (b : QuantifiedBlock) : Nesting :=
  ⟨UInt32.ofNat b.definitions.length, !b.equations.isEmpty⟩

/-- The lines of the block, with the headings of its parts. -/
def lines (b : QuantifiedBlock) : List String :=
  [opening b.universals, "; --- postQuantifier assignments ---"] ++
    b.definitions.map (fun d => blanks 12 ++ d.line) ++
    ["; --- delayedEqualities ---"] ++ equationLines b.equations ++
    ["; -- finalAssert ---", b.nesting.closingLine b.formula]

end QuantifiedBlock

namespace Command

/-- The formulas after the first, aligned with it. -/
def conjunctionLines (indent : String) (first : String) : List Term → List String
  | [] => []
  | f :: fs => (first ++ "(and " ++ f.render) :: fs.map fun f => indent ++ f.render

/-- The formulas about a result. -/
def resultLines : List Term → List String
  | [] => [blanks 21 ++ "true"]
  | [f] => [blanks 21 ++ f.render]
  | fs => conjunctionLines (blanks 26) (blanks 21) fs ++ [blanks 21 ++ ")"]

/-- The lines of a command. -/
def lines : Command → List String
  | note text => ["; " ++ text]
  | setting line => [line]
  | setLogic name remark => ["(set-logic " ++ name ++ ")" ++ remarkText remark]
  | declareSort name => ["(declare-sort " ++ name ++ " 0)  ; N.B. Uninterpreted sort."]
  | declareEnumeration name constructors => [Datatype.enumeration name constructors]
  | defineConstructorIndex name constructors =>
    (Datatype.constructorIndex name constructors).lines
  | declareTuple arity => Datatype.tuple arity
  | declareSum => Datatype.sum
  | declareOptional => Datatype.optional
  | declareRationals => Datatype.rationals
  | declareFun name domain range remark =>
    ["(declare-fun " ++ name ++ " (" ++ joined " " (domain.map SortExpr.render) ++ ") " ++
      range.render ++ ")" ++ remarkText remark]
  | defineFun name sort value remark =>
    ["(define-fun " ++ name ++ " () " ++ sort.render ++ " " ++ value.render ++ ")" ++
      remarkText remark]
  | defineReversal what name => (what.definition name).recursiveLines
  | assert formula => ["(assert " ++ formula.render ++ ")"]
  | assertSoft formula => ["(assert-soft " ++ formula.render ++ ")"]
  | assertAll formulas => conjunctionLines (blanks 13) "(assert " formulas ++ ["        ))"]
  | assertResults name arguments formulas =>
    let names := (List.range arguments.length).map argumentName
    let call := Term.app (.symbol name) (names.map .symbol)
    ["(assert (forall (" ++ joined " " ((names.zip arguments).map Term.renderBinder) ++ ")",
      blanks 16 ++ "(let ((" ++ resultName ++ " " ++ call.render ++ "))"] ++
      resultLines formulas ++ [blanks 16 ++ ")))"]
  | postulate p =>
    (";; -- user given " ++ (if p.isDefinition then "definition" else "axiom") ++ ": " ++
      p.name) :: p.lines
  | assertForAll block => block.lines

end Command

/-- The lines of a script. -/
def Script.lines (commands : List Command) : List String := commands.flatMap Command.lines

end SolverScript
