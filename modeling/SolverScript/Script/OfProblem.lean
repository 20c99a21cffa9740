import SolverScript.Problem.References
import SolverScript.Script.Assertion
import SolverScript.Script.Entity
import SolverScript.Script.LogicChoice
import SolverScript.Trace.Entry
import SolverScript.Encoding.Operation

/-!
# The script of a problem

A problem becomes a script in two steps. A plan settles everything that can be settled without
encoding operations: features and logic, which tables and arrays have to wait, which assignments
come before the first universal node, and the final assertions. The plan is then written out section
by section. Both steps can fail; a script is only there if neither does.

## Main definitions

* `Plan` - what is settled first, with `Problem.plan`
* `Plan.commands` - the commands of the script
* `CompiledScript` - the commands together with what the trace tells about them
* `Problem.compile` - the script of a problem
-/

namespace SolverScript

/-- Commands with what the trace tells about how they came about. -/
structure CompiledScript where
  commands : List Command
  trace : List TraceEntry

/-- The lines of a compiled script. -/
def CompiledScript.lines (s : CompiledScript) : List String := Script.lines s.commands

/-- What is settled before operations are encoded. -/
structure Plan where
  problem : Problem
  config : Config
  features : Features
  logic : LogicChoice
  skolems : SkolemMap
  tables : List TableSetup
  arrays : List ArraySetup
  /-- The assignments that precede the first universal node. -/
  early : List Assignment
  /-- The assignments from the first universal node on. -/
  late : List Assignment
  conclusion : Conclusion

namespace Problem

/-- The existential inputs that depend on others. -/
def skolems (p : Problem) : SkolemMap :=
  p.existentials.filter fun (_, dependencies) => !dependencies.isEmpty

/-- The smallest identity of a universal node. -/
def firstUniversal? (p : Problem) : Option Int := (p.universals.map Node.id).min?

/-- Whether an assignment precedes every universal node. -/
def isEarly (p : Problem) (a : Assignment) : Bool :=
  match p.firstUniversal? with
  | some first => decide (a.node.id < first)
  | none => true

/-- The name that the user knows an input by. -/
def userName? (p : Problem) (n : Node) : Option String :=
  latest? n.same (p.inputs.map fun input => (input.node, input.userName))

/-- The assertions that conclude the script. -/
def conclude (p : Problem) : Except Failure Conclusion :=
  Conclusion.ofFormulas p.skolems p.universals
    (FinalFormula.ofProblem p.constraints p.goal p.satisfiability)

/-- The plan of a problem. -/
def plan (config : Config) (p : Problem) : Except Failure Plan := do
  p.checkReferences
  let features := Features.detect (KindSet.closure p.kinds) p.assignments p.arrays
  let logic ← (p.logicQuery features).choose config
  let tables ← p.tables.mapM (TableSetup.ofTable config p.skolems p.universals p.constants)
  let arrays ←
    p.arrays.mapM (ArraySetup.ofArray config (!p.universals.isEmpty) p.constants p.skolems)
  let conclusion ← p.conclude
  return {
    problem := p
    config := config
    features := features
    logic := logic
    skolems := p.skolems
    tables := tables
    arrays := arrays
    early := p.assignments.takeWhile p.isEarly
    late := p.assignments.dropWhile p.isEarly
    conclusion := conclusion }

end Problem

/-- The commands that declare the sorts and data types of some features. -/
def Features.sortCommands (f : Features) : List Command :=
  f.userSorts.flatMap Declaration.userSort

/-- The commands that declare the tuples of some features. -/
def Features.tupleCommands (f : Features) : Except Failure (List Command) :=
  f.tupleArities.mapM Declaration.tuple

/-- The commands that declare the sums, optionals and rationals of some features. -/
def Features.datatypeCommands (f : Features) : List Command :=
  (if f.sums then [.declareSum] else []) ++ (if f.optionals then [.declareOptional] else []) ++
    (if f.rationals then [.declareRationals] else [])

/-- The settings that make models of composite values easier to read, where there are such values.
-/
def Features.flattenCommands (f : Features) (c : Capabilities) : List Command :=
  if f.flattening then c.flattenedModelSettings.map .setting else []

/-- The commands that define a node outside of quantifiers. -/
def Scope.definitionCommands (scope : Scope) (a : Assignment) : Except Failure (List Command) := do
  let (value, label?) ← scope.definition a.operation
  return Declaration.defined scope.config.capabilities a.node value (label?.getD "")

/-- The definition of a node under quantifiers. -/
def Scope.localDefinition (scope : Scope) (a : Assignment) : Except Failure LocalDefinition := do
  let (value, label?) ← scope.definition a.operation
  return ⟨a.node, value, label?⟩

/-- The commands of several parts, one after the other. -/
def commandsOf {α : Type} (f : α → Except Failure (List Command)) (parts : List α) :
    Except Failure (List Command) := do
  return (← parts.mapM f).flatten

namespace Plan

/-- The tables about constants only. -/
def constantTables (plan : Plan) : List TableSetup := plan.tables.filter fun t => t.isConstant

/-- The tables that wait for other nodes. -/
def deferredTables (plan : Plan) : List TableSetup := plan.tables.filter fun t => !t.isConstant

/-- The equations that hold for the universal values. -/
def equations (plan : Plan) : List Term := plan.deferredTables.flatMap fun t => t.equations

/-- The functions that reverse, named in the order of first use. -/
def reversals (plan : Plan) : List (Reversible × String) :=
  plan.features.reversals.zipIdx.map fun (what, i) => (what, "sbv.reverse_" ++ Nat.repr i)

/-- The names in force in the script. A table that waits takes the universal nodes as arguments. -/
def scope (plan : Plan) : Scope where
  config := plan.config
  skolems := plan.skolems
  tables :=
    plan.constantTables.map (fun t => (t.table.id, ⟨tableName t.table.id, []⟩)) ++
      plan.deferredTables.map fun t =>
        (t.table.id, ⟨tableName t.table.id, plan.problem.universals⟩)
  reversals := plan.reversals.map fun (what, name) => (what.kind, name)

/-- Places a function into a list in the order of kinds. -/
def placeReversal (r : Reversible × String) :
    List (Reversible × String) → List (Reversible × String)
  | [] => [r]
  | s :: ss =>
    if r.1.kind.cmp s.1.kind == .lt then r :: s :: ss else s :: placeReversal r ss

/-- The definitions of the functions that reverse, in the order of kinds. -/
def reversalCommands (plan : Plan) : List Command :=
  let sorted := plan.reversals.foldr placeReversal []
  (if sorted.isEmpty then [] else [.note "--- SBV Function definitions"]) ++
    sorted.map fun (what, name) => .defineReversal what name

/-- The remark on an input that the user knows by another name. -/
def inputRemark (plan : Plan) (n : Node) : String :=
  match plan.problem.userName? n with
  | some name => if name == n.name then "" else "tracks user variable \"" ++ name ++ "\""
  | none => ""

/-- The declaration of an existential input: a constant, or a function of what it depends on. -/
def existentialCommands (plan : Plan) (input : Node × List Node) :
    Except Failure (List Command) :=
  let (n, dependencies) := input
  Declaration.symbol n.name (dependencies.map Node.kind ++ [n.kind]) (plan.inputRemark n)

/-- The declarations of the nodes that track objectives. -/
def trackerCommands (plan : Plan) : Except Failure (List Command) := do
  let declarations ← commandsOf
    (fun t => Declaration.symbol t.node.name [t.node.kind] ("tracks " ++ t.userName))
    plan.problem.trackers
  return (if plan.problem.trackers.isEmpty then []
    else [.note "--- optimization tracker variables ---"]) ++ declarations

/-- What stands at the head of the script: comments, settings and the logic. -/
def headCommands (plan : Plan) : List Command :=
  plan.problem.comments.map .note ++
    (Config.headSettings plan.config.settings).map (fun s => .setting s.render) ++
    [.setting "(set-option :produce-models true)"] ++
    plan.features.flattenCommands plan.config.capabilities ++ [plan.logic.command]

/-- The final part of a script without universals. -/
def openCommands (plan : Plan) (commands : List Command) : List Command :=
  [.note "--- postQuantifier assignments ---", .note "--- delayedEqualities ---"] ++
    plan.equations.map .assert ++ [.note "-- finalAssert ---"] ++ commands

/-- The final part of a script. -/
def conclusionCommands (plan : Plan) : Except Failure (List Command) :=
  match plan.conclusion with
  | .separate commands => .ok (plan.openCommands commands)
  | .underUniversals formula => do
    let definitions ← plan.late.mapM plan.scope.localDefinition
    return [.assertForAll ⟨plan.problem.universals, definitions, plan.equations, formula⟩]

/-- The commands of the script, section by section. -/
def commands (plan : Plan) : Except Failure (List Command) := do
  let p := plan.problem
  let tuples ← plan.features.tupleCommands
  let constants ← commandsOf (Declaration.constant plan.config) p.constants
  let existentials ← commandsOf plan.existentialCommands p.existentials
  let trackers ← plan.trackerCommands
  let freeSymbols ← commandsOf (fun s => Declaration.symbol s.name s.signature "") p.freeSymbols
  let definitions ← commandsOf plan.scope.definitionCommands plan.early
  let conclusion ← plan.conclusionCommands
  return plan.headCommands ++
    .note "--- uninterpreted sorts ---" :: plan.features.sortCommands ++
    .note "--- tuples ---" :: tuples ++
    .note "--- sums ---" :: plan.features.datatypeCommands ++
    .note "--- literal constants ---" :: constants ++
    .note "--- skolem constants ---" :: existentials ++ trackers ++
    .note "--- constant tables ---" ::
      plan.constantTables.flatMap TableSetup.constantCommands ++
    .note "--- skolemized tables ---" ::
      plan.deferredTables.map (fun t => TableSetup.deferredDeclaration p.universals t.table) ++
    .note "--- arrays ---" :: plan.arrays.flatMap ArraySetup.declarations ++
    .note "--- uninterpreted constants ---" :: freeSymbols ++ plan.reversalCommands ++
    .note "--- user given axioms ---" :: p.postulates.map .postulate ++
    .note "--- preQuantifier assignments ---" :: definitions ++
    .note "--- arrayDelayeds ---" :: plan.arrays.flatMap ArraySetup.deferred ++
    .note "--- arraySetups ---" :: plan.arrays.flatMap ArraySetup.setup ++
    .note "--- formula ---" :: conclusion

end Plan

/-- How the trace calls a table or an array whose set-up waits or does not wait. -/
def partitionName (isConstant : Bool) : String := if isConstant then "constant" else "deferred"

/-- The trace of a table's classification. -/
def TableSetup.traceEntry (t : TableSetup) : TraceEntry :=
  .ofLines .partition
    [tableName t.table.id ++ " with " ++ Nat.repr t.table.elements.length ++ " elements is " ++
      partitionName t.isConstant]

/-- The trace of an array's classification. -/
def ArraySetup.traceEntry (a : ArraySetup) : TraceEntry :=
  .ofLines .partition
    [arrayName a.array.id ++ " (" ++ a.array.name ++ ") is " ++ partitionName a.isConstant]

/-- The trace of features. -/
def Features.traceEntry (f : Features) : TraceEntry := .ofLines .features [f.describe true]

/-- The trace of the choice of a logic. -/
def LogicChoice.traceEntry (c : LogicChoice) : TraceEntry :=
  .ofLines .logic ["Chosen: " ++ joined "\n" c.command.lines, "Reason: " ++ c.reason]

/-- The trace of a whole script. -/
def Plan.scriptEntry (plan : Plan) (lines : List String) : TraceEntry :=
  .ofLines .script
    (("Script for problem with " ++ Nat.repr plan.problem.assignments.length ++
      " assignments (" ++ Nat.repr plan.early.length ++ " before the universals):") :: lines)

/-- The script of a problem. -/
def Problem.compile (config : Config) (p : Problem) : Except Failure CompiledScript := do
  let plan ← p.plan config
  let commands ← plan.commands
  return {
    commands := commands
    trace :=
      [plan.features.traceEntry, plan.logic.traceEntry] ++
        plan.tables.map TableSetup.traceEntry ++ plan.arrays.map ArraySetup.traceEntry ++
        [plan.scriptEntry (Script.lines commands)] }

end SolverScript
