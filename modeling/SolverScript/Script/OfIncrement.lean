import SolverScript.Script.OfProblem

/-!
# The scripts of a session

A session starts with the script of a problem and goes on with increments. An increment has no
quantifiers, so that everything it adds can be asserted as it comes; it is compiled on its own,
without a record of what the session has declared.

## Main definitions

* `Increment.compile` - the script of an increment
* `SessionStep` - a problem or an increment, with `SessionStep.compile`
-/

namespace SolverScript

namespace Increment

/-- The names in force: every table is a function of its index only. -/
def scope (config : Config) (i : Increment) : Scope where
  config := config
  tables := i.tables.map fun t => (t.id, ⟨tableName t.id, []⟩)

/-- The assertion of a constraint. -/
def constraintCommand (c : Constraint) : Command :=
  let formula := if c.negated then Term.negation c.literal.term else c.literal.term
  let formula := Term.withAttributes c.attributes formula
  if c.soft then .assertSoft formula else .assert formula

/-- The trace of a whole increment. -/
def scriptEntry (i : Increment) (lines : List String) : TraceEntry :=
  .ofLines .incremental
    (("Delta with " ++ Nat.repr (KindSet.ofList i.kinds).size ++ " new kinds and " ++
      Nat.repr i.assignments.length ++ " assignments:") :: lines)

/-- The script of an increment. -/
def compile (config : Config) (i : Increment) : Except Failure CompiledScript := do
  let features := Features.detect (KindSet.closure i.kinds) i.assignments i.arrays
  let tables ← i.tables.mapM (TableSetup.ofTable config [] [] i.knownConstants)
  let arrays ← i.arrays.mapM (ArraySetup.ofArray config false i.knownConstants [])
  let tuples ← features.tupleCommands
  let constants ← commandsOf (Declaration.constant config) i.constants
  let inputs ← commandsOf
    (fun input => Declaration.symbol input.node.name [input.node.kind] "") i.inputs
  let freeSymbols ← commandsOf (fun s => Declaration.symbol s.name s.signature "") i.freeSymbols
  let definitions ← commandsOf (i.scope config).definitionCommands i.assignments
  let commands :=
    features.flattenCommands config.capabilities ++ features.sortCommands ++ tuples ++
      features.datatypeCommands ++ constants ++ inputs ++
      arrays.flatMap ArraySetup.declarations ++ freeSymbols ++
      tables.map (fun t => TableSetup.declaration t.table) ++ definitions ++
      arrays.flatMap ArraySetup.deferred ++ tables.flatMap TableSetup.initializers ++
      arrays.flatMap ArraySetup.setup ++ i.constraints.map constraintCommand
  return {
    commands := commands
    trace :=
      [features.traceEntry] ++ tables.map TableSetup.traceEntry ++
        arrays.map ArraySetup.traceEntry ++ [i.scriptEntry (Script.lines commands)] }

end Increment

/-- A step of a session. -/
inductive SessionStep where
  | problem (problem : Problem)
  | increment (increment : Increment)

/-- The script of a step. Steps do not depend on each other. -/
def SessionStep.compile (config : Config) : SessionStep → Except Failure CompiledScript
  | problem p => p.compile config
  | increment i => i.compile config

end SolverScript
