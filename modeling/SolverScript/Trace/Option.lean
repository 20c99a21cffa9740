import SolverScript.Failure

/-!
# Trace options

What can be traced. Options are named by a component and a detail; a bare component stands for all
of its options. One component has the options that speak of all others.

## Main definitions

* `TraceOption` - the options, in the order of their names
* `TraceOption.resolve` - the options that a name stands for
* `TraceOption.help` - the list of options with their descriptions
-/

namespace SolverScript

/-- An option of the trace. -/
inductive TraceOption where
  | features
  | incremental
  | logic
  | partition
  | script
  | all
  | minimal
  | none
  | commands
  deriving DecidableEq, Repr

namespace TraceOption

/-- All options, in the order of their names. -/
def every : List TraceOption :=
  [features, incremental, logic, partition, script, all, minimal, none, commands]

/-- The component that an option belongs to. -/
def component : TraceOption → String
  | features | incremental | logic | partition | script => "Compiler"
  | all | minimal | none => "SMTG"
  | commands => "Z3Session"

/-- What an option is called within its component. -/
def detail : TraceOption → String
  | features => "Features"
  | incremental => "Incremental"
  | logic => "Logic"
  | partition => "Partition"
  | script => "Script"
  | all => "All"
  | minimal => "Minimal"
  | none => "None"
  | commands => "Commands"

/-- The name of an option. -/
def name (o : TraceOption) : String := o.component ++ "." ++ o.detail

/-- What an option is good for. -/
def description : TraceOption → String
  | features =>
    "Print the feature flags detected on the kinds and operations of each problem."
  | incremental => "Print every delta generated by the incremental compiler."
  | logic => "Print the logic chosen for each problem, along with the reason."
  | partition =>
    "Print the classification of tables and arrays into ones that are resolved from constants " ++
      "and ones that are deferred."
  | script => "Print every script generated by the batch compiler."
  | all => "Turns ON ALL tracing options."
  | minimal =>
    "Bare minimal trace output from the example drivers, serving only to indicate progress. " ++
      "Disabling this will cause NOTHING to ever be printed on the trace stream by the SMTG " ++
      "libraries. This is option is always enabled, unless disabled by SMTG.None below. " ++
      "Further, this option is enabled, even if the SMTG libraries have been built without " ++
      "-DSMTG_ENABLE_TRACING_ set."
  | none => "Turns off ALL tracing options (including SMTG.Minimal)."
  | commands =>
    "Print the commands sent to the in-process Z3 session along with the responses received."

/-- The option with a given name. -/
def ofName? (name : String) : Option TraceOption := every.find? fun o => o.name == name

/-- The options of a component. The options that speak of all others do not form one. -/
def ofComponent (name : String) : List TraceOption :=
  if name == "SMTG" then [] else every.filter fun o => o.component == name

/-- The options that a name stands for: the option of that name, or those of the component. -/
def resolve (name : String) : Except Failure (List TraceOption) :=
  match ofName? name with
  | some o => .ok [o]
  | .none =>
    match ofComponent name with
    | [] => .error (.unknownTraceOption name (every.map TraceOption.name))
    | options => .ok options

/-- A text, filled up on the right with blanks. -/
def filled (width : Nat) (text : String) : String := text ++ blanks (width - text.length)

/-- The lines of the help text for some options, with a heading where the component changes. -/
def helpLines (component : String) : List TraceOption → List String
  | [] => []
  | o :: rest =>
    let heading := if o.component == component then [] else ["[" ++ o.component ++ "]"]
    heading ++ ["  " ++ filled 22 o.name ++ ": " ++ o.description] ++ helpLines o.component rest

/-- The first line of the help text. -/
def helpTitle : String :=
  "Available logging options (a component name, such as \"Compiler\", enables all of its options):"

/-- The help text. -/
def help : String := joined "" ((helpTitle :: helpLines "" every).map (· ++ "\n"))

end TraceOption

end SolverScript
