import SolverScript.Trace.Option

/-!
# Trace registry

Which options are enabled. One option silences the trace altogether, which is remembered until
another one is enabled.

## Main definitions

* `Registry` - the enabled options
* `Registry.enable`, `Registry.disable`, `Registry.enableAll` - the changes
* `Registry.shows`, `Registry.showsMinimal` - what reaches the trace
-/

namespace SolverScript

/-- The state of the trace. -/
structure Registry where
  enabled : TraceOption → Bool
  silenced : Bool

namespace Registry

/-- Nothing is enabled, and nothing silenced. -/
def empty : Registry := ⟨fun _ => false, false⟩

/-- The names of the enabled options, in order. -/
def enabledNames (r : Registry) : List String :=
  (TraceOption.every.filter r.enabled).map TraceOption.name

/-- The state after enabling some options. The option for nothing silences the trace, the one for
everything enables all others, and every option but the first ends the silence. -/
def turnOn (r : Registry) : List TraceOption → Registry
  | [.none] => ⟨fun _ => false, true⟩
  | [.all] => ⟨fun o => o != .none || r.enabled o, false⟩
  | options => ⟨fun o => options.contains o || r.enabled o, false⟩

/-- Enables the options that a name stands for. -/
def enable (r : Registry) (name : String) : Except Failure Registry := do
  return r.turnOn (← TraceOption.resolve name)

/-- Enables options in order, up to the first unknown name. The state reached is returned together
with the failure, if there is one. -/
def enableAll (r : Registry) : List String → Registry × Option Failure
  | [] => (r, none)
  | name :: names =>
    match r.enable name with
    | .ok r' => enableAll r' names
    | .error failure => (r, some failure)

/-- Disables the options that a name stands for. -/
def disable (r : Registry) (name : String) : Except Failure Registry := do
  let options ← TraceOption.resolve name
  return { r with enabled := fun o => r.enabled o && !options.contains o }

/-- Whether entries under a name reach the trace. -/
def shows (r : Registry) (name : String) : Bool :=
  !r.silenced &&
    match TraceOption.ofName? name with
    | some o => r.enabled o
    | none => false

/-- Whether signs of progress reach the trace. -/
def showsMinimal (r : Registry) : Bool := !r.silenced

end Registry

end SolverScript
