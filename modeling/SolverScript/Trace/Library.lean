import SolverScript.Trace.Registry

/-!
# Library state

The trace as a whole is set up with a set of options and torn down again. The options of the last
set-up are kept, also when one of them turned out to be unknown and after the trace was torn down.

## Main definitions

* `Library` - the registry with the options of the last set-up
* `Library.setUp`, `Library.tearDown` - set-up and tear-down
-/

namespace SolverScript

/-- The registry, and the options that it was set up with. -/
structure Library where
  options : List String
  registry : Registry

namespace Library

/-- The state before anything was set up. -/
def start : Library := ⟨[], Registry.empty⟩

/-- Places a name into an increasing list, unless it is there already. -/
def placeName (name : String) : List String → List String
  | [] => [name]
  | m :: ms =>
    if name < m then name :: m :: ms else if name = m then m :: ms else m :: placeName name ms

/-- The set of some names, in increasing order. -/
def nameSet (names : List String) : List String := names.foldr placeName []

/-- The state after a set-up with some options, which are enabled in order; the failure tells of the
first unknown one. -/
def setUp (names : List String) : Library × Option Failure :=
  let options := nameSet names
  let (registry, failure?) := Registry.empty.enableAll options
  (⟨options, registry⟩, failure?)

/-- The state after a tear-down. -/
def tearDown (l : Library) : Library := { l with registry := Registry.empty }

end Library

end SolverScript
