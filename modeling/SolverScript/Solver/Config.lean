import SolverScript.Solver.Capabilities
import SolverScript.Solver.Setting
import SolverScript.Value.RoundingMode

/-!
# Configurations

What a script depends on besides the problem: the rounding mode of float arithmetic, the settings
that the user asks for, and the capabilities of the solver.
-/

namespace SolverScript

/-- A configuration. -/
structure Config where
  roundingMode : RoundingMode := .nearestTiesToEven
  settings : List Setting := []
  capabilities : Capabilities := .z3
  deriving Repr

namespace Config

/-- The logics that the user asks for. -/
def requestedLogics (c : Config) : List Logic := c.settings.filterMap Setting.logic?

/-- The settings that are written at the head of a script. Logics have their own place, and of
several channels for diagnostics the last one is kept. -/
def headSettings : List Setting → List Setting
  | [] => []
  | s :: later =>
    if s.logic?.isSome || (s.isDiagnosticOutput && later.any Setting.isDiagnosticOutput) then
      headSettings later
    else s :: headSettings later

end Config

end SolverScript
