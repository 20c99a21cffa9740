import SolverScript.Failure

/-!
# Kinds from unchecked numbers

Widths and formats that come from outside are checked once, here; everywhere else the bounds are
part of the types.
-/

namespace SolverScript

/-- A width, which must not be zero. -/
def Width.check (bits : Nat) : Except Failure Width :=
  if pos : 0 < bits then .ok ⟨bits, pos⟩ else .error .zeroWidth

/-- A float format, both parts of which need at least two bits. -/
def FloatFormat.check (exponent significand : Nat) : Except Failure FloatFormat :=
  if he : 2 ≤ exponent then
    if hs : 2 ≤ significand then .ok ⟨exponent, significand, he, hs⟩
    else .error (.narrowFloat exponent significand)
  else .error (.narrowFloat exponent significand)

end SolverScript
