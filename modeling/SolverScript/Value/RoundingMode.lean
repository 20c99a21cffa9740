/-!
# Rounding modes

The five rounding directions of floating point arithmetic. A mode has two names: the symbol that
terms use, and the constructor of the enumeration that a symbolic program sees, which differ in the
case of the first letter.
-/

namespace SolverScript

/-- A rounding direction. -/
inductive RoundingMode where
  | nearestTiesToEven
  | nearestTiesToAway
  | towardPositive
  | towardNegative
  | towardZero
  deriving DecidableEq, Repr

namespace RoundingMode

/-- All modes. -/
def all : List RoundingMode :=
  [nearestTiesToEven, nearestTiesToAway, towardPositive, towardNegative, towardZero]

/-- The part of the names after the word "round". -/
def direction : RoundingMode → String
  | nearestTiesToEven => "NearestTiesToEven"
  | nearestTiesToAway => "NearestTiesToAway"
  | towardPositive => "TowardPositive"
  | towardNegative => "TowardNegative"
  | towardZero => "TowardZero"

/-- The symbol of a mode in terms. -/
def symbol (m : RoundingMode) : String := "round" ++ m.direction

/-- The constructor of a mode in the enumeration of modes. -/
def constructorName (m : RoundingMode) : String := "Round" ++ m.direction

/-- The mode with a given constructor name. -/
def ofConstructorName? (name : String) : Option RoundingMode :=
  all.find? fun m => m.constructorName == name

end RoundingMode

end SolverScript
