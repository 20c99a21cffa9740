import SolverScript.Script.Term

/-!
# Terms on several lines

A long term is easier to read when the operands of an application stand below each other. A layout
is a term together with such a choice; its lines are aligned with the first operand.

## Main definitions

* `Layout` - layouts, with the term `Layout.term` that they show
* `Layout.lines` - the lines of a layout
-/

namespace SolverScript

/-- A term with a choice of line breaks. -/
inductive Layout where
  /-- A term on a line of its own. -/
  | flat (term : Term)
  /-- An application with an operand on each line, after a number of further blanks that align it
  with its neighbours. -/
  | stacked (function : String) (further : Nat) (operands : List Layout)
  deriving Repr, Inhabited

namespace Layout

mutual

/-- The term that a layout shows. -/
def term : Layout → Term
  | flat t => t
  | stacked function _ operands => .app (.symbol function) (terms operands)

/-- The terms that several layouts show. -/
def terms : List Layout → List Term
  | [] => []
  | l :: ls => term l :: terms ls

end

/-- Lines behind an opening: the first one follows it, the others are aligned with the first one. -/
def aligned (opening : String) : List String → List String
  | [] => [opening]
  | first :: rest => (opening ++ first) :: rest.map (blanks opening.length ++ ·)

/-- Lines with a closing text at the end of the last one. -/
def closed (closing : String) : List String → List String
  | [] => []
  | [last] => [last ++ closing]
  | line :: next :: rest => line :: closed closing (next :: rest)

mutual

/-- The lines of a layout. -/
def lines : Layout → List String
  | flat t => [t.render]
  | stacked function further operands =>
    closed ")" (aligned ("(" ++ function ++ " " ++ blanks further) (stackedLines operands))

/-- The lines of several layouts, one below the other. -/
def stackedLines : List Layout → List String
  | [] => []
  | l :: ls => lines l ++ stackedLines ls

end

end Layout

end SolverScript
