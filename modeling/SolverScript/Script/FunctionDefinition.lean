import SolverScript.Script.Layout

/-!
# Function definitions

The functions that a script defines for its own use, as data: parameters, the sort of the result,
and a body with its layout. Functions that call themselves are laid out differently from the others.

## Main definitions

* `FunctionDefinition` - the definition of a function
* `FunctionDefinition.lines`, `FunctionDefinition.recursiveLines` - the lines of a definition
-/

namespace SolverScript

/-- The definition of a function. -/
structure FunctionDefinition where
  name : String
  parameters : List (String × SortExpr)
  result : SortExpr
  body : Layout
  deriving Repr

namespace FunctionDefinition

/-- The definition up to the body. -/
def opening (keyword : String) (f : FunctionDefinition) : String :=
  "(" ++ keyword ++ " " ++ f.name ++ " (" ++ joined " " (f.parameters.map Term.renderBinder) ++
    ") " ++ f.result.render

/-- The lines of a definition, the last of which closes it. -/
def lines (f : FunctionDefinition) : List String :=
  f.opening "define-fun" :: f.body.lines.map (blanks 3 ++ ·) ++ [")"]

/-- The lines of a definition that refers to itself. -/
def recursiveLines (f : FunctionDefinition) : List String :=
  f.opening "define-fun-rec" :: Layout.closed ")" (f.body.lines.map (blanks 16 ++ ·))

end FunctionDefinition

end SolverScript
