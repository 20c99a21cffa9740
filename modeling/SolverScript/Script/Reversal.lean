import SolverScript.Graph.Operator
import SolverScript.Script.FunctionDefinition

/-!
# Reversal functions

Sequences have no reversal of their own in the target language, so a script defines one by recursion
for every kind that it reverses: the reversal of the rest, followed by the first element.
-/

namespace SolverScript.Reversible

/-- The part of a sequence behind its first element. -/
def restOf (extract length parameter : String) : Term :=
  .app (.symbol extract)
    [.symbol parameter, .numeral 1,
      .app (.symbol "-") [.app (.symbol length) [.symbol parameter], .numeral 1]]

/-- The result for the empty sequence, and the result for the others. -/
def byEmptiness (parameter : String) (empty : Term) (otherwise : Layout) : Layout :=
  .stacked "ite" 0
    [.flat (.app (.symbol "=") [.symbol parameter, empty]), .flat empty, otherwise]

/-- The reversal of strings. -/
def stringBody (name : String) : Layout :=
  byEmptiness "str" (.quoted [])
    (.stacked "str.++" 0
      [.flat (.app (.symbol name) [restOf "str.substr" "str.len" "str"]),
        .flat (.app (.symbol "str.substr") [.symbol "str", .numeral 0, .numeral 1])])

/-- The reversal of lists. -/
def listBody (name : String) (sort : SortExpr) : Layout :=
  byEmptiness "lst" (.ascribed "seq.empty" sort)
    (.flat (.app (.symbol "seq.++")
      [.app (.symbol name) [restOf "seq.extract" "seq.len" "lst"],
        .app (.symbol "seq.unit") [.app (.symbol "seq.nth") [.symbol "lst", .numeral 0]]]))

/-- The definition of the reversal under a given name. -/
def definition (name : String) (what : Reversible) : FunctionDefinition :=
  let sort := what.kind.sort
  match what with
  | string => ⟨name, [("str", sort)], sort, stringBody name⟩
  | list _ => ⟨name, [("lst", sort)], sort, listBody name sort⟩

end SolverScript.Reversible
