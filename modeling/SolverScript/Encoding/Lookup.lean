import SolverScript.Encoding.Operands

/-!
# Table look-ups

A table is a function of its index. Where the index kind has values beyond the table, the look-up
checks the index and takes the default for those; the comparisons follow the kind of the index and
its sign.
-/

namespace SolverScript.Scope

/-- The failure of a look-up whose index kind has no range check. -/
def badIndex {α : Type} (l : Lookup) (operation : Operation) : Except Failure α := do
  throw (.lookupIndex l.indexKind (← operation.describe false))

/-- The order relations by which an index is checked, strict and weak; `none` when every index is
inside the table. -/
def indexRelations (l : Lookup) (operation : Operation) :
    Except Failure (Option (String × String)) :=
  match l.indexKind with
  | .bool => if l.length < 2 then badIndex l operation else .ok none
  | .bounded _ width =>
    if fitsIn width.bits l.length then
      .ok (some (if l.index.isSigned then ("bvslt", "bvsle") else ("bvult", "bvule")))
    else .ok none
  | .unbounded => .ok (some ("<", "<="))
  | _ => badIndex l operation

/-- The condition under which an index is outside the table. Only signed indices can be too small.
-/
def outside (scope : Scope) (l : Lookup) (less lessEq : String) : Except Failure Term := do
  let index := scope.nodeTerm l.index
  let tooSmall := Term.app (.symbol less) [index, ← scope.constantTerm l.index.kind 0]
  let tooLarge := Term.app (.symbol lessEq) [← scope.constantTerm l.index.kind l.length, index]
  return if l.index.isSigned then .app (.symbol "or") [tooSmall, tooLarge] else tooLarge

/-- The term of a look-up. -/
def lookup (scope : Scope) (l : Lookup) (operation : Operation) : Except Failure Term := do
  let element := (scope.tables.head l.table).at (scope.nodeTerm l.index)
  match ← indexRelations l operation with
  | none => return element
  | some (less, lessEq) =>
    return .app (.symbol "ite")
      [← scope.outside l less lessEq, scope.nodeTerm l.default, element]

end SolverScript.Scope
