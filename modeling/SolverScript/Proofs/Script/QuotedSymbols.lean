import SolverScript.Proofs.Script.InvariantRelations
import SolverScript.Proofs.Script.Rendering

/-!
# Symbols between bars

A symbol may be written between bars, and has to be if it contains blanks or other separators. It is
the same symbol with and without them. What a script says about a symbol of the user is read here
with the bars removed, so that two names for one symbol are told to be the same.

## Main definitions

* `unquotedName` - a symbol without the bars around it
* `Term.unquoted` - a term with all bars removed

## Main results

* `Kind.unquoted_conjunction_invariants` - invariants of a symbol that is written between bars
-/

namespace SolverScript

/-- A symbol without the bars around it, if there are any. -/
def unquotedName (text : String) : String :=
  match text.toList with
  | '|' :: cs => if cs.getLast? = some '|' then String.ofList cs.dropLast else text
  | _ => text

/-- A name without special characters has no bars. -/
theorem unquotedName_of_isPlainText {text : String} (h : IsPlainText text) :
    unquotedName text = text := by
  unfold unquotedName
  split
  · next cs hlist =>
    have hbar := h '|' (hlist ▸ List.mem_cons_self)
    exact absurd hbar (by decide)
  · rfl

theorem unquotedName_of_isBuiltin {text : String} (h : Name.IsBuiltin (.function text)) :
    unquotedName text = text :=
  unquotedName_of_isPlainText h.isPlain

namespace Term

mutual

/-- A term with the bars around its symbols removed. -/
def unquoted : Term → Term
  | symbol text => symbol (unquotedName text)
  | indexed name indices => indexed (unquotedName name) indices
  | ascribed name sort => ascribed (unquotedName name) sort
  | tester constructor signature => tester (unquotedName constructor) signature
  | app head operands => app (unquoted head) (unquotedAll operands)
  | bind names values body => bind (names.map unquotedName) (unquotedAll values) (unquoted body)
  | forAll binders body => forAll (binders.map (Prod.map unquotedName id)) (unquoted body)
  | attributed body attributes => attributed (unquoted body) attributes
  | adjacent terms => adjacent (unquotedAll terms)
  | t => t

/-- Several terms with the bars around their symbols removed. -/
def unquotedAll : List Term → List Term
  | [] => []
  | t :: ts => unquoted t :: unquotedAll ts

end

theorem unquotedAll_eq_map (ts : List Term) : unquotedAll ts = ts.map unquoted := by
  induction ts with
  | nil => rfl
  | cons t ts ih => rw [unquotedAll, ih, List.map_cons]

/-- Built-in names have no bars. -/
theorem isCompatible_unquoted {α : Type} :
    IsCompatible fun (_ : Interpretation α) t u => t.unquoted = u where
  symbol h _ := by rw [unquoted, unquotedName_of_isBuiltin h.isBuiltin]
  numeral _ _ := rfl
  app h _ ts us hts := by
    have hmap : ts.map unquoted = us := by
      rwa [← List.forall₂_map_left_iff (R := Eq) (f := unquoted), List.forall₂_eq_eq_eq] at hts
    rw [unquoted, unquoted, unquotedName_of_isBuiltin h.isBuiltin, unquotedAll_eq_map, hmap]
  tester h _ t u ht parameters whole := by
    rw [Composite.testerWithSignature, unquoted, unquoted, unquotedName_of_isBuiltin h.isBuiltin,
      unquotedAll_eq_map, List.map_singleton, ht]
  forAll h _ t u ht s := by
    rw [unquoted, List.map_singleton, Prod.map, unquotedName_of_isBuiltin h.isBuiltin,
      ht fun _ => none]
    rfl

end Term

/-- What is said about a symbol that is written between bars is said about the symbol. -/
theorem Kind.unquoted_conjunction_invariants (k : Kind) (t : Term) :
    (conjunction (k.invariants t)).unquoted = conjunction (k.invariants t.unquoted) :=
  related_invariants (α := Unit) (J := fun _ _ => none) Term.isCompatible_unquoted fun _ _ => rfl

end SolverScript
