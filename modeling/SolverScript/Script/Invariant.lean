import SolverScript.Kind.Set
import SolverScript.Encoding.Composite

/-!
# Invariants of kinds

A character is declared as a string and a rational as a pair of integers, so their sorts have values
that the kinds do not have. The invariants of a kind are formulas about a term that exclude those:
every character has length one, and every denominator is positive. A composite kind has the
invariants of its components, under the condition that the component is there.

## Main definitions

* `Kind.leafInvariants` - the invariants of characters and rationals
* `Kind.invariants` - the invariants of any kind
-/

namespace SolverScript.Kind

/-- The invariants of a kind that is not composite. -/
def leafInvariants (k : Kind) (t : Term) : List Term :=
  match k with
  | char => [.app (.symbol "=") [.numeral 1, .app (.symbol "str.len") [t]]]
  | rational =>
    [.app (.symbol "<") [.numeral 0, .app (.symbol RationalFunction.denominator) [t]]]
  | _ => []

/-- The conjunction of some formulas. -/
def conjunction : List Term → Term
  | [] => Term.ofBool true
  | [t] => t
  | ts => .app (.symbol "and") ts

/-- An implication. -/
def implication (premise conclusion : Term) : Term := .app (.symbol "=>") [premise, conclusion]

/-- Formulas about every element of a list. -/
def elementwise (index : String) (list : Term) (formula : Term) : Term :=
  let i := Term.symbol index
  .forAll [(index, unbounded.sort)]
    (implication
      (.app (.symbol "and")
        [.app (.symbol ">=") [i, .numeral 0],
          .app (.symbol "<") [i, .app (.symbol "seq.len") [list]]])
      formula)

/-- Formulas about a component, where the value was made by a given constructor. -/
def whenMadeBy (constructor : String) (parameter whole : Kind) (t : Term) (formulas : List Term) :
    List Term :=
  formulas.map
    (implication (.app (Composite.testerWithSignature constructor [parameter] whole) [t]))

mutual

/-- The invariants of a kind for a term. `leaf` gives those of the kinds that are not composite, and
`depth` numbers the bound variables. -/
def invariantsAt (depth : Nat) (leaf : Kind → Term → List Term) (t : Term) : Kind → List Term
  | list k =>
    if k.containsCharOrRational then
      let index := "seq" ++ Nat.repr depth
      let element := Term.app (.symbol "seq.nth") [t, .symbol index]
      [elementwise index t (conjunction (invariantsAt (depth + 1) leaf element k))]
    else []
  | set k =>
    if k.containsCharOrRational then
      let member := "set" ++ Nat.repr depth
      let ofMember := fun sub part =>
        (leaf sub (.symbol member)).map
          (implication (.app (.symbol "select") [part, .symbol member]))
      [.forAll [(member, k.sort)] (conjunction (invariantsAt (depth + 1) ofMember t k))]
    else []
  | tuple ks => componentInvariants depth leaf t ks.length 1 ks
  | maybe k =>
    whenMadeBy (Composite.maybeConstructor true) k (maybe k) t
      (invariantsAt (depth + 1) leaf (.app (.symbol Composite.maybeAccessor) [t]) k)
  | either l r =>
    whenMadeBy (Composite.sideConstructor false) l (either l r) t
      (invariantsAt (depth + 1) leaf (.app (.symbol (Composite.sideAccessor false)) [t]) l) ++
    whenMadeBy (Composite.sideConstructor true) r (either l r) t
      (invariantsAt (depth + 1) leaf (.app (.symbol (Composite.sideAccessor true)) [t]) r)
  | k => leaf k t

/-- The invariants of the components of a tuple, from a given position on. -/
def componentInvariants (depth : Nat) (leaf : Kind → Term → List Term) (t : Term)
    (arity position : Nat) : List Kind → List Term
  | [] => []
  | k :: ks =>
    invariantsAt (depth + 1) leaf (.app (.symbol (Composite.projection position arity)) [t]) k ++
      componentInvariants depth leaf t arity (position + 1) ks

end

/-- The invariants of a kind for a term. -/
def invariants (k : Kind) (t : Term) : List Term := invariantsAt 0 leafInvariants t k

end SolverScript.Kind
