import SolverScript.Proofs.Script.KnownNodes
import SolverScript.Proofs.Script.Plan

/-!
# Symbols of a script

A script introduces functions for the nodes, tables, arrays and free symbols of a problem, for the
initializers of tables and arrays, and for what it reverses; where there are rationals it also
defines their arithmetic. When different parts of the problem have different symbols, and no name
that the user has chosen is one that scripts make up, an occurrence of a symbol can only mean the
part that it was introduced for.

## Main definitions

* `Problem.IsSymbol` - the functions that a script introduces for the parts of a problem
* `Problem.HasDistinctSymbols` - different parts have different symbols
* `Problem.Known` - names that are symbols only if they are known
* `Problem.Separates` - symbols that mean nothing else in a problem

## Main results

* `Problem.Separates.scoping` - names may be mentioned as soon as they are known
* `Problem.HasDistinctSymbols.separates` - the symbols of a problem mean nothing else
-/

namespace SolverScript

/-- The text of a name that stands for a function. -/
def Name.symbol? : Name → Option String
  | node id => some (nodeName id)
  | function text => some text
  | _ => none

/-- Whether scripts make up a name of their own accord, for some problem. -/
def IsGenerated (text : String) : Prop :=
  (Name.function text).IsBuiltin ∨ (∃ g : GeneratedSymbol, g.name = text) ∨
    (∃ f : RationalFunction, f.symbol = text) ∨ ∃ sort, Datatype.indexName sort = text

namespace Problem

/-- The constructors that a script mentions: those of enumerated sorts, and those in the values of
constants. -/
def constructors (p : Problem) : List String :=
  (((KindSet.closure p.kinds).toList.filterMap Kind.userSort?).flatMap fun s =>
      s.constructors.getD []) ++
    p.constants.flatMap fun c => c.value.names.filterMap Name.symbol?

/-- The functions that a script introduces for the parts of a problem. -/
inductive IsSymbol (p : Problem) : String → Prop
  | generated (g : GeneratedSymbol) (h : ¬g.IsReserved) : IsSymbol p g.name
  | free (f : FreeSymbol) (h : f ∈ p.freeSymbols) : IsSymbol p f.name
  | rational (f : RationalFunction) (h : .rational ∈ (KindSet.closure p.kinds).toList) :
    IsSymbol p f.symbol

/-- Different parts of a problem have different symbols, and free symbols have other names than those
that scripts make up. -/
structure HasDistinctParts (p : Problem) : Prop where
  nodes : ((p.startingNodes ++ p.assignments.map Assignment.node).map Node.id).Nodup
  tables : (p.tables.map Table.id).Nodup
  arrays : (p.arrays.map ArrayDatum.id).Nodup
  freeSymbols : (p.freeSymbols.map FreeSymbol.name).Nodup
  free : ∀ f ∈ p.freeSymbols, ¬IsGenerated f.name

/-- Different parts of a problem have different symbols, and no constructor is called like one. -/
structure HasDistinctSymbols (p : Problem) : Prop extends HasDistinctParts p where
  constructor : ∀ c ∈ p.constructors, ¬p.IsSymbol c

/-- Whether a name is either none of some symbols or known. -/
def Known (S : String → Prop) (known : List String) (x : Name) : Prop :=
  ∀ s ∈ x.symbol?, S s → s ∈ known

/-- Whether some symbols mean nothing else in a problem: they are no names that scripts have for
other purposes, and no constructors. -/
structure Separates (p : Problem) (S : String → Prop) : Prop where
  builtin : ∀ {text : String}, (Name.function text).IsBuiltin → ¬S text
  position : ∀ sort, ¬S (Datatype.indexName sort)
  constructor : ∀ c ∈ p.constructors, ¬S c

variable {p : Problem} {S : String → Prop} {known : List String}

/-! ### Names that are known -/

theorem known_function {text : String} (h : S text → text ∈ known) :
    Known S known (.function text) := by
  rintro _ ⟨⟩
  exact h

theorem known_sort (name : String) : Known S known (.sort name) := by
  rintro _ ⟨⟩

theorem known_keyword (text : String) : Known S known (.keyword text) := by
  rintro _ ⟨⟩

theorem over_kind (k : Kind) : k.Over (Known S known) :=
  Kind.over_iff.mpr fun s _ => known_sort s.name

namespace Separates

variable (hS : p.Separates S)

include hS

/-- Names may be mentioned as soon as they are known. -/
theorem scoping : Scoping (Known S) where
  vocabulary known :=
    { builtin := by
        intro x hx s hs hsymbol
        cases x with
        | node id => cases hx
        | function text =>
          cases hs
          exact absurd hsymbol (hS.builtin hx)
        | sort | keyword => cases hs
      position := by
        rintro sort - _ ⟨⟩ hsymbol
        exact absurd hsymbol (hS.position sort) }
  mono := fun hknown x hx s hs hsymbol => hknown (hx s hs hsymbol)
  node := by
    rintro known id hid _ ⟨⟩ -
    exact hid
  symbol := fun g hg => known_function fun _ => hg
  rational := fun f hf => known_function fun _ => hf

/-- The values of constants mention no symbols. -/
theorem over_constantValue {c : Constant} (hc : c ∈ p.constants) :
    c.value.Over (Known S known) := by
  intro x hx s hs hsymbol
  refine absurd hsymbol (hS.constructor s (List.mem_append_right _ ?_))
  exact List.mem_flatMap.mpr ⟨c, hc, List.mem_filterMap.mpr ⟨x, hx, hs⟩⟩

end Separates

/-! ### The symbols of a problem -/

/-- What scripts make up for other problems is no symbol of this one. -/
theorem not_isSymbol_of_builtin (hfree : ∀ f ∈ p.freeSymbols, ¬IsGenerated f.name) {text : String}
    (h : (Name.function text).IsBuiltin) : ¬p.IsSymbol text := by
  intro hsymbol
  cases hsymbol with
  | generated g hg => exact h.name_ne hg rfl
  | free f hf => exact hfree f hf (.inl h)
  | rational f => exact h.rational_ne f rfl

theorem not_isSymbol_indexName (hfree : ∀ f ∈ p.freeSymbols, ¬IsGenerated f.name) (sort : String) :
    ¬p.IsSymbol (Datatype.indexName sort) := by
  intro hsymbol
  generalize hname : Datatype.indexName sort = text at hsymbol
  cases hsymbol with
  | generated g hg => exact GeneratedSymbol.name_ne_indexName hg sort hname.symm
  | free f hf => exact hfree f hf (.inr (.inr (.inr ⟨sort, hname⟩)))
  | rational f => exact f.symbol_ne_indexName sort hname.symm

theorem isSymbol_nodeName_iff (hfree : ∀ f ∈ p.freeSymbols, ¬IsGenerated f.name) {n : Node} :
    p.IsSymbol n.name ↔ ¬n.IsReserved := by
  constructor
  · rintro hsymbol (hid | hid)
    all_goals
      refine not_isSymbol_of_builtin hfree (?_ : (Name.function n.name).IsBuiltin) hsymbol
      rw [Node.name, hid]
      exact .function _ (by decide)
  · intro hn
    refine IsSymbol.generated (.node n.id) ?_
    simpa [GeneratedSymbol.IsReserved, Node.IsReserved] using hn

theorem HasDistinctSymbols.separates (hsymbols : p.HasDistinctSymbols) :
    p.Separates p.IsSymbol where
  builtin := not_isSymbol_of_builtin hsymbols.free
  position := not_isSymbol_indexName hsymbols.free
  constructor := hsymbols.constructor

end Problem

end SolverScript
