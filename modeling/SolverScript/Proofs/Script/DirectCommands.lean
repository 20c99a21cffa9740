import SolverScript.Proofs.Script.CommandForms
import SolverScript.Proofs.Script.FinalAssertions
import SolverScript.Proofs.Script.Plan
import SolverScript.Proofs.Script.SortDeclarations
import SolverScript.Proofs.Script.Unfolding

/-!
# What the sections of a script declare and assert

Only the final assertions suggest something, and only the sections of sorts declare some. Most of
the other sections have nothing to do with initializers either, so that they assert what they
require. What they declare does not depend on remarks, nor on how the tables are listed whose names
are in force.

## Main definitions

* `Command.IsOrdinary` - the commands that neither declare sorts nor suggest anything
* `Command.IsDirect` - ordinary commands that assert what they require
* `Script.declarations` - what a script declares, and what it defines apart from initializers

## Main results

* `TableSetup.isOrdinary_initializers`, `ArraySetup.isOrdinary_of_ofArray` - tables and arrays
* `Declaration.symbol_withoutRemark` - a symbol is declared alike with and without a remark
* `ArraySetup.sections_of_ofArray` - what the sections of an array declare and assert
* `Scope.definitionCommands_congr` - definitions depend on the names of tables only
-/

namespace SolverScript

variable {α : Type} {T : Theory α} {I : Interpretation α} {D : List (String × Term)}

/-! ### Ordinary and direct commands -/

namespace Command

/-- Whether a command neither declares a sort, nor suggests anything, nor binds universal nodes. -/
structure IsOrdinary (c : Command) : Prop where
  typeNames : c.typeNames = []
  suggestion? : c.suggestion? = none
  ne_assertForAll : ∀ block, c ≠ assertForAll block

/-- Whether an ordinary command has nothing to do with initializers. -/
structure IsDirect (c : Command) : Prop extends c.IsTransparent, c.IsOrdinary

theorem isOrdinary_declareFun (name : String) (domain : List SortExpr) (range : SortExpr)
    (remark : String) : (declareFun name domain range remark).IsOrdinary :=
  ⟨rfl, rfl, fun _ => Command.noConfusion⟩

theorem isOrdinary_defineFun (name : String) (sort : SortExpr) (value : Term) (remark : String) :
    (defineFun name sort value remark).IsOrdinary :=
  ⟨rfl, rfl, fun _ => Command.noConfusion⟩

theorem isOrdinary_assert (t : Term) : (assert t).IsOrdinary :=
  ⟨rfl, rfl, fun _ => Command.noConfusion⟩

theorem IsSetting.isDirect {c : Command} (hc : c.IsSetting) : c.IsDirect := by
  cases hc <;> exact ⟨⟨rfl, by simp [required]⟩, rfl, rfl, fun _ => Command.noConfusion⟩

theorem isDirect_note (text : String) : (note text).IsDirect := (IsSetting.note text).isDirect

theorem isDirect_postulate (p : Postulate) : (postulate p).IsDirect :=
  ⟨⟨rfl, by simp [required]⟩, rfl, rfl, fun _ => Command.noConfusion⟩

theorem isDirect_defineReversal (what : Reversible) (name : String) :
    (defineReversal what name).IsDirect :=
  ⟨⟨rfl, by simp [required]⟩, rfl, rfl, fun _ => Command.noConfusion⟩

theorem isDirect_declareFun (name : String) (domain : List SortExpr) (range : SortExpr)
    (remark : String) : (declareFun name domain range remark).IsDirect :=
  ⟨⟨rfl, by simp [required]⟩, isOrdinary_declareFun _ _ _ _⟩

theorem isDirect_assert {t : Term} (h : ∀ s, t ≠ .symbol s) : (assert t).IsDirect :=
  ⟨⟨rfl, List.forall_mem_singleton.mpr h⟩, isOrdinary_assert t⟩

theorem IsInert.initializer? {c : Command} (hc : c.IsInert) : c.initializer? = none := by
  cases c <;> first | rfl | exact hc.elim

theorem IsInert.suggestion? {c : Command} (hc : c.IsInert) : c.suggestion? = none := by
  cases c <;> first | rfl | exact hc.elim

end Command

namespace Kind

mutual

/-- An invariant is never a mere symbol. -/
theorem ne_symbol_invariantsAt {depth : Nat} {leaf : Kind → Term → List Term} {t : Term} {k : Kind}
    (hleaf : ∀ k t, ∀ f ∈ leaf k t, ∀ s, f ≠ .symbol s) :
    ∀ f ∈ invariantsAt depth leaf t k, ∀ s, f ≠ .symbol s := by
  have hmade : ∀ constructor parameter whole formulas,
      ∀ f ∈ whenMadeBy constructor parameter whole t formulas, ∀ s, f ≠ .symbol s := by
    intro constructor parameter whole formulas f hf s
    obtain ⟨g, -, rfl⟩ := List.mem_map.mp hf
    exact Term.noConfusion
  cases k with
  | list k | set k =>
    unfold invariantsAt
    split
    · exact List.forall_mem_singleton.mpr fun s => Term.noConfusion
    · simp
  | tuple ks => exact ne_symbol_componentInvariants hleaf
  | maybe k => exact hmade _ _ _ _
  | either l r => exact List.forall_mem_append.mpr ⟨hmade _ _ _ _, hmade _ _ _ _⟩
  | _ => exact hleaf _ t

theorem ne_symbol_componentInvariants {depth : Nat} {leaf : Kind → Term → List Term} {t : Term}
    {arity position : Nat} {ks : List Kind} (hleaf : ∀ k t, ∀ f ∈ leaf k t, ∀ s, f ≠ .symbol s) :
    ∀ f ∈ componentInvariants depth leaf t arity position ks, ∀ s, f ≠ .symbol s := by
  cases ks with
  | nil => simp [componentInvariants]
  | cons k ks =>
    exact List.forall_mem_append.mpr
      ⟨ne_symbol_invariantsAt hleaf, ne_symbol_componentInvariants hleaf⟩

end

theorem ne_symbol_invariants (k : Kind) (t : Term) :
    ∀ f ∈ k.invariants t, ∀ s, f ≠ .symbol s := by
  refine ne_symbol_invariantsAt fun k t f hf s => ?_
  unfold leafInvariants at hf
  split at hf <;> simp only [List.mem_singleton, List.not_mem_nil] at hf <;> subst hf <;>
    exact Term.noConfusion

end Kind

namespace Declaration

theorem isDirect_defined (c : Capabilities) (n : Node) (value : Term) (remark : String) :
    ∀ d ∈ defined c n value remark, d.IsDirect := by
  have hname : isInitializerName n.name = false := not_isInitializerName_nodeName n.id
  refine forall_mem_defined ⟨⟨?_, by simp [Command.required]⟩, Command.isOrdinary_defineFun _ _ _ _⟩
    (Command.isDirect_declareFun _ _ _ _) (Command.isDirect_assert fun s => Term.noConfusion)
  simp [Command.initializer?, hname]

theorem isDirect_constant {config : Config} {c : Constant} {cs : List Command}
    (h : constant config c = .ok cs) : ∀ d ∈ cs, d.IsDirect :=
  forall_mem_constant h fun _ _ => isDirect_defined _ _ _ _

theorem isDirect_constantInvariants (name : String) (k : Kind) :
    ∀ c ∈ constantInvariants name k, c.IsDirect := by
  have hinvariants := k.ne_symbol_invariants (.symbol name)
  exact forall_mem_constantInvariants (fun t ht => Command.isDirect_assert (hinvariants t ht))
    fun _ => ⟨⟨rfl, hinvariants⟩, rfl, rfl, fun _ => Command.noConfusion⟩

theorem isDirect_resultInvariants (name : String) (arguments : List Kind) (result : Kind) :
    ∀ c ∈ resultInvariants name arguments result, c.IsDirect := by
  refine List.forall_mem_singleton.mpr ⟨⟨rfl, ?_⟩, rfl, rfl, fun _ => Command.noConfusion⟩
  exact List.forall_mem_map.mpr fun _ _ s => Term.noConfusion

theorem isDirect_symbol {name remark : String} {kinds : List Kind} {cs : List Command}
    (h : symbol name kinds remark = .ok cs) : ∀ c ∈ cs, c.IsDirect :=
  forall_mem_symbol h (fun _ _ => Command.isDirect_declareFun _ _ _ _)
    (isDirect_constantInvariants _) (isDirect_resultInvariants _)

end Declaration

theorem Scope.isDirect_definitionCommands {scope : Scope} {a : Assignment} {cs : List Command}
    (h : scope.definitionCommands a = .ok cs) : ∀ c ∈ cs, c.IsDirect :=
  forall_mem_definitionCommands h fun _ _ _ => Declaration.isDirect_defined _ _ _ _

/-! ### Scripts of direct commands -/

namespace Script

theorem suggestions_nil : suggestions [] = [] := rfl

theorem suggestions_append (cs ds : List Command) :
    suggestions (cs ++ ds) = suggestions cs ++ suggestions ds :=
  List.filterMap_append

theorem suggestions_note (text : String) (cs : List Command) :
    suggestions (.note text :: cs) = suggestions cs := rfl

theorem suggestions_eq_nil {cs : List Command} (h : ∀ c ∈ cs, c.suggestion? = none) :
    suggestions cs = [] :=
  List.filterMap_eq_nil_iff.mpr h

theorem suggestions_of_isOrdinary {cs : List Command} (h : ∀ c ∈ cs, c.IsOrdinary) :
    suggestions cs = [] :=
  suggestions_eq_nil fun c hc => (h c hc).suggestion?

theorem suggestions_of_isDirect {cs : List Command} (h : ∀ c ∈ cs, c.IsDirect) :
    suggestions cs = [] :=
  suggestions_of_isOrdinary fun c hc => (h c hc).toIsOrdinary

theorem suggestions_of_isInert {cs : List Command} (h : ∀ c ∈ cs, c.IsInert) :
    suggestions cs = [] :=
  suggestions_eq_nil fun c hc => (h c hc).suggestion?

theorem typeNames_of_isOrdinary {cs : List Command} (h : ∀ c ∈ cs, c.IsOrdinary) :
    typeNames cs = [] :=
  typeNames_eq_nil fun c hc => (h c hc).typeNames

theorem typeNames_of_isDirect {cs : List Command} (h : ∀ c ∈ cs, c.IsDirect) :
    typeNames cs = [] :=
  typeNames_of_isOrdinary fun c hc => (h c hc).toIsOrdinary

/-- Direct commands assert what they require, and change nothing for the others. -/
theorem unfolded_append_of_isDirect {cs : List Command} (h : ∀ c ∈ cs, c.IsDirect)
    (ds : List Command) : unfolded D (cs ++ ds) = cs.flatMap Command.required ++ unfolded D ds :=
  unfolded_append_of_isTransparent (fun c hc => (h c hc).toIsTransparent) ds

/-- Inert commands make no difference for what the others assert. -/
theorem unfolded_append_of_isInert {cs : List Command} (h : ∀ c ∈ cs, c.IsInert)
    (ds : List Command) : unfolded D (cs ++ ds) = unfolded D ds :=
  unfolded_append_of_silent
    (fun c hc => ⟨(h c hc).initializer?, (h c hc).required_eq_nil⟩) ds

end Script

/-! ### Declarations -/

namespace Command

/-- A declaration or a definition without its remark. -/
def withoutRemark : Command → Command
  | declareFun name domain range _ => declareFun name domain range ""
  | defineFun name sort value _ => defineFun name sort value ""
  | c => c

@[simp] theorem required_withoutRemark (c : Command) : c.withoutRemark.required = c.required := by
  cases c <;> rfl

@[simp] theorem initializer?_withoutRemark (c : Command) :
    c.withoutRemark.initializer? = c.initializer? := by
  cases c <;> rfl

@[simp] theorem suggestion?_withoutRemark (c : Command) :
    c.withoutRemark.suggestion? = c.suggestion? := by
  cases c <;> rfl

@[simp] theorem typeNames_withoutRemark (c : Command) :
    c.withoutRemark.typeNames = c.typeNames := by
  cases c <;> rfl

theorem IsDirect.withoutRemark {c : Command} (hc : c.IsDirect) : c.withoutRemark.IsDirect where
  initializer? := by rw [initializer?_withoutRemark, hc.initializer?]
  ne_symbol := by
    rw [required_withoutRemark]
    exact hc.ne_symbol
  typeNames := by rw [typeNames_withoutRemark, hc.typeNames]
  suggestion? := by rw [suggestion?_withoutRemark, hc.suggestion?]
  ne_assertForAll := by
    intro block h
    cases c with
    | assertForAll block => exact hc.ne_assertForAll block rfl
    | _ => cases h

/-- The declaration of a sort, a data type or a symbol, or the definition of a node or an array,
without remarks. Initializers are not among them. -/
def declaration? : Command → Option Command
  | declareFun name domain range _ => some (declareFun name domain range "")
  | defineFun name sort value _ =>
    if isInitializerName name then none else some (defineFun name sort value "")
  | declareSort name => some (declareSort name)
  | declareEnumeration name constructors => some (declareEnumeration name constructors)
  | defineConstructorIndex name constructors => some (defineConstructorIndex name constructors)
  | declareTuple arity => some (declareTuple arity)
  | declareSum => some declareSum
  | declareOptional => some declareOptional
  | declareRationals => some declareRationals
  | _ => none

@[simp] theorem declaration?_withoutRemark (c : Command) :
    c.withoutRemark.declaration? = c.declaration? := by
  cases c <;> rfl

theorem IsSetting.declaration? {c : Command} (hc : c.IsSetting) : c.declaration? = none := by
  cases hc <;> rfl

theorem declaration?_of_initializer? {c : Command} {entry : String × Term}
    (h : c.initializer? = some entry) : c.declaration? = none := by
  cases c with
  | defineFun name sort value remark =>
    obtain ⟨hname, -⟩ := Option.ite_none_right_eq_some.mp h
    exact if_pos hname
  | _ => cases h

end Command

namespace Script

/-- What a script declares, and what it defines apart from initializers. -/
def declarations (commands : List Command) : List Command :=
  commands.filterMap Command.declaration?

theorem declarations_nil : declarations [] = [] := rfl

theorem declarations_append (cs ds : List Command) :
    declarations (cs ++ ds) = declarations cs ++ declarations ds :=
  List.filterMap_append

theorem declarations_note (text : String) (cs : List Command) :
    declarations (.note text :: cs) = declarations cs := rfl

theorem declarations_eq_nil {cs : List Command} (h : ∀ c ∈ cs, c.declaration? = none) :
    declarations cs = [] :=
  List.filterMap_eq_nil_iff.mpr h

theorem declarations_withoutRemark (cs : List Command) :
    declarations (cs.map Command.withoutRemark) = declarations cs := by
  simp [declarations, List.filterMap_map]

end Script

/-- Another remark does not change what is said about a symbol. -/
theorem Declaration.symbol_withoutRemark {name remark : String} {kinds : List Kind}
    {cs : List Command} (h : Declaration.symbol name kinds remark = .ok cs) :
    Declaration.symbol name kinds "" = .ok (cs.map Command.withoutRemark) := by
  have hinvariants : ∀ k, (constantInvariants name k).map Command.withoutRemark =
      constantInvariants name k := by
    intro k
    unfold constantInvariants
    split <;> rfl
  unfold Declaration.symbol at h ⊢
  split at h
  · cases h
  · cases h
    simp only [List.map_cons]
    split
    · rfl
    · split
      · rw [hinvariants]
        rfl
      · rfl

/-! ### Tables and arrays without universal nodes -/

namespace Initializer

/-- The definitions of initializers and the assertion of all of them declare nothing. -/
theorem declarations_parts (entity : String) (i : Nat) (equations : List Term) :
    Script.declarations (parts entity i equations) = [] :=
  Script.declarations_eq_nil (forall_mem_parts fun j q _ =>
    Command.declaration?_of_initializer? (initializer?_part entity j q))

theorem declarations_setup (entity : String) (count : Nat) :
    Script.declarations (setup entity count) = [] :=
  Script.declarations_eq_nil (forall_mem_setup (fun _ _ _ =>
    Command.declaration?_of_initializer? (initializer?_whole entity _ _)) rfl)

theorem isOrdinary_parts (entity : String) (i : Nat) (equations : List Term) :
    ∀ c ∈ parts entity i equations, c.IsOrdinary :=
  forall_mem_parts fun _ _ _ => Command.isOrdinary_defineFun _ _ _ _

theorem isOrdinary_setup (entity : String) (count : Nat) :
    ∀ c ∈ setup entity count, c.IsOrdinary :=
  forall_mem_setup (fun _ _ _ => Command.isOrdinary_defineFun _ _ _ _)
    (Command.isOrdinary_assert _)

end Initializer

theorem TableSetup.isOrdinary_initializers (s : TableSetup) :
    ∀ c ∈ s.initializers, c.IsOrdinary :=
  List.forall_mem_append.mpr
    ⟨Initializer.isOrdinary_parts _ 0 _, Initializer.isOrdinary_setup _ _⟩

theorem TableSetup.isOrdinary_constantCommands (s : TableSetup) :
    ∀ c ∈ s.constantCommands, c.IsOrdinary :=
  List.forall_mem_cons.mpr ⟨Command.isOrdinary_declareFun _ _ _ _, s.isOrdinary_initializers⟩

theorem TableSetup.declarations_initializers (s : TableSetup) :
    Script.declarations s.initializers = [] := by
  rw [initializers, Script.declarations_append, Initializer.declarations_parts,
    Initializer.declarations_setup, List.append_nil]

namespace ArraySetup

variable {config : Config} {constants : Constants} {skolems : SkolemMap} {a : ArrayDatum}
  {s : ArraySetup}

theorem isOrdinary_declaration {term : Node → Except Failure Term} {c : Command}
    (h : declaration config constants term a = .ok c) : c.IsOrdinary := by
  obtain ⟨value, rfl⟩ | rfl := declaration_cases h
  · exact Command.isOrdinary_defineFun _ _ _ _
  · exact Command.isOrdinary_declareFun _ _ _ _

/-- The commands of an array are ordinary. -/
theorem isOrdinary_of_ofArray {isQuantified : Bool}
    (h : ofArray config isQuantified constants skolems a = .ok s) :
    ∀ c ∈ s.declarations ++ s.deferred ++ s.setup, c.IsOrdinary :=
  forall_mem_ofArray h rfl (fun _ => isOrdinary_declaration)
    (fun _ _ => Command.isOrdinary_defineFun _ _ _ _) (Initializer.isOrdinary_setup _)

theorem isOrdinary_sections {isQuantified : Bool} {arrays : List ArrayDatum}
    {setups : List ArraySetup}
    (h : arrays.mapM (ofArray config isQuantified constants skolems) = .ok setups) :
    (∀ c ∈ setups.flatMap declarations, c.IsOrdinary) ∧
      (∀ c ∈ setups.flatMap deferred, c.IsOrdinary) ∧
      ∀ c ∈ setups.flatMap setup, c.IsOrdinary :=
  forall_mem_sections h fun _ _ _ => isOrdinary_of_ofArray

theorem required_declaration {term : Node → Except Failure Term} {c : Command}
    (h : declaration config constants term a = .ok c) : c.required = [] := by
  obtain ⟨value, rfl⟩ | rfl := declaration_cases h <;> rfl

/-- Without quantifiers an array is declared only at the beginning of its set-up, and something is
asserted only at the end. -/
theorem sections_of_ofArray (h : ofArray config false constants skolems a = .ok s) :
    (∀ c ∈ s.declarations ++ s.deferred, c.required = []) ∧
      Script.declarations s.deferred = [] ∧ Script.declarations s.setup = [] := by
  by_cases hsources : a.context.sources = []
  · obtain ⟨_, declared, hdeclared, rfl⟩ := exists_of_free hsources h
    exact ⟨List.forall_mem_singleton.mpr (required_declaration hdeclared), rfl,
      Initializer.declarations_setup (arrayName a.id) 0⟩
  · obtain ⟨_, declared, q, hdeclared, -, rfl⟩ := exists_of_derived hsources h
    have hdeclared := required_declaration hdeclared
    have hpart : Script.declarations [Initializer.part (arrayName a.id) 0 q] = [] :=
      Initializer.declarations_parts (arrayName a.id) 0 [q]
    have hrequired : (Initializer.part (arrayName a.id) 0 q).required = [] := rfl
    refine ⟨?_, ?_, Initializer.declarations_setup (arrayName a.id) 1⟩
    · dsimp only
      split <;> simp [hdeclared, hrequired]
    · dsimp only
      split
      · rfl
      · exact hpart

end ArraySetup

/-! ### Names in force -/

/-- The term of an operation depends on the names of tables, and not on how they are listed. -/
theorem Scope.term_congr {scope : Scope} {tables : TableMap}
    (h : ∀ id, scope.tables.head id = tables.head id) (operation : Operation) :
    scope.term operation = { scope with tables := tables }.term operation := by
  obtain ⟨op, ns⟩ := operation
  cases op with
  | lookup l =>
    simp only [Scope.term, Scope.lookup, h]
    rfl
  | string op => cases op <;> rfl
  | maybeConstructor k isJust => cases isJust <;> rfl
  | _ => rfl

theorem Scope.definitionCommands_congr {scope : Scope} {tables : TableMap}
    (h : ∀ id, scope.tables.head id = tables.head id) (a : Assignment) :
    scope.definitionCommands a = { scope with tables := tables }.definitionCommands a := by
  unfold Scope.definitionCommands Scope.definition
  rw [scope.term_congr h]
  rfl

end SolverScript
