import SolverScript.Proofs.Script.CommandLines
import SolverScript.Proofs.Script.Conclusion
import SolverScript.Proofs.Script.SectionVocabulary

/-!
# Sections of whole commands

The commands of a section have plain names if what the section is made from has. The texts that they
pass on are fixed ones, apart from remarks and lines of the user.

## Main results

* `Declaration.isWhole_symbol`, `Declaration.isWhole_constant` - symbols and constants
* `TableSetup.isWhole_initializers`, `ArraySetup.isWhole_of_ofArray` - tables and arrays
* `Scope.isWhole_definitionCommands` - definitions of nodes
* `FinalFormula.isWhole_commands` - the final assertions
-/

namespace SolverScript

/-! ### Commands by themselves -/

namespace Command

variable {c : Command} {cs : List Command}

theorem IsWhole.of_fits (h : c.Fits (fun _ => Name.IsPlain) []) (htexts : c.HasCompleteTexts) :
    c.IsWhole :=
  ⟨⟨h.names, h.declares⟩, htexts⟩

theorem isWhole_of_along (known : List String)
    (h : Script.Along (Fits fun _ => Name.IsPlain) known cs)
    (htexts : ∀ c ∈ cs, c.HasCompleteTexts) : ∀ c ∈ cs, c.IsWhole := by
  intro c hc
  obtain ⟨earlier, later, rfl⟩ := List.append_of_mem hc
  have hfits := Script.along_iff.mp h earlier c later rfl
  exact ⟨⟨hfits.names, hfits.declares⟩, htexts c hc⟩

theorem isWhole_of_names (hdeclares : c.declares = []) (hnames : ∀ x ∈ c.names, x.IsPlain)
    (htexts : c.HasCompleteTexts) : c.IsWhole :=
  ⟨⟨hnames, by simp [hdeclares]⟩, htexts⟩

theorem isWhole_note {text : String} (h : IsSingleLine text) : (note text).IsWhole :=
  isWhole_of_names rfl (by simp [names]) h

theorem isWhole_setting {line : String} (h : IsComplete line) : (setting line).IsWhole :=
  isWhole_of_names rfl (by simp [names]) h

theorem isWhole_setLogic {name remark : String} (hname : IsPlainText name)
    (hremark : IsSingleLine remark) : (setLogic name remark).IsWhole :=
  isWhole_of_names rfl (by simp [names]) ⟨hname, hremark⟩

theorem isWhole_postulate {p : Postulate} (h : p.IsComplete) : (postulate p).IsWhole :=
  isWhole_of_names rfl (by simp [names]) h

theorem isWhole_assert {formula : Term} (h : formula.Over Name.IsPlain) : (assert formula).IsWhole :=
  isWhole_of_names rfl h trivial

theorem isWhole_assertSoft {formula : Term} (h : formula.Over Name.IsPlain) :
    (assertSoft formula).IsWhole :=
  isWhole_of_names rfl h trivial

end Command

/-! ### Sorts and data types -/

theorem Declaration.isWhole_userSort {s : UserSort} (hsort : IsPlainText s.name)
    (hconstructors : ∀ cs ∈ s.constructors, ∀ c ∈ cs, IsPlainText c) :
    ∀ c ∈ userSort s, c.IsWhole := by
  have htexts : ∀ c ∈ userSort s, c.HasCompleteTexts :=
    forall_mem_userSort trivial fun _ _ => ⟨trivial, trivial⟩
  exact fun c hc => .of_fits (fits_userSort scoping_isPlain hsort hconstructors c hc) (htexts c hc)

theorem Features.isWhole_tupleCommands {f : Features} {cs : List Command}
    (h : f.tupleCommands = .ok cs) : ∀ c ∈ cs, c.IsWhole := by
  have htexts : ∀ c ∈ cs, c.HasCompleteTexts := forall_mem_tupleCommands h fun _ => trivial
  exact fun c hc => .of_fits (fits_tupleCommands scoping_isPlain h c hc) (htexts c hc)

theorem Features.isWhole_datatypeCommands (f : Features) : ∀ c ∈ f.datatypeCommands, c.IsWhole := by
  have htexts : ∀ c ∈ f.datatypeCommands, c.HasCompleteTexts :=
    f.forall_mem_datatypeCommands trivial trivial trivial
  exact fun c hc => .of_fits (fits_datatypeCommands scoping_isPlain f c hc) (htexts c hc)

theorem Plan.isWhole_reversalCommands {plan : Plan}
    (hkinds : ∀ what ∈ plan.features.reversals, what.kind.Over Name.IsPlain) :
    ∀ c ∈ plan.reversalCommands, c.IsWhole := by
  have htexts : ∀ c ∈ plan.reversalCommands, c.HasCompleteTexts :=
    plan.forall_mem_reversalCommands (show IsSingleLine _ by decide) fun _ _ => trivial
  exact fun c hc => .of_fits (fits_reversalCommands scoping_isPlain hkinds c hc) (htexts c hc)

/-! ### Symbols and nodes -/

namespace Declaration

theorem isWhole_symbol {name remark : String} {ks : List Kind} {cs : List Command}
    (h : symbol name ks remark = .ok cs) (hname : IsPlainText name)
    (hks : ∀ k ∈ ks, k.Over Name.IsPlain) (hremark : IsSingleLine remark) : ∀ c ∈ cs, c.IsWhole := by
  refine Command.isWhole_of_along [] (along_symbol scoping_isPlain h hks hname) ?_
  exact forall_mem_symbol h (fun _ _ => hremark)
    (fun _ => forall_mem_constantInvariants (fun _ _ => trivial) id)
    fun _ _ => List.forall_mem_singleton.mpr trivial

theorem isWhole_defined {c : Capabilities} {n : Node} {value : Term} {remark : String}
    (hkind : n.kind.Over Name.IsPlain) (hvalue : value.Over Name.IsPlain)
    (hremark : IsSingleLine remark) : ∀ d ∈ defined c n value remark, d.IsWhole := by
  exact Command.isWhole_of_along [] (along_defined scoping_isPlain hkind hvalue)
    (forall_mem_defined hremark hremark trivial)

theorem isWhole_constant {config : Config} {c : Constant} {cs : List Command}
    (h : constant config c = .ok cs) (hkind : c.node.kind.Over Name.IsPlain)
    (hvalue : c.value.Over Name.IsPlain) : ∀ d ∈ cs, d.IsWhole :=
  forall_mem_constant h fun _ ht =>
    isWhole_defined hkind (Value.over_term vocabulary_isPlain hvalue ht) (by decide)

end Declaration

/-- The symbols of nodes are plain, and so are the terms that nodes are written as. -/
theorem SkolemMap.over_nodeTerm_isPlain (skolems : SkolemMap) (n : Node) :
    (skolems.nodeTerm n).Over Name.IsPlain :=
  over_nodeTerm.mpr fun _ _ => trivial

/-! ### Tables and arrays -/

namespace Initializer

theorem isWhole_part (e : Entity) (i : Nat) {equation : Term}
    (hequation : equation.Over Name.IsPlain) : (part e.name i equation).IsWhole :=
  .of_fits (fits_part scoping_isPlain e i hequation)
    (show IsSingleLine "" by decide)

theorem isWhole_parts (e : Entity) (i : Nat) {equations : List Term}
    (h : ∀ q ∈ equations, q.Over Name.IsPlain) : ∀ c ∈ parts e.name i equations, c.IsWhole :=
  forall_mem_parts fun j q hq => isWhole_part e j (h q hq)

theorem isWhole_setup (e : Entity) (count : Nat) : ∀ c ∈ setup e.name count, c.IsWhole := by
  have hremarks : ∀ remark ∈ ["", "no initialization needed"], IsSingleLine remark := by decide
  refine Command.isWhole_of_along ((List.range count).map (partName e.name))
    (along_setup scoping_isPlain e fun i hi => List.mem_map_of_mem (List.mem_range.mpr hi)) ?_
  exact forall_mem_setup (fun _ => hremarks) trivial

end Initializer

namespace TableSetup

variable {config : Config} {skolems : SkolemMap} {universals : List Node} {constants : Constants}
  {table : Table} {s : TableSetup}

theorem isWhole_declaration (hindex : table.indexKind.Over Name.IsPlain)
    (hresult : table.resultKind.Over Name.IsPlain) : (declaration table).IsWhole :=
  .of_fits (fits_declaration scoping_isPlain hindex hresult)
    (show IsSingleLine "" by decide)

theorem isWhole_deferredDeclaration (huniversals : ∀ n ∈ universals, n.kind.Over Name.IsPlain)
    (hindex : table.indexKind.Over Name.IsPlain) (hresult : table.resultKind.Over Name.IsPlain) :
    (deferredDeclaration universals table).IsWhole :=
  .of_fits (fits_deferredDeclaration scoping_isPlain huniversals hindex hresult)
    (show IsSingleLine "" by decide)

theorem over_equations_isPlain (h : ofTable config skolems universals constants table = .ok s) :
    ∀ q ∈ s.equations, q.Over Name.IsPlain := by
  refine over_equations vocabulary_isPlain h ?_ (fun _ _ _ => trivial)
    fun n _ => skolems.over_nodeTerm_isPlain n
  rw [tableName_eq]
  exact GeneratedSymbol.isPlainText_name _

theorem isWhole_initializers (h : ofTable config skolems universals constants table = .ok s) :
    ∀ c ∈ s.initializers, c.IsWhole :=
  List.forall_mem_append.mpr
    ⟨Initializer.isWhole_parts (.table s.table.id) 0 (over_equations_isPlain h),
      Initializer.isWhole_setup (.table s.table.id) _⟩

end TableSetup

namespace ArraySetup

variable {config : Config} {constants : Constants} {skolems : SkolemMap} {a : ArrayDatum}

theorem texts_declaration {term : Node → Except Failure Term} {c : Command}
    (h : declaration config constants term a = .ok c) : c.HasCompleteTexts := by
  have hempty : IsSingleLine "" := by decide
  obtain ⟨value, rfl⟩ | rfl := declaration_cases h <;> exact hempty

theorem isWhole_declaration (hdomain : a.domain.Over Name.IsPlain)
    (hrange : a.range.Over Name.IsPlain) (hvalues : ∀ c ∈ constants, c.value.Over Name.IsPlain)
    {isTopLevel : Bool} {c : Command}
    (h : declaration config constants (nodeTerm isTopLevel constants skolems) a = .ok c) :
    c.IsWhole := by
  refine ⟨⟨?_, ?_⟩, texts_declaration h⟩
  · exact (names_declaration_iff vocabulary_isPlain hdomain hrange hvalues h).mpr
      fun n _ => skolems.over_nodeTerm_isPlain n
  · rw [declares_declaration h, arrayName_eq]
    exact List.forall_mem_singleton.mpr (GeneratedSymbol.isPlainText_name _)

/-- The commands that set up an array. -/
theorem isWhole_of_ofArray {isQuantified : Bool} {s : ArraySetup}
    (h : ofArray config isQuantified constants skolems a = .ok s)
    (hdomain : a.domain.Over Name.IsPlain) (hrange : a.range.Over Name.IsPlain)
    (hvalues : ∀ c ∈ constants, c.value.Over Name.IsPlain) :
    ∀ c ∈ s.declarations ++ s.deferred ++ s.setup, c.IsWhole := by
  have harray : ∀ id, IsPlainText (arrayName id) := fun id => by
    rw [arrayName_eq]
    exact GeneratedSymbol.isPlainText_name _
  refine forall_mem_ofArray h rfl (fun _ => isWhole_declaration hdomain hrange hvalues)
    (fun q hq => Initializer.isWhole_part (.array a.id) 0 ?_)
    (Initializer.isWhole_setup (.array a.id))
  exact (over_equation?_iff vocabulary_isPlain hq).mpr
    ⟨fun id _ => harray id, fun n _ => skolems.over_nodeTerm_isPlain n⟩

end ArraySetup

/-! ### Final assertions -/

theorem Literal.over_term {V : Name → Prop} (hV : Vocabulary V) {skolems : SkolemMap} {l : Literal}
    (h : (skolems.nodeTerm l.node).Over V) : (l.term skolems).Over V := by
  unfold term
  split
  · exact hV.over_negation h
  · exact h

/-- A conjunction is written with its literals. -/
theorem Literal.over_conjunction {V : Name → Prop} (hV : Vocabulary V) {skolems : SkolemMap}
    {ls : List Literal} (h : ∀ l ∈ ls, (skolems.nodeTerm l.node).Over V) :
    (conjunction skolems ls).Over V := by
  unfold conjunction
  generalize hplaced : (ls.foldr place []).filter (fun l => !l.isTrivial) = placed
  have hterm : ∀ l ∈ placed, (l.term skolems).Over V := by
    intro l hl
    rw [← hplaced] at hl
    exact over_term hV (h l (mem_of_mem_foldr_place (List.mem_filter.mp hl).1))
  split
  · exact hV.over_ofBool true
  · exact hterm _ (List.mem_singleton_self _)
  · split
    · exact hV.over_ofBool false
    · exact Term.over_app.mpr ⟨by simp [hV.function], List.forall_mem_map.mpr hterm⟩

theorem FinalFormula.isWhole_commands {skolems : SkolemMap} {formulas : List FinalFormula}
    (hattributes : ∀ f ∈ formulas, ∀ a ∈ f.attributes, IsPlainText a.1) :
    ∀ c ∈ commands skolems formulas, c.IsWhole := by
  intro c hc
  refine .of_fits (fits_commands (W := fun _ => Name.IsPlain) vocabulary_isPlain
    (fun f (_ : f ∈ formulas) => skolems.over_nodeTerm_isPlain f.literal.node) hattributes c hc) ?_
  rcases List.mem_append.mp hc with hc | hc <;> obtain ⟨f, -, rfl⟩ := List.mem_map.mp hc <;>
    exact trivial

end SolverScript
