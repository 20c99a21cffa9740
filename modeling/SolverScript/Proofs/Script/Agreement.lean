import SolverScript.Proofs.Script.Increments

/-!
# Problems and increments agree

A problem that can also be given as an increment is compiled to the same declarations and
definitions, to equivalent assertions, and to the same suggestions, except that the increment also
suggests what is trivially true.

## Main definitions

* `Term.SuggestsSame` - the same suggestion in two scripts
* `CompiledScript.AgreesWith` - what agreement of two scripts means

## Main results

* `Problem.exists_agreeing_increment` - the increment of a problem has an agreeing script
-/

namespace SolverScript

variable {config : Config} {p : Problem} {plan : Plan}

/-! ### What agreement means -/

namespace Term

/-- The attributes of a formula. -/
def attributes : Term → List (String × String)
  | attributed _ attributes => attributes
  | _ => []

/-- Whether a formula is the symbol of true or a negation of the symbol of false, also with
attributes. -/
def isTautology : Term → Bool
  | attributed body _ => isTautology body
  | node id => id == (Node.ofBool true).id
  | app (symbol "not") [node id] => id == (Node.ofBool false).id
  | _ => false

/-- Whether two formulas suggest the same: they have the same attributes, and the same meaning
wherever the connectives have theirs. -/
structure SuggestsSame (t u : Term) : Prop where
  attributes : t.attributes = u.attributes
  meaning : ∀ {α : Type} {T : Theory α} {I : Interpretation α}, T.InterpretsCore I →
    t.eval T I = u.eval T I

end Term

/-- Whether two scripts agree: they declare the same sorts, data types and symbols and define the
same nodes, what they assert is equivalent when initializers are unfolded, and they suggest the same
in the same order, apart from tautologies that the second one suggests as well. -/
structure CompiledScript.AgreesWith (batch incremental : CompiledScript) : Prop where
  declarations :
    (Script.declarations batch.commands).Perm (Script.declarations incremental.commands)
  assertions : ∀ {α : Type} {T : Theory α} {I : Interpretation α}, T.InterpretsCore I →
    ((∀ t ∈ Script.unfolded [] batch.commands, t.eval T I = some (.bool true)) ↔
      ∀ t ∈ Script.unfolded [] incremental.commands, t.eval T I = some (.bool true))
  suggestions : List.Forall₂ Term.SuggestsSame (Script.suggestions batch.commands)
    ((Script.suggestions incremental.commands).filter fun t => !t.isTautology)

/-! ### Suggestions -/

namespace Increment

theorem suggestions_constraints (constraints : List Constraint) :
    Script.suggestions (constraints.map constraintCommand) =
      (constraints.filter fun c => c.soft).map fun c =>
        Term.withAttributes c.attributes (formula c) := by
  induction constraints with
  | nil => rfl
  | cons c cs ih =>
    rw [List.map_cons, List.filter_cons, Script.suggestions, List.filterMap_cons,
      constraintCommand_eq]
    cases c.soft with
    | false => exact ih
    | true => exact congrArg _ ih

/-- The formulas of trivial constraints are the tautologies. -/
theorem isTautology_formula (c : Constraint) :
    (Term.withAttributes c.attributes (formula c)).isTautology = c.isTrivial := by
  have hformula : (formula c).isTautology = c.isTrivial := by
    unfold formula Constraint.isTrivial
    split <;> rfl
  unfold Term.withAttributes
  split
  · exact hformula
  · exact hformula

/-- A constraint suggests the same in both scripts. -/
theorem suggestsSame_requirement (c : Constraint) :
    (Term.withAttributes c.attributes (c.requirement [])).SuggestsSame
      (Term.withAttributes c.attributes (formula c)) where
  attributes := by
    have hnone : ∀ t : Term, t = c.requirement [] ∨ t = formula c → t.attributes = [] := by
      rintro t (rfl | rfl)
      · unfold Constraint.requirement
        repeat' split
        all_goals rfl
      · unfold formula
        split <;> rfl
    unfold Term.withAttributes
    split
    · rw [hnone _ (.inl rfl), hnone _ (.inr rfl)]
    · rfl
  meaning := fun hcore => by
    rw [Term.eval_withAttributes, Term.eval_withAttributes, eval_formula hcore]

/-- Without tautologies the soft constraints of an increment suggest the same as the final formulas
of a problem. -/
theorem forall₂_suggestions (constraints : List Constraint) :
    List.Forall₂ Term.SuggestsSame
      ((constraints.filter fun c => c.soft && !c.isTrivial).map fun c =>
        Term.withAttributes c.attributes (c.requirement []))
      ((Script.suggestions (constraints.map constraintCommand)).filter fun t =>
        !t.isTautology) := by
  have htautology : ((fun t : Term => !t.isTautology) ∘ fun c =>
      Term.withAttributes c.attributes (formula c)) = fun c : Constraint => !c.isTrivial :=
    funext fun c => congrArg not (isTautology_formula c)
  have hfilter : (constraints.filter fun c => c.soft && !c.isTrivial) =
      (constraints.filter fun c => c.soft).filter fun c => !c.isTrivial := by
    rw [List.filter_filter]
    simp only [Bool.and_comm]
  rw [suggestions_constraints, List.filter_map, htautology, hfilter, List.forall₂_map_left_iff,
    List.forall₂_map_right_iff, List.forall₂_same]
  exact fun c _ => suggestsSame_requirement c

end Increment

namespace Problem.IsPlan

variable (hplan : p.IsPlan config plan) {s : SharedSections} (hs : plan.Shares s)

include hplan

theorem suggestions_arrays :
    Script.suggestions (plan.arrays.flatMap ArraySetup.declarations) = [] ∧
      Script.suggestions (plan.arrays.flatMap ArraySetup.deferred) = [] ∧
      Script.suggestions (plan.arrays.flatMap ArraySetup.setup) = [] := by
  obtain ⟨hdeclared, hdeferred, hsetup⟩ := ArraySetup.isOrdinary_sections hplan.arrays
  exact ⟨Script.suggestions_of_isOrdinary hdeclared, Script.suggestions_of_isOrdinary hdeferred,
    Script.suggestions_of_isOrdinary hsetup⟩

include hs

/-- Only the final assertions of a script suggest something. -/
theorem suggestions_problemCommands : Script.suggestions (plan.problemCommands s) =
    (p.constraints.filter fun c => c.soft && !c.isTrivial).map fun c =>
      Term.withAttributes c.attributes (c.requirement []) := by
  obtain ⟨query, hlogic⟩ := hplan.logic
  rw [← hplan.ofConfig] at hlogic
  obtain ⟨hdeclared, hdeferred, hsetup⟩ := hplan.suggestions_arrays
  have hpostulates : Script.suggestions (plan.problem.postulates.map .postulate) = [] :=
    Script.suggestions_eq_nil (List.forall_mem_map.mpr fun _ _ => rfl)
  have htables : Script.suggestions (plan.constantTables.flatMap TableSetup.constantCommands) =
      [] :=
    Script.suggestions_of_isOrdinary (List.forall_mem_flatMap.mpr fun t _ =>
      t.isOrdinary_constantCommands)
  have hdeferredTables : Script.suggestions (plan.deferredTables.map fun t =>
      TableSetup.deferredDeclaration plan.problem.universals t.table) = [] :=
    Script.suggestions_eq_nil (List.forall_mem_map.mpr fun _ _ => rfl)
  have hequations : Script.suggestions (plan.equations.map .assert) = [] :=
    Script.suggestions_eq_nil (List.forall_mem_map.mpr fun _ _ => rfl)
  -- Final formulas are the only ones that may be soft.
  simp only [Plan.problemCommands, Plan.middle, Plan.arrayCommands, Plan.openCommands,
    Script.suggestions_append, Script.suggestions_note,
    Script.suggestions_of_isInert (Plan.isInert_opening hlogic hs.tuples),
    Script.suggestions_of_isDirect hs.constants, Script.suggestions_of_isDirect hs.existentials,
    htables, hdeferredTables, hdeclared, Script.suggestions_of_isDirect hs.freeSymbols,
    Script.suggestions_of_isInert (Plan.isInert_reversalCommands plan), hpostulates,
    Script.suggestions_of_isDirect hs.definitions, hdeferred, hsetup, hequations,
    Script.suggestions_nil, List.nil_append]
  rw [hplan.ofProblem, FinalFormula.suggestions_commands, FinalFormula.map_soft_ofProblem]

/-- Only the constraints of an increment suggest something. -/
theorem suggestions_incrementCommands : Script.suggestions (plan.incrementCommands s) =
    Script.suggestions (p.toIncrement.constraints.map Increment.constraintCommand) := by
  obtain ⟨hdeclared, hdeferred, hsetup⟩ := hplan.suggestions_arrays
  have hflatten : ∀ c ∈ plan.features.flattenCommands plan.config.capabilities, c.IsInert :=
    fun c hc => (plan.features.isSetting_flattenCommands _ c hc).isInert
  have hexistentials : ∀ c ∈ s.existentials.map Command.withoutRemark, c.IsDirect :=
    List.forall_mem_map.mpr fun c hc => (hs.existentials c hc).withoutRemark
  have hdeclarations : Script.suggestions (plan.tables.map fun t =>
      TableSetup.declaration t.table) = [] :=
    Script.suggestions_eq_nil (List.forall_mem_map.mpr fun _ _ => rfl)
  have htables : Script.suggestions (plan.tables.flatMap TableSetup.initializers) = [] :=
    Script.suggestions_of_isOrdinary (List.forall_mem_flatMap.mpr fun t _ =>
      t.isOrdinary_initializers)
  simp only [Plan.incrementCommands, Script.suggestions_append,
    Script.suggestions_of_isInert hflatten,
    Script.suggestions_of_isInert (Plan.isInert_sortCommands plan.features),
    Script.suggestions_of_isInert (Plan.isInert_tupleCommands hs.tuples),
    Script.suggestions_of_isInert (Plan.isInert_datatypeCommands plan.features),
    Script.suggestions_of_isDirect hs.constants, Script.suggestions_of_isDirect hexistentials,
    hdeclared, Script.suggestions_of_isDirect hs.freeSymbols, hdeclarations,
    Script.suggestions_of_isDirect hs.definitions, hdeferred, htables, hsetup, List.nil_append,
    hplan.ofProblem]

end Problem.IsPlan

/-! ### Agreement -/

namespace Problem

namespace IsPlan

variable (hplan : p.IsPlan config plan) (hp : p.IsIncremental) {s : SharedSections}
  (hs : plan.Shares s)

include hplan hp hs

/-- The equations of all tables are asserted in both scripts: some directly and some by
initializers in the one, all by initializers in the other. -/
theorem holds_unfolded_iff {α : Type} {T : Theory α} {I : Interpretation α}
    (hcore : T.InterpretsCore I) :
    (∀ t ∈ Script.unfolded [] (plan.problemCommands s), t.eval T I = some (.bool true)) ↔
      ∀ t ∈ Script.unfolded [] (plan.incrementCommands s), t.eval T I = some (.bool true) := by
  -- A table is about constants or not, and its equations are asserted in either case.
  have htables : (∀ t ∈ plan.tables, ∀ q ∈ t.equations, q.eval T I = some (.bool true)) ↔
      (∀ t ∈ plan.constantTables, ∀ q ∈ t.equations, q.eval T I = some (.bool true)) ∧
        ∀ q ∈ plan.equations, q.eval T I = some (.bool true) := by
    rw [Plan.equations, List.forall_mem_flatMap, ← List.forall_mem_append]
    exact forall_congr' fun t => imp_congr_left (List.filter_append_perm _ _).mem_iff.symm
  have hfinal := FinalFormula.holds_commands_iff hcore p.toIncrement.constraints
  have hconstraints : FinalFormula.ofProblem p.constraints p.goal p.satisfiability =
      p.toIncrement.constraints.filterMap FinalFormula.ofConstraint? :=
    FinalFormula.ofProblem_eq _ _ _
  rw [← hconstraints] at hfinal
  rw [hplan.unfolded_problemCommands hp hs, hplan.unfolded_incrementCommands hp hs]
  simp only [List.forall_mem_append, TableSetup.holds_unfolded_flatMap_iff hcore, htables, hfinal]
  tauto

end IsPlan

/-- An input with its negation, a table about the truth values and one about the input, an array and
a change of it, and constraints of which the second one is trivially true. -/
def mixedTables : Problem where
  kinds := [.bool]
  inputs := [⟨⟨0, .bool⟩, "x"⟩]
  quantified := [.existential ⟨0, .bool⟩ []]
  tables := [⟨0, .bool, .bool, [Node.ofBool true, Node.ofBool false]⟩,
    ⟨1, .bool, .bool, [⟨0, .bool⟩]⟩]
  arrays := [⟨0, "memory", .bool, .bool, .free none⟩,
    ⟨1, "changed", .bool, .bool, .mutate 0 ⟨0, .bool⟩ (Node.ofBool true)⟩]
  assignments := [⟨⟨1, .bool⟩, ⟨.not, [⟨0, .bool⟩]⟩⟩]
  constraints := [
    { literal := ⟨1, .bool⟩, soft := true, attributes := [(":weight", "2")] },
    { literal := Node.ofBool false, soft := true, negated := true },
    { literal := ⟨1, .bool⟩, negated := true }]
  goal := ⟨0, .bool⟩

end Problem

end SolverScript
