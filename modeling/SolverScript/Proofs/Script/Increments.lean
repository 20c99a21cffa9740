import SolverScript.Proofs.Script.DeclareBeforeUse
import SolverScript.Proofs.Script.DirectCommands
import SolverScript.Proofs.Script.TableEquations

/-!
# Problems as increments

A problem without universals, dependent inputs, trackers, postulates and reversals can also be given
to the solver as an increment, with the goal as one more constraint. The two scripts have the same
sections in another order. In the script of the problem, tables about constants come with their
initializers and the equations of the others are asserted directly; in the increment all tables have
initializers. The final assertions of the problem are normalised, those of the increment are not.

## Main definitions

* `Problem.toIncrement` - the increment with all parts of a problem
* `Problem.IsIncremental` - the problems that have nothing an increment cannot have
* `SharedSections` - the sections that both scripts have

## Main results

* `Problem.IsPlan.exists_shared_sections` - both scripts are made of the same sections
* `Problem.IsPlan.perm_declarations` - both scripts declare and define the same
* `Problem.IsPlan.unfolded_problemCommands`, `Problem.IsPlan.unfolded_incrementCommands` - what each
  of them asserts
* `FinalFormula.holds_commands_iff` - the final assertions of both are equivalent
-/

namespace SolverScript

variable {config : Config} {p : Problem} {plan : Plan}

namespace Problem

/-- The increment with all parts of a problem. The goal becomes a hard constraint. -/
def toIncrement (p : Problem) : Increment where
  inputs := p.existentials.map fun input => ⟨input.1, (p.userName? input.1).getD ""⟩
  kinds := p.kinds
  knownConstants := p.constants
  constants := p.constants
  arrays := p.arrays
  tables := p.tables
  freeSymbols := p.freeSymbols
  assignments := p.assignments
  constraints := p.constraints ++ [{ literal := p.goal, negated := !p.satisfiability }]

/-- Whether a problem has nothing that an increment cannot have: no universal input and no dependent
one, no trackers, no postulates and no reversals. -/
structure IsIncremental (p : Problem) : Prop where
  universals : p.universals = []
  dependencies : ∀ input ∈ p.existentials, input.2 = []
  trackers : p.trackers = []
  postulates : p.postulates = []
  reversals : ∀ a ∈ p.assignments, Features.reversal? a.operation.operator = none

namespace IsIncremental

variable (hp : p.IsIncremental)

include hp

theorem skolems : p.skolems = [] := by
  rw [Problem.skolems, List.filter_eq_nil_iff]
  intro input hinput
  simp [hp.dependencies input hinput]

theorem reversalsOf : Features.reversalsOf (p.assignments.map fun a => a.operation.operator) =
    [] := by
  have hnone : (p.assignments.map fun a => a.operation.operator).filterMap Features.reversal? =
      [] := by
    rw [List.filterMap_eq_nil_iff]
    exact List.forall_mem_map.mpr hp.reversals
  rw [Features.reversalsOf, hnone]
  rfl

end IsIncremental

end Problem

/-- The names of an increment and those of the script of its problem are the same. -/
theorem Problem.IsPlan.definitionCommands_toIncrement (hplan : p.IsPlan config plan)
    (hp : p.IsIncremental) :
    plan.scope.definitionCommands = (p.toIncrement.scope config).definitionCommands := by
  have hreversals : plan.reversals = [] := by
    have hfeatures : plan.features.reversals = [] := hplan.features ▸ hp.reversalsOf
    simp [Plan.reversals, hfeatures]
  have hscope : p.toIncrement.scope config =
      { plan.scope with tables := (p.toIncrement.scope config).tables } := by
    simp [Plan.scope, Increment.scope, hplan.ofConfig, hplan.skolems, hp.skolems, hreversals]
  have hheads : ∀ id, plan.scope.tables.head id = (p.toIncrement.scope config).tables.head id := by
    intro id
    rw [hplan.head_of_open hp.universals]
    exact (TableMap.head_eq (List.forall_mem_map.mpr fun _ _ => rfl) id).symm
  funext a
  rw [hscope]
  exact plan.scope.definitionCommands_congr hheads a

/-! ### The sections of both scripts -/

/-- The sections that the script of a problem shares with the one of its increment. -/
structure SharedSections where
  tuples : List Command
  constants : List Command
  existentials : List Command
  freeSymbols : List Command
  definitions : List Command

namespace Plan

/-- The commands of a script without universals, trackers, postulates and reversals. -/
def problemCommands (plan : Plan) (s : SharedSections) : List Command :=
  plan.opening s.tuples ++ s.constants ++ .note "--- skolem constants ---" :: s.existentials ++
    plan.middle s.freeSymbols ++ s.definitions ++ plan.arrayCommands ++
    plan.openCommands (FinalFormula.commands [] (FinalFormula.ofProblem plan.problem.constraints
      plan.problem.goal plan.problem.satisfiability))

/-- The commands of the increment with all parts of the problem. -/
def incrementCommands (plan : Plan) (s : SharedSections) : List Command :=
  plan.features.flattenCommands plan.config.capabilities ++ plan.features.sortCommands ++
    s.tuples ++ plan.features.datatypeCommands ++ s.constants ++
    s.existentials.map Command.withoutRemark ++
    plan.arrays.flatMap ArraySetup.declarations ++ s.freeSymbols ++
    plan.tables.map (fun t => TableSetup.declaration t.table) ++ s.definitions ++
    plan.arrays.flatMap ArraySetup.deferred ++ plan.tables.flatMap TableSetup.initializers ++
    plan.arrays.flatMap ArraySetup.setup ++
    plan.problem.toIncrement.constraints.map Increment.constraintCommand

/-- The definitions of initializers of arrays, the latest first. -/
def arrayDefinitions (plan : Plan) : List (String × Term) :=
  (Script.initializers (plan.arrays.flatMap ArraySetup.deferred)).reverse ++
    (Script.initializers (plan.arrays.flatMap ArraySetup.declarations)).reverse

/-- Whether shared sections are those of a plan: tuples, and direct commands. -/
structure Shares (plan : Plan) (s : SharedSections) : Prop where
  tuples : plan.features.tupleCommands = .ok s.tuples
  constants : ∀ c ∈ s.constants, c.IsDirect
  existentials : ∀ c ∈ s.existentials, c.IsDirect
  freeSymbols : ∀ c ∈ s.freeSymbols, c.IsDirect
  definitions : ∀ c ∈ s.definitions, c.IsDirect

end Plan

namespace Problem.IsPlan

variable (hplan : p.IsPlan config plan) (hp : p.IsIncremental)

include hplan hp

/-- The script of a problem and the one of its increment are made of the same sections. The
increment has a script whenever the problem has one. -/
theorem exists_shared_sections {commands : List Command} (h : plan.commands = .ok commands) :
    ∃ s, plan.Shares s ∧ commands = plan.problemCommands s ∧
      ∃ incremental, p.toIncrement.compile config = .ok incremental ∧
        incremental.commands = plan.incrementCommands s := by
  obtain ⟨tuples, constants, existentials, trackers, freeSymbols, definitions, conclusion, htuples,
    hconstants, hexistentials, htrackers, hfreeSymbols, hdefinitions, hconclusion, rfl⟩ :=
    Plan.exists_sections_of_commands h
  have hproblem := hplan.ofProblem
  have hconfig := hplan.ofConfig
  have hnoTrackers : trackers = [] := by
    rw [Plan.trackerCommands, hproblem, hp.trackers] at htrackers
    exact (Except.ok.inj htrackers).symm
  rw [hplan.conclusionCommands_of_open hp.universals, hp.skolems] at hconclusion
  -- The increment declares the same inputs, but does not know what the user calls them.
  have hinputs : commandsOf
      (fun input : NamedNode => Declaration.symbol input.node.name [input.node.kind] "")
      p.toIncrement.inputs = .ok (existentials.map Command.withoutRemark) := by
    rw [hproblem] at hexistentials
    refine commandsOf_map hexistentials fun input hinput ds hds => ?_
    have hsymbol := Declaration.symbol_withoutRemark hds
    rwa [hp.dependencies input hinput] at hsymbol
  have htables := hplan.tables
  have harrays := hplan.arrays
  rw [hp.skolems, hp.universals] at htables harrays
  rw [hplan.early_of_open hp.universals, hplan.definitionCommands_toIncrement hp] at hdefinitions
  rw [hproblem, hconfig] at hconstants
  rw [hproblem] at hfreeSymbols
  rw [hplan.features] at htuples
  refine ⟨⟨tuples, constants, existentials, freeSymbols, definitions⟩, ?_, ?_, ?_⟩
  · exact ⟨hplan.features ▸ htuples,
      forall_mem_commandsOf hconstants fun _ _ _ => Declaration.isDirect_constant,
      forall_mem_commandsOf hexistentials fun _ _ _ => Declaration.isDirect_symbol,
      forall_mem_commandsOf hfreeSymbols fun _ _ _ => Declaration.isDirect_symbol,
      forall_mem_commandsOf hdefinitions fun _ _ _ => Scope.isDirect_definitionCommands⟩
  · rw [Plan.problemCommands, hproblem, Except.ok.inj hconclusion, hnoTrackers, List.append_nil]
  · refine ⟨_, bind_eq_ok_iff.mpr ⟨_, htables, bind_eq_ok_iff.mpr ⟨_, harrays,
      bind_eq_ok_iff.mpr ⟨_, htuples, bind_eq_ok_iff.mpr ⟨_, hconstants,
        bind_eq_ok_iff.mpr ⟨_, hinputs, bind_eq_ok_iff.mpr ⟨_, hfreeSymbols,
          bind_eq_ok_iff.mpr ⟨_, hdefinitions, rfl⟩⟩⟩⟩⟩⟩⟩, ?_⟩
    rw [Plan.incrementCommands, hproblem, hconfig, hplan.features]
    rfl

end Problem.IsPlan

/-! ### Declarations -/

namespace Script

theorem declarations_flatMap_eq_nil {β : Type} {f : β → List Command} {bs : List β}
    (h : ∀ b ∈ bs, declarations (f b) = []) : declarations (bs.flatMap f) = [] := by
  induction bs with
  | nil => rfl
  | cons b bs ih =>
    obtain ⟨hb, hbs⟩ := List.forall_mem_cons.mp h
    rw [List.flatMap_cons, declarations_append, hb, ih hbs, List.append_nil]

theorem declarations_tables (tables : List TableSetup) :
    declarations (tables.map fun t => TableSetup.declaration t.table) =
      tables.map fun t => TableSetup.declaration t.table := by
  simp [declarations, List.filterMap_map, TableSetup.declaration, Command.declaration?,
    Function.comp_def]

/-- Tables about constants are declared with their initializers. -/
theorem declarations_constantTables (tables : List TableSetup) :
    declarations (tables.flatMap TableSetup.constantCommands) =
      tables.map fun t => TableSetup.declaration t.table := by
  induction tables with
  | nil => rfl
  | cons t tables ih =>
    have ht : declarations t.constantCommands = [TableSetup.declaration t.table] := by
      rw [TableSetup.constantCommands, ← List.singleton_append, declarations_append,
        t.declarations_initializers, List.append_nil]
      rfl
    rw [List.flatMap_cons, declarations_append, ht, ih]
    rfl

end Script

namespace Plan

theorem declarations_headCommands {query : LogicQuery}
    (h : query.choose plan.config = .ok plan.logic) :
    Script.declarations plan.headCommands = [] :=
  Script.declarations_eq_nil fun c hc => (isSetting_headCommands h c hc).declaration?

/-- Functions that reverse lists are left out of the comparison. -/
theorem declarations_reversalCommands (plan : Plan) :
    Script.declarations plan.reversalCommands = [] := by
  refine Script.declarations_eq_nil (List.forall_mem_append.mpr ⟨?_, ?_⟩)
  · split
    · simp
    · exact List.forall_mem_singleton.mpr rfl
  · exact List.forall_mem_map.mpr fun _ _ => rfl

theorem declarations_openCommands (plan : Plan) (formulas : List FinalFormula) :
    Script.declarations (plan.openCommands (FinalFormula.commands [] formulas)) = [] := by
  refine Script.declarations_eq_nil ?_
  unfold openCommands FinalFormula.commands
  simp only [List.forall_mem_append, List.forall_mem_map, List.forall_mem_cons]
  exact ⟨⟨⟨⟨rfl, rfl, by simp⟩, fun _ _ => rfl⟩, rfl, by simp⟩, fun _ _ => rfl, fun _ _ => rfl⟩

/-- The tables about constants and the other ones are all tables, in another order. -/
theorem perm_tables (plan : Plan) :
    ((plan.constantTables.map fun t => TableSetup.declaration t.table) ++
      plan.deferredTables.map fun t => TableSetup.declaration t.table).Perm
        (plan.tables.map fun t => TableSetup.declaration t.table) := by
  rw [← List.map_append]
  exact (List.filter_append_perm _ _).map _

end Plan

/-! ### Final formulas and constraints -/

/-- Without dependent inputs the term of a literal is made of the symbol of a node. -/
theorem Literal.term_ne_symbol (l : Literal) (s : String) : l.term [] ≠ .symbol s := by
  unfold Literal.term
  split <;> exact Term.noConfusion

theorem Term.withAttributes_ne_symbol {attributes : List (String × String)} {t : Term}
    (h : ∀ s, t ≠ symbol s) (s : String) : withAttributes attributes t ≠ symbol s := by
  unfold withAttributes
  split
  · exact h s
  · exact Term.noConfusion

theorem FinalFormula.isTransparent_commands (formulas : List FinalFormula) :
    ∀ c ∈ commands [] formulas, c.IsTransparent := by
  refine List.forall_mem_append.mpr ⟨?_, ?_⟩
  · exact List.forall_mem_map.mpr fun f _ => (Command.isDirect_assert
      (Term.withAttributes_ne_symbol f.literal.term_ne_symbol)).toIsTransparent
  · exact List.forall_mem_map.mpr fun f _ => ⟨rfl, by simp [Command.required]⟩

namespace Increment

/-- The formula of a constraint, without its attributes. -/
def formula (c : Constraint) : Term :=
  if c.negated then Term.negation c.literal.term else c.literal.term

theorem constraintCommand_eq (c : Constraint) : constraintCommand c =
    if c.soft then .assertSoft (Term.withAttributes c.attributes (formula c))
    else .assert (Term.withAttributes c.attributes (formula c)) := rfl

theorem declarations_constraints (constraints : List Constraint) :
    Script.declarations (constraints.map constraintCommand) = [] := by
  refine Script.declarations_eq_nil (List.forall_mem_map.mpr fun c _ => ?_)
  obtain ⟨_, hc | hc⟩ := constraintCommand_cases c <;> simp [hc, Command.declaration?]

theorem isTransparent_constraintCommand (c : Constraint) : (constraintCommand c).IsTransparent := by
  have hformula : ∀ s, formula c ≠ .symbol s := by
    intro s
    unfold formula
    split <;> exact Term.noConfusion
  rw [constraintCommand_eq]
  split
  · exact ⟨rfl, by simp [Command.required]⟩
  · exact (Command.isDirect_assert (Term.withAttributes_ne_symbol hformula)).toIsTransparent

end Increment

/-! ### Hard formulas -/

namespace Term

variable {α : Type} {T : Theory α} {I : Interpretation α}

theorem eval_ofBool_of_core (hcore : T.InterpretsCore I) {n : Node} {b : Bool}
    (hn : n.id = (Node.ofBool b).id) : eval T I n.term = some (.bool b) := by
  rw [Node.term, hn]
  cases b with
  | true => exact congrFun (hcore ("true", _) List.mem_cons_self) []
  | false => exact congrFun (hcore ("false", _) (List.mem_cons_of_mem _ List.mem_cons_self)) []

theorem eval_negation_of_core (hcore : T.InterpretsCore I) {t : Term} {b : Bool}
    (ht : eval T I t = some (.bool b)) : eval T I (negation t) = some (.bool !b) := by
  have hnot := congrFun (hcore ("not", _)
    (List.mem_cons_of_mem _ (List.mem_cons_of_mem _ List.mem_cons_self))) [.bool b]
  rw [negation, eval_app_of_evalAll (evalAll_eq_some_iff.mpr (.cons ht .nil))]
  exact hnot

end Term

namespace Increment

variable {α : Type} {T : Theory α} {I : Interpretation α}

/-- What an increment asserts or suggests for a trivial constraint is true. -/
theorem eval_formula_of_isTrivial (hcore : T.InterpretsCore I) {c : Constraint}
    (h : c.isTrivial = true) : (formula c).eval T I = some (.bool true) := by
  unfold Constraint.isTrivial at h
  unfold formula
  split at h
  · next hnegated =>
    rw [if_pos hnegated]
    exact Term.eval_negation_of_core hcore
      (Term.eval_ofBool_of_core (b := false) hcore (beq_iff_eq.mp h))
  · next hnegated =>
    rw [if_neg hnegated]
    exact Term.eval_ofBool_of_core (b := true) hcore (beq_iff_eq.mp h)

/-- The formula of a constraint means the same in both scripts, even if it is the negation of
true. -/
theorem eval_formula (hcore : T.InterpretsCore I) (c : Constraint) :
    (formula c).eval T I = (c.requirement []).eval T I := by
  unfold formula Constraint.requirement
  cases c.negated with
  | false => rfl
  | true =>
    by_cases htrue : c.literal.isTrue = true
    · have hliteral := Term.eval_ofBool_of_core (b := true) hcore (beq_iff_eq.mp htrue)
      have hfalse := Term.eval_ofBool_of_core (n := Node.ofBool false) (b := false) hcore rfl
      simp only [Bool.not_true, Bool.false_eq_true, if_true, if_false, htrue]
      rw [Term.eval_negation_of_core hcore hliteral]
      exact hfalse.symm
    · simp only [Bool.not_true, Bool.false_eq_true, if_true, if_false, htrue]
      rfl

/-- An increment asserts the formulas of its hard constraints. -/
theorem holds_constraints_iff (constraints : List Constraint) :
    (∀ t ∈ (constraints.map constraintCommand).flatMap Command.required,
        t.eval T I = some (.bool true)) ↔
      ∀ c ∈ constraints, c.soft = false → (formula c).eval T I = some (.bool true) := by
  rw [List.flatMap_map, List.forall_mem_flatMap]
  refine forall₂_congr fun c _ => ?_
  rw [constraintCommand_eq]
  cases c.soft <;> simp [Command.required, Term.eval_withAttributes]

end Increment

/-- The goal is one more constraint. -/
theorem FinalFormula.ofProblem_eq (constraints : List Constraint) (goal : Node)
    (satisfiability : Bool) : ofProblem constraints goal satisfiability =
      (constraints ++ [Constraint.mk goal false [] (!satisfiability)]).filterMap
        ofConstraint? := by
  rw [ofProblem, List.filterMap_append]
  congr 1

/-- A problem asserts the literals of its hard formulas. -/
theorem FinalFormula.holds_iff {α : Type} {T : Theory α} {I : Interpretation α}
    (formulas : List FinalFormula) :
    (∀ t ∈ (commands [] formulas).flatMap Command.required, t.eval T I = some (.bool true)) ↔
      ∀ f ∈ formulas, f.soft = false → (f.literal.term []).eval T I = some (.bool true) := by
  simp only [List.forall_mem_flatMap, commands, List.forall_mem_append, List.forall_mem_map,
    Command.required, List.forall_mem_singleton, List.mem_filter, Bool.not_eq_true', and_imp, term,
    Term.eval_withAttributes]
  exact and_iff_left fun _ _ _ => by simp

/-- The formulas that are asserted in the end hold in one script when they do in the other. -/
theorem FinalFormula.holds_commands_iff {α : Type} {T : Theory α} {I : Interpretation α}
    (hcore : T.InterpretsCore I) (constraints : List Constraint) :
    (∀ t ∈ (commands [] (constraints.filterMap ofConstraint?)).flatMap Command.required,
        t.eval T I = some (.bool true)) ↔
      ∀ t ∈ (constraints.map Increment.constraintCommand).flatMap Command.required,
        t.eval T I = some (.bool true) := by
  rw [Increment.holds_constraints_iff, FinalFormula.holds_iff]
  -- Trivial constraints are left out by the problem, and true in the increment.
  constructor
  · intro h c hc hsoft
    cases htrivial : c.isTrivial with
    | true => exact Increment.eval_formula_of_isTrivial hcore htrivial
    | false =>
      obtain ⟨f, hf, hfsoft, -, hterm⟩ := exists_of_not_isTrivial [] htrivial
      rw [Increment.eval_formula hcore, ← hterm]
      exact h f (List.mem_filterMap.mpr ⟨c, hc, hf⟩) (hfsoft.trans hsoft)
  · intro h f hf hsoft
    obtain ⟨c, hc, hcf⟩ := List.mem_filterMap.mp hf
    cases htrivial : c.isTrivial with
    | true =>
      rw [ofConstraint?_of_isTrivial htrivial] at hcf
      cases hcf
    | false =>
      obtain ⟨f', hf', hfsoft, -, hterm⟩ := exists_of_not_isTrivial [] htrivial
      obtain rfl : f' = f := Option.some.inj (hf'.symm.trans hcf)
      rw [hterm, ← Increment.eval_formula hcore]
      exact h c hc (hfsoft.symm.trans hsoft)

/-! ### The scripts of a problem and of its increment -/

namespace Problem.IsPlan

variable (hplan : p.IsPlan config plan) (hp : p.IsIncremental)

include hplan hp

theorem arrays_of_open {s : ArraySetup} (hs : s ∈ plan.arrays) :
    ∃ a, ArraySetup.ofArray config false p.constants [] a = .ok s := by
  have harrays := hplan.arrays
  rw [hp.skolems, hp.universals] at harrays
  obtain ⟨a, -, ha⟩ := exists_of_mem_mapM harrays hs
  exact ⟨a, ha⟩

theorem declarations_arrays : Script.declarations (plan.arrays.flatMap ArraySetup.deferred) = [] ∧
    Script.declarations (plan.arrays.flatMap ArraySetup.setup) = [] := by
  constructor <;> refine Script.declarations_flatMap_eq_nil fun a ha => ?_ <;>
    obtain ⟨_, ha⟩ := hplan.arrays_of_open hp ha
  · exact (ArraySetup.sections_of_ofArray ha).2.1
  · exact (ArraySetup.sections_of_ofArray ha).2.2

/-- Both scripts declare the same sorts, data types and symbols, and define the same nodes. -/
theorem perm_declarations (s : SharedSections) :
    (Script.declarations (plan.problemCommands s)).Perm
      (Script.declarations (plan.incrementCommands s)) := by
  obtain ⟨query, hlogic⟩ := hplan.logic
  rw [← hplan.ofConfig] at hlogic
  obtain ⟨hdeferred, hsetup⟩ := hplan.declarations_arrays hp
  have hflatten : Script.declarations
      (plan.features.flattenCommands plan.config.capabilities) = [] :=
    Script.declarations_eq_nil fun c hc =>
      (plan.features.isSetting_flattenCommands _ c hc).declaration?
  have hpostulates : Script.declarations (plan.problem.postulates.map .postulate) = [] :=
    Script.declarations_eq_nil (List.forall_mem_map.mpr fun _ _ => rfl)
  have hdeferredTables : (plan.deferredTables.map fun t =>
      TableSetup.deferredDeclaration plan.problem.universals t.table) =
      plan.deferredTables.map fun t => TableSetup.declaration t.table := by
    rw [hplan.ofProblem, hp.universals]
    rfl
  have hinitializers : Script.declarations
      (plan.tables.flatMap TableSetup.initializers) = [] :=
    Script.declarations_flatMap_eq_nil fun t _ => t.declarations_initializers
  simp only [Plan.problemCommands, Plan.incrementCommands, Plan.opening, Plan.middle,
    Plan.arrayCommands, Script.declarations_append, Script.declarations_note,
    Plan.declarations_headCommands hlogic, hflatten, Plan.declarations_reversalCommands,
    hpostulates, hdeferred, hsetup, Plan.declarations_openCommands,
    Increment.declarations_constraints, hdeferredTables,
    Script.declarations_tables, Script.declarations_constantTables,
    Script.declarations_withoutRemark, hinitializers, Script.declarations_nil, List.nil_append,
    List.append_nil, List.append_assoc]
  -- The tables come before the arrays and free symbols in one script, and after them in the other.
  refine .append_left _ (.append_left _ (.append_left _ (.append_left _ (.append_left _ ?_))))
  rw [← List.append_assoc]
  refine (plan.perm_tables.append_right _).trans ((List.perm_append_comm_assoc _ _ _).trans ?_)
  exact .append_left _ (List.perm_append_comm_assoc _ _ _)

/-- Commands of arrays before their set-up define initializers and assert nothing. -/
theorem unfolded_append_arrays {f : ArraySetup → List Command}
    (hf : ∀ s, ∀ c ∈ f s, c ∈ s.declarations ++ s.deferred) (D : List (String × Term))
    (ds : List Command) : Script.unfolded D (plan.arrays.flatMap f ++ ds) =
      Script.unfolded ((Script.initializers (plan.arrays.flatMap f)).reverse ++ D) ds := by
  rw [Script.unfolded_append, Script.unfolded_of_required_eq_nil, List.nil_append]
  refine List.forall_mem_flatMap.mpr fun s hs c hc => ?_
  obtain ⟨a, ha⟩ := hplan.arrays_of_open hp hs
  exact (ArraySetup.sections_of_ofArray ha).1 c (hf s c hc)

/-- The set-up of arrays asserts the same after other definitions that do not concern arrays. -/
theorem unfolded_append_setup {D : List (String × Term)}
    (hD : ArraySetup.DefinedAlike D plan.arrayDefinitions) {ds : List Command}
    (hds : ∀ c ∈ ds, c.IsTransparent) :
    Script.unfolded D (plan.arrays.flatMap ArraySetup.setup ++ ds) =
      Script.unfolded plan.arrayDefinitions (plan.arrays.flatMap ArraySetup.setup) ++
        ds.flatMap Command.required := by
  rw [Script.unfolded_append, Script.unfolded_of_isTransparent hds,
    ArraySetup.unfolded_setup_congr (fun s hs => ?_) hD]
  obtain ⟨a, ha⟩ := hplan.arrays_of_open hp hs
  exact ⟨a.id, ArraySetup.exists_setup_of_ofArray rfl ha⟩

omit hp in
theorem equations_ne_symbol : ∀ q ∈ plan.equations, ∀ s, q ≠ .symbol s := by
  intro q hq
  obtain ⟨t, ht, hq⟩ := List.mem_flatMap.mp hq
  obtain ⟨table, -, htable⟩ := exists_of_mem_mapM hplan.tables (List.mem_filter.mp ht).1
  obtain ⟨_, _, _, -, -, rfl⟩ := (TableSetup.mem_equations_iff htable).mp hq
  exact fun s => Term.noConfusion

/-- What the script of a problem asserts, with initializers unfolded. -/
theorem unfolded_problemCommands {s : SharedSections} (hs : plan.Shares s) :
    Script.unfolded [] (plan.problemCommands s) =
      s.constants.flatMap Command.required ++ (s.existentials.flatMap Command.required ++
        (Script.unfolded [] (plan.constantTables.flatMap TableSetup.initializers) ++
          (s.freeSymbols.flatMap Command.required ++ (s.definitions.flatMap Command.required ++
            (Script.unfolded plan.arrayDefinitions (plan.arrays.flatMap ArraySetup.setup) ++
              (plan.equations ++ (FinalFormula.commands [] (FinalFormula.ofProblem
                p.constraints p.goal p.satisfiability)).flatMap Command.required)))))) := by
  obtain ⟨query, hlogic⟩ := hplan.logic
  rw [← hplan.ofConfig] at hlogic
  have hdeferredTables : ∀ D ds, Script.unfolded D (plan.deferredTables.map (fun t =>
      TableSetup.deferredDeclaration plan.problem.universals t.table) ++ ds) =
        Script.unfolded D ds :=
    fun D ds => Script.unfolded_append_of_silent (List.forall_mem_map.mpr fun _ _ => ⟨rfl, rfl⟩) ds
  have hpostulates : ∀ c ∈ plan.problem.postulates.map Command.postulate, c.IsInert :=
    List.forall_mem_map.mpr fun _ _ => trivial
  simp only [Plan.problemCommands, Plan.middle, Plan.arrayCommands, Plan.openCommands,
    List.append_assoc, List.cons_append, List.nil_append]
  -- Section by section: what defines initializers is remembered, and the rest asserts as it stands.
  rw [Script.unfolded_append_of_isInert (Plan.isInert_opening hlogic hs.tuples),
    Script.unfolded_append_of_isDirect hs.constants, Script.unfolded_note,
    Script.unfolded_append_of_isDirect hs.existentials,
    Script.unfolded_note, Script.unfolded_append, TableSetup.unfolded_constantCommands,
    TableSetup.initializers_constantCommands, Script.unfolded_note, hdeferredTables,
    Script.unfolded_note, hplan.unfolded_append_arrays hp (fun s c hc => List.mem_append_left _ hc),
    Script.unfolded_note, Script.unfolded_append_of_isDirect hs.freeSymbols,
    Script.unfolded_append_of_isInert (Plan.isInert_reversalCommands plan), Script.unfolded_note,
    Script.unfolded_append_of_isInert hpostulates, Script.unfolded_note,
    Script.unfolded_append_of_isDirect hs.definitions, Script.unfolded_note,
    hplan.unfolded_append_arrays hp (fun s c hc => List.mem_append_right _ hc),
    Script.unfolded_note, hplan.unfolded_append_setup hp]
  · have hequations : (plan.equations.map Command.assert).flatMap Command.required =
        plan.equations := by
      simp [List.flatMap_map, Command.required]
    have hnote : ∀ text cs, List.flatMap Command.required (.note text :: cs) =
        cs.flatMap Command.required := fun _ _ => rfl
    rw [hnote, hnote, hnote, List.flatMap_append, hequations, hnote, hplan.ofProblem]
  · rw [List.append_nil, ← List.append_assoc, Plan.arrayDefinitions]
    exact ArraySetup.definedAlike_append_right _ _
  · have hnote : ∀ text, (Command.note text).IsTransparent :=
      fun text => (Command.isDirect_note text).toIsTransparent
    simp only [List.forall_mem_cons, List.forall_mem_append, List.forall_mem_map]
    exact ⟨hnote _, hnote _, hnote _, fun q hq =>
      (Command.isDirect_assert (hplan.equations_ne_symbol q hq)).toIsTransparent, hnote _,
      FinalFormula.isTransparent_commands _⟩

/-- What the increment asserts, with initializers unfolded. -/
theorem unfolded_incrementCommands {s : SharedSections} (hs : plan.Shares s) :
    Script.unfolded [] (plan.incrementCommands s) =
      s.constants.flatMap Command.required ++ (s.existentials.flatMap Command.required ++
        (s.freeSymbols.flatMap Command.required ++ (s.definitions.flatMap Command.required ++
          (Script.unfolded plan.arrayDefinitions (plan.tables.flatMap TableSetup.initializers) ++
            (Script.unfolded plan.arrayDefinitions (plan.arrays.flatMap ArraySetup.setup) ++
              (p.toIncrement.constraints.map Increment.constraintCommand).flatMap
                Command.required))))) := by
  have hflatten : ∀ c ∈ plan.features.flattenCommands plan.config.capabilities, c.IsInert :=
    fun c hc => (plan.features.isSetting_flattenCommands _ c hc).isInert
  have hexistentials : (s.existentials.map Command.withoutRemark).flatMap Command.required =
      s.existentials.flatMap Command.required := by
    simp [List.flatMap_map]
  have htables : ∀ D ds, Script.unfolded D (plan.tables.map (fun t =>
      TableSetup.declaration t.table) ++ ds) = Script.unfolded D ds :=
    fun D ds => Script.unfolded_append_of_silent (List.forall_mem_map.mpr fun _ _ => ⟨rfl, rfl⟩) ds
  -- Section by section: settings, sorts and declarations require nothing.
  simp only [Plan.incrementCommands, List.append_assoc]
  rw [Script.unfolded_append_of_isInert hflatten,
    Script.unfolded_append_of_isInert (Plan.isInert_sortCommands plan.features),
    Script.unfolded_append_of_isInert (Plan.isInert_tupleCommands hs.tuples),
    Script.unfolded_append_of_isInert (Plan.isInert_datatypeCommands plan.features),
    Script.unfolded_append_of_isDirect hs.constants,
    Script.unfolded_append_of_isDirect (List.forall_mem_map.mpr fun c hc =>
      (hs.existentials c hc).withoutRemark), hexistentials,
    hplan.unfolded_append_arrays hp (fun s c hc => List.mem_append_left _ hc),
    Script.unfolded_append_of_isDirect hs.freeSymbols, htables,
    Script.unfolded_append_of_isDirect hs.definitions,
    hplan.unfolded_append_arrays hp (fun s c hc => List.mem_append_right _ hc), List.append_nil,
    ← Plan.arrayDefinitions, Script.unfolded_append, hplan.unfolded_append_setup hp
      (ArraySetup.definedAlike_append _), hplan.ofProblem]
  exact List.forall_mem_map.mpr fun c _ => Increment.isTransparent_constraintCommand c

end Problem.IsPlan

end SolverScript
