import SolverScript.Proofs.Problem.References
import SolverScript.Proofs.Script.CommandForms
import SolverScript.Proofs.Semantics.Script
import SolverScript.Script.OfIncrement

/-!
# Plans and their commands

What is known about a script once it is there: the problem has been planned, and each section of the
script has been written. Sections that only declare sorts or choose settings do nothing in a run. The
script of an increment has sections as well.

## Main definitions

* `Problem.IsPlan` - the plan of a problem

## Main results

* `Problem.exists_plan_of_compile` - a script is the commands of a plan
* `Plan.exists_sections_of_commands`, `Increment.exists_sections_of_compile` - the sections of a
  script
* `Plan.runs_sections_iff` - the sections that matter in a run
-/

namespace SolverScript

/-- What makes a plan the one of a problem. -/
structure Problem.IsPlan (config : Config) (p : Problem) (plan : Plan) : Prop where
  references : p.checkReferences = .ok ()
  ofProblem : plan.problem = p
  ofConfig : plan.config = config
  features : plan.features = Features.detect (KindSet.closure p.kinds) p.assignments p.arrays
  skolems : plan.skolems = p.skolems
  logic : ∃ query : LogicQuery, query.choose config = .ok plan.logic
  tables : p.tables.mapM (TableSetup.ofTable config p.skolems p.universals p.constants) =
    .ok plan.tables
  arrays : p.arrays.mapM
    (ArraySetup.ofArray config (!p.universals.isEmpty) p.constants p.skolems) = .ok plan.arrays
  early : plan.early = p.assignments.takeWhile p.isEarly
  late : plan.late = p.assignments.dropWhile p.isEarly
  conclusion : p.conclude = .ok plan.conclusion

theorem Problem.isPlan_of_plan {config : Config} {p : Problem} {plan : Plan}
    (h : p.plan config = .ok plan) : p.IsPlan config plan := by
  unfold Problem.plan at h
  obtain ⟨_, hreferences, h⟩ := bind_eq_ok_iff.mp h
  obtain ⟨logic, hlogic, h⟩ := bind_eq_ok_iff.mp h
  obtain ⟨tables, htables, h⟩ := bind_eq_ok_iff.mp h
  obtain ⟨arrays, harrays, h⟩ := bind_eq_ok_iff.mp h
  obtain ⟨conclusion, hconclusion, h⟩ := bind_eq_ok_iff.mp h
  cases h
  exact ⟨hreferences, rfl, rfl, rfl, rfl, ⟨_, hlogic⟩, htables, harrays, rfl, rfl, hconclusion⟩

/-- A script is there only if its problem has a plan, and then it is made of the plan's commands. -/
theorem Problem.exists_plan_of_compile {config : Config} {p : Problem} {script : CompiledScript}
    (h : p.compile config = .ok script) :
    ∃ plan, p.IsPlan config plan ∧ plan.commands = .ok script.commands := by
  unfold Problem.compile at h
  obtain ⟨plan, hplan, h⟩ := bind_eq_ok_iff.mp h
  obtain ⟨commands, hcommands, h⟩ := bind_eq_ok_iff.mp h
  cases h
  exact ⟨plan, isPlan_of_plan hplan, hcommands⟩

namespace Problem.IsPlan

variable {config : Config} {p : Problem} {plan : Plan} (hplan : p.IsPlan config plan)

include hplan

theorem tables_eq_nil (htables : p.tables = []) : plan.tables = [] := by
  have h := hplan.tables
  rw [htables] at h
  exact (Except.ok.inj h).symm

theorem arrays_eq_nil (harrays : p.arrays = []) : plan.arrays = [] := by
  have h := hplan.arrays
  rw [harrays] at h
  exact (Except.ok.inj h).symm

/-- Without tables there are no equations of tables to assert. -/
theorem equations_eq_nil (htables : p.tables = []) : plan.equations = [] := by
  rw [Plan.equations, Plan.deferredTables, hplan.tables_eq_nil htables]
  rfl

/-- Without universal nodes the final formulas are asserted one by one. -/
theorem conclusion_of_open (huniversals : p.universals = []) :
    plan.conclusion = .separate (FinalFormula.commands p.skolems
      (FinalFormula.ofProblem p.constraints p.goal p.satisfiability)) := by
  have h := hplan.conclusion
  rw [conclude, Conclusion.ofFormulas, huniversals] at h
  exact (Except.ok.inj h).symm

/-- Under universal nodes the final formulas are hard ones, and their conjunction is asserted. -/
theorem conclusion_of_quantified (huniversals : p.universals ≠ []) :
    (∀ f ∈ FinalFormula.ofProblem p.constraints p.goal p.satisfiability, f.soft = false) ∧
      plan.conclusion = .underUniversals (Literal.conjunction p.skolems
        ((FinalFormula.ofProblem p.constraints p.goal p.satisfiability).map
          FinalFormula.literal)) := by
  have h := hplan.conclusion
  have hnonempty : p.universals.isEmpty = false := by simpa using huniversals
  rw [conclude, Conclusion.ofFormulas, hnonempty] at h
  generalize FinalFormula.ofProblem p.constraints p.goal p.satisfiability = formulas at h ⊢
  simp only [FinalFormula.conjoined, Bool.false_eq_true, if_false] at h
  split at h
  · cases h
  · split at h
    · cases h
    · next hsoft =>
      exact ⟨by simpa using hsoft, (Except.ok.inj h).symm⟩

/-- Without universal nodes the equations of tables are asserted, and then the final formulas. -/
theorem conclusionCommands_of_open (huniversals : p.universals = []) :
    plan.conclusionCommands = .ok (plan.openCommands (FinalFormula.commands p.skolems
      (FinalFormula.ofProblem p.constraints p.goal p.satisfiability))) := by
  rw [Plan.conclusionCommands, hplan.conclusion_of_open huniversals]

/-- Under universal nodes the conclusion is a single assertion that binds them. -/
theorem exists_block (huniversals : p.universals ≠ []) {conclusion : List Command}
    (h : plan.conclusionCommands = .ok conclusion) :
    ∃ block, conclusion = [.assertForAll block] ∧ block.universals = p.universals := by
  rw [Plan.conclusionCommands, (hplan.conclusion_of_quantified huniversals).2] at h
  obtain ⟨definitions, -, h⟩ := bind_eq_ok_iff.mp h
  cases h
  exact ⟨_, rfl, congrArg Problem.universals hplan.ofProblem⟩

end Problem.IsPlan

/-- The commands that choose how the solver works, and remarks. -/
inductive Command.IsSetting : Command → Prop
  | note (text : String) : IsSetting (.note text)
  | setting (line : String) : IsSetting (.setting line)
  | setLogic (name remark : String) : IsSetting (.setLogic name remark)

theorem Command.IsSetting.isInert {c : Command} (hc : c.IsSetting) : c.IsInert := by
  cases hc <;> trivial

theorem Features.isSetting_flattenCommands (f : Features) (c : Capabilities) :
    ∀ d ∈ f.flattenCommands c, d.IsSetting := by
  unfold flattenCommands
  split
  · exact List.forall_mem_map.mpr fun _ _ => .setting _
  · simp

namespace Plan

/-- The commands before the first declaration of a node. -/
def opening (plan : Plan) (tuples : List Command) : List Command :=
  plan.headCommands ++
    .note "--- uninterpreted sorts ---" :: plan.features.sortCommands ++
    .note "--- tuples ---" :: tuples ++
    .note "--- sums ---" :: plan.features.datatypeCommands ++ [.note "--- literal constants ---"]

/-- The commands between the declarations of inputs and the first definition. -/
def middle (plan : Plan) (freeSymbols : List Command) : List Command :=
  .note "--- constant tables ---" :: plan.constantTables.flatMap TableSetup.constantCommands ++
    .note "--- skolemized tables ---" ::
      plan.deferredTables.map
        (fun t => TableSetup.deferredDeclaration plan.problem.universals t.table) ++
    .note "--- arrays ---" :: plan.arrays.flatMap ArraySetup.declarations ++
    .note "--- uninterpreted constants ---" :: freeSymbols ++ plan.reversalCommands ++
    .note "--- user given axioms ---" :: plan.problem.postulates.map .postulate ++
    [.note "--- preQuantifier assignments ---"]

/-- The commands between the last definition and the conclusion. -/
def arrayCommands (plan : Plan) : List Command :=
  .note "--- arrayDelayeds ---" :: plan.arrays.flatMap ArraySetup.deferred ++
    .note "--- arraySetups ---" :: plan.arrays.flatMap ArraySetup.setup ++
    [.note "--- formula ---"]

/-- The sections of a script. -/
theorem exists_sections_of_commands {plan : Plan} {commands : List Command}
    (h : plan.commands = .ok commands) :
    ∃ tuples constants existentials trackers freeSymbols definitions conclusion,
      plan.features.tupleCommands = .ok tuples ∧
      commandsOf (Declaration.constant plan.config) plan.problem.constants = .ok constants ∧
      commandsOf plan.existentialCommands plan.problem.existentials = .ok existentials ∧
      plan.trackerCommands = .ok trackers ∧
      commandsOf (fun s => Declaration.symbol s.name s.signature "") plan.problem.freeSymbols =
        .ok freeSymbols ∧
      commandsOf plan.scope.definitionCommands plan.early = .ok definitions ∧
      plan.conclusionCommands = .ok conclusion ∧
      commands =
        plan.opening tuples ++ constants ++ .note "--- skolem constants ---" :: existentials ++
          trackers ++ plan.middle freeSymbols ++ definitions ++ plan.arrayCommands ++
          conclusion := by
  unfold Plan.commands at h
  obtain ⟨tuples, htuples, h⟩ := bind_eq_ok_iff.mp h
  obtain ⟨constants, hconstants, h⟩ := bind_eq_ok_iff.mp h
  obtain ⟨existentials, hexistentials, h⟩ := bind_eq_ok_iff.mp h
  obtain ⟨trackers, htrackers, h⟩ := bind_eq_ok_iff.mp h
  obtain ⟨freeSymbols, hfreeSymbols, h⟩ := bind_eq_ok_iff.mp h
  obtain ⟨definitions, hdefinitions, h⟩ := bind_eq_ok_iff.mp h
  obtain ⟨conclusion, hconclusion, h⟩ := bind_eq_ok_iff.mp h
  obtain rfl : _ = commands := Except.ok.inj h
  refine ⟨tuples, constants, existentials, trackers, freeSymbols, definitions, conclusion, htuples,
    hconstants, hexistentials, htrackers, hfreeSymbols, hdefinitions, hconclusion, ?_⟩
  simp [opening, middle, arrayCommands]

/-! ### Sections that do nothing -/

theorem isSetting_logic {plan : Plan} {query : LogicQuery}
    (h : query.choose plan.config = .ok plan.logic) : plan.logic.command.IsSetting := by
  unfold LogicQuery.choose at h
  split at h
  · rw [← Except.ok.inj h, LogicQuery.userChoice]
    split
    · exact .note _
    · exact .setLogic _ _
  · split at h
    · rw [← Except.ok.inj h, LogicQuery.bestChoice]
      repeat' split
      all_goals exact .setLogic _ _
    · cases h
  · cases h

/-- The head of a script consists of remarks and settings. -/
theorem isSetting_headCommands {plan : Plan} {query : LogicQuery}
    (h : query.choose plan.config = .ok plan.logic) : ∀ c ∈ plan.headCommands, c.IsSetting := by
  unfold headCommands
  simp only [List.forall_mem_append, List.forall_mem_map, List.forall_mem_singleton]
  exact ⟨⟨⟨⟨fun _ _ => .note _, fun _ _ => .setting _⟩, .setting _⟩,
    plan.features.isSetting_flattenCommands _⟩, isSetting_logic h⟩

theorem isInert_sortCommands (f : Features) : ∀ c ∈ f.sortCommands, c.IsInert :=
  List.forall_mem_flatMap.mpr fun _ _ =>
    Declaration.forall_mem_userSort trivial fun _ _ => ⟨trivial, trivial⟩

theorem isInert_tupleCommands {f : Features} {cs : List Command}
    (h : f.tupleCommands = .ok cs) : ∀ c ∈ cs, c.IsInert :=
  Features.forall_mem_tupleCommands h fun _ => trivial

theorem isInert_datatypeCommands (f : Features) : ∀ c ∈ f.datatypeCommands, c.IsInert :=
  f.forall_mem_datatypeCommands trivial trivial trivial

/-- Nothing happens before the first declaration of a node. -/
theorem isInert_opening {plan : Plan} {query : LogicQuery} {tuples : List Command}
    (hlogic : query.choose plan.config = .ok plan.logic)
    (htuples : plan.features.tupleCommands = .ok tuples) :
    ∀ c ∈ plan.opening tuples, c.IsInert := by
  simp only [opening, List.forall_mem_append, List.forall_mem_cons]
  exact ⟨⟨⟨⟨fun c hc => (isSetting_headCommands hlogic c hc).isInert, trivial,
    isInert_sortCommands _⟩, trivial, isInert_tupleCommands htuples⟩, trivial,
    isInert_datatypeCommands _⟩, trivial, by simp⟩

theorem isInert_reversalCommands (plan : Plan) : ∀ c ∈ plan.reversalCommands, c.IsInert :=
  plan.forall_mem_reversalCommands trivial fun _ _ => trivial

/-- Without tables, arrays and free symbols nothing happens between the declarations of inputs and
the first definition. -/
theorem isInert_middle {plan : Plan} (htables : plan.tables = []) (harrays : plan.arrays = []) :
    ∀ c ∈ plan.middle [], c.IsInert := by
  simp only [middle, constantTables, deferredTables, htables, harrays, List.filter_nil,
    List.flatMap_nil, List.map_nil, List.forall_mem_append, List.forall_mem_cons,
    List.forall_mem_map]
  exact ⟨⟨⟨⟨⟨⟨⟨trivial, by simp⟩, trivial, by simp⟩, trivial, by simp⟩, trivial, by simp⟩,
    isInert_reversalCommands plan⟩, trivial, fun _ _ => trivial⟩, trivial, by simp⟩

theorem isInert_arrayCommands {plan : Plan} (harrays : plan.arrays = []) :
    ∀ c ∈ plan.arrayCommands, c.IsInert := by
  simp only [arrayCommands, harrays, List.flatMap_nil, List.forall_mem_append,
    List.forall_mem_cons]
  exact ⟨⟨⟨trivial, by simp⟩, trivial, by simp⟩, trivial, by simp⟩

/-- Without tables, arrays and free symbols, only the declarations, the definitions and the
conclusion of a script matter. -/
theorem runs_sections_iff {α : Type} {T : Theory α} {plan : Plan}
    {tuples constants existentials trackers definitions conclusion : List Command}
    (hopening : ∀ c ∈ plan.opening tuples, c.IsInert) (htables : plan.tables = [])
    (harrays : plan.arrays = []) (I J : Interpretation α) :
    Script.Runs T (plan.opening tuples ++ constants ++
        .note "--- skolem constants ---" :: existentials ++ trackers ++ plan.middle [] ++
          definitions ++ plan.arrayCommands ++ conclusion) I J ↔
      ∃ K, Script.Runs T (constants ++ (existentials ++ trackers) ++ definitions) I K ∧
        Script.Runs T conclusion K J := by
  have hopening : ∀ I K, Script.Runs T (plan.opening tuples) I K ↔ K = I :=
    fun I K => Script.runs_of_inert hopening
  have hmiddle : ∀ I K, Script.Runs T (plan.middle []) I K ↔ K = I :=
    fun I K => Script.runs_of_inert (isInert_middle htables harrays)
  have harrayCommands : ∀ I K, Script.Runs T plan.arrayCommands I K ↔ K = I :=
    fun I K => Script.runs_of_inert (isInert_arrayCommands harrays)
  have hnote : ∀ text I K, (Command.note text).Runs T I K ↔ K = I :=
    fun text I K => Command.IsInert.runs_iff trivial
  rw [← Script.runs_append]
  simp only [List.append_assoc, List.cons_append, Script.runs_append, Script.runs_cons,
    hopening, hmiddle, harrayCommands, hnote, exists_eq_left]

end Plan

/-! ### Increments -/

namespace Increment

/-- The sections of an increment's script. -/
theorem exists_sections_of_compile {config : Config} {i : Increment} {script : CompiledScript}
    (h : i.compile config = .ok script) :
    ∃ tables arrays tuples constants inputs freeSymbols definitions,
      i.tables.mapM (TableSetup.ofTable config [] [] i.knownConstants) = .ok tables ∧
      i.arrays.mapM (ArraySetup.ofArray config false i.knownConstants []) = .ok arrays ∧
      (Features.detect (KindSet.closure i.kinds) i.assignments i.arrays).tupleCommands =
        .ok tuples ∧
      commandsOf (Declaration.constant config) i.constants = .ok constants ∧
      commandsOf (fun n : NamedNode => Declaration.symbol n.node.name [n.node.kind] "") i.inputs =
        .ok inputs ∧
      commandsOf (fun s => Declaration.symbol s.name s.signature "") i.freeSymbols =
        .ok freeSymbols ∧
      commandsOf (i.scope config).definitionCommands i.assignments = .ok definitions ∧
      script.commands =
        (Features.detect (KindSet.closure i.kinds) i.assignments i.arrays).flattenCommands
            config.capabilities ++
          (Features.detect (KindSet.closure i.kinds) i.assignments i.arrays).sortCommands ++
          tuples ++
          (Features.detect (KindSet.closure i.kinds) i.assignments i.arrays).datatypeCommands ++
          constants ++ inputs ++ arrays.flatMap ArraySetup.declarations ++ freeSymbols ++
          tables.map (fun t => TableSetup.declaration t.table) ++ definitions ++
          arrays.flatMap ArraySetup.deferred ++ tables.flatMap TableSetup.initializers ++
          arrays.flatMap ArraySetup.setup ++ i.constraints.map constraintCommand := by
  unfold compile at h
  obtain ⟨tables, htables, h⟩ := bind_eq_ok_iff.mp h
  obtain ⟨arrays, harrays, h⟩ := bind_eq_ok_iff.mp h
  obtain ⟨tuples, htuples, h⟩ := bind_eq_ok_iff.mp h
  obtain ⟨constants, hconstants, h⟩ := bind_eq_ok_iff.mp h
  obtain ⟨inputs, hinputs, h⟩ := bind_eq_ok_iff.mp h
  obtain ⟨freeSymbols, hfreeSymbols, h⟩ := bind_eq_ok_iff.mp h
  obtain ⟨definitions, hdefinitions, h⟩ := bind_eq_ok_iff.mp h
  obtain rfl := Except.ok.inj h
  exact ⟨tables, arrays, tuples, constants, inputs, freeSymbols, definitions, htables, harrays,
    htuples, hconstants, hinputs, hfreeSymbols, hdefinitions, rfl⟩

/-- A constraint is a soft assertion or a hard one. -/
theorem constraintCommand_cases (c : Constraint) :
    ∃ t, constraintCommand c = .assertSoft t ∨ constraintCommand c = .assert t := by
  unfold constraintCommand
  dsimp only
  split
  · exact ⟨_, .inl rfl⟩
  · exact ⟨_, .inr rfl⟩

end Increment

end SolverScript
