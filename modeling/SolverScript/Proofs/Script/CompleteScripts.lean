import SolverScript.Proofs.Script.ProperSteps

/-!
# Complete scripts

A script is read as a sequence of complete commands if the names and texts that the user has chosen
are proper. Under universal quantifiers there is one more condition: the parentheses that close the
assertion have to be countable by a 32-bit word.

## Main definitions

* `SessionStep.IsProper` - the names and texts of a step are what they should be
* `SessionStep.opened` - how many parentheses are open before a script's last formula

## Main results

* `SessionStep.isComplete_iff` - the scripts that are complete
-/

namespace SolverScript

/-- How many parentheses are open before the last formula of the script of a problem: one for each
local definition, two for the quantifier and its assertion, and one for the conjunction with the
equations of tables that wait for other nodes. -/
def Problem.opened (p : Problem) : Nat :=
  if p.universals.isEmpty then 0
  else (p.assignments.dropWhile p.isEarly).length + 2 +
    if p.tables.all fun t => t.elements.all p.constants.fixes then 0 else 1

namespace SessionStep

/-- Whether the names and texts of a step are what they should be. -/
def IsProper : SessionStep → Prop
  | problem p => p.IsProper
  | increment i => i.IsProper

/-- How many parentheses are open before the last formula of the script of a step. -/
def opened : SessionStep → Nat
  | problem p => p.opened
  | increment _ => 0

end SessionStep

/-! ### Problems -/

namespace Problem

variable {config : Config} {p : Problem} {plan : Plan} {script : CompiledScript}

/-- Tables wait just if they have elements that are not known from the start. -/
theorem IsPlan.equations_eq_nil_iff (hplan : p.IsPlan config plan) :
    plan.equations = [] ↔ ∀ t ∈ p.tables, ∀ n ∈ t.elements, p.constants.fixes n = true := by
  unfold Plan.equations
  rw [List.flatMap_eq_nil_iff]
  constructor
  · intro h t ht
    obtain ⟨s, hs, hofTable⟩ := exists_mem_of_mapM hplan.tables ht
    cases hconstant : s.isConstant with
    | true => exact (TableSetup.isConstant_iff hofTable).mp hconstant
    | false =>
      -- A table without equations has no elements.
      have hequations := h s (List.mem_filter.mpr ⟨hs, by simp [hconstant]⟩)
      obtain ⟨entries, hentries, -, -, -⟩ := TableSetup.exists_entries hofTable
      intro n hn
      obtain ⟨i, hi⟩ := List.mem_iff_getElem?.mp hn
      obtain ⟨index, hindex, -⟩ := (TableSetup.indexed_spec hentries).1 i n hi
      rw [Nat.zero_add] at hindex
      have hmem := (TableSetup.mem_equations_iff hofTable).mpr ⟨i, n, index, hi, hindex, rfl⟩
      rw [hequations] at hmem
      cases hmem
  · intro h s hs
    obtain ⟨hs, hdeferred⟩ := List.mem_filter.mp hs
    obtain ⟨t, ht, hofTable⟩ := exists_of_mem_mapM hplan.tables hs
    rw [(TableSetup.isConstant_iff hofTable).mpr (h t ht)] at hdeferred
    cases hdeferred

/-- The quantified part opens as many parentheses as the problem says. -/
theorem IsPlan.opened_eq (hplan : p.IsPlan config plan) (huniversals : p.universals ≠ [])
    {definitions : List LocalDefinition}
    (h : plan.late.mapM plan.scope.localDefinition = .ok definitions) (formula : Term) :
    (QuantifiedBlock.mk p.universals definitions plan.equations formula).opened = p.opened := by
  have hlength : definitions.length = (p.assignments.dropWhile p.isEarly).length := by
    rw [← hplan.late]
    exact (mapM_eq_ok_iff.mp h).length_eq.symm
  have hequations : plan.equations.isEmpty =
      p.tables.all fun t => t.elements.all p.constants.fixes := by
    rw [Bool.eq_iff_iff, List.isEmpty_iff, hplan.equations_eq_nil_iff]
    simp
  have hnonempty : p.universals.isEmpty = false := by simpa using huniversals
  rw [QuantifiedBlock.opened, Problem.opened, hnonempty, hlength, hequations]
  rfl

namespace IsProper

variable (hproper : p.IsProper) (hplan : p.IsPlan config plan)

include hproper

theorem forall_attributes :
    ∀ f ∈ FinalFormula.ofProblem p.constraints p.goal p.satisfiability,
      ∀ a ∈ f.attributes, IsPlainText a.1 := by
  refine List.forall_mem_append.mpr ⟨fun f hf => ?_, fun f hf => ?_⟩
  · obtain ⟨c, hc, hcf⟩ := List.mem_filterMap.mp hf
    obtain ⟨l, -, rfl⟩ := Option.map_eq_some_iff.mp hcf
    intro a ha
    exact hproper.constraints c hc (.keyword a.1) (List.mem_map_of_mem ha)
  · obtain ⟨l, -, rfl⟩ := Option.map_eq_some_iff.mp (Option.mem_toList.mp hf)
    simp

include hplan

theorem isWhole_conclusion_of_open (huniversals : p.universals = []) {conclusion : List Command}
    (h : plan.conclusionCommands = .ok conclusion) : ∀ c ∈ conclusion, c.IsWhole := by
  have hnote : ∀ {text : String}, IsSingleLine text → (Command.note text).IsWhole :=
    Command.isWhole_note
  rw [Plan.conclusionCommands, hplan.conclusion_of_open huniversals] at h
  cases h
  simp only [Plan.openCommands, List.forall_mem_append, List.forall_mem_cons, List.forall_mem_map,
    List.not_mem_nil, false_imp_iff, implies_true, and_true]
  exact ⟨⟨⟨⟨hnote (by decide), hnote (by decide)⟩,
    fun q hq => Command.isWhole_assert (hproper.forall_equations hplan q hq)⟩, hnote (by decide)⟩,
    FinalFormula.isWhole_commands hproper.forall_attributes⟩

theorem exists_block_of_quantified (huniversals : p.universals ≠ []) {conclusion : List Command}
    (h : plan.conclusionCommands = .ok conclusion) :
    ∃ block : QuantifiedBlock, conclusion = [.assertForAll block] ∧ block.opened = p.opened ∧
      block.term.Over Name.IsPlain ∧
      ∀ d ∈ block.definitions, ∀ remark ∈ d.remark, IsSingleLine remark := by
  rw [Plan.conclusionCommands, (hplan.conclusion_of_quantified huniversals).2] at h
  obtain ⟨definitions, hdefinitions, h⟩ := bind_eq_ok_iff.mp h
  cases h
  have hopened := fun formula => hplan.opened_eq huniversals hdefinitions formula
  have hsubset : ∀ a ∈ plan.late, a ∈ p.assignments := by
    rw [hplan.late]
    exact fun a ha => List.dropWhile_subset _ ha
  have hvalues := Scope.forall_localDefinitions (IsPlan.isPlain_scope plan) hdefinitions
    (fun a ha => hproper.assignments a (hsubset a ha)) fun a ha => hproper.labels a (hsubset a ha)
  rw [hplan.ofProblem]
  refine ⟨_, rfl, hopened _, ?_, fun d hd => (hvalues d hd).2⟩
  exact (QuantifiedBlock.over_term vocabulary_isPlain).mpr
    ⟨fun n hn => ⟨isPlainText_nodeName n.id,
        Kind.over_sort vocabulary_isPlain (hproper.forall_universals n hn)⟩,
      fun d hd => ⟨isPlainText_nodeName d.node.id, (hvalues d hd).1⟩,
      hproper.forall_equations hplan,
      Literal.over_conjunction vocabulary_isPlain
        fun l _ => p.skolems.over_nodeTerm_isPlain l.node⟩

omit hplan

/-- The script of a problem is complete if the parentheses that it opens can be counted. -/
theorem isComplete_compile_iff (hconfig : config.IsProper)
    (h : p.compile config = .ok script) :
    IsComplete (joined "\n" script.lines) ↔ p.opened < 2 ^ 32 := by
  obtain ⟨plan, hplan, hcommands⟩ := exists_plan_of_compile h
  obtain ⟨tuples, constants, existentials, trackers, freeSymbols, definitions, conclusion, htuples,
    hconstants, hexistentials, htrackers, hfreeSymbols, hdefinitions, hconclusion, hsections⟩ :=
    Plan.exists_sections_of_commands hcommands
  rw [hplan.ofProblem] at hconstants hexistentials hfreeSymbols
  have hsubset : ∀ a ∈ plan.early, a ∈ p.assignments := by
    rw [hplan.early]
    exact fun a ha => List.takeWhile_subset _ ha
  -- Everything in front of the conclusion is whole, whatever the problem is.
  have hbefore : ∀ c ∈ plan.opening tuples ++ constants ++ .note "--- skolem constants ---" ::
      existentials ++ trackers ++ plan.middle freeSymbols ++ definitions ++ plan.arrayCommands,
      c.IsWhole := by
    simp only [List.forall_mem_append, List.forall_mem_cons]
    exact ⟨⟨⟨⟨⟨⟨hproper.isWhole_opening hplan hconfig htuples,
      isWhole_constants hconstants hproper.constants⟩, Command.isWhole_note (by decide),
      hproper.isWhole_existentials hplan hexistentials⟩, hproper.isWhole_trackers hplan htrackers⟩,
      hproper.isWhole_middle hplan hfreeSymbols⟩,
      Scope.isWhole_definitions (IsPlan.isPlain_scope plan) hdefinitions
        (fun a ha => hproper.assignments a (hsubset a ha))
        fun a ha => hproper.labels a (hsubset a ha)⟩, hproper.isWhole_arrayCommands hplan⟩
  rw [CompiledScript.lines, hsections]
  by_cases huniversals : p.universals = []
  · have hopened : p.opened = 0 := by simp [opened, huniversals]
    have hcomplete := Script.isComplete (List.forall_mem_append.mpr
      ⟨hbefore, hproper.isWhole_conclusion_of_open hplan huniversals hconclusion⟩)
    simpa [hopened] using hcomplete
  · obtain ⟨block, rfl, hopened, hnames, hremarks⟩ :=
      hproper.exists_block_of_quantified hplan huniversals hconclusion
    rw [← hopened]
    exact Script.isComplete_assertForAll_iff hbefore hnames hremarks

end IsProper

end Problem

/-! ### Increments -/

namespace Increment

variable {config : Config} {i : Increment} {script : CompiledScript}

theorem isPlain_scope (config : Config) (i : Increment) : (i.scope config).IsPlain where
  tables := by
    refine List.forall_mem_map.mpr fun t _ => ?_
    rw [tableName_eq]
    exact GeneratedSymbol.isPlainText_name _
  reversals := by simp [scope]

theorem isWhole_constraintCommand {c : Constraint} (h : ∀ x ∈ c.names, x.IsPlain) :
    (constraintCommand c).IsWhole := by
  have hliteral : c.literal.term.Over Name.IsPlain := Term.over_node.mpr trivial
  have hformula : (Term.withAttributes c.attributes
      (if c.negated then Term.negation c.literal.term else c.literal.term)).Over Name.IsPlain := by
    refine Term.over_withAttributes ?_ (List.forall_mem_map.mp h)
    split
    · exact vocabulary_isPlain.over_negation hliteral
    · exact hliteral
  unfold constraintCommand
  dsimp only
  split
  · exact Command.isWhole_assertSoft hformula
  · exact Command.isWhole_assert hformula

/-- The script of an increment is complete. -/
theorem IsProper.isComplete_compile (hproper : i.IsProper) (hconfig : config.IsProper)
    (h : i.compile config = .ok script) : IsComplete (joined "\n" script.lines) := by
  obtain ⟨tables, arrays, tuples, constants, inputs, freeSymbols, definitions, htables, harrays,
    htuples, hconstants, hinputs, hfreeSymbols, hdefinitions, hcommands⟩ :=
    exists_sections_of_compile h
  have htable : ∀ s ∈ tables, (TableSetup.declaration s.table).IsWhole ∧
      ∀ c ∈ s.initializers, c.IsWhole := by
    intro s hs
    obtain ⟨t, ht, h⟩ := exists_of_mem_mapM htables hs
    obtain ⟨hindex, hresult⟩ := List.forall_mem_append.mp (hproper.tables t ht)
    obtain ⟨-, -, rfl, -⟩ := TableSetup.exists_entries h
    exact ⟨TableSetup.isWhole_declaration hindex hresult, TableSetup.isWhole_initializers h⟩
  have harray := isWhole_arrays harrays hproper.arrays hproper.knownConstants
  have hinput : ∀ c ∈ inputs, c.IsWhole := forall_mem_commandsOf hinputs fun input hinput ds hds =>
    Declaration.isWhole_symbol hds (isPlainText_nodeName input.node.id)
      (List.forall_mem_singleton.mpr (hproper.inputs input hinput)) (by decide)
  refine Script.isComplete ?_
  simp only [hcommands, List.forall_mem_append, List.forall_mem_flatMap, List.forall_mem_map]
  exact ⟨⟨⟨⟨⟨⟨⟨⟨⟨⟨⟨⟨⟨Features.isWhole_flattenCommands hconfig.flattening _,
    Features.isWhole_sortCommands hproper.sorts⟩, Features.isWhole_tupleCommands htuples⟩,
    Features.isWhole_datatypeCommands _⟩, isWhole_constants hconstants hproper.constants⟩, hinput⟩,
    fun s hs c hc => harray s hs c (List.mem_append_left _ (List.mem_append_left _ hc))⟩,
    isWhole_freeSymbols hfreeSymbols hproper.freeSymbols⟩, fun s hs => (htable s hs).1⟩,
    Scope.isWhole_definitions (isPlain_scope config i) hdefinitions hproper.assignments
      hproper.labels⟩,
    fun s hs c hc => harray s hs c (List.mem_append_left _ (List.mem_append_right _ hc))⟩,
    fun s hs => (htable s hs).2⟩,
    fun s hs c hc => harray s hs c (List.mem_append_right _ hc)⟩,
    fun c hc => isWhole_constraintCommand (hproper.constraints c hc)⟩

end Increment

/-! ### Steps of a session -/

namespace SessionStep

/-- The script of a step with proper names and texts is a sequence of complete commands, unless a
quantified part opens more parentheses than can be counted. -/
theorem isComplete_iff {config : Config} {step : SessionStep} {script : CompiledScript}
    (hconfig : config.IsProper) (hproper : step.IsProper)
    (h : step.compile config = .ok script) :
    IsComplete (joined "\n" script.lines) ↔ step.opened < 2 ^ 32 := by
  cases step with
  | problem p => exact Problem.IsProper.isComplete_compile_iff hproper hconfig h
  | increment i =>
    have hopened : opened (increment i) < 2 ^ 32 := Nat.two_pow_pos 32
    exact iff_of_true (Increment.IsProper.isComplete_compile hproper hconfig h) hopened

/-- A problem with an unbalanced label and an unbalanced string constant under a universal node. -/
def labelledUniversal : Problem where
  kinds := [.bool, .string]
  quantified := [.universal ⟨0, .bool⟩]
  constants := [⟨⟨1, .string⟩, .string "(\"; |"⟩]
  assignments := [⟨⟨2, .bool⟩, ⟨.label "not closed: (\"", [⟨0, .bool⟩]⟩⟩]
  goal := ⟨2, .bool⟩

theorem isProper_default : ({} : Config).IsProper where
  settings := by simp
  flattening := by decide

theorem isProper_labelledUniversal : labelledUniversal.IsProper := by
  constructor <;> first | decide | exact nofun

theorem isComplete_iff_labelledUniversal :
    ({} : Config).IsProper ∧ (problem labelledUniversal).IsProper ∧
      ∃ script, (problem labelledUniversal).compile {} = .ok script ∧
        IsComplete (joined "\n" script.lines) := by
  have hproper : (problem labelledUniversal).IsProper := isProper_labelledUniversal
  obtain ⟨script, hscript⟩ : ∃ script, (problem labelledUniversal).compile {} = .ok script :=
    ⟨_, rfl⟩
  refine ⟨isProper_default, hproper, script, hscript, ?_⟩
  exact (isComplete_iff isProper_default hproper hscript).mpr (by decide)

/-- A problem that negates its universal node again and again. -/
def repeatedNegation (n : Nat) : Problem where
  quantified := [.universal ⟨0, .bool⟩]
  assignments := (List.range' 1 n).map fun i : Nat => ⟨⟨i, .bool⟩, ⟨.not, [⟨0, .bool⟩]⟩⟩

theorem isProper_repeatedNegation (n : Nat) : (repeatedNegation n).IsProper where
  sorts := show ∀ x ∈ sortNames [], x.IsPlain by decide
  inputs := show ∀ q ∈ [QuantifiedInput.universal ⟨0, .bool⟩], ∀ x ∈ q.names, x.IsPlain by decide
  trackers := nofun
  constants := nofun
  tables := nofun
  arrays := nofun
  freeSymbols := nofun
  assignments := List.forall_mem_map.mpr fun _ _ => by
    simp [Assignment.names, Operator.names, Kind.names, Kind.subkinds, Kind.userSort?]
  constraints := nofun
  comments := nofun
  userNames := nofun
  trackerNames := nofun
  labels := List.forall_mem_map.mpr fun _ _ => nofun
  postulates := nofun

/-- All assignments stand under the universal node. -/
theorem isEarly_repeatedNegation (n : Nat) :
    (repeatedNegation n).assignments.takeWhile (repeatedNegation n).isEarly = [] ∧
      (repeatedNegation n).assignments.dropWhile (repeatedNegation n).isEarly =
        (repeatedNegation n).assignments := by
  have hfirst : (repeatedNegation n).firstUniversal? = some 0 := rfl
  have hlate : ∀ a ∈ (repeatedNegation n).assignments, (repeatedNegation n).isEarly a = false :=
    List.forall_mem_map.mpr fun i _ => by simp [Problem.isEarly, hfirst]
  generalize (repeatedNegation n).isEarly = isEarly at hlate ⊢
  cases hassignments : (repeatedNegation n).assignments with
  | nil => exact ⟨rfl, rfl⟩
  | cons a as =>
    have ha := hlate a (by simp [hassignments])
    exact ⟨List.takeWhile_cons_of_neg (by simp [ha]), List.dropWhile_cons_of_neg (by simp [ha])⟩

theorem opened_repeatedNegation (n : Nat) : (problem (repeatedNegation n)).opened = n + 2 := by
  rw [opened, Problem.opened, (isEarly_repeatedNegation n).2]
  simp [repeatedNegation, Problem.universals, QuantifiedInput.universal?]

theorem exists_checkAssignments (n : Nat) {k : Nat} {last : Int} {known : List Int}
    (hlast : last < k) (hzero : 0 ∈ known) : ∃ known', known ⊆ known' ∧
      Problem.checkAssignments known last ((List.range' k n).map fun i : Nat =>
        ⟨⟨i, .bool⟩, ⟨.not, [⟨0, .bool⟩]⟩⟩) = .ok known' := by
  induction n generalizing k last known with
  | zero => exact ⟨known, List.Subset.refl known, rfl⟩
  | succ n ih =>
    obtain ⟨known', hsubset, h⟩ := @ih (k + 1) k (k :: known) (by omega)
      (List.mem_cons_of_mem _ hzero)
    refine ⟨known', fun x hx => hsubset (List.mem_cons_of_mem _ hx), ?_⟩
    have hoperand : Problem.checkKnown known (.unknownOperand ⟨k, .bool⟩) [⟨0, .bool⟩] = .ok () :=
      if_pos (by simpa using hzero)
    rw [List.range'_succ, List.map_cons, Problem.checkAssignments, if_neg (by simpa using hlast)]
    exact bind_eq_ok_iff.mpr ⟨(), hoperand, h⟩

theorem checkReferences_repeatedNegation (n : Nat) :
    (repeatedNegation n).checkReferences = .ok () := by
  obtain ⟨known, hsubset, h⟩ := @exists_checkAssignments n 1 (-1)
    (repeatedNegation n).initiallyKnown (by decide)
    (show 0 ∈ [-1, -2, 0] by decide)
  have hgoal : Problem.checkKnown known (fun n => .unknownOperand n n) [Node.ofBool true] =
      .ok () := by
    have hmem : -1 ∈ known := hsubset (show -1 ∈ [-1, -2, 0] by decide)
    exact if_pos (by simpa [Node.ofBool] using hmem)
  exact bind_eq_ok_iff.mpr ⟨known, h, bind_eq_ok_iff.mpr ⟨(), hgoal, rfl⟩⟩

theorem exists_plan_repeatedNegation (n : Nat) :
    ∃ plan, (repeatedNegation n).plan {} = .ok plan := by
  have hlogic : ∀ query : LogicQuery, query.choose {} = .ok (query.bestChoice .z3) := fun query => by
    simp [LogicQuery.choose, Config.requestedLogics, Capabilities.unmet, Capabilities.z3]
  exact ⟨_, bind_eq_ok_iff.mpr ⟨(), checkReferences_repeatedNegation n,
    bind_eq_ok_iff.mpr ⟨_, hlogic _, rfl⟩⟩⟩

theorem exists_compile_repeatedNegation (n : Nat) :
    ∃ script, (problem (repeatedNegation n)).compile {} = .ok script := by
  obtain ⟨plan, h⟩ := exists_plan_repeatedNegation n
  have hplan := Problem.isPlan_of_plan h
  have htuples : plan.features.tupleCommands = .ok [] := by
    rw [hplan.features]
    rfl
  -- No assignment is early, and each late one is a local definition.
  have hdefinitions : commandsOf plan.scope.definitionCommands plan.early = .ok [] := by
    rw [hplan.early, (isEarly_repeatedNegation n).1]
    rfl
  obtain ⟨definitions, hlocal⟩ : ∃ definitions,
      plan.late.mapM plan.scope.localDefinition = .ok definitions := by
    rw [hplan.late, (isEarly_repeatedNegation n).2]
    refine exists_mapM_of_forall (List.forall_mem_map.mpr fun i _ => ?_)
    exact ⟨⟨⟨i, .bool⟩, .app (.symbol "not") [plan.scope.nodeTerm ⟨0, .bool⟩], none⟩, rfl⟩
  have hconclusion : ∃ conclusion, plan.conclusionCommands = .ok conclusion := by
    rw [Plan.conclusionCommands, (hplan.conclusion_of_quantified (List.cons_ne_nil _ _)).2]
    exact ⟨_, bind_eq_ok_iff.mpr ⟨definitions, hlocal, rfl⟩⟩
  obtain ⟨conclusion, hconclusion⟩ := hconclusion
  have hcommands : ∃ commands, plan.commands = .ok commands := by
    unfold Plan.commands Plan.trackerCommands
    rw [hplan.ofProblem]
    exact ⟨_, bind_eq_ok_iff.mpr ⟨_, htuples, bind_eq_ok_iff.mpr ⟨_, rfl, bind_eq_ok_iff.mpr
      ⟨_, rfl, bind_eq_ok_iff.mpr ⟨_, rfl, bind_eq_ok_iff.mpr ⟨_, rfl, bind_eq_ok_iff.mpr
        ⟨_, hdefinitions, bind_eq_ok_iff.mpr ⟨_, hconclusion, rfl⟩⟩⟩⟩⟩⟩⟩⟩
  obtain ⟨commands, hcommands⟩ := hcommands
  exact ⟨_, bind_eq_ok_iff.mpr ⟨plan, h, bind_eq_ok_iff.mpr ⟨commands, hcommands, rfl⟩⟩⟩

/-- The parentheses of a problem with a universal node and some four thousand million assignments are
too many to be counted, so that its script ends before they are closed. -/
theorem not_isComplete_repeatedNegation :
    ({} : Config).IsProper ∧ (problem (repeatedNegation (2 ^ 32 - 2))).IsProper ∧
      ∃ script, (problem (repeatedNegation (2 ^ 32 - 2))).compile {} = .ok script ∧
        ¬IsComplete (joined "\n" script.lines) := by
  have hall : ∀ n, 2 ^ 32 ≤ n + 2 → ∃ script, (problem (repeatedNegation n)).compile {} =
      .ok script ∧ ¬IsComplete (joined "\n" script.lines) := by
    intro n hn
    obtain ⟨script, hscript⟩ := exists_compile_repeatedNegation n
    refine ⟨script, hscript, fun hcomplete => ?_⟩
    have hopened := ((isProper_repeatedNegation n).isComplete_compile_iff isProper_default
      hscript).mp hcomplete
    rw [show (repeatedNegation n).opened = n + 2 from opened_repeatedNegation n] at hopened
    omega
  exact ⟨isProper_default, isProper_repeatedNegation _, hall _ (by decide)⟩

end SessionStep

end SolverScript
