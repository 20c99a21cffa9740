import SolverScript.Proofs.Script.Occurrence
import SolverScript.Proofs.Script.Plan
import SolverScript.Proofs.Script.WellFormedValues

/-!
# Forms of tests for constructors

A solver with direct accessors wants a test for a constructor to name just the constructor, other
solvers want its signature as well. Tests come from two places. The operations that test an optional
or a sum ask what the solver wants. The invariants of a declared symbol are stated without regard to
the solver, and their tests have a signature. So a script for a solver with direct accessors has a
test in the wrong form as soon as it declares a symbol whose result has an optional or a sum with
characters or rationals inside, and no other script does.

## Main definitions

* `SessionStep.openSymbols` - the symbols that a step declares without a definition
* `Script.TestsAsWanted` - scripts in which all tests have the form that the solver wants

## Main results

* `Problem.testsOnly_compile_iff`, `Increment.testsOnly_compile_iff` - the tests of a script are
  those of operations and those that guard invariants
* `SessionStep.testsAsWanted_iff` - which scripts have tests in the right form only
-/

namespace SolverScript

/-- Whether only tests with a property occur in the terms of some commands. -/
def Script.TestsOnly (Q : String → Option (List SortExpr × SortExpr) → Prop)
    (commands : List Command) : Prop :=
  ∀ c ∈ commands, ∀ t ∈ c.terms, t.Within (.ofTesters Q)

/-- Whether the tests in a script have the form that a solver wants: just the constructor, as in
`(_ is c)`, if the solver has direct accessors, and the constructor with its signature, as in
`(_ is (c (arguments) result))`, if it has none. -/
def Script.TestsAsWanted (c : Capabilities) (commands : List Command) : Prop :=
  TestsOnly (fun _ signature => signature.isNone = c.directAccessors) commands

/-! ### Symbols that a step declares -/

/-- The symbols that an increment declares without a definition: inputs and free symbols. -/
def Increment.openSymbols (i : Increment) : List OpenSymbol :=
  (i.inputs.map (fun input => (input.node.name, [input.node.kind])) ++
      i.freeSymbols.map fun s => (s.name, s.signature)).filterMap fun s =>
    OpenSymbol.ofSignature? s.1 s.2

/-- The symbols that a step declares without a definition. -/
def SessionStep.openSymbols : SessionStep → List OpenSymbol
  | problem p => p.openSymbols
  | increment i => i.openSymbols

variable {Q : String → Option (List SortExpr × SortExpr) → Prop} {config : Config}

/-! ### Commands with any nodes -/

theorem Script.testsOnly_iff {commands : List Command} :
    TestsOnly Q commands ↔ ∀ c ∈ commands, c.Within (.ofTesters Q) := by
  simp [TestsOnly, Command.Within]

theorem SkolemMap.within_nodeTerm (skolems : SkolemMap) (n : Node) :
    (skolems.nodeTerm n).Within (.ofTesters Q) := by
  unfold nodeTerm
  split <;> simp [Node.term]

theorem Literal.within_term (skolems : SkolemMap) (l : Literal) :
    (l.term skolems).Within (.ofTesters Q) := by
  unfold term
  split <;> simp [skolems.within_nodeTerm]

theorem Literal.within_conjunction (skolems : SkolemMap) (literals : List Literal) :
    (conjunction skolems literals).Within (.ofTesters Q) := by
  unfold conjunction
  split
  · simp
  · exact within_term skolems _
  · split
    · simp
    · simp only [Term.Within, Term.allWithin_iff, List.forall_mem_map, true_and]
      exact fun l _ => l.within_term skolems

theorem FinalFormula.within_commands (skolems : SkolemMap) (formulas : List FinalFormula) :
    ∀ c ∈ commands skolems formulas, c.Within (.ofTesters Q) := by
  simp only [commands, term, List.forall_mem_append, List.forall_mem_map, Command.within_assert,
    Command.within_assertSoft, Term.within_withAttributes]
  exact ⟨fun f _ => f.literal.within_term skolems, fun f _ => f.literal.within_term skolems⟩

theorem Increment.within_constraintCommand (c : Constraint) :
    (constraintCommand c).Within (.ofTesters Q) := by
  unfold constraintCommand
  dsimp only
  split <;> split <;> simp [Node.term]

theorem QuantifiedBlock.within_term {A : Occurrences} {b : QuantifiedBlock}
    (hdefinitions : ∀ d ∈ b.definitions, d.value.Within A)
    (hequations : ∀ q ∈ b.equations, q.Within A) (hformula : b.formula.Within A) :
    b.term.Within A := by
  have hconclusion : b.conclusion.Within A := by
    unfold conclusion
    split
    · exact hformula
    · simpa [or_imp, forall_and] using ⟨hequations, hformula⟩
  suffices h : (withDefinitions b.definitions b.conclusion).Within A from h
  -- Each local definition is in scope in the next, so the induction goes from the outermost inwards.
  generalize b.definitions = definitions at hdefinitions
  induction definitions with
  | nil => exact hconclusion
  | cons d ds ih =>
    obtain ⟨hd, hds⟩ := List.forall_mem_cons.mp hdefinitions
    exact ⟨Term.allWithin_iff.mpr (by simpa using hd), ih hds⟩

/-! ### Sections of a script -/

/-- The declarations of symbols make the tests that guard the invariants of their results. -/
theorem Declaration.within_symbols_iff {β : Type} {f : β → Except Failure (List Command)}
    {bs : List β} {cs : List Command} {name remark : β → String} {kinds : β → List Kind}
    (hf : ∀ b, f b = Declaration.symbol (name b) (kinds b) (remark b))
    (h : commandsOf f bs = .ok cs) :
    (∀ c ∈ cs, c.Within (.ofTesters Q)) ↔
      ∀ b ∈ bs, ∀ s, OpenSymbol.ofSignature? (name b) (kinds b) = some s →
        (Occurrences.ofTesters Q).AllowsGuardsOf s.result := by
  rw [forall_mem_commandsOf_iff h]
  -- The section is there, so every symbol has a declaration.
  refine forall₂_congr fun b hb => ?_
  obtain ⟨ds, hds, -⟩ := exists_subset_of_commandsOf h hb
  rw [hf b] at hds
  rw [hf b, hds]
  simp only [Except.ok.injEq, forall_eq', within_symbol_iff hds, Occurrences.node_ofTesters,
    implies_true, true_and, OpenSymbol.ofSignature?, Option.map_eq_some_iff, Prod.exists]
  constructor
  · rintro h _ ⟨arguments, result, hsplit, rfl⟩
    exact h arguments result hsplit
  · intro h arguments result hsplit
    exact h _ ⟨arguments, result, hsplit, rfl⟩

/-- A local definition makes the tests that its operation does. -/
theorem Scope.within_localDefinition {scope : Scope} {a : Assignment} {d : LocalDefinition}
    (h : scope.localDefinition a = .ok d)
    (htests : (Occurrences.ofTesters Q).AllowsTestsFor scope.config.capabilities) :
    d.value.Within (.ofTesters Q) := by
  obtain ⟨⟨value, label?⟩, hvalue, h⟩ := bind_eq_ok_iff.mp h
  obtain rfl := Except.ok.inj h
  exact resultWithin_term htests (fun n _ => scope.skolems.within_nodeTerm n) (by simp) value
    (term_of_definition hvalue)

/-- The definitions of nodes make the tests that their operations do. -/
theorem Scope.within_definitions {scope : Scope}
    (htests : (Occurrences.ofTesters Q).AllowsTestsFor scope.config.capabilities)
    {as : List Assignment} {cs : List Command}
    (h : commandsOf scope.definitionCommands as = .ok cs) :
    ∀ c ∈ cs, c.Within (.ofTesters Q) :=
  forall_mem_commandsOf h fun _ _ _ hds => within_definitionCommands hds htests (by simp)
    (fun n _ => scope.skolems.within_nodeTerm n) (by simp)

theorem Declaration.within_constants {cs : List Command} {constants : List Constant}
    (h : commandsOf (constant config) constants = .ok cs) :
    ∀ c ∈ cs, c.Within (.ofTesters Q) :=
  forall_mem_commandsOf h fun _ _ _ hds => within_constant hds (by simp)

theorem TableSetup.within_equations_of_mapM {skolems : SkolemMap} {universals : List Node}
    {constants : Constants} {tables : List Table} {ss : List TableSetup}
    (h : tables.mapM (ofTable config skolems universals constants) = .ok ss) :
    ∀ s ∈ ss, ∀ q ∈ s.equations, q.Within (.ofTesters Q) := by
  intro s hs
  obtain ⟨table, -, htable⟩ := exists_of_mem_mapM h hs
  exact within_equations htable (by simp) fun n _ => skolems.within_nodeTerm n

theorem ArraySetup.within_of_mapM {isQuantified : Bool} {skolems : SkolemMap}
    {constants : Constants} {arrays : List ArrayDatum} {ss : List ArraySetup}
    (h : arrays.mapM (ofArray config isQuantified constants skolems) = .ok ss) :
    ∀ s ∈ ss, ∀ c ∈ s.declarations ++ s.deferred ++ s.setup, c.Within (.ofTesters Q) := by
  intro s hs
  obtain ⟨a, -, ha⟩ := exists_of_mem_mapM h hs
  exact within_ofArray ha fun n _ => skolems.within_nodeTerm n

/-! ### Scripts -/

/-- A property of the symbols with some signatures. -/
theorem OpenSymbol.forall_mem_iff {β : Type} {bs : List β} {g : β → String × List Kind}
    {R : OpenSymbol → Prop} :
    (∀ s ∈ (bs.map g).filterMap fun s => ofSignature? s.1 s.2, R s) ↔
      ∀ b ∈ bs, ∀ s, ofSignature? (g b).1 (g b).2 = some s → R s := by
  simp only [List.mem_filterMap, List.mem_map]
  constructor
  · exact fun h b hb s hs => h s ⟨g b, ⟨b, hb, rfl⟩, hs⟩
  · rintro h s ⟨_, ⟨b, hb, rfl⟩, hs⟩
    exact h b hb s hs

namespace Problem

variable {p : Problem} {plan : Plan} {script : CompiledScript}

theorem forall_mem_openSymbols_iff {R : OpenSymbol → Prop} : (∀ s ∈ p.openSymbols, R s) ↔
    ((∀ input ∈ p.existentials, ∀ s, OpenSymbol.ofSignature? input.1.name
        (input.2.map Node.kind ++ [input.1.kind]) = some s → R s) ∧
      ∀ t ∈ p.trackers, ∀ s, OpenSymbol.ofSignature? t.node.name [t.node.kind] = some s → R s) ∧
      ∀ f ∈ p.freeSymbols, ∀ s, OpenSymbol.ofSignature? f.name f.signature = some s → R s := by
  simp only [openSymbols, List.filterMap_append, List.forall_mem_append,
    OpenSymbol.forall_mem_iff]

namespace IsPlan

variable (hplan : p.IsPlan config plan)

include hplan

theorem within_tables : ∀ c ∈ plan.constantTables.flatMap TableSetup.constantCommands,
    c.Within (.ofTesters Q) := by
  intro c hc
  obtain ⟨s, hs, hc⟩ := List.mem_flatMap.mp hc
  have hequations : ∀ q ∈ s.equations, q.Within (.ofTesters Q) :=
    TableSetup.within_equations_of_mapM hplan.tables s (List.mem_filter.mp hs).1
  exact List.forall_mem_cons.mpr ⟨TableSetup.within_declaration _,
    TableSetup.within_initializers hequations⟩ c hc

theorem within_planEquations : ∀ q ∈ plan.equations, q.Within (.ofTesters Q) := by
  intro q hq
  obtain ⟨s, hs, hq⟩ := List.mem_flatMap.mp hq
  exact TableSetup.within_equations_of_mapM hplan.tables s (List.mem_filter.mp hs).1 q hq

theorem within_trackers_iff {cs : List Command} (h : plan.trackerCommands = .ok cs) :
    (∀ c ∈ cs, c.Within (.ofTesters Q)) ↔
      ∀ t ∈ p.trackers, ∀ s, OpenSymbol.ofSignature? t.node.name [t.node.kind] = some s →
        (Occurrences.ofTesters Q).AllowsGuardsOf s.result := by
  obtain ⟨declarations, hdeclarations, h⟩ := bind_eq_ok_iff.mp h
  obtain rfl := Except.ok.inj h
  rw [hplan.ofProblem] at hdeclarations
  rw [List.forall_mem_append, ← Declaration.within_symbols_iff (fun _ => rfl) hdeclarations]
  refine and_iff_right ?_
  split <;> simp

/-- The conclusion makes the tests of the operations that it defines. -/
theorem within_conclusion (htests : (Occurrences.ofTesters Q).AllowsTestsFor config.capabilities)
    {conclusion : List Command} (h : plan.conclusionCommands = .ok conclusion) :
    ∀ c ∈ conclusion, c.Within (.ofTesters Q) := by
  by_cases huniversals : p.universals = []
  · rw [hplan.conclusionCommands_of_open huniversals] at h
    obtain rfl := Except.ok.inj h
    simp only [Plan.openCommands, List.forall_mem_append, List.forall_mem_cons,
      List.forall_mem_map, Command.within_note, Command.within_assert, true_and]
    exact ⟨⟨⟨by simp, hplan.within_planEquations⟩, by simp⟩, FinalFormula.within_commands _ _⟩
  · rw [Plan.conclusionCommands, (hplan.conclusion_of_quantified huniversals).2] at h
    obtain ⟨definitions, hdefinitions, h⟩ := bind_eq_ok_iff.mp h
    obtain rfl := Except.ok.inj h
    rw [List.forall_mem_singleton, Command.within_assertForAll]
    refine QuantifiedBlock.within_term (fun d hd => ?_) hplan.within_planEquations
      (Literal.within_conjunction _ _)
    obtain ⟨a, -, ha⟩ := exists_of_mem_mapM hdefinitions hd
    exact Scope.within_localDefinition ha
      (show Occurrences.AllowsTestsFor _ plan.config.capabilities from hplan.ofConfig ▸ htests)

end IsPlan

/-- The tests in the script of a problem are those of its operations and those that guard the
invariants of what it declares. -/
theorem testsOnly_compile_iff
    (htests : (Occurrences.ofTesters Q).AllowsTestsFor config.capabilities)
    (h : p.compile config = .ok script) : Script.TestsOnly Q script.commands ↔
      ∀ s ∈ p.openSymbols, (Occurrences.ofTesters Q).AllowsGuardsOf s.result := by
  obtain ⟨plan, hplan, hcommands⟩ := exists_plan_of_compile h
  obtain ⟨query, hquery⟩ := hplan.logic
  obtain ⟨tuples, constants, existentials, trackers, freeSymbols, definitions, conclusion, htuples,
    hconstants, hexistentials, htrackers, hfreeSymbols, hdefinitions, hconclusion, heq⟩ :=
    Plan.exists_sections_of_commands hcommands
  have hopening : ∀ c ∈ plan.opening tuples, c.Within (.ofTesters Q) := fun c hc =>
    (Plan.isInert_opening (hplan.ofConfig ▸ hquery) htuples c hc).within
  have hplanTests : (Occurrences.ofTesters Q).AllowsTestsFor plan.scope.config.capabilities :=
    show Occurrences.AllowsTestsFor _ plan.config.capabilities from hplan.ofConfig ▸ htests
  have hdefined : ∀ c ∈ definitions, c.Within (.ofTesters Q) :=
    Scope.within_definitions hplanTests hdefinitions
  have hvalues : ∀ c ∈ constants, c.Within (.ofTesters Q) :=
    Declaration.within_constants hconstants
  have harrays : ∀ a ∈ plan.arrays, ∀ c ∈ a.declarations ++ a.deferred ++ a.setup,
      c.Within (.ofTesters Q) := ArraySetup.within_of_mapM hplan.arrays
  rw [hplan.ofProblem] at hexistentials hfreeSymbols
  -- Go through the sections; those that declare symbols decide.
  rw [Script.testsOnly_iff, heq, forall_mem_openSymbols_iff]
  simp only [List.forall_mem_append, List.forall_mem_cons, Command.within_note, true_and,
    Plan.within_middle_iff hplan.within_tables harrays, hplan.within_trackers_iff htrackers,
    Declaration.within_symbols_iff (fun _ => rfl) hexistentials,
    Declaration.within_symbols_iff (fun _ => rfl) hfreeSymbols]
  constructor
  · rintro ⟨⟨⟨⟨⟨⟨-, hinputs⟩, htrackers⟩, hfree⟩, -⟩, -⟩, -⟩
    exact ⟨⟨hinputs, htrackers⟩, hfree⟩
  · rintro ⟨⟨hinputs, htrackers⟩, hfree⟩
    exact ⟨⟨⟨⟨⟨⟨⟨hopening, hvalues⟩, hinputs⟩, htrackers⟩, hfree⟩, hdefined⟩,
      Plan.within_arrayCommands harrays⟩, hplan.within_conclusion htests hconclusion⟩

end Problem

namespace Increment

variable {i : Increment} {script : CompiledScript}

theorem forall_mem_openSymbols_iff {R : OpenSymbol → Prop} : (∀ s ∈ i.openSymbols, R s) ↔
    (∀ input ∈ i.inputs, ∀ s,
        OpenSymbol.ofSignature? input.node.name [input.node.kind] = some s → R s) ∧
      ∀ f ∈ i.freeSymbols, ∀ s, OpenSymbol.ofSignature? f.name f.signature = some s → R s := by
  simp only [openSymbols, List.filterMap_append, List.forall_mem_append,
    OpenSymbol.forall_mem_iff]

/-- The tests in the script of an increment are those of its operations and those that guard the
invariants of what it declares. -/
theorem testsOnly_compile_iff
    (htests : (Occurrences.ofTesters Q).AllowsTestsFor config.capabilities)
    (h : i.compile config = .ok script) : Script.TestsOnly Q script.commands ↔
      ∀ s ∈ i.openSymbols, (Occurrences.ofTesters Q).AllowsGuardsOf s.result := by
  obtain ⟨tables, arrays, tuples, constants, inputs, freeSymbols, definitions, htables, harrays,
    htuples, hconstants, hinputs, hfreeSymbols, hdefinitions, heq⟩ := exists_sections_of_compile h
  have hinert : ∀ {cs : List Command}, (∀ c ∈ cs, c.IsInert) →
      ∀ c ∈ cs, c.Within (.ofTesters Q) := fun hcs c hc => (hcs c hc).within
  have hflatten := hinert fun c hc => ((Features.detect (KindSet.closure i.kinds) i.assignments
    i.arrays).isSetting_flattenCommands config.capabilities c hc).isInert
  have hsorts := hinert (Plan.isInert_sortCommands (Features.detect (KindSet.closure i.kinds)
    i.assignments i.arrays))
  have hdatatypes := hinert (Plan.isInert_datatypeCommands (Features.detect
    (KindSet.closure i.kinds) i.assignments i.arrays))
  have hvalues : ∀ c ∈ constants, c.Within (.ofTesters Q) :=
    Declaration.within_constants hconstants
  have hdefined : ∀ c ∈ definitions, c.Within (.ofTesters Q) :=
    Scope.within_definitions htests hdefinitions
  have harrays : ∀ a ∈ arrays, ∀ c ∈ a.declarations ++ a.deferred ++ a.setup,
      c.Within (.ofTesters Q) := ArraySetup.within_of_mapM harrays
  have hinitializers : ∀ s ∈ tables, ∀ c ∈ s.initializers, c.Within (.ofTesters Q) :=
    fun s hs => TableSetup.within_initializers (TableSetup.within_equations_of_mapM htables s hs)
  -- Go through the sections; those that declare symbols decide.
  rw [Script.testsOnly_iff, heq, forall_mem_openSymbols_iff]
  simp only [List.forall_mem_append] at harrays
  simp only [List.forall_mem_append, List.forall_mem_map, List.forall_mem_flatMap,
    TableSetup.within_declaration,
    within_constraintCommand, implies_true, and_true,
    Declaration.within_symbols_iff (fun _ => rfl) hinputs,
    Declaration.within_symbols_iff (fun _ => rfl) hfreeSymbols]
  constructor
  · rintro ⟨⟨⟨⟨⟨⟨⟨-, hinputs⟩, -⟩, hfree⟩, -⟩, -⟩, -⟩, -⟩
    exact ⟨hinputs, hfree⟩
  · rintro ⟨hinputs, hfree⟩
    exact ⟨⟨⟨⟨⟨⟨⟨⟨⟨⟨⟨hflatten, hsorts⟩, hinert (Plan.isInert_tupleCommands htuples)⟩, hdatatypes⟩,
      hvalues⟩, hinputs⟩, fun a ha => (harrays a ha).1.1⟩, hfree⟩, hdefined⟩,
      fun a ha => (harrays a ha).1.2⟩, hinitializers⟩, fun a ha => (harrays a ha).2⟩

end Increment

/-! ### Tests in the wrong form -/

/-- The tests of operations have the form that the solver wants. -/
theorem Capabilities.allowsTestsFor_wanted (c : Capabilities) :
    (Occurrences.ofTesters fun _ signature => signature.isNone = c.directAccessors).AllowsTestsFor
      c := by
  intro constructor parameters result
  unfold tester
  split <;> simp_all [Composite.testerWithSignature]

/-- The tests that guard invariants have it just if the solver wants signatures, or if there are
none. -/
theorem Capabilities.allowsGuardsOf_wanted_iff {c : Capabilities} {k : Kind} :
    (Occurrences.ofTesters fun _ signature => signature.isNone = c.directAccessors).AllowsGuardsOf
        k ↔ c.directAccessors = false ∨
      ∀ sub ∈ k.subkinds, (sub.isMaybe || sub.isEither) = true →
        sub.containsCharOrRational = false := by
  simp only [← Kind.guards_eq_nil_iff, Occurrences.AllowsGuardsOf, Occurrences.tester_ofTesters,
    Option.isNone_some]
  cases c.directAccessors with
  | false => simp
  | true => simp [List.eq_nil_iff_forall_not_mem]

/-- The tests for constructors in the script of a step have the form that the solver wants just if
the solver wants signatures, or if nothing that the step declares has an optional or a sum with
characters or rationals inside. -/
theorem SessionStep.testsAsWanted_iff {step : SessionStep} {script : CompiledScript}
    (h : step.compile config = .ok script) :
    Script.TestsAsWanted config.capabilities script.commands ↔
      config.capabilities.directAccessors = false ∨ ∀ s ∈ step.openSymbols,
        ∀ sub ∈ s.result.subkinds, (sub.isMaybe || sub.isEither) = true →
          sub.containsCharOrRational = false := by
  have htests := config.capabilities.allowsTestsFor_wanted
  have hguards : Script.TestsAsWanted config.capabilities script.commands ↔
      ∀ s ∈ step.openSymbols, config.capabilities.directAccessors = false ∨
        ∀ sub ∈ s.result.subkinds, (sub.isMaybe || sub.isEither) = true →
          sub.containsCharOrRational = false := by
    simp only [← Capabilities.allowsGuardsOf_wanted_iff]
    cases step with
    | problem p => exact Problem.testsOnly_compile_iff htests h
    | increment i => exact Increment.testsOnly_compile_iff htests h
  -- What the solver wants does not depend on the symbol.
  rw [hguards]
  cases config.capabilities.directAccessors <;> simp

namespace Problem

/-- A problem whether an optional is present. -/
def presence (element : Kind) : Problem where
  kinds := [.bool, .maybe element]
  inputs := [⟨⟨0, .maybe element⟩, "x"⟩]
  quantified := [.existential ⟨0, .maybe element⟩ []]
  assignments := [⟨⟨1, .bool⟩, ⟨.maybeIs element true, [⟨0, .maybe element⟩]⟩⟩]
  goal := ⟨1, .bool⟩

/-- For an optional truth value there is only the test that was asked for. -/
theorem testsAsWanted_presence : ∃ script,
    (SessionStep.problem (presence .bool)).compile { capabilities := .cvc5 } = .ok script ∧
      Script.TestsAsWanted .cvc5 script.commands := by
  obtain ⟨script, hscript⟩ : ∃ script,
      (SessionStep.problem (presence .bool)).compile { capabilities := .cvc5 } = .ok script :=
    ⟨_, rfl⟩
  refine ⟨script, hscript, (SessionStep.testsAsWanted_iff hscript).mpr (.inr ?_)⟩
  have hsymbols : (SessionStep.problem (presence .bool)).openSymbols =
      [⟨"s0", [], .maybe .bool⟩] := rfl
  rw [hsymbols]
  decide

/-- For an optional character the same test is written in both forms, since the invariant of the
character is guarded. -/
theorem not_testsAsWanted_presence : ∃ script,
    (SessionStep.problem (presence .char)).compile { capabilities := .cvc5 } = .ok script ∧
      "(define-fun s1 () Bool ((_ is just_SBVMaybe) s0))" ∈ script.lines ∧
      "(assert (=> ((_ is (just_SBVMaybe (String) (SBVMaybe String))) s0) " ++
        "(= 1 (str.len (get_just_SBVMaybe s0)))))" ∈ script.lines ∧
      ¬Script.TestsAsWanted .cvc5 script.commands := by
  obtain ⟨script, hscript, hguard, htest⟩ : ∃ script,
      (SessionStep.problem (presence .char)).compile { capabilities := .cvc5 } = .ok script ∧
        script.commands[9]? = some (.assert (Kind.implication
          (.app (Composite.testerWithSignature "just_SBVMaybe" [.char] (.maybe .char))
            [.symbol "s0"])
          (.app (.symbol "=") [.numeral 1, .app (.symbol "str.len")
            [.app (.symbol "get_just_SBVMaybe") [.symbol "s0"]]]))) ∧
        script.commands[16]? = some (.defineFun "s1" Kind.bool.sort
          (.app (.tester "just_SBVMaybe" none) [.node 0]) "") := ⟨_, rfl, rfl, rfl⟩
  have hguard := List.mem_of_getElem? hguard
  refine ⟨script, hscript, List.mem_flatMap.mpr ⟨_, List.mem_of_getElem? htest, by decide⟩,
    List.mem_flatMap.mpr ⟨_, hguard, by decide⟩, fun h => ?_⟩
  simpa [Command.terms, Kind.implication, Composite.testerWithSignature, Capabilities.cvc5] using
    h _ hguard

end Problem

end SolverScript
