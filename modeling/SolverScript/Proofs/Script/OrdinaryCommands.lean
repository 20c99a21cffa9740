import SolverScript.Proofs.Script.DirectCommands

/-!
# The ordinary part of a script

Between the sections of sorts and the conclusion, a script consists of ordinary commands: they
declare symbols, define nodes and assert what is known about them, but neither declare sorts nor
suggest anything nor bind universal nodes. The conclusion either asserts and suggests formulas, or
it is a single assertion that binds the universal nodes.

## Main results

* `Problem.IsPlan.exists_ordinary_body` - the parts of a script
* `Problem.IsPlan.conclusion_cases` - the two forms of a conclusion
-/

namespace SolverScript

variable {config : Config} {p : Problem} {plan : Plan}

namespace Plan

theorem isOrdinary_trackerCommands {trackers : List Command}
    (h : plan.trackerCommands = .ok trackers) : ∀ c ∈ trackers, c.IsOrdinary :=
  forall_mem_trackerCommands h (Command.isDirect_note _).toIsOrdinary fun _ _ _ hds c hc =>
    (Declaration.isDirect_symbol hds c hc).toIsOrdinary

theorem isOrdinary_reversalCommands (plan : Plan) : ∀ c ∈ plan.reversalCommands, c.IsOrdinary :=
  plan.forall_mem_reversalCommands (Command.isDirect_note _).toIsOrdinary fun r _ =>
    (Command.isDirect_defineReversal r.1 r.2).toIsOrdinary

end Plan

namespace Problem.IsPlan

variable (hplan : p.IsPlan config plan)

include hplan

theorem isOrdinary_middle {freeSymbols : List Command}
    (hfreeSymbols : ∀ c ∈ freeSymbols, c.IsDirect) :
    ∀ c ∈ plan.middle freeSymbols, c.IsOrdinary := by
  have hnote := fun text => (Command.isDirect_note text).toIsOrdinary
  obtain ⟨hdeclared, -, -⟩ := ArraySetup.isOrdinary_sections hplan.arrays
  simp only [Plan.middle, List.forall_mem_append, List.forall_mem_cons, List.forall_mem_map]
  exact ⟨⟨⟨⟨⟨⟨⟨hnote _, List.forall_mem_flatMap.mpr fun t _ => t.isOrdinary_constantCommands⟩,
    hnote _, fun t _ => (Command.isDirect_declareFun _ _ _ _).toIsOrdinary⟩, hnote _, hdeclared⟩,
    hnote _, fun c hc => (hfreeSymbols c hc).toIsOrdinary⟩, plan.isOrdinary_reversalCommands⟩,
    hnote _, fun p _ => (Command.isDirect_postulate p).toIsOrdinary⟩, hnote _, by simp⟩

theorem isOrdinary_arrayCommands : ∀ c ∈ plan.arrayCommands, c.IsOrdinary := by
  have hnote := fun text => (Command.isDirect_note text).toIsOrdinary
  obtain ⟨-, hdeferred, hsetup⟩ := ArraySetup.isOrdinary_sections hplan.arrays
  simp only [Plan.arrayCommands, List.forall_mem_append, List.forall_mem_cons]
  exact ⟨⟨⟨hnote _, hdeferred⟩, hnote _, hsetup⟩, hnote _, by simp⟩

omit hplan in
/-- A script consists of its opening, ordinary commands, and its conclusion. -/
theorem exists_ordinary_body (hplan : p.IsPlan config plan) {commands : List Command}
    (h : plan.commands = .ok commands) :
    ∃ tuples body conclusion, plan.features.tupleCommands = .ok tuples ∧
      plan.conclusionCommands = .ok conclusion ∧ (∀ c ∈ body, c.IsOrdinary) ∧
      commands = plan.opening tuples ++ body ++ conclusion := by
  obtain ⟨tuples, constants, existentials, trackers, freeSymbols, definitions, conclusion, htuples,
    hconstants, hexistentials, htrackers, hfreeSymbols, hdefinitions, hconclusion, hsections⟩ :=
    Plan.exists_sections_of_commands h
  have hconstants := forall_mem_commandsOf hconstants fun _ _ _ => Declaration.isDirect_constant
  have hexistentials :=
    forall_mem_commandsOf hexistentials fun _ _ _ => Declaration.isDirect_symbol
  have hfreeSymbols := forall_mem_commandsOf hfreeSymbols fun _ _ _ => Declaration.isDirect_symbol
  have hdefinitions :=
    forall_mem_commandsOf hdefinitions fun _ _ _ => Scope.isDirect_definitionCommands
  refine ⟨tuples, constants ++ .note "--- skolem constants ---" :: existentials ++ trackers ++
    plan.middle freeSymbols ++ definitions ++ plan.arrayCommands, conclusion, htuples, hconclusion,
    ?_, by simp [hsections]⟩
  simp only [List.forall_mem_append, List.forall_mem_cons]
  exact ⟨⟨⟨⟨⟨fun c hc => (hconstants c hc).toIsOrdinary, (Command.isDirect_note _).toIsOrdinary,
    fun c hc => (hexistentials c hc).toIsOrdinary⟩, Plan.isOrdinary_trackerCommands htrackers⟩,
    hplan.isOrdinary_middle hfreeSymbols⟩, fun c hc => (hdefinitions c hc).toIsOrdinary⟩,
    hplan.isOrdinary_arrayCommands⟩

/-- The conclusion of a script: formulas that are asserted or suggested one by one, with remarks, or
an assertion about all values of the universal nodes. -/
theorem conclusion_cases {conclusion : List Command}
    (h : plan.conclusionCommands = .ok conclusion) :
    (p.universals = [] ∧ ∀ c ∈ conclusion,
      (∃ text, c = .note text) ∨ (∃ t, c = .assert t) ∨ ∃ t, c = .assertSoft t) ∨
    ∃ block, conclusion = [.assertForAll block] ∧ block.universals = p.universals := by
  by_cases huniversals : p.universals = []
  · rw [hplan.conclusionCommands_of_open huniversals] at h
    cases h
    refine .inl ⟨huniversals, ?_⟩
    unfold Plan.openCommands FinalFormula.commands
    simp only [List.forall_mem_append, List.forall_mem_cons, List.forall_mem_map]
    exact ⟨⟨⟨⟨.inl ⟨_, rfl⟩, .inl ⟨_, rfl⟩, by simp⟩, fun _ _ => .inr (.inl ⟨_, rfl⟩)⟩,
      .inl ⟨_, rfl⟩, by simp⟩, fun _ _ => .inr (.inl ⟨_, rfl⟩), fun _ _ => .inr (.inr ⟨_, rfl⟩)⟩
  · exact .inr (hplan.exists_block huniversals h)

/-- The commands that bind nodes bind the universal ones. -/
theorem universals_of_mem {commands : List Command} (h : plan.commands = .ok commands)
    {block : QuantifiedBlock} (hblock : .assertForAll block ∈ commands) :
    block.universals = p.universals := by
  obtain ⟨query, hlogic⟩ := hplan.logic
  rw [← hplan.ofConfig] at hlogic
  obtain ⟨tuples, body, conclusion, htuples, hconclusion, hbody, rfl⟩ :=
    hplan.exists_ordinary_body h
  -- Only the conclusion can bind nodes: the opening is inert, and the rest is ordinary.
  rcases List.mem_append.mp hblock with hblock | hblock
  · rcases List.mem_append.mp hblock with hblock | hblock
    · exact (Plan.isInert_opening hlogic htuples _ hblock).elim
    · exact absurd rfl ((hbody _ hblock).ne_assertForAll block)
  · rcases hplan.conclusion_cases hconclusion with ⟨-, hassertions⟩ | ⟨block', rfl, hblock'⟩
    · obtain ⟨_, h⟩ | ⟨_, h⟩ | ⟨_, h⟩ := hassertions _ hblock
      all_goals cases h
    · cases List.mem_singleton.mp hblock
      exact hblock'

end Problem.IsPlan

end SolverScript
