import SolverScript.Proofs.Script.OrdinaryCommands

/-!
# Sorts in a session

A session starts with the script of a problem and goes on with increments, and each step declares
the sorts that its own kinds need. A step knows nothing of the others, so a sort is declared again
by every step with a kind that has it as its head or inside. Kinds that are new as a whole are not
enough for a session that declares no sort twice: their heads have to be new, at every depth.

## Main definitions

* `Session` - a problem and increments, with `Session.compile`
* `SessionStep.Uses` - whether a step needs the declaration of a sort
* `Session.AddsNewKinds` - no step lists a kind that occurred before
* `Session.DeclaresOnce` - no sort and no function that comes with one is declared twice

## Main results

* `SessionStep.typeNames_compile` - what a step declares
* `Session.declaresOnce_iff` - a session declares each sort once just if no two steps use the same
  sort
-/

namespace SolverScript

variable {config : Config}

/-! ### Steps -/

/-- The kinds that a step lists. -/
def SessionStep.kinds : SessionStep → List Kind
  | problem p => p.kinds
  | increment i => i.kinds

/-- The sorts that a step declares. -/
def SessionStep.declaredSorts (step : SessionStep) : List DeclaredSort :=
  (Features.ofKinds (KindSet.closure step.kinds)).declaredSorts

/-- Whether a step needs the declaration of a sort: it is the head of one of its kinds, or of a kind
inside. -/
def SessionStep.Uses (step : SessionStep) (s : DeclaredSort) : Prop :=
  ∃ k ∈ step.kinds, ∃ part ∈ k.subkinds, part.declaredSort? = some s

namespace SessionStep

theorem mem_declaredSorts_iff {step : SessionStep} {s : DeclaredSort} :
    s ∈ step.declaredSorts ↔ step.Uses s := by
  rw [declaredSorts, Features.mem_declaredSorts_iff]
  simp only [KindSet.mem_closure_iff, Uses]
  constructor
  · rintro ⟨part, ⟨k, hk, hpart⟩, hs⟩
    exact ⟨k, hk, part, hpart, hs⟩
  · rintro ⟨k, hk, part, hpart, hs⟩
    exact ⟨part, ⟨k, hk, hpart⟩, hs⟩

theorem nodup_declaredSorts (step : SessionStep) : step.declaredSorts.Nodup :=
  Features.nodup_declaredSorts (KindSet.nodup_ofList _)

end SessionStep

/-! ### What the script of a problem declares -/

namespace Plan

variable {plan : Plan}

theorem typeNames_opening {query : LogicQuery} {tuples : List Command}
    (hlogic : query.choose plan.config = .ok plan.logic)
    (htuples : plan.features.tupleCommands = .ok tuples) :
    Script.typeNames (plan.opening tuples) =
      plan.features.declaredSorts.flatMap DeclaredSort.names := by
  have hhead : Script.typeNames plan.headCommands = [] :=
    Script.typeNames_eq_nil fun c hc => (isSetting_headCommands hlogic c hc).isDirect.typeNames
  rw [← Features.typeNames_sections htuples]
  simp only [opening, Script.typeNames_append, Script.typeNames_note, hhead, List.nil_append]
  exact List.append_nil _

end Plan

/-- Only the sections of sorts in the script of a problem declare any. -/
theorem Problem.typeNames_compile {p : Problem} {script : CompiledScript}
    (h : p.compile config = .ok script) :
    Script.typeNames script.commands =
      (Features.ofKinds (KindSet.closure p.kinds)).declaredSorts.flatMap DeclaredSort.names := by
  obtain ⟨plan, hplan, hcommands⟩ := exists_plan_of_compile h
  obtain ⟨query, hlogic⟩ := hplan.logic
  rw [← hplan.ofConfig] at hlogic
  obtain ⟨tuples, body, conclusion, htuples, hconclusion, hbody, hsections⟩ :=
    hplan.exists_ordinary_body hcommands
  have hconclusion : Script.typeNames conclusion = [] := by
    rcases hplan.conclusion_cases hconclusion with ⟨-, hassertions⟩ | ⟨block, rfl, -⟩
    · refine Script.typeNames_eq_nil fun c hc => ?_
      obtain ⟨_, rfl⟩ | ⟨_, rfl⟩ | ⟨_, rfl⟩ := hassertions c hc
      all_goals rfl
    · rfl
  have hfeatures : plan.features.declaredSorts =
      (Features.ofKinds (KindSet.closure p.kinds)).declaredSorts := by
    rw [hplan.features]
    rfl
  rw [hsections, Script.typeNames_append, Script.typeNames_append,
    Plan.typeNames_opening hlogic htuples, Script.typeNames_of_isOrdinary hbody, hconclusion,
    List.append_nil, List.append_nil, hfeatures]

/-! ### What the script of an increment declares -/

/-- Only the sections of sorts in the script of an increment declare any. -/
theorem Increment.typeNames_compile {i : Increment} {script : CompiledScript}
    (h : i.compile config = .ok script) :
    Script.typeNames script.commands =
      (Features.ofKinds (KindSet.closure i.kinds)).declaredSorts.flatMap DeclaredSort.names := by
  obtain ⟨tables, arrays, tuples, constants, inputs, freeSymbols, definitions, htables, harrays,
    htuples, hconstants, hinputs, hfreeSymbols, hdefinitions, hcommands⟩ :=
    Increment.exists_sections_of_compile h
  have hconstants := forall_mem_commandsOf hconstants fun _ _ _ => Declaration.isDirect_constant
  have hinputs := forall_mem_commandsOf hinputs fun _ _ _ => Declaration.isDirect_symbol
  have hfreeSymbols := forall_mem_commandsOf hfreeSymbols fun _ _ _ => Declaration.isDirect_symbol
  have hdefinitions :=
    forall_mem_commandsOf hdefinitions fun _ _ _ => Scope.isDirect_definitionCommands
  obtain ⟨hdeclared, hdeferred, hsetup⟩ := ArraySetup.isOrdinary_sections harrays
  have hflatten : ∀ (f : Features), Script.typeNames (f.flattenCommands config.capabilities) = [] :=
    fun f => Script.typeNames_eq_nil fun c hc =>
      (f.isSetting_flattenCommands _ c hc).isDirect.typeNames
  have htables : Script.typeNames (tables.map fun t => TableSetup.declaration t.table) = [] :=
    Script.typeNames_eq_nil (List.forall_mem_map.mpr fun _ _ => rfl)
  have hinitializers : ∀ c ∈ tables.flatMap TableSetup.initializers, c.IsOrdinary :=
    List.forall_mem_flatMap.mpr fun t _ => t.isOrdinary_initializers
  have hconstraints : Script.typeNames (i.constraints.map constraintCommand) = [] := by
    refine Script.typeNames_eq_nil (List.forall_mem_map.mpr fun c _ => ?_)
    obtain ⟨_, hc | hc⟩ := constraintCommand_cases c <;> simp [hc, Command.typeNames]
  -- Only the sections about sorts introduce types.
  simp only [hcommands, Script.typeNames_append, hflatten, Features.typeNames_sections htuples,
    Script.typeNames_of_isDirect hconstants, Script.typeNames_of_isDirect hinputs,
    Script.typeNames_of_isOrdinary hdeclared, Script.typeNames_of_isDirect hfreeSymbols, htables,
    Script.typeNames_of_isDirect hdefinitions, Script.typeNames_of_isOrdinary hdeferred,
    Script.typeNames_of_isOrdinary hinitializers, Script.typeNames_of_isOrdinary hsetup,
    hconstraints, List.nil_append, List.append_nil]
  rfl

/-- A step declares the sorts that it uses, and defines the functions that come with them. -/
theorem SessionStep.typeNames_compile {step : SessionStep} {script : CompiledScript}
    (h : step.compile config = .ok script) :
    Script.typeNames script.commands = step.declaredSorts.flatMap DeclaredSort.names := by
  cases step with
  | problem p => exact Problem.typeNames_compile h
  | increment i => exact Increment.typeNames_compile h

/-! ### Sessions -/

/-- A session: a problem, and what is added to it. -/
structure Session where
  problem : Problem
  increments : List Increment

namespace Session

/-- The steps of a session, in order. -/
def steps (s : Session) : List SessionStep := .problem s.problem :: s.increments.map .increment

/-- The commands of a session. -/
def compile (config : Config) (s : Session) : Except Failure (List Command) :=
  commandsOf (fun step => do return (← step.compile config).commands) s.steps

/-- Whether a session uses a sort. -/
def Uses (s : Session) (sort : DeclaredSort) : Prop := ∃ step ∈ s.steps, step.Uses sort

/-- Whether the names of user sorts are unique: no two of them have the same name, and none has the
name of another data type. -/
structure HasUniqueSorts (s : Session) : Prop where
  user : ∀ a b, s.Uses (.user a) → s.Uses (.user b) → a.name = b.name → a = b
  free : ∀ a, s.Uses (.user a) → ∀ t : DeclaredSort, (∀ b, t ≠ .user b) → a.name ≠ t.name

/-- Whether each increment lists only kinds that occur neither in the problem nor in an increment
before it, nor inside their kinds. -/
def AddsNewKinds (s : Session) : Prop :=
  s.steps.Pairwise fun earlier step => ∀ k ∈ step.kinds, ∀ l ∈ earlier.kinds, k ∉ l.subkinds

/-- Whether no sort is declared twice, and no function that comes with a sort is defined twice. -/
def DeclaresOnce (commands : List Command) : Prop := (Script.typeNames commands).Nodup

variable {s : Session} {commands : List Command}

/-- A session declares the sorts that its steps use, step by step. -/
theorem typeNames_compile (h : s.compile config = .ok commands) :
    Script.typeNames commands =
      (s.steps.flatMap SessionStep.declaredSorts).flatMap DeclaredSort.names := by
  unfold compile at h
  generalize s.steps = steps at h
  induction steps generalizing commands with
  | nil =>
    cases h
    rfl
  | cons step steps ih =>
    obtain ⟨ds, es, hstep, hsteps, rfl⟩ := commandsOf_cons.mp h
    obtain ⟨script, hscript, hds⟩ := bind_eq_ok_iff.mp hstep
    obtain rfl := Except.ok.inj hds
    rw [Script.typeNames_append, SessionStep.typeNames_compile hscript, ih hsteps,
      List.flatMap_cons, List.flatMap_append]

theorem uses_of_mem_declaredSorts {step : SessionStep} (hstep : step ∈ s.steps)
    {sort : DeclaredSort} (h : sort ∈ step.declaredSorts) : s.Uses sort :=
  ⟨step, hstep, SessionStep.mem_declaredSorts_iff.mp h⟩

/-- Where names of user sorts are unique, different sorts introduce different names. -/
theorem HasUniqueSorts.disjoint_names (hs : s.HasUniqueSorts) {a b : DeclaredSort} (ha : s.Uses a)
    (hb : s.Uses b) (hne : a ≠ b) : a.names.Disjoint b.names := by
  have hnames : a.name ≠ b.name := by
    intro hname
    cases a with
    | user a =>
      cases b with
      | user b => exact hne (congrArg _ (hs.user a b ha hb hname))
      | _ => exact hs.free a ha _ (fun _ => DeclaredSort.noConfusion) hname
    | _ =>
      cases b with
      | user b => exact hs.free b hb _ (fun _ => DeclaredSort.noConfusion) hname.symm
      | _ => exact hne (DeclaredSort.eq_of_name (fun _ => DeclaredSort.noConfusion)
          (fun _ => DeclaredSort.noConfusion) hname)
  -- Functions come with rationals, by names of their own, and with user sorts, by the sort's name.
  have hhelpers : ∀ f ∈ a.helpers, f ∉ b.helpers := by
    intro f hfa hfb
    rcases DeclaredSort.helper_cases hfa with ⟨rfl, hf⟩ | ⟨u, rfl, rfl⟩ <;>
      rcases DeclaredSort.helper_cases hfb with ⟨rfl, hg⟩ | ⟨v, rfl, hv⟩
    · exact hne rfl
    · obtain ⟨g, -, hsymbol⟩ := List.mem_map.mp hf
      exact g.symbol_ne_indexName _ (hsymbol.trans hv)
    · obtain ⟨g, -, hsymbol⟩ := List.mem_map.mp hg
      exact g.symbol_ne_indexName _ hsymbol
    · exact hnames ((String.append_left_inj _).mp hv)
  rw [List.disjoint_left]
  intro x hxa hxb
  simp only [DeclaredSort.names, List.mem_cons, List.mem_map] at hxa hxb
  rcases hxa with rfl | ⟨f, hfa, rfl⟩ <;> rcases hxb with hx | ⟨g, hgb, hx⟩
  · exact hnames (Name.sort.inj hx)
  · cases hx
  · cases hx
  · exact hhelpers f hfa (Name.function.inj hx ▸ hgb)

/-- A session declares each sort once just if no two of its steps use the same sort, at the head of
a kind or inside. -/
theorem declaresOnce_iff (hs : s.HasUniqueSorts) (h : s.compile config = .ok commands) :
    DeclaresOnce commands ↔ s.steps.Pairwise fun earlier step =>
      ∀ sort, earlier.Uses sort → ¬step.Uses sort := by
  -- Different sorts share no names, so a name is repeated just if a sort is.
  have hdistinct : ∀ {sorts : List DeclaredSort}, (∀ a ∈ sorts, s.Uses a) →
      ((sorts.flatMap DeclaredSort.names).Nodup ↔ sorts.Nodup) := by
    intro sorts hsorts
    rw [List.nodup_flatMap, and_iff_right fun a _ => a.nodup_names]
    refine List.Pairwise.iff_of_mem fun {a b} ha hb =>
      ⟨?_, hs.disjoint_names (hsorts a ha) (hsorts b hb)⟩
    rintro hdisjoint rfl
    exact hdisjoint List.mem_cons_self List.mem_cons_self
  have hsorts : ∀ sort ∈ s.steps.flatMap SessionStep.declaredSorts, s.Uses sort :=
    List.forall_mem_flatMap.mpr fun step hstep _ hsort => uses_of_mem_declaredSorts hstep hsort
  rw [DeclaresOnce, typeNames_compile h, hdistinct hsorts, List.nodup_flatMap,
    and_iff_right fun step _ => step.nodup_declaredSorts]
  refine List.Pairwise.iff fun earlier step => ?_
  simp only [Function.onFun, List.disjoint_left, SessionStep.mem_declaredSorts_iff]

/-! ### New kinds with old heads -/

/-- Some kinds, and then some more. -/
def adding (kinds added : List Kind) : Session where
  problem := { kinds := kinds }
  increments := [{ kinds := added }]

theorem uses_adding_iff {kinds added : List Kind} {sort : DeclaredSort} :
    (adding kinds added).Uses sort ↔
      ∃ k ∈ kinds ++ added, ∃ part ∈ k.subkinds, part.declaredSort? = some sort := by
  simp [Uses, steps, adding, SessionStep.Uses, SessionStep.kinds, or_and_right, exists_or]

theorem hasUniqueSorts_of_not_uses_user {s : Session} (h : ∀ u, ¬s.Uses (.user u)) :
    s.HasUniqueSorts :=
  ⟨fun a _ ha => absurd ha (h a), fun a ha => absurd ha (h a)⟩

/-- Tuples may be added to optionals. -/
theorem declaresOnce_adding_tuples : ∃ commands,
    (adding [.maybe .bool] [.tuple [.bool, .bool]]).compile {} = .ok commands ∧
      DeclaresOnce commands := by
  obtain ⟨commands, hcommands⟩ : ∃ commands,
      (adding [.maybe .bool] [.tuple [.bool, .bool]]).compile {} = .ok commands := ⟨_, rfl⟩
  have hsorts : (adding [.maybe .bool] [.tuple [.bool, .bool]]).HasUniqueSorts :=
    hasUniqueSorts_of_not_uses_user (by
      simp [uses_adding_iff, Kind.subkinds, Kind.subkindsAll, Kind.declaredSort?])
  refine ⟨commands, hcommands, (declaresOnce_iff hsorts hcommands).mpr ?_⟩
  simp [steps, adding, SessionStep.Uses, SessionStep.kinds, Kind.subkinds, Kind.subkindsAll,
    Kind.declaredSort?]

/-- A user sort with a name of one letter is not called like a data type. -/
theorem hasUniqueSorts_adding_lists :
    (adding [.userSort ⟨"S", none⟩] [.list (.userSort ⟨"S", none⟩)]).HasUniqueSorts := by
  have huser : ∀ u, (adding [.userSort ⟨"S", none⟩] [.list (.userSort ⟨"S", none⟩)]).Uses
      (.user u) → u = ⟨"S", none⟩ := by
    simp [uses_adding_iff, Kind.subkinds, Kind.declaredSort?, UserSort.isRoundingMode]
  refine ⟨fun a b ha hb _ => (huser a ha).trans (huser b hb).symm, fun a ha t ht => ?_⟩
  rw [huser a ha]
  intro hname
  have hsecond : t.name.toList[1]? = none := by
    rw [← hname]
    rfl
  cases t with
  | user b => exact ht b rfl
  | tuple n => simp [DeclaredSort.name] at hsecond
  | _ => exact absurd hsecond (by decide)

/-- Optionals of another kind are new, but they share the data type of the first ones, which is
declared again. And so is a user sort inside a new kind. -/
theorem not_declaresOnce_adding :
    ((adding [.maybe .unbounded] [.maybe .bool]).HasUniqueSorts ∧
      (adding [.maybe .unbounded] [.maybe .bool]).AddsNewKinds ∧ ∃ commands,
        (adding [.maybe .unbounded] [.maybe .bool]).compile {} = .ok commands ∧
          ¬DeclaresOnce commands) ∧
    (adding [.userSort ⟨"S", none⟩] [.list (.userSort ⟨"S", none⟩)]).HasUniqueSorts ∧
      (adding [.userSort ⟨"S", none⟩] [.list (.userSort ⟨"S", none⟩)]).AddsNewKinds ∧ ∃ commands,
        (adding [.userSort ⟨"S", none⟩] [.list (.userSort ⟨"S", none⟩)]).compile {} = .ok commands ∧
          ¬DeclaresOnce commands := by
  refine ⟨⟨?_, ?_, ?_⟩, ?_, ?_, ?_⟩
  · exact hasUniqueSorts_of_not_uses_user (by
      simp [uses_adding_iff, Kind.subkinds, Kind.declaredSort?])
  · simp [AddsNewKinds, steps, adding, SessionStep.kinds, Kind.subkinds]
  · obtain ⟨commands, hcommands, htypes⟩ : ∃ commands,
        (adding [.maybe .unbounded] [.maybe .bool]).compile {} = .ok commands ∧
          Script.typeNames commands = [.sort "SBVMaybe", .sort "SBVMaybe"] := ⟨_, rfl, rfl⟩
    exact ⟨commands, hcommands, by simp [DeclaresOnce, htypes]⟩
  · exact hasUniqueSorts_adding_lists
  · simp [AddsNewKinds, steps, adding, SessionStep.kinds, Kind.subkinds]
  · obtain ⟨commands, hcommands, htypes⟩ : ∃ commands,
        (adding [.userSort ⟨"S", none⟩] [.list (.userSort ⟨"S", none⟩)]).compile {} =
          .ok commands ∧ Script.typeNames commands = [.sort "S", .sort "S"] := ⟨_, rfl, rfl⟩
    exact ⟨commands, hcommands, by simp [DeclaresOnce, htypes]⟩

end Session

end SolverScript
