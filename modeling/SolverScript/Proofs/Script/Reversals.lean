import Mathlib.Data.List.TakeWhile
import SolverScript.Proofs.Kind.Order
import SolverScript.Proofs.Script.ElementaryCommands
import SolverScript.Proofs.Script.Failures
import SolverScript.Proofs.Script.ProperSteps

/-!
# Functions that reverse

A script defines a function for every kind that one of its assignments reverses. The functions are
named in the order of first use, looked up by kind where an operation is encoded, and written in the
order of kinds, so that all three have to agree on which kinds there are.

## Main definitions

* `Problem.Reverses` - what a problem reverses
* `Script.reversals` - the functions that a script defines for reversal
* `Problem.HasReversals` - what a script has to have for the reversals of its problem

## Main results

* `Features.mem_reversalsOf_iff`, `Features.nodup_reversalsOf` - what some operators reverse
* `Plan.name?_reversals` - the name by which an encoding finds a function
* `Problem.compile_reversals` - a script has the functions that it uses
-/

namespace SolverScript

/-! ### What is reversed -/

/-- What is reversed is determined by its kind. -/
theorem Reversible.kind_injective : Function.Injective Reversible.kind := by
  intro what other h
  cases what <;> cases other <;> simp_all [kind]

namespace Features

theorem appendNew_of_mem {found : List Reversible} {what : Reversible} (h : what ∈ found) :
    appendNew found what = found := by
  have hany : (found.any fun other => other.kind == what.kind) = true :=
    List.any_eq_true.mpr ⟨what, h, Kind.beq_eq_true_iff.mpr rfl⟩
  rw [appendNew, if_pos hany]

theorem appendNew_of_not_mem {found : List Reversible} {what : Reversible} (h : what ∉ found) :
    appendNew found what = found ++ [what] := by
  have hany : ¬(found.any fun other => other.kind == what.kind) = true := by
    intro hany
    obtain ⟨other, hother, hkind⟩ := List.any_eq_true.mp hany
    rw [Kind.beq_eq_true_iff, Reversible.kind_injective.eq_iff] at hkind
    exact h (hkind ▸ hother)
  rw [appendNew, if_neg hany]

theorem mem_appendNew_iff {found : List Reversible} {what other : Reversible} :
    other ∈ appendNew found what ↔ other ∈ found ∨ other = what := by
  by_cases h : what ∈ found
  · rw [appendNew_of_mem h]
    exact ⟨.inl, fun h' => h'.elim id fun heq => heq ▸ h⟩
  · rw [appendNew_of_not_mem h, List.mem_append, List.mem_singleton]

theorem nodup_appendNew {found : List Reversible} (hfound : found.Nodup) (what : Reversible) :
    (appendNew found what).Nodup := by
  by_cases h : what ∈ found
  · rwa [appendNew_of_mem h]
  · rw [appendNew_of_not_mem h, ← List.concat_eq_append]
    exact hfound.concat h

/-- What some operators reverse is collected from all of them. -/
theorem mem_reversalsOf_iff {operators : List Operator} {what : Reversible} :
    what ∈ reversalsOf operators ↔ .reverse what ∈ operators := by
  refine ⟨Problem.exists_of_mem_reversalsOf, fun h => ?_⟩
  -- Something that has been found is kept by the steps that follow.
  have hfold : ∀ ws found : List Reversible, what ∈ found ∨ what ∈ ws →
      what ∈ ws.foldl appendNew found := by
    intro ws
    induction ws with
    | nil => exact fun found h => h.resolve_right List.not_mem_nil
    | cons w ws ih =>
      rintro found (h | h)
      · exact ih _ (.inl (mem_appendNew_iff.mpr (.inl h)))
      · rcases List.mem_cons.mp h with rfl | h
        · exact ih _ (.inl (mem_appendNew_iff.mpr (.inr rfl)))
        · exact ih _ (.inr h)
  exact hfold _ _ (.inr (List.mem_filterMap.mpr ⟨_, h, rfl⟩))

/-- Nothing is collected twice. -/
theorem nodup_reversalsOf (operators : List Operator) : (reversalsOf operators).Nodup := by
  have hfold : ∀ ws found : List Reversible, found.Nodup → (ws.foldl appendNew found).Nodup := by
    intro ws
    induction ws with
    | nil => exact fun _ h => h
    | cons w ws ih => exact fun found h => ih _ (nodup_appendNew h w)
  exact hfold _ _ List.nodup_nil

end Features

/-- Whether some assignment of a problem reverses something. -/
def Problem.Reverses (p : Problem) (what : Reversible) : Prop :=
  ∃ a ∈ p.assignments, a.operation.operator = .reverse what

/-! ### The functions of a plan -/

/-- The only element that passes a test is the only one that is left. -/
theorem filter_eq_singleton {β : Type} {bs : List β} (hbs : bs.Nodup) {q : β → Bool} {b : β}
    (hb : b ∈ bs) (hq : ∀ c ∈ bs, q c = true ↔ c = b) : bs.filter q = [b] := by
  refine List.perm_singleton.mp ((List.perm_ext_iff_of_nodup (hbs.filter q)
    (List.nodup_singleton b)).mpr fun c => ?_)
  rw [List.mem_filter, List.mem_singleton]
  exact ⟨fun h => (hq c h.1).mp h.2, fun h => ⟨h ▸ hb, (hq c (h ▸ hb)).mpr h⟩⟩

namespace Plan

variable {config : Config} {p : Problem} {plan : Plan}

theorem exists_mem_reversals (hplan : p.IsPlan config plan) {what : Reversible}
    (hwhat : p.Reverses what) : ∃ name, (what, name) ∈ plan.reversals := by
  obtain ⟨a, ha, hop⟩ := hwhat
  have hmem : what ∈ plan.features.reversals := by
    rw [hplan.features]
    exact Features.mem_reversalsOf_iff.mpr (hop ▸ List.mem_map_of_mem ha)
  obtain ⟨i, hi⟩ := List.mem_iff_getElem?.mp hmem
  exact ⟨reversalName i, mem_reversals_iff.mpr ⟨i, hi, rfl⟩⟩

theorem nodup_features_reversals (hplan : p.IsPlan config plan) :
    plan.features.reversals.Nodup := by
  rw [hplan.features]
  exact Features.nodup_reversalsOf _

/-- Two functions of a plan are the same if they are for the same kind. -/
theorem eq_of_kind (hplan : p.IsPlan config plan) {r s : Reversible × String}
    (hr : r ∈ plan.reversals) (hs : s ∈ plan.reversals) (h : r.1.kind = s.1.kind) : r = s := by
  obtain ⟨i, hi, hrname⟩ := mem_reversals_iff.mp hr
  obtain ⟨j, hj, hsname⟩ := mem_reversals_iff.mp hs
  have hwhat : r.1 = s.1 := Reversible.kind_injective h
  have hij : i = j := by
    obtain ⟨hlt, -⟩ := List.getElem?_eq_some_iff.mp hi
    exact (List.getElem?_inj hlt (nodup_features_reversals hplan)).mp (by rw [hi, hj, hwhat])
  exact Prod.ext hwhat (by rw [hrname, hsname, hij])

/-- Two functions of a plan are the same if they have the same name. -/
theorem eq_of_name {r s : Reversible × String} (hr : r ∈ plan.reversals)
    (hs : s ∈ plan.reversals) (h : r.2 = s.2) : r = s := by
  obtain ⟨i, hi, hrname⟩ := mem_reversals_iff.mp hr
  obtain ⟨j, hj, hsname⟩ := mem_reversals_iff.mp hs
  have hij : i = j := by
    rw [hrname, hsname] at h
    exact Numeral.repr_injective (by simpa [reversalName] using h)
  refine Prod.ext (Option.some.inj ?_) h
  rw [← hi, ← hj, hij]

theorem nodup_reversals (hplan : p.IsPlan config plan) : plan.reversals.Nodup := by
  have hfst : plan.reversals.map Prod.fst = plan.features.reversals := by
    rw [reversals, List.map_map]
    exact List.zipIdx_map_fst 0 _
  exact List.Nodup.of_map Prod.fst (hfst ▸ nodup_features_reversals hplan)

/-- An encoding finds the function of a kind by its name. -/
theorem name?_reversals (hplan : p.IsPlan config plan) {what : Reversible} {name : String}
    (h : (what, name) ∈ plan.reversals) : plan.scope.reversals.name? what.kind = some name := by
  -- The lookup takes the latest entry of the kind, and there is no other one.
  have hentry : (what.kind, name) ∈ plan.scope.reversals := List.mem_map_of_mem h
  obtain ⟨other, hother⟩ := exists_latest?_of_mem (what.kind == ·) hentry
    (Kind.beq_eq_true_iff.mpr rfl)
  obtain ⟨k, hmem, hkey⟩ := exists_of_latest? hother
  obtain ⟨r, hr, hentry⟩ := List.mem_map.mp hmem
  obtain ⟨rfl, rfl⟩ := Prod.mk.inj hentry
  have hr := eq_of_kind hplan h hr (Kind.beq_eq_true_iff.mp hkey)
  rw [ReversalMap.name?, hother, ← hr]

end Plan

/-! ### The functions of a script -/

/-- The function that a command defines for reversal, with its name. -/
def Command.reversal? : Command → Option (Reversible × String)
  | defineReversal what name => some (what, name)
  | _ => none

/-- The functions that a script defines for reversal. -/
def Script.reversals (commands : List Command) : List (Reversible × String) :=
  commands.filterMap Command.reversal?

theorem Script.reversals_append (cs ds : List Command) :
    reversals (cs ++ ds) = reversals cs ++ reversals ds :=
  List.filterMap_append

theorem Script.reversals_eq_nil {cs : List Command} (h : ∀ c ∈ cs, c.isElementary = true) :
    reversals cs = [] := by
  refine List.filterMap_eq_nil_iff.mpr fun c hc => ?_
  have hc := h c hc
  cases c <;> first | rfl | cases hc

namespace Plan

variable {config : Config} {p : Problem} {plan : Plan}

theorem reversals_reversalCommands (plan : Plan) :
    Script.reversals plan.reversalCommands = plan.reversals.foldr placeReversal [] := by
  unfold reversalCommands
  generalize plan.reversals.foldr placeReversal [] = sorted
  have hnote : Script.reversals
      (if sorted.isEmpty then [] else [.note "--- SBV Function definitions"]) = [] := by
    split <;> rfl
  rw [Script.reversals_append, hnote, List.nil_append, Script.reversals, List.filterMap_map]
  exact List.filterMap_some

theorem not_mem_reversalCommands (plan : Plan) (block : QuantifiedBlock) :
    .assertForAll block ∉ plan.reversalCommands := fun h =>
  plan.isInert_reversalCommands _ h

/-- The functions that reverse stand before the first definition, among elementary commands. -/
theorem exists_middle (hplan : p.IsPlan config plan) {freeSymbols : List Command}
    (hfreeSymbols : ∀ c ∈ freeSymbols, c.isElementary = true) :
    ∃ before after, plan.middle freeSymbols = before ++ plan.reversalCommands ++ after ∧
      (∀ c ∈ before, c.isElementary = true) ∧ ∀ c ∈ after, c.isElementary = true := by
  obtain ⟨hdeclarations, -, -⟩ := ArraySetup.isElementary_sections hplan.arrays
  refine ⟨_, .note "--- user given axioms ---" :: plan.problem.postulates.map .postulate ++
    [.note "--- preQuantifier assignments ---"], List.append_assoc _ _ _, ?_, ?_⟩
  · simp only [List.forall_mem_append, List.forall_mem_cons, List.forall_mem_map]
    exact ⟨⟨⟨⟨rfl, List.forall_mem_flatMap.mpr fun t _ => t.isElementary_constantCommands⟩, rfl,
      fun _ _ => rfl⟩, rfl, hdeclarations⟩, rfl, hfreeSymbols⟩
  · simp only [List.forall_mem_append, List.forall_mem_cons, List.forall_mem_map]
    exact ⟨⟨rfl, fun _ _ => rfl⟩, rfl, by simp⟩

/-- A script up to its conclusion consists of elementary commands and the functions that reverse,
which come before the first definition. -/
theorem exists_around_reversals (hplan : p.IsPlan config plan) {commands : List Command}
    (h : plan.commands = .ok commands) :
    ∃ before after definitions conclusion,
      commandsOf plan.scope.definitionCommands plan.early = .ok definitions ∧
      plan.conclusionCommands = .ok conclusion ∧
      (∀ c ∈ before, c.isElementary = true) ∧ (∀ c ∈ after, c.isElementary = true) ∧
      commands = before ++ plan.reversalCommands ++ after ++ definitions ++
        (plan.arrayCommands ++ conclusion) := by
  obtain ⟨tuples, constants, existentials, trackers, freeSymbols, definitions, conclusion, htuples,
    hconstants, hexistentials, htrackers, hfreeSymbols, hdefinitions, hconclusion, hsections⟩ :=
    exists_sections_of_commands h
  have hconstants := forall_mem_commandsOf hconstants fun _ _ _ h =>
    Declaration.isElementary_constant h
  have hexistentials := forall_mem_commandsOf hexistentials fun _ _ _ h =>
    Declaration.isElementary_symbol h
  have hfreeSymbols := forall_mem_commandsOf hfreeSymbols fun _ _ _ h =>
    Declaration.isElementary_symbol h
  obtain ⟨before, after, hmiddle, hbefore, hafter⟩ := exists_middle hplan hfreeSymbols
  refine ⟨plan.opening tuples ++ constants ++ .note "--- skolem constants ---" :: existentials ++
    trackers ++ before, after, definitions, conclusion, hdefinitions, hconclusion, ?_, hafter,
    by simp [hsections, hmiddle]⟩
  simp only [List.forall_mem_append, List.forall_mem_cons]
  exact ⟨⟨⟨⟨isElementary_opening hplan htuples, hconstants⟩, rfl, hexistentials⟩,
    isElementary_trackerCommands htrackers⟩, hbefore⟩

end Plan

/-- Whether a script has a single function for a kind: no other function reverses the kind, and none
has the name. The function takes values of the kind to values of the kind. -/
structure Script.DefinesReversal (commands : List Command) (what : Reversible) (name : String) :
    Prop where
  of_kind : (reversals commands).filter (fun r => r.1.kind == what.kind) = [(what, name)]
  of_name : (reversals commands).filter (fun r => r.2 == name) = [(what, name)]
  declared : Declaration.reversal what.kind name = .ok (.defineReversal what name)
  parameter_sorts : (what.definition name).parameters.map Prod.snd = [what.kind.sort]
  result_sort : (what.definition name).result = what.kind.sort

/-- Whether a term is what defines the node of an assignment, if the assignment reverses: the
function with a given name, applied to the operands. -/
def Assignment.AppliesReversal (name : Reversible → String) (skolems : SkolemMap)
    (a : Assignment) (value : Term) : Prop :=
  ∀ what, a.operation.operator = .reverse what →
    value = Term.apply (name what) (a.operation.operands.map skolems.nodeTerm)

/-- What a script has to have for the reversals of its problem. It opens with one function for each
kind that is reversed, and with no other than elementary commands beside them. Then come the
definitions of some assignments. Whatever is defined under universal nodes follows in the closing
part. All reversals apply the functions. -/
structure Problem.HasReversals (config : Config) (p : Problem) (name : Reversible → String)
    (value : Assignment → Term) (label : Assignment → Option String)
    (opening definitions closing : List Command) : Prop where
  function : ∀ what, p.Reverses what → Script.DefinesReversal opening what (name what)
  opening_unbound : ∀ block, .assertForAll block ∉ opening
  early : definitions = (p.assignments.takeWhile p.isEarly).flatMap fun a =>
    Declaration.defined config.capabilities a.node (value a) ((label a).getD "")
  late : p.assignments.dropWhile p.isEarly = [] ∨ ∃ block, .assertForAll block ∈ closing ∧
    block.definitions =
      (p.assignments.dropWhile p.isEarly).map fun a => ⟨a.node, value a, label a⟩
  no_later : Script.reversals (definitions ++ closing) = []
  applied : ∀ a ∈ p.assignments, a.AppliesReversal name p.skolems (value a)

/-- Without universal nodes, every assignment comes early. -/
theorem Problem.late_of_open {p : Problem} (huniversals : p.universals = []) :
    p.assignments.dropWhile p.isEarly = [] :=
  List.dropWhile_eq_nil_iff.mpr fun _ _ => isEarly_iff.mpr (by simp [huniversals])

namespace Plan

variable {config : Config} {p : Problem} {plan : Plan}

/-- The name of the function for what is reversed, as encodings look it up. -/
def reversalNameOf (plan : Plan) (what : Reversible) : String :=
  (plan.scope.reversals.name? what.kind).getD ""

/-- The term that defines the node of an assignment, and its label. -/
def definitionOf (plan : Plan) (a : Assignment) : Term × Option String :=
  match plan.scope.definition a.operation with
  | .ok d => d
  | .error _ => (a.node.term, none)

theorem mem_reversals (hplan : p.IsPlan config plan) {what : Reversible}
    (hwhat : p.Reverses what) : (what, plan.reversalNameOf what) ∈ plan.reversals := by
  obtain ⟨name, hname⟩ := exists_mem_reversals hplan hwhat
  rwa [reversalNameOf, name?_reversals hplan hname]

theorem definesReversal (hplan : p.IsPlan config plan) {opening : List Command}
    (hopening : Script.reversals opening = plan.reversals.foldr placeReversal [])
    {what : Reversible} (hwhat : p.Reverses what) :
    Script.DefinesReversal opening what (plan.reversalNameOf what) := by
  have hmem := mem_reversals hplan hwhat
  have hperm := perm_sortedReversals plan.reversals
  have hnodup := hperm.nodup_iff.mpr (nodup_reversals hplan)
  refine ⟨?_, ?_, ?_, ?_, ?_⟩
  · rw [hopening]
    refine filter_eq_singleton hnodup (hperm.mem_iff.mpr hmem) fun r hr => ?_
    rw [Kind.beq_eq_true_iff]
    exact ⟨eq_of_kind hplan (hperm.mem_iff.mp hr) hmem, fun h => by rw [h]⟩
  · rw [hopening]
    refine filter_eq_singleton hnodup (hperm.mem_iff.mpr hmem) fun r hr => ?_
    rw [beq_iff_eq]
    exact ⟨eq_of_name (hperm.mem_iff.mp hr) hmem, fun h => by rw [h]⟩
  all_goals cases what <;> rfl

/-- A definition that is there is the one that its assignment has. -/
theorem definitionOf_eq {a : Assignment} {d : Term × Option String}
    (h : plan.scope.definition a.operation = .ok d) : plan.definitionOf a = d := by
  rw [definitionOf, h]

theorem appliesReversal (hplan : p.IsPlan config plan) {a : Assignment} (ha : a ∈ p.assignments)
    {d : Term × Option String} (h : plan.scope.definition a.operation = .ok d) :
    a.AppliesReversal plan.reversalNameOf p.skolems d.1 := by
  intro what hwhat
  have hname := name?_reversals hplan (mem_reversals hplan ⟨a, ha, hwhat⟩)
  have hterm : plan.scope.term a.operation = .ok d.1 := Scope.term_of_definition h
  unfold Scope.term at hterm
  rw [hwhat] at hterm
  simp only [hname, Scope.nodeTerms] at hterm
  rw [← Except.ok.inj hterm, ← hplan.skolems]
  rfl

/-- The definitions of the assignments before the first universal node. -/
theorem definitions_eq (hplan : p.IsPlan config plan) {definitions : List Command}
    (h : commandsOf plan.scope.definitionCommands plan.early = .ok definitions) :
    definitions = (p.assignments.takeWhile p.isEarly).flatMap fun a =>
      Declaration.defined config.capabilities a.node (plan.definitionOf a).1
        ((plan.definitionOf a).2.getD "") := by
  rw [hplan.early] at h
  generalize p.assignments.takeWhile p.isEarly = early at h ⊢
  induction early generalizing definitions with
  | nil => exact (Except.ok.inj h).symm
  | cons a as ih =>
    obtain ⟨ds, es, hds, hes, rfl⟩ := commandsOf_cons.mp h
    obtain ⟨d, hd, hds⟩ := bind_eq_ok_iff.mp hds
    obtain rfl := Except.ok.inj hds
    rw [List.flatMap_cons, ← ih hes, definitionOf_eq hd, ← hplan.ofConfig]
    rfl

/-- The definitions of the other assignments, which stand under the universal nodes. -/
theorem localDefinitions_eq {as : List Assignment} {definitions : List LocalDefinition}
    (h : as.mapM plan.scope.localDefinition = .ok definitions) :
    definitions = as.map fun a => ⟨a.node, (plan.definitionOf a).1, (plan.definitionOf a).2⟩ := by
  have hforall := mapM_eq_ok_iff.mp h
  clear h
  induction hforall with
  | nil => rfl
  | cons ha _ ih =>
    obtain ⟨d, hd, ha⟩ := bind_eq_ok_iff.mp ha
    obtain rfl := Except.ok.inj ha
    rw [List.map_cons, ← ih, definitionOf_eq hd]

/-- Every assignment of a problem with a script has a definition. -/
theorem exists_definition (hplan : p.IsPlan config plan) {definitions conclusion : List Command}
    (hdefinitions : commandsOf plan.scope.definitionCommands plan.early = .ok definitions)
    (hconclusion : plan.conclusionCommands = .ok conclusion) {a : Assignment}
    (ha : a ∈ p.assignments) : ∃ d, plan.scope.definition a.operation = .ok d := by
  have hsplit : a ∈ plan.early ++ plan.late := by
    rwa [hplan.early, hplan.late, List.takeWhile_append_dropWhile]
  rcases List.mem_append.mp hsplit with ha | ha
  · obtain ⟨ds, hds, -⟩ := exists_subset_of_commandsOf hdefinitions ha
    obtain ⟨d, hd, -⟩ := bind_eq_ok_iff.mp hds
    exact ⟨d, hd⟩
  · by_cases huniversals : p.universals = []
    · rw [hplan.late, Problem.late_of_open huniversals] at ha
      cases ha
    · rw [conclusionCommands, (hplan.conclusion_of_quantified huniversals).2] at hconclusion
      obtain ⟨locals, hlocals, -⟩ := bind_eq_ok_iff.mp hconclusion
      obtain ⟨d, -, hd⟩ := exists_mem_of_mapM hlocals ha
      obtain ⟨d, hd, -⟩ := bind_eq_ok_iff.mp hd
      exact ⟨d, hd⟩

/-- A script has the functions that its reversals use. -/
theorem exists_hasReversals (hplan : p.IsPlan config plan) {commands : List Command}
    (h : plan.commands = .ok commands) :
    ∃ name value label opening definitions closing,
      commands = opening ++ definitions ++ closing ∧
        p.HasReversals config name value label opening definitions closing := by
  obtain ⟨before, after, definitions, conclusion, hdefinitions, hconclusion, hbefore, hafter, rfl⟩ :=
    exists_around_reversals hplan h
  have hreversals : Script.reversals (before ++ plan.reversalCommands ++ after) =
      plan.reversals.foldr placeReversal [] := by
    rw [Script.reversals_append, Script.reversals_append, Script.reversals_eq_nil hbefore,
      Script.reversals_eq_nil hafter, reversals_reversalCommands, List.nil_append, List.append_nil]
  refine ⟨plan.reversalNameOf, fun a => (plan.definitionOf a).1, fun a => (plan.definitionOf a).2,
    before ++ plan.reversalCommands ++ after, definitions, plan.arrayCommands ++ conclusion, rfl,
    fun what hwhat => definesReversal hplan hreversals hwhat, ?_, definitions_eq hplan hdefinitions,
    ?_, ?_, ?_⟩
  -- The opening binds no universal nodes.
  · intro block hblock
    rcases List.mem_append.mp hblock with hblock | hblock
    · rcases List.mem_append.mp hblock with hblock | hblock
      · exact Command.ne_assertForAll_of_isElementary (hbefore _ hblock) block rfl
      · exact plan.not_mem_reversalCommands block hblock
    · exact Command.ne_assertForAll_of_isElementary (hafter _ hblock) block rfl
  -- Late definitions are local to the block that binds them.
  · by_cases huniversals : p.universals = []
    · exact .inl (Problem.late_of_open huniversals)
    · refine .inr ?_
      rw [conclusionCommands, (hplan.conclusion_of_quantified huniversals).2] at hconclusion
      obtain ⟨locals, hlocals, hconclusion⟩ := bind_eq_ok_iff.mp hconclusion
      obtain rfl := Except.ok.inj hconclusion
      rw [← hplan.late]
      exact ⟨_, List.mem_append_right _ (List.mem_singleton_self _), localDefinitions_eq hlocals⟩
  -- No function that reverses comes after the first definition.
  · have hdefined := forall_mem_commandsOf hdefinitions fun _ _ _ h =>
      Scope.isElementary_definitionCommands h
    rw [Script.reversals_append, Script.reversals_append, Script.reversals_eq_nil hdefined,
      Script.reversals_eq_nil (isElementary_arrayCommands hplan), List.nil_append, List.nil_append]
    by_cases huniversals : p.universals = []
    · rw [hplan.conclusionCommands_of_open huniversals] at hconclusion
      obtain rfl := Except.ok.inj hconclusion
      exact Script.reversals_eq_nil (plan.isElementary_openCommands _ _)
    · obtain ⟨block, rfl, -⟩ := hplan.exists_block huniversals hconclusion
      rfl
  -- Every reversal applies the function of its kind.
  · intro a ha
    obtain ⟨d, hd⟩ := exists_definition hplan hdefinitions hconclusion ha
    rw [definitionOf_eq hd]
    exact appliesReversal hplan ha hd

end Plan

namespace Problem

/-- Every assignment finds the function for what it reverses, so that a script never fails for want
of one. -/
theorem sparesReversal_compile (config : Config) (p : Problem) :
    SparesReversal (p.compile config) := by
  refine (p.sparesReversal_plan config).bind fun plan hplan => ?_
  have hplan := isPlan_of_plan hplan
  have hdefinition : ∀ a ∈ p.assignments, SparesReversal (plan.scope.definition a.operation) := by
    intro a ha
    refine Scope.sparesReversal_definition fun what hwhat => ?_
    rw [Plan.name?_reversals hplan (Plan.mem_reversals hplan ⟨a, ha, hwhat⟩)]
    rfl
  refine SparesReversal.bind_pure (Plan.sparesReversal_commands ?_ ?_) _
  · rw [hplan.early]
    exact fun a ha => hdefinition a ((List.takeWhile_sublist _).subset ha)
  · rw [hplan.late]
    exact fun a ha => hdefinition a ((List.dropWhile_sublist _).subset ha)

/-- If a problem has no script, this is not for a function that reverses. If it has one, the script
has a function for every kind that is reversed, ahead of all definitions, and each reversal applies
the function of its kind. -/
theorem compile_reversals (config : Config) (p : Problem) :
    match p.compile config with
    | .error e => e.concernsReversal = false
    | .ok script => ∃ name value label opening definitions closing,
        script.commands = opening ++ definitions ++ closing ∧
          p.HasReversals config name value label opening definitions closing := by
  cases hcompile : p.compile config with
  | error e => exact sparesReversal_compile config p e hcompile
  | ok script =>
    obtain ⟨plan, hplan, hcommands⟩ := exists_plan_of_compile hcompile
    exact Plan.exists_hasReversals hplan hcommands

/-- Strings are reversed before the universal node, and lists of strings after it. -/
def reversedBothWays : Problem where
  kinds := [.bool, .list .string]
  inputs := [⟨⟨0, .string⟩, "s"⟩, ⟨⟨1, .list .string⟩, "l"⟩]
  quantified := [.existential ⟨0, .string⟩ [], .existential ⟨1, .list .string⟩ [],
    .universal ⟨3, .bool⟩]
  assignments := [⟨⟨2, .string⟩, ⟨.reverse .string, [⟨0, .string⟩]⟩⟩,
    ⟨⟨4, .list .string⟩, ⟨.reverse (.list .string), [⟨1, .list .string⟩]⟩⟩]

/-- The functions are written in the order of kinds, and named in the order of first use. -/
theorem compile_reversedBothWays : ∃ script, reversedBothWays.compile {} = .ok script ∧
    Script.reversals script.commands =
      [(.string, "sbv.reverse_0"), (.list .string, "sbv.reverse_1")] ∧
    ∃ name value label opening definitions closing,
      script.commands = opening ++ definitions ++ closing ∧
        reversedBothWays.HasReversals {} name value label opening definitions closing := by
  obtain ⟨script, hscript, hreversals⟩ : ∃ script, reversedBothWays.compile {} = .ok script ∧
      Script.reversals script.commands =
        [(.string, "sbv.reverse_0"), (.list .string, "sbv.reverse_1")] := ⟨_, rfl, rfl⟩
  have h := compile_reversals {} reversedBothWays
  rw [hscript] at h
  exact ⟨script, hscript, hreversals, h⟩

end Problem

end SolverScript
