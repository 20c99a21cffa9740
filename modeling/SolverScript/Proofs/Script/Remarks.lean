import SolverScript.Proofs.Script.Content
import SolverScript.Proofs.Script.ProperSteps

/-!
# Texts that do not matter

Comments, the names that the user knows inputs and trackers by, the texts of labels, and the names of
postulates and arrays only show in comments of the script, or not at all. Problems that differ in
nothing else have scripts with the same content, if they have any.

## Main definitions

* `Problem.withoutTexts` - a problem without those texts
* `Problem.HasSingleLineTexts` - problems whose texts have no line breaks
* `SameOutcome` - computations that fail alike, or succeed with related results

## Main results

* `Problem.plan_withoutTexts` - the plan of a problem without its texts
* `Plan.sameOutcome_commands` - the commands of a plan without its texts
-/

namespace SolverScript

/-! ### Computations with the same outcome -/

/-- Whether two computations both fail, or both succeed with results that are related. -/
inductive SameOutcome {β γ : Type} (R : β → γ → Prop) : Except Failure β → Except Failure γ → Prop
  | ok {b : β} {c : γ} (h : R b c) : SameOutcome R (.ok b) (.ok c)
  | error (e e' : Failure) : SameOutcome R (.error e) (.error e')

namespace SameOutcome

variable {β γ β' γ' : Type} {R : β → γ → Prop} {S : β' → γ' → Prop} {x : Except Failure β}
  {y : Except Failure γ}

theorem refl {R : β → β → Prop} (hR : ∀ b, R b b) (x : Except Failure β) : SameOutcome R x x := by
  cases x with
  | ok b => exact .ok (hR b)
  | error e => exact .error e e

theorem bind (h : SameOutcome R x y) {f : β → Except Failure β'} {g : γ → Except Failure γ'}
    (hfg : ∀ b c, R b c → SameOutcome S (f b) (g c)) :
    SameOutcome S (x >>= f) (y >>= g) := by
  cases h with
  | ok h => exact hfg _ _ h
  | error e e' => exact .error e e'

/-- A loop goes on as long as each of its steps does. -/
theorem mapM {κ κ' : Type} {f : κ → Except Failure β} {g : κ' → Except Failure γ} {part : κ → κ'}
    {ks : List κ} (h : ∀ k ∈ ks, SameOutcome R (f k) (g (part k))) :
    SameOutcome (List.Forall₂ R) (ks.mapM f) ((ks.map part).mapM g) := by
  induction ks with
  | nil => exact .ok .nil
  | cons k ks ih =>
    obtain ⟨hk, hks⟩ := List.forall_mem_cons.mp h
    rw [List.map_cons, List.mapM_cons, List.mapM_cons]
    exact hk.bind fun b c hbc => (ih hks).bind fun bs cs hrest => .ok (.cons hbc hrest)

end SameOutcome

/-- A loop over other parts, if each of its steps has the result changed alike. -/
theorem mapM_map_of_forall {κ κ' β γ : Type} {f : κ → Except Failure β} {g : κ' → Except Failure γ}
    {part : κ → κ'} {change : β → γ} {ks : List κ}
    (h : ∀ k ∈ ks, g (part k) = (f k).map change) :
    (ks.map part).mapM g = (ks.mapM f).map (List.map change) := by
  induction ks with
  | nil => rfl
  | cons k ks ih =>
    obtain ⟨hk, hks⟩ := List.forall_mem_cons.mp h
    rw [List.map_cons, List.mapM_cons, List.mapM_cons, hk, ih hks]
    generalize ks.mapM f = rest
    cases f k <;> cases rest <;> rfl

/-- Whether two lists of commands say the same besides their comments. -/
def SameContent (cs ds : List Command) : Prop := Script.content cs = Script.content ds

theorem SameContent.append {cs ds cs' ds' : List Command} (h : SameContent cs ds)
    (h' : SameContent cs' ds') : SameContent (cs ++ cs') (ds ++ ds') := by
  unfold SameContent at h h' ⊢
  rw [Script.content_append, Script.content_append, h, h']

theorem sameContent_commandsOf {κ κ' : Type} {f : κ → Except Failure (List Command)}
    {g : κ' → Except Failure (List Command)} {part : κ → κ'} {ks : List κ}
    (h : ∀ k ∈ ks, SameOutcome SameContent (f k) (g (part k))) :
    SameOutcome SameContent (commandsOf f ks) (commandsOf g (ks.map part)) := by
  have hflatten : ∀ {css dss}, List.Forall₂ SameContent css dss →
      SameContent css.flatten dss.flatten := by
    intro css dss hall
    induction hall with
    | nil => rfl
    | cons hcs _ ih => exact hcs.append ih
  exact (SameOutcome.mapM h).bind fun css dss hall => .ok (hflatten hall)

/-! ### Problems without texts -/

/-- An operator without the text of a label. -/
def Operator.withoutText : Operator → Operator
  | label _ => label ""
  | op => op

/-- An assignment without the text of a label. -/
def Assignment.withoutText (a : Assignment) : Assignment :=
  ⟨a.node, a.operation.operator.withoutText, a.operation.operands⟩

/-- A node without the name that the user knows it by. -/
def NamedNode.withoutName (n : NamedNode) : NamedNode := { n with userName := "" }

/-- An array without its name. -/
def ArrayDatum.withoutName (a : ArrayDatum) : ArrayDatum := { a with name := "" }

namespace Problem

/-- A problem without comments, without the names that the user knows inputs, trackers, postulates
and arrays by, and without the texts of labels. -/
def withoutTexts (p : Problem) : Problem :=
  { p with
    comments := []
    inputs := p.inputs.map NamedNode.withoutName
    trackers := p.trackers.map NamedNode.withoutName
    arrays := p.arrays.map ArrayDatum.withoutName
    postulates := p.postulates.map Postulate.withoutName
    assignments := p.assignments.map Assignment.withoutText }

/-- Whether the texts of a problem that show in comments have no line breaks. -/
structure HasSingleLineTexts (p : Problem) : Prop where
  comments : ∀ text ∈ p.comments, IsSingleLine text
  userNames : ∀ d ∈ p.existentials, ∀ text ∈ p.userName? d.1, IsSingleLine text
  trackers : ∀ t ∈ p.trackers, IsSingleLine t.userName
  labels : ∀ a ∈ p.assignments, ∀ text ∈ a.label?, IsSingleLine text
  postulates : ∀ q ∈ p.postulates, IsSingleLine q.name

end Problem

/-! ### Plans without texts -/

namespace Plan

/-- A plan without the texts of its problem. -/
def withoutTexts (plan : Plan) : Plan :=
  { plan with
    problem := plan.problem.withoutTexts
    arrays := plan.arrays.map fun s => { s with array := s.array.withoutName }
    early := plan.early.map Assignment.withoutText
    late := plan.late.map Assignment.withoutText }

end Plan

/-- Features do not depend on texts. -/
theorem Features.detect_withoutTexts (kinds : KindSet) (assignments : List Assignment)
    (arrays : List ArrayDatum) :
    detect kinds (assignments.map Assignment.withoutText) (arrays.map ArrayDatum.withoutName) =
      detect kinds assignments arrays := by
  -- Features are found by tests on operators, none of which looks at a text.
  have hany : ∀ check : Operator → Bool, (∀ op : Operator, check op.withoutText = check op) →
      ((assignments.map Assignment.withoutText).map fun a => a.operation.operator).any check =
        (assignments.map fun a => a.operation.operator).any check := by
    intro check hcheck
    simp only [List.map_map, List.any_map]
    congr 1
    funext a
    exact hcheck a.operation.operator
  have hreversals : reversalsOf
      ((assignments.map Assignment.withoutText).map fun a => a.operation.operator) =
        reversalsOf (assignments.map fun a => a.operation.operator) := by
    unfold reversalsOf
    simp only [List.map_map, List.filterMap_map]
    congr 2
    funext a
    change reversal? a.operation.operator.withoutText = reversal? a.operation.operator
    cases a.operation.operator <;> rfl
  have hoverflow : ∀ op : Operator, checksOverflow op.withoutText = checksOverflow op := by
    intro op
    cases op <;> rfl
  have hregExp : ∀ op : Operator, usesRegExp op.withoutText = usesRegExp op := by
    intro op
    cases op <;> rfl
  unfold detect
  simp only [hreversals, hany _ hoverflow, hany _ hregExp, List.any_map]
  rfl

/-- The set-up of an array depends on its number only. -/
theorem ArraySetup.ofArray_withoutName (config : Config) (isQuantified : Bool)
    (constants : Constants) (skolems : SkolemMap) (a : ArrayDatum) :
    ofArray config isQuantified constants skolems a.withoutName =
      (ofArray config isQuantified constants skolems a).map
        fun s => { s with array := s.array.withoutName } := by
  have hdeclaration : ∀ term, declaration config constants term a.withoutName =
      declaration config constants term a := fun _ => rfl
  have hequation : ∀ term, equation? term a.withoutName = equation? term a := fun _ => rfl
  have hcontext : a.withoutName.context = a.context := rfl
  have hid : a.withoutName.id = a.id := rfl
  unfold ofArray
  simp only [hdeclaration, hequation, hcontext, hid]
  generalize declaration config constants _ a = declared
  generalize equation? _ a = equation
  cases declared with
  | error e => rfl
  | ok declared =>
    cases equation with
    | error e => rfl
    | ok equation =>
      cases equation with
      | none => rfl
      | some equation =>
        by_cases hfixed : ((dependencies a.context).all constants.fixes) = true
        · simp only [bind, Except.bind, hfixed]
          rfl
        · simp only [bind, Except.bind, hfixed]
          rfl

namespace Problem

/-- References are checked without regard to texts. -/
theorem checkReferences_withoutTexts (p : Problem) :
    p.withoutTexts.checkReferences = p.checkReferences := by
  have hassignments : ∀ (assignments : List Assignment) (known : List Int) (last : Int),
      checkAssignments known last (assignments.map Assignment.withoutText) =
        checkAssignments known last assignments := by
    intro assignments
    induction assignments with
    | nil => exact fun _ _ => rfl
    | cons a as ih =>
      intro known last
      have hreferences : a.withoutText.operation.references = a.operation.references := by
        obtain ⟨n, op, ns⟩ := a
        cases op <;> rfl
      have hnode : a.withoutText.node = a.node := rfl
      rw [List.map_cons, checkAssignments, checkAssignments, hreferences, hnode, ih]
  have hknown : p.withoutTexts.initiallyKnown = p.initiallyKnown := by
    simp [initiallyKnown, withoutTexts, NamedNode.withoutName, Function.comp_def]
  have harrays : ∀ known : List Int, p.withoutTexts.arrays.forM
      (checkArrayContext known (p.withoutTexts.arrays.map (·.id))) =
        p.arrays.forM (checkArrayContext known (p.arrays.map (·.id))) := by
    intro known
    have hlisted : p.withoutTexts.arrays.map (·.id) = p.arrays.map (·.id) := by
      simp [withoutTexts, ArrayDatum.withoutName, Function.comp_def]
    rw [hlisted]
    change (p.arrays.map ArrayDatum.withoutName).forM _ = _
    generalize p.arrays.map (·.id) = listed
    generalize p.arrays = arrays
    induction arrays with
    | nil => rfl
    | cons a as ih =>
      exact congrArg (fun rest => checkArrayContext known listed a >>= fun _ => rest) ih
  -- The checker looks at identifiers and references, which have no texts.
  unfold checkReferences
  rw [hknown]
  simp only [harrays]
  change (do
    let known ← checkAssignments p.initiallyKnown (-1) (p.assignments.map Assignment.withoutText)
    _) = _
  rw [hassignments]
  rfl

/-- A problem without its texts has the plan of the problem, without the texts. -/
theorem plan_withoutTexts (config : Config) (p : Problem) :
    p.withoutTexts.plan config = (p.plan config).map Plan.withoutTexts := by
  have hfeatures : Features.detect (KindSet.closure p.withoutTexts.kinds)
      p.withoutTexts.assignments p.withoutTexts.arrays =
        Features.detect (KindSet.closure p.kinds) p.assignments p.arrays :=
    Features.detect_withoutTexts _ _ _
  have hquery : ∀ features, p.withoutTexts.logicQuery features = p.logicQuery features := by
    intro features
    simp [logicQuery, withoutTexts, universals]
  have harrays : p.withoutTexts.arrays.mapM
      (ArraySetup.ofArray config (!p.universals.isEmpty) p.constants p.skolems) =
        (p.arrays.mapM (ArraySetup.ofArray config (!p.universals.isEmpty) p.constants p.skolems)).map
          (List.map fun s => { s with array := s.array.withoutName }) := by
    exact mapM_map_of_forall fun a _ => ArraySetup.ofArray_withoutName _ _ _ _ a
  have hearly : p.withoutTexts.assignments.takeWhile p.withoutTexts.isEarly =
      (p.assignments.takeWhile p.isEarly).map Assignment.withoutText :=
    List.takeWhile_map
  have hlate : p.withoutTexts.assignments.dropWhile p.withoutTexts.isEarly =
      (p.assignments.dropWhile p.isEarly).map Assignment.withoutText :=
    List.dropWhile_map
  have hskolems : p.withoutTexts.skolems = p.skolems := rfl
  have huniversals : p.withoutTexts.universals = p.universals := rfl
  have hconclude : p.withoutTexts.conclude = p.conclude := rfl
  have htables : p.withoutTexts.tables = p.tables := rfl
  have hconstants : p.withoutTexts.constants = p.constants := rfl
  unfold plan
  simp only [checkReferences_withoutTexts, hfeatures, hquery, hearly, hlate, hskolems, huniversals,
    hconclude, htables, hconstants, harrays]
  generalize p.tables.mapM (TableSetup.ofTable config p.skolems p.universals p.constants) = tables
  generalize p.arrays.mapM
    (ArraySetup.ofArray config (!p.universals.isEmpty) p.constants p.skolems) = arrays
  -- Both plans fail at the same step, or at none.
  cases p.checkReferences <;> cases (p.logicQuery _).choose config <;> cases tables <;>
    cases arrays <;> cases p.conclude <;> rfl

end Problem

/-! ### Commands without texts -/

/-- Another remark does not change what is said about a symbol. -/
theorem Declaration.sameOutcome_symbol (name : String) (kinds : List Kind)
    (remark remark' : String) :
    SameOutcome SameContent (symbol name kinds remark) (symbol name kinds remark') := by
  unfold symbol
  cases splitSignature? kinds with
  | none => exact .error _ _
  | some signature => exact .ok rfl

/-- Another remark does not change what is said about a node. -/
theorem Declaration.sameContent_defined (c : Capabilities) (n : Node) (value : Term)
    (remark remark' : String) :
    SameContent (defined c n value remark) (defined c n value remark') := by
  unfold defined
  cases c.defineFun <;> rfl

/-- The defining term of an operation does not depend on the text of a label. -/
theorem Scope.sameOutcome_definition (scope : Scope) (a : Assignment) :
    SameOutcome (fun d d' => d.1 = d'.1) (scope.definition a.operation)
      (scope.definition a.withoutText.operation) := by
  obtain ⟨node, op, ns⟩ := a
  cases op with
  | label text =>
    match ns with
    | [] => exact .error _ _
    | [n] => exact .ok rfl
    | _ :: _ :: _ => exact .error _ _
  | _ =>
    exact SameOutcome.refl (R := fun d d' : Term × Option String => d.1 = d'.1) (fun _ => rfl) _

theorem Scope.sameOutcome_definitionCommands (scope : Scope) (a : Assignment) :
    SameOutcome SameContent (scope.definitionCommands a)
      (scope.definitionCommands a.withoutText) := by
  refine (scope.sameOutcome_definition a).bind fun d d' hvalue => .ok ?_
  obtain ⟨value, label⟩ := d
  obtain ⟨_, label'⟩ := d'
  obtain rfl : value = _ := hvalue
  exact Declaration.sameContent_defined _ _ _ _ _

theorem Scope.sameOutcome_localDefinition (scope : Scope) (a : Assignment) :
    SameOutcome (fun d d' => d.withoutRemark = d'.withoutRemark) (scope.localDefinition a)
      (scope.localDefinition a.withoutText) := by
  refine (scope.sameOutcome_definition a).bind fun d d' hvalue => .ok ?_
  obtain ⟨value, label⟩ := d
  obtain ⟨_, label'⟩ := d'
  obtain rfl : value = _ := hvalue
  rfl

namespace Script

@[simp] theorem content_nil : content [] = [] := rfl

@[simp] theorem content_note (text : String) (cs : List Command) :
    content (.note text :: cs) = content cs := rfl

theorem content_notes (texts : List String) : content (texts.map .note) = [] := by
  simp [content, Command.content?]

theorem content_postulates (postulates : List Postulate) :
    content ((postulates.map Postulate.withoutName).map .postulate) =
      content (postulates.map .postulate) := by
  simp [content, List.filterMap_map, Function.comp_def, Command.content?, Postulate.withoutName]

end Script

namespace Plan

variable (plan : Plan)

theorem sameOutcome_trackerCommands :
    SameOutcome SameContent plan.trackerCommands plan.withoutTexts.trackerCommands := by
  have hdeclarations : SameOutcome SameContent
      (commandsOf (fun t => Declaration.symbol t.node.name [t.node.kind] ("tracks " ++ t.userName))
        plan.problem.trackers)
      (commandsOf (fun t => Declaration.symbol t.node.name [t.node.kind] ("tracks " ++ t.userName))
        (plan.problem.trackers.map NamedNode.withoutName)) :=
    sameContent_commandsOf fun t _ => Declaration.sameOutcome_symbol _ _ _ _
  have hheading : ∀ isEmpty : Bool, Script.content
      (if isEmpty then [] else [Command.note "--- optimization tracker variables ---"]) = [] := by
    intro isEmpty
    cases isEmpty <;> rfl
  refine hdeclarations.bind fun cs ds h => .ok ?_
  unfold SameContent
  rw [Script.content_append, Script.content_append, hheading, hheading, h]

theorem sameOutcome_existentials (plan : Plan) :
    SameOutcome SameContent (commandsOf plan.existentialCommands plan.problem.existentials)
      (commandsOf plan.withoutTexts.existentialCommands plan.withoutTexts.problem.existentials) := by
  have h : SameOutcome SameContent (commandsOf plan.existentialCommands plan.problem.existentials)
      (commandsOf plan.withoutTexts.existentialCommands (plan.problem.existentials.map id)) :=
    sameContent_commandsOf fun _ _ => Declaration.sameOutcome_symbol _ _ _ _
  rwa [List.map_id] at h

theorem sameOutcome_conclusionCommands :
    SameOutcome SameContent plan.conclusionCommands plan.withoutTexts.conclusionCommands := by
  have hconclusion : plan.withoutTexts.conclusion = plan.conclusion := rfl
  unfold conclusionCommands
  rw [hconclusion]
  cases plan.conclusion with
  | separate commands => exact .ok rfl
  | underUniversals formula =>
    have hdefinitions : SameOutcome
        (List.Forall₂ fun d d' => d.withoutRemark = d'.withoutRemark)
        (plan.late.mapM plan.scope.localDefinition)
        ((plan.late.map Assignment.withoutText).mapM plan.scope.localDefinition) :=
      .mapM fun a _ => plan.scope.sameOutcome_localDefinition a
    refine hdefinitions.bind fun ds ds' h => .ok ?_
    have hmap : ds.map LocalDefinition.withoutRemark = ds'.map LocalDefinition.withoutRemark := by
      induction h with
      | nil => rfl
      | cons hd _ ih => rw [List.map_cons, List.map_cons, hd, ih]
    exact congrArg (fun definitions => [Command.assertForAll
      ⟨plan.problem.universals, definitions, plan.equations, formula⟩]) hmap

theorem content_headCommands :
    Script.content plan.withoutTexts.headCommands = Script.content plan.headCommands := by
  unfold headCommands
  simp only [Script.content_append, Script.content_notes]
  rfl

/-- The commands of a plan say the same without its texts. -/
theorem sameOutcome_commands :
    SameOutcome SameContent plan.commands plan.withoutTexts.commands := by
  have hrefl : ∀ x : Except Failure (List Command), SameOutcome SameContent x x :=
    SameOutcome.refl fun _ => rfl
  have hdefinitions : SameOutcome SameContent (commandsOf plan.scope.definitionCommands plan.early)
      (commandsOf plan.scope.definitionCommands (plan.early.map Assignment.withoutText)) :=
    sameContent_commandsOf fun a _ => plan.scope.sameOutcome_definitionCommands a
  have harrays : ∀ part : ArraySetup → List Command, (∀ s : ArraySetup,
      part { s with array := s.array.withoutName } = part s) →
        plan.withoutTexts.arrays.flatMap part = plan.arrays.flatMap part := by
    intro part hpart
    change (plan.arrays.map _).flatMap part = _
    rw [List.flatMap_map]
    congr 1
    funext s
    exact hpart s
  -- Sections without texts are the same; the others have the same content, section by section.
  unfold commands
  refine (hrefl plan.features.tupleCommands).bind fun tuples tuples' htuples => ?_
  refine (hrefl (commandsOf (Declaration.constant plan.config) plan.problem.constants)).bind
    fun constants constants' hconstants => ?_
  refine plan.sameOutcome_existentials.bind fun existentials existentials' hexistentials => ?_
  refine plan.sameOutcome_trackerCommands.bind fun trackers trackers' htrackers => ?_
  refine (hrefl (commandsOf (fun s => Declaration.symbol s.name s.signature "")
    plan.problem.freeSymbols)).bind fun freeSymbols freeSymbols' hfreeSymbols => ?_
  refine hdefinitions.bind fun definitions definitions' hdefinitions => ?_
  refine plan.sameOutcome_conclusionCommands.bind fun conclusion conclusion' hconclusion => ?_
  refine .ok ?_
  simp only [SameContent] at *
  rw [harrays _ fun _ => rfl, harrays _ fun _ => rfl, harrays _ fun _ => rfl]
  simp only [Script.content_append, Script.content_note, htuples, hconstants, hexistentials,
    htrackers, hfreeSymbols, hdefinitions, hconclusion, content_headCommands]
  have hpostulates : Script.content (plan.withoutTexts.problem.postulates.map .postulate) =
      Script.content (plan.problem.postulates.map .postulate) :=
    Script.content_postulates _
  rw [hpostulates]
  rfl

end Plan

end SolverScript
