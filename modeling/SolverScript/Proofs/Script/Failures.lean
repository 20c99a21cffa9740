import SolverScript.Proofs.Encoding.Failures
import SolverScript.Script.OfProblem

/-!
# Failures of scripts

Before operations are encoded, a problem is planned and its inputs are declared. None of this fails
over a function that reverses: whether a script does depends on the definitions of its nodes alone.

## Main results

* `Problem.sparesReversal_plan` - planning
* `sparesReversal_commandsOf` - sections that are made part by part
* `Plan.sparesReversal_commands` - the commands of a plan, given the definitions of nodes
-/

namespace SolverScript

/-! ### References, the logic and the final assertions -/

namespace Problem

theorem sparesReversal_checkKnown (known : List Int) {failure : Node → Failure}
    (hfailure : ∀ n, (failure n).concernsReversal = false) :
    ∀ ns : List Node, SparesReversal (checkKnown known failure ns)
  | [] => .ok _
  | n :: rest => by
    unfold checkKnown
    split
    · exact sparesReversal_checkKnown known hfailure rest
    · exact SparesReversal.error_iff.mpr (hfailure n)

theorem sparesReversal_checkAssignments (known : List Int) (last : Int) (as : List Assignment) :
    SparesReversal (checkAssignments known last as) := by
  induction as generalizing known last with
  | nil => exact .ok _
  | cons a rest ih =>
    have hrest : SparesReversal (do
        checkKnown known (.unknownOperand a.node) a.operation.references
        checkAssignments (a.node.id :: known) a.node.id rest) :=
      (sparesReversal_checkKnown known (fun _ => rfl) _).bind fun _ _ => ih _ _
    unfold checkAssignments
    split
    · exact SparesReversal.error_iff.mpr rfl
    · exact hrest

theorem sparesReversal_checkArray (listed : List Int) (user other : Int) :
    SparesReversal (checkArray listed user other) := by
  unfold checkArray
  split <;> simp [Failure.concernsReversal]

theorem sparesReversal_checkArrayContext (known listed : List Int) (a : ArrayDatum) :
    SparesReversal (checkArrayContext known listed a) := by
  have hpart : ∀ ns, SparesReversal (checkKnown known (.unknownPart (arrayName a.id)) ns) :=
    fun ns => sparesReversal_checkKnown known (fun _ => rfl) ns
  have harray := sparesReversal_checkArray listed a.id
  unfold checkArrayContext
  dsimp only
  split
  · exact hpart _
  · exact (harray _).bind fun _ _ => hpart _
  · exact (hpart _).bind fun _ _ => (harray _).bind fun _ _ => harray _

theorem sparesReversal_checkReferences (p : Problem) : SparesReversal p.checkReferences := by
  refine (sparesReversal_checkAssignments _ _ _).bind fun known _ => ?_
  refine (sparesReversal_checkKnown known (fun _ => rfl) _).bind fun _ _ => ?_
  refine SparesReversal.bind (SparesReversal.forM fun t _ => ?_) fun _ _ => SparesReversal.forM
    fun a _ => sparesReversal_checkArrayContext known _ a
  exact sparesReversal_checkKnown known (fun _ => rfl) _

theorem sparesReversal_conclude (p : Problem) : SparesReversal p.conclude := by
  unfold conclude Conclusion.ofFormulas FinalFormula.conjoined
  dsimp only
  split
  · exact .ok _
  · split
    · exact SparesReversal.error_iff.mpr rfl
    · split
      · exact SparesReversal.error_iff.mpr rfl
      · exact .ok _

end Problem

theorem LogicQuery.sparesReversal_choose (q : LogicQuery) (config : Config) :
    SparesReversal (q.choose config) := by
  unfold choose
  split
  · exact .ok _
  · split <;> simp [Failure.concernsReversal]
  · simp [Failure.concernsReversal]

/-! ### Tables and arrays -/

namespace TableSetup

theorem sparesReversal_indexed (config : Config) (table : Table) (i : Nat) (ns : List Node) :
    SparesReversal (indexed config table i ns) := by
  induction ns generalizing i with
  | nil => exact .ok _
  | cons n ns ih =>
    refine (Value.sparesReversal_constant _ _).bind fun v _ => ?_
    exact (v.sparesReversal_term _).bind fun _ _ => (ih (i + 1)).bind_pure _

theorem sparesReversal_ofTable (config : Config) (skolems : SkolemMap) (universals : List Node)
    (constants : Constants) (table : Table) :
    SparesReversal (ofTable config skolems universals constants table) :=
  (sparesReversal_indexed config table 0 _).bind fun _ _ => .pure _

end TableSetup

namespace ArraySetup

variable {config : Config} {constants : Constants} {skolems : SkolemMap}

theorem sparesReversal_nodeTerm (isTopLevel : Bool) (n : Node) :
    SparesReversal (nodeTerm isTopLevel constants skolems n) := by
  unfold nodeTerm
  split <;> simp [Failure.concernsReversal]

theorem sparesReversal_declaration {term : Node → Except Failure Term}
    (hterm : ∀ n, SparesReversal (term n)) (a : ArrayDatum) :
    SparesReversal (declaration config constants term a) := by
  unfold declaration
  dsimp only
  split
  · split
    · exact (Value.sparesReversal_term _ _).bind_pure _
    · exact (hterm _).bind_pure _
  · split <;> simp [Failure.concernsReversal]
  · exact .ok _

theorem sparesReversal_equation? {term : Node → Except Failure Term}
    (hterm : ∀ n, SparesReversal (term n)) (a : ArrayDatum) :
    SparesReversal (equation? term a) := by
  unfold equation?
  dsimp only
  split
  · exact .ok _
  · exact (hterm _).bind fun _ _ => (hterm _).bind_pure _
  · exact (hterm _).bind_pure _

theorem sparesReversal_ofArray (isQuantified : Bool) (a : ArrayDatum) :
    SparesReversal (ofArray config isQuantified constants skolems a) := by
  have hterm : ∀ n, SparesReversal (nodeTerm
      (!isQuantified || (dependencies a.context).all constants.fixes) constants skolems n) :=
    sparesReversal_nodeTerm _
  refine (sparesReversal_declaration hterm a).bind fun _ _ => ?_
  refine (sparesReversal_equation? hterm a).bind fun equation? _ => ?_
  cases equation? <;> exact .pure _

end ArraySetup

/-- Planning does not fail over a function that reverses. -/
theorem Problem.sparesReversal_plan (config : Config) (p : Problem) :
    SparesReversal (p.plan config) := by
  refine p.sparesReversal_checkReferences.bind fun _ _ => ?_
  refine (LogicQuery.sparesReversal_choose _ config).bind fun _ _ => ?_
  refine (SparesReversal.mapM fun t _ => TableSetup.sparesReversal_ofTable _ _ _ _ t).bind
    fun _ _ => ?_
  refine (SparesReversal.mapM fun a _ => ArraySetup.sparesReversal_ofArray _ a).bind fun _ _ => ?_
  exact p.sparesReversal_conclude.bind fun _ _ => .pure _

/-! ### Sections -/

theorem sparesReversal_commandsOf {β : Type} {f : β → Except Failure (List Command)} {bs : List β}
    (hf : ∀ b ∈ bs, SparesReversal (f b)) : SparesReversal (commandsOf f bs) :=
  (SparesReversal.mapM hf).bind_pure _

namespace Declaration

theorem sparesReversal_constant (config : Config) (c : Constant) :
    SparesReversal (constant config c) := by
  unfold constant
  split
  · exact .ok _
  · exact (c.value.sparesReversal_term _).bind_pure _

theorem sparesReversal_symbol (name : String) (kinds : List Kind) (remark : String) :
    SparesReversal (symbol name kinds remark) := by
  unfold symbol
  split <;> simp [Failure.concernsReversal]

end Declaration

theorem Features.sparesReversal_tupleCommands (f : Features) : SparesReversal f.tupleCommands := by
  refine SparesReversal.mapM fun arity _ => ?_
  unfold Declaration.tuple
  split <;> simp [Failure.concernsReversal]

namespace Plan

variable {plan : Plan}

theorem sparesReversal_trackerCommands (plan : Plan) : SparesReversal plan.trackerCommands :=
  (sparesReversal_commandsOf fun _ _ => Declaration.sparesReversal_symbol _ _ _).bind_pure _

theorem sparesReversal_conclusionCommands
    (hlate : ∀ a ∈ plan.late, SparesReversal (plan.scope.definition a.operation)) :
    SparesReversal plan.conclusionCommands := by
  unfold conclusionCommands
  split
  · exact .ok _
  · exact (SparesReversal.mapM fun a ha => (hlate a ha).bind fun _ _ => .pure _).bind_pure _

/-- The commands of a plan do not fail over a function that reverses, if the definitions of nodes do
not. -/
theorem sparesReversal_commands
    (hearly : ∀ a ∈ plan.early, SparesReversal (plan.scope.definition a.operation))
    (hlate : ∀ a ∈ plan.late, SparesReversal (plan.scope.definition a.operation)) :
    SparesReversal plan.commands := by
  have hsymbols : ∀ {β : Type} {bs : List β} {name remark : β → String} {kinds : β → List Kind},
      SparesReversal (commandsOf (fun b => Declaration.symbol (name b) (kinds b) (remark b)) bs) :=
    sparesReversal_commandsOf fun _ _ => Declaration.sparesReversal_symbol _ _ _
  -- The sections in the order in which they are made. All but the definitions spare reversals
  -- whatever the problem is.
  refine plan.features.sparesReversal_tupleCommands.bind fun _ _ => ?_
  refine (sparesReversal_commandsOf fun c _ =>
    Declaration.sparesReversal_constant _ c).bind fun _ _ => ?_
  refine SparesReversal.bind hsymbols fun _ _ => ?_
  refine plan.sparesReversal_trackerCommands.bind fun _ _ => ?_
  refine SparesReversal.bind hsymbols fun _ _ => ?_
  refine (sparesReversal_commandsOf fun a ha =>
    (hearly a ha).bind fun _ _ => .pure _).bind fun _ _ => ?_
  exact (sparesReversal_conclusionCommands hlate).bind_pure _

end Plan

end SolverScript
