import SolverScript.Proofs.Script.Conclusion
import SolverScript.Proofs.Script.Inputs
import SolverScript.Proofs.Script.Plan

/-!
# The environment of the conclusion

A script has done its work when it comes to its final assertions: inputs are declared, constants and
the assignments before the first universal node are defined. For given functions of the inputs there
is one interpretation that it can have reached, and in it the terms of these nodes denote the
elements of the nodes, whatever the universal nodes are.

## Main results

* `Problem.IsWordProgram.exists_environment` - what a script has reached before its conclusion
-/

namespace SolverScript

variable {α : Type} {carrier : SortExpr → α → Prop}

namespace Problem

variable {p : Problem} {config : Config} {plan : Plan}

/-- The declaration of an input. -/
def declaration (d : Node × List Node) (remark : String) : Command :=
  .declareFun d.1.name (d.2.map fun m => m.kind.sort) d.1.kind.sort remark

namespace IsWordProgram

variable (hp : p.IsWordProgram)

include hp

/-- The section of declarations: one command for each declared input, with comments between. -/
theorem exists_declarations (hplan : p.IsPlan config plan) {existentials trackers : List Command}
    (hexistentials : commandsOf plan.existentialCommands p.existentials = .ok existentials)
    (htrackers : plan.trackerCommands = .ok trackers) :
    ∃ notes : List Command, (∀ c ∈ notes, c.IsInert) ∧
      existentials = p.existentials.map (fun d => declaration d (plan.inputRemark d.1)) ∧
      trackers = notes ++
        p.trackers.map fun t => declaration (t.node, []) ("tracks " ++ t.userName) := by
  -- Words need no invariants, so that every input is declared by one command.
  have hE : existentials =
      p.existentials.map fun d => declaration d (plan.inputRemark d.1) := by
    refine eq_map_of_commandsOf (fun d hd => ?_) hexistentials
    have hfree : d ∈ p.freeInputs := List.mem_append_left _ (List.mem_append_left _ hd)
    have hsymbol := Declaration.symbol_of_isWord d.1.name (plan.inputRemark d.1)
      (d.2.map Node.kind) (hp.isWord_of_free hfree)
    rwa [List.map_map] at hsymbol
  unfold Plan.trackerCommands at htrackers
  obtain ⟨declarations, hdeclarations, htrackers⟩ := bind_eq_ok_iff.mp htrackers
  rw [hplan.ofProblem] at hdeclarations htrackers
  have hT : declarations =
      p.trackers.map fun t => declaration (t.node, []) ("tracks " ++ t.userName) := by
    refine eq_map_of_commandsOf (fun t ht => ?_) hdeclarations
    have hfree : (t.node, []) ∈ p.freeInputs :=
      List.mem_append_left _ (List.mem_append_right _ (List.mem_map_of_mem ht))
    exact Declaration.symbol_of_isWord _ _ [] (hp.isWord_of_free hfree)
  obtain rfl := Except.ok.inj htrackers
  refine ⟨_, fun c hc => ?_, hE, by rw [hT]⟩
  split at hc
  · cases hc
  · rw [List.mem_singleton.mp hc]
    trivial

/-- Declarations of inputs give them functions of their sorts, and leave other names alone. -/
theorem runs_declarations_iff (hplan : p.IsPlan config plan) {existentials trackers : List Command}
    (hexistentials : commandsOf plan.existentialCommands p.existentials = .ok existentials)
    (htrackers : plan.trackerCommands = .ok trackers) {T : Theory α} {I J : Interpretation α} :
    Script.Runs T (existentials ++ trackers) I J ↔
      (∀ name ∉ (p.declaredInputs.map Prod.fst).map Node.name, J name = I name) ∧
        ∀ d ∈ p.declaredInputs,
          T.IsFunction (d.2.map fun m => m.kind.sort) d.1.kind.sort (J d.1.name) := by
  obtain ⟨notes, hnotes, rfl, rfl⟩ := hp.exists_declarations hplan hexistentials htrackers
  have hintroduced : ∀ d remark, (declaration d remark).introduced? = some d.1.name :=
    fun d remark => rfl
  have hnames : (p.existentials.map (fun d => declaration d (plan.inputRemark d.1)) ++ (notes ++
      p.trackers.map fun t => declaration (t.node, []) ("tracks " ++ t.userName))).filterMap
        Command.introduced? = (p.declaredInputs.map Prod.fst).map Node.name := by
    have hnone : notes.filterMap Command.introduced? = [] :=
      List.filterMap_eq_nil_iff.mpr fun c hc => (hnotes c hc).introduced?
    simp [List.filterMap_append, List.filterMap_map, hnone, Function.comp_def, hintroduced,
      declaredInputs, List.filterMap_eq_map']
  -- No input is declared twice, so that declarations do not stand in each other's way.
  have hnodup : ((p.declaredInputs.map Prod.fst).map Node.name).Nodup := by
    have hids := hp.nodup_freeInputs
    rw [freeInputs, List.map_append] at hids
    rw [List.map_map]
    have hname : Node.name ∘ Prod.fst = nodeName ∘ fun d : Node × List Node => d.1.id := rfl
    rw [hname, ← List.map_map]
    exact hids.of_append_left.map nodeName_injective
  rw [Script.runs_iff_of_declarations ?_ (hnames ▸ hnodup), hnames, and_congr_right_iff]
  · intro _
    constructor
    · intro h d hd
      rcases List.mem_append.mp hd with hd | hd
      · exact h _ _ _ _ (List.mem_append_left _
          (List.mem_map_of_mem (f := fun d => declaration d (plan.inputRemark d.1)) hd))
      · obtain ⟨t, ht, rfl⟩ := List.mem_map.mp hd
        exact h _ _ _ _ (List.mem_append_right _ (List.mem_append_right _ (List.mem_map_of_mem
          (f := fun t : NamedNode => declaration (t.node, []) ("tracks " ++ t.userName)) ht)))
    · intro h name domain range remark hmem
      rcases List.mem_append.mp hmem with hmem | hmem
      · obtain ⟨d, hd, heq⟩ := List.mem_map.mp hmem
        cases heq
        exact h d (List.mem_append_left _ hd)
      · rcases List.mem_append.mp hmem with hmem | hmem
        · exact (hnotes _ hmem).elim
        · obtain ⟨t, ht, heq⟩ := List.mem_map.mp hmem
          cases heq
          exact h (t.node, []) (List.mem_append_right _ (List.mem_map_of_mem ht))
  · simp only [List.forall_mem_append, List.forall_mem_map]
    exact ⟨fun d _ => .inr ⟨_, _, _, _, rfl⟩, fun c hc => .inl (hnotes c hc),
      fun t _ => .inr ⟨_, _, _, _, rfl⟩⟩

/-- The truth values are realized by any interpretation. -/
theorem realizes_ofBool {scope : Scope} (hskolems : scope.skolems = p.skolems)
    (L : Interpretation α) (ν : Valuation α) (b : Bool) :
    scope.Realizes (.standard carrier) L ν [Node.ofBool b] := by
  intro n hn
  obtain rfl := List.mem_singleton.mp hn
  refine ⟨.bool b, ?_, ?_, ?_⟩
  · cases b
    · exact Valuation.at_of_isFalse rfl
    · exact Valuation.at_of_isTrue rfl
  · cases b <;> exact .bool _
  · rw [Scope.nodeTerm, hskolems, SkolemMap.nodeTerm,
      hp.dependencies?_of_reserved (Node.isReserved_ofBool b)]
    exact Term.eval_ofBool_term b

/-- The constants are realized where their names stand for their elements. -/
theorem realizes_constants {scope : Scope} (hskolems : scope.skolems = p.skolems)
    {L : Interpretation α} (hconstants : ∀ c ∈ p.constants, ¬c.node.IsReserved →
      ∃ e, c.value.element? = some e ∧ L c.node.name = e.constant) (ν : Valuation α) :
    scope.Realizes (.standard carrier) L (ν.withConstants p.constants)
      (p.constants.map Constant.node) := by
  intro n hn
  obtain ⟨c, hc, rfl⟩ := List.mem_map.mp hn
  by_cases hreserved : c.node.IsReserved
  · -- A constant with the identity of a truth value is that truth value.
    have hbool : ∃ b, c.node = Node.ofBool b := by
      have hkind := hp.reserved c hc hreserved
      obtain ⟨⟨id, kind⟩, value⟩ := c
      rcases hreserved with hid | hid
      · exact ⟨true, by rw [Node.mk.injEq]; exact ⟨hid, hkind⟩⟩
      · exact ⟨false, by rw [Node.mk.injEq]; exact ⟨hid, hkind⟩⟩
    obtain ⟨b, hb⟩ := hbool
    exact hp.realizes_ofBool hskolems L _ b c.node (by simp [hb])
  · obtain ⟨e, hvalue, hname⟩ := hconstants c hc hreserved
    have hnode : c.node ∈ p.givenNodes := List.mem_append_right _ (List.mem_map_of_mem hc)
    obtain ⟨e', hvalue', hkind⟩ := c.exists_element (α := α)
      (hp.isWord _ (List.mem_append_left _ hnode)) (hp.constant c hc)
    obtain rfl : e = e' := Option.some.inj (hvalue.symm.trans hvalue')
    have hplain : p.skolems.dependencies? c.node = none :=
      dependencies?_eq_none fun d hd => hp.id_ne_of_constant (mem_inputNodes_of_existential hd) hc
    refine ⟨e, ?_, hkind, ?_⟩
    · rw [Valuation.at_of_not_reserved _ hreserved,
        Valuation.withConstants_of_mem hp.nodup_constants hc, hvalue]
    · rw [Node.IsReserved, not_or] at hreserved
      rw [Scope.nodeTerm, hskolems, SkolemMap.nodeTerm, hplain, Node.term,
        Term.eval_node hreserved.1 hreserved.2]
      exact (congrFun hname []).trans rfl

/-- Where inputs and constants mean what they should, the ground nodes are realized. -/
theorem realizes_groundNodes {scope : Scope} (hskolems : scope.skolems = p.skolems)
    {M L : Interpretation α} (hM : p.Interprets (.standard carrier) M) {us : List (Element α)}
    (hus : p.ChoosesUniversals (.standard carrier) us)
    (hinputs : L.AgreesOn M (p.freeInputs.map Prod.fst))
    (hconstants : ∀ c ∈ p.constants, ¬c.node.IsReserved →
      ∃ e, c.value.element? = some e ∧ L c.node.name = e.constant) :
    scope.Realizes (.standard carrier) L ((p.inputValuation M us).withConstants p.constants)
      p.groundNodes := by
  intro n hn
  simp only [groundNodes, List.mem_append, List.mem_map (f := Prod.fst), List.mem_filter,
    List.mem_cons, List.not_mem_nil, or_false] at hn
  rcases hn with ((rfl | rfl) | ⟨d, ⟨hd, hempty⟩, rfl⟩) | hn
  · exact hp.realizes_ofBool hskolems L _ true _ List.mem_cons_self
  · exact hp.realizes_ofBool hskolems L _ false _ List.mem_cons_self
  · have hnone : d.2 = [] := by simpa using hempty
    obtain ⟨e, hvalue, hkind, heval⟩ := hp.exists_eval_of_free hM hus hd hskolems
      (hinputs d.1 (List.mem_map_of_mem hd)) (by simp [hnone])
    refine ⟨e, ?_, hkind, heval⟩
    have hother : ∀ c ∈ p.constants, c.node.id ≠ d.1.id := fun c hc =>
      (hp.id_ne_of_constant (mem_inputNodes_of_free hd) hc).symm
    rw [Valuation.at_withConstants hother, hvalue]
  · exact hp.realizes_constants hskolems hconstants _ n hn

/-! ### Known nodes -/

omit hp in
/-- A node of the problem is known once all given nodes and all assignments are. -/
theorem mem_known_of_hasNode {known : List Node} (htruth : ∀ b, Node.ofBool b ∈ known)
    (hgiven : ∀ n ∈ p.givenNodes, n ∈ known) (hassigned : ∀ a ∈ p.assignments, a.node ∈ known)
    {n : Node} (hn : p.HasNode n) : n ∈ known := by
  rcases hn with hn | ⟨b, rfl⟩
  · rcases List.mem_append.mp hn with hn | hn
    · exact hgiven n hn
    · obtain ⟨a, ha, rfl⟩ := List.mem_map.mp hn
      exact hassigned a ha
  · exact htruth b

/-- The hard final formulas are about truth values of the problem. -/
theorem literal_of_mem_ofProblem {f : FinalFormula}
    (hf : f ∈ FinalFormula.ofProblem p.constraints p.goal p.satisfiability)
    (hsoft : f.soft = false) : p.HasNode f.literal.node ∧ f.literal.node.kind = .bool := by
  rcases FinalFormula.node_of_mem_ofProblem hf with ⟨c, hc, hcsoft, hnode⟩ | hnode | hnode
  · rw [hnode]
    exact hp.literal c hc (hcsoft.trans hsoft)
  · rw [hnode]
    exact hp.goal
  · rw [hnode]
    exact ⟨.inr ⟨false, rfl⟩, rfl⟩

/-- The hard final formulas are known once all given nodes and all assignments are. -/
theorem literal_mem_known {known : List Node} (htruth : ∀ b, Node.ofBool b ∈ known)
    (hgiven : ∀ n ∈ p.givenNodes, n ∈ known) (hassigned : ∀ a ∈ p.assignments, a.node ∈ known)
    {f : FinalFormula} (hf : f ∈ FinalFormula.ofProblem p.constraints p.goal p.satisfiability)
    (hsoft : f.soft = false) : f.literal.node ∈ known ∧ f.literal.node.kind = .bool := by
  obtain ⟨hnode, hkind⟩ := hp.literal_of_mem_ofProblem hf hsoft
  exact ⟨mem_known_of_hasNode htruth hgiven hassigned hnode, hkind⟩

/-- The assignments before the first universal node can be defined when the given nodes that they
refer to are ground. -/
theorem extends_early (hreferences : p.checkReferences = .ok ())
    (hgiven : ∀ a ∈ p.assignments.takeWhile p.isEarly, ∀ n ∈ a.operation.operands,
      n ∈ p.givenNodes → n ∈ p.groundNodes) :
    Scope.Extends p.skolems p.groundNodes (p.assignments.takeWhile p.isEarly) := by
  have hstretch : p.assignments =
      [] ++ p.assignments.takeWhile p.isEarly ++ p.assignments.dropWhile p.isEarly := by
    rw [List.nil_append, List.takeWhile_append_dropWhile]
  refine hp.extends_of_known (ordered_of_checkReferences hreferences) hstretch (fun n hn => ?_)
    ofBool_mem_groundNodes (by simp) hgiven
  rcases given_of_mem_groundNodes hn with hn | hn
  · exact .inl hn
  · exact .inr (.inr hn)

/-! ### What a script has reached -/

variable {M : Interpretation α} {existentials trackers constants definitions : List Command}

/-- An input that is not universal is declared, or no declared one has its name. -/
theorem declared_or_undeclared {n : Node} (hn : n ∈ p.freeInputs.map Prod.fst) :
    n ∈ p.declaredInputs.map Prod.fst ∨
      n ∈ p.undeclaredNodes ∧ n.name ∉ (p.declaredInputs.map Prod.fst).map Node.name := by
  have hids := hp.nodup_freeInputs
  rw [freeInputs, List.map_append, List.nodup_append] at hids
  rw [freeInputs, List.map_append, List.mem_append, List.map_map] at hn
  rcases hn with hn | hn
  · exact .inl hn
  · obtain ⟨m, hm, rfl⟩ := List.mem_map.mp hn
    refine .inr ⟨hm, fun hmem => ?_⟩
    obtain ⟨k, hk, hname⟩ := List.mem_map.mp hmem
    obtain ⟨d, hd, rfl⟩ := List.mem_map.mp hk
    exact hids.2.2 _ (List.mem_map_of_mem hd) _ (List.mem_map_of_mem (List.mem_map_of_mem hm))
      (nodeName_injective hname)

/-- Definitions of constants do not touch the names of inputs. -/
theorem agreesOn_of_runs_constants
    (hconstants : commandsOf (Declaration.constant config) p.constants = .ok constants)
    {T : Theory α} {K J : Interpretation α} (hKJ : Script.Runs T constants K J) :
    J.AgreesOn K p.inputNodes := by
  intro n hn
  refine hKJ.eq_of_not_introduced fun c hc hintroduced => ?_
  obtain ⟨d, hd, ds, hds, hmem⟩ := exists_of_mem_commandsOf hconstants hc
  have hname := Declaration.introduced?_of_constant hds hmem hintroduced
  exact hp.id_ne_of_constant hn hd (nodeName_injective hname)

/-- There is one run of the declarations and the definitions of constants that gives the inputs
their functions. -/
theorem exists_run_inputs (hplan : p.IsPlan config plan)
    (hconstants : commandsOf (Declaration.constant plan.config) p.constants = .ok constants)
    (hexistentials : commandsOf plan.existentialCommands p.existentials = .ok existentials)
    (htrackers : plan.trackerCommands = .ok trackers) (hM : p.Interprets (.standard carrier) M) :
    ∃ L : Interpretation α, L.AgreesOn M (p.freeInputs.map Prod.fst) ∧
      (∀ c ∈ p.constants, ¬c.node.IsReserved →
        ∃ e, c.value.element? = some e ∧ L c.node.name = e.constant) ∧
      ∀ K, Script.Runs (.standard carrier) (constants ++ (existentials ++ trackers))
          (M.restrict p.undeclaredNodes) K ∧ K.AgreesOn M (p.declaredInputs.map Prod.fst) ↔
        K = L := by
  have hword : ∀ c ∈ p.constants, c.node.kind.IsWord := fun c hc =>
    hp.isWord _ (List.mem_append_left _ (List.mem_append_right _ (List.mem_map_of_mem hc)))
  obtain ⟨I, hI, hvalues⟩ := Declaration.exists_run_constants carrier hconstants hword
    hp.constant hp.nodup_constants (M.restrict p.undeclaredNodes)
  have hframe := hp.agreesOn_of_runs_constants hconstants ((hI I).mpr rfl)
  -- The constants are defined first and the declarations leave them alone, so the run is fixed by
  -- what the declared inputs are.
  refine ⟨I.override M (p.declaredInputs.map Prod.fst), ?_, ?_, fun K => ?_⟩
  · intro n hn
    rcases hp.declared_or_undeclared hn with hn | ⟨hundeclared, hn⟩
    · exact Interpretation.override_of_mem hn
    · rw [Interpretation.override_of_not_mem hn,
        hframe n (List.mem_append_right _ hundeclared), Interpretation.restrict,
        Interpretation.override_of_mem hundeclared]
  · intro c hc hreserved
    obtain ⟨e, he, hname⟩ := hvalues c hc hreserved
    refine ⟨e, he, ?_⟩
    rw [Interpretation.override_of_not_mem, hname]
    intro hmem
    obtain ⟨m, hm, hname⟩ := List.mem_map.mp hmem
    obtain ⟨d, hd, rfl⟩ := List.mem_map.mp hm
    exact hp.id_ne_of_constant (mem_inputNodes_of_free (List.mem_append_left _ hd)) hc
      (nodeName_injective hname)
  · rw [Script.runs_append]
    simp only [hI, exists_eq_left,
      hp.runs_declarations_iff hplan hexistentials htrackers]
    constructor
    · rintro ⟨⟨hother, -⟩, hdeclared⟩
      funext name
      by_cases hname : name ∈ (p.declaredInputs.map Prod.fst).map Node.name
      · obtain ⟨n, hn, rfl⟩ := List.mem_map.mp hname
        rw [Interpretation.override_of_mem hn, hdeclared n hn]
      · rw [Interpretation.override_of_not_mem hname, hother name hname]
    · rintro rfl
      refine ⟨⟨fun name hname => Interpretation.override_of_not_mem hname, fun d hd => ?_⟩,
        fun n hn => Interpretation.override_of_mem hn⟩
      rw [Interpretation.override_of_mem (List.mem_map_of_mem hd)]
      exact hM d (List.mem_append_left _ hd)

theorem exists_choosesUniversals (carrier : SortExpr → α → Prop) :
    ∃ us : List (Element α), p.ChoosesUniversals (.standard carrier) us := by
  have hword : ∀ n ∈ p.universals, n.kind.IsWord := fun n hn =>
    hp.isWord n (List.mem_append_left _ (List.mem_append_left _ (mem_inputNodes_of_universal hn)))
  -- Every sort of a word has the element of zero.
  unfold ChoosesUniversals
  generalize p.universals = ns at hword
  induction ns with
  | nil => exact ⟨[], .nil⟩
  | cons n ns ih =>
    obtain ⟨hn, hns⟩ := List.forall_mem_cons.mp hword
    obtain ⟨e, -, he⟩ := Element.exists_ofInt? (α := α) hn 0
    obtain ⟨us, hus⟩ := ih hns
    exact ⟨e :: us, .cons he.contains hus⟩

/-- Definitions of assignments do not touch the names of inputs. -/
theorem agreesOn_of_runs_definitions (hplan : p.IsPlan config plan)
    (hdefinitions : commandsOf plan.scope.definitionCommands plan.early = .ok definitions)
    {K J : Interpretation α} (hKJ : Script.Runs (.standard carrier) definitions K J) :
    J.AgreesOn K (p.freeInputs.map Prod.fst) := by
  intro n hn
  refine hKJ.eq_of_not_introduced fun c hc hintroduced => ?_
  obtain ⟨a, ha, hname⟩ := Scope.exists_of_introduced?_definition hdefinitions hc hintroduced
  rw [hplan.early] at ha
  obtain ⟨d, hd, rfl⟩ := List.mem_map.mp hn
  exact hp.id_ne_of_given (List.mem_append_left _ (mem_inputNodes_of_free hd))
    (List.takeWhile_subset _ ha) (nodeName_injective hname)

/-- There is one interpretation that gives the inputs their functions and that a script can have
reached before its conclusion. In it the nodes that have been defined are realized, whatever the
universal nodes are. -/
theorem exists_environment (hplan : p.IsPlan config plan)
    (hconstants : commandsOf (Declaration.constant plan.config) p.constants = .ok constants)
    (hexistentials : commandsOf plan.existentialCommands p.existentials = .ok existentials)
    (htrackers : plan.trackerCommands = .ok trackers)
    (hdefinitions : commandsOf plan.scope.definitionCommands plan.early = .ok definitions)
    (hext : Scope.Extends p.skolems p.groundNodes plan.early)
    (hM : p.Interprets (.standard carrier) M) :
    ∃ N : Interpretation α, N.AgreesOn M (p.freeInputs.map Prod.fst) ∧
      (∀ us, p.ChoosesUniversals (.standard carrier) us →
        plan.scope.Realizes (.standard carrier) N
          (((p.inputValuation M us).withConstants p.constants).evaluate plan.early)
          ((plan.early.map Assignment.node).reverse ++ p.groundNodes)) ∧
      ∀ J, Script.Runs (.standard carrier) (constants ++ (existentials ++ trackers) ++ definitions)
          (M.restrict p.undeclaredNodes) J ∧ J.AgreesOn M (p.freeInputs.map Prod.fst) ↔ J = N := by
  obtain ⟨L, hL, hvalues, hruns⟩ :=
    hp.exists_run_inputs hplan hconstants hexistentials htrackers hM
  rw [← hplan.skolems] at hext
  have hdefine : ∀ us, p.ChoosesUniversals (.standard carrier) us → ∃ N,
      (∀ K, Script.Runs (.standard carrier) definitions L K ↔ K = N) ∧
        plan.scope.Realizes (.standard carrier) N
          (((p.inputValuation M us).withConstants p.constants).evaluate plan.early)
          ((plan.early.map Assignment.node).reverse ++ p.groundNodes) := fun us hus =>
    (hp.realizes_groundNodes hplan.skolems hM hus hL hvalues).definitions hext hdefinitions
  -- The interpretation is found for one choice of universal elements, and is the same for all.
  obtain ⟨us, hus⟩ := hp.exists_choosesUniversals carrier
  obtain ⟨N, hN, -⟩ := hdefine us hus
  have hframe : ∀ {K J : Interpretation α}, Script.Runs (.standard carrier) definitions K J →
      J.AgreesOn K (p.freeInputs.map Prod.fst) :=
    hp.agreesOn_of_runs_definitions hplan hdefinitions
  refine ⟨N, ?_, fun us hus => ?_, fun J => ?_⟩
  · exact fun n hn => (hframe ((hN N).mpr rfl) n hn).trans (hL n hn)
  · -- The definitions have one run, so it does not matter which universal elements it is made for.
    obtain ⟨N', hN', hrealizes⟩ := hdefine us hus
    rwa [(hN N').mp ((hN' N').mpr rfl)] at hrealizes
  · rw [Script.runs_append]
    constructor
    · rintro ⟨⟨K, hK, hJ⟩, hagrees⟩
      -- What the inputs are at the end they have been since they were declared.
      have hdeclared : K.AgreesOn M (p.declaredInputs.map Prod.fst) := by
        intro n hn
        have hfree : n ∈ p.freeInputs.map Prod.fst := by
          rw [freeInputs, List.map_append]
          exact List.mem_append_left _ hn
        exact (hframe hJ n hfree).symm.trans (hagrees n hfree)
      obtain rfl := (hruns K).mp ⟨hK, hdeclared⟩
      exact (hN J).mp hJ
    · rintro rfl
      have hJ := (hN J).mpr rfl
      exact ⟨⟨L, ((hruns L).mpr rfl).1, hJ⟩, fun n hn => (hframe hJ n hn).trans (hL n hn)⟩

/-! ### The conclusion -/

omit hp in
/-- The conclusion of a script gives no meaning to names. -/
theorem isRequirement_of_conclusionCommands (hplan : p.IsPlan config plan)
    {conclusion : List Command} (hconclusion : plan.conclusionCommands = .ok conclusion) :
    ∀ c ∈ conclusion, c.IsRequirement := by
  unfold Plan.conclusionCommands at hconclusion
  by_cases huniversals : p.universals = []
  · rw [hplan.conclusion_of_open huniversals] at hconclusion
    obtain rfl := Except.ok.inj hconclusion
    simp only [Plan.openCommands, List.forall_mem_append, List.forall_mem_map]
    exact ⟨⟨⟨by simp [Command.IsRequirement], fun _ _ => trivial⟩,
      by simp [Command.IsRequirement]⟩, FinalFormula.isRequirement_of_mem_commands⟩
  · rw [(hplan.conclusion_of_quantified huniversals).2] at hconclusion
    obtain ⟨definitions, -, hconclusion⟩ := bind_eq_ok_iff.mp hconclusion
    obtain rfl := Except.ok.inj hconclusion
    simp [Command.IsRequirement]

/-- A script can be run to its end, with given functions of the inputs, when its conclusion holds in
the interpretation that it has reached before. -/
theorem exists_conclusion {script : CompiledScript} (hscript : p.compile config = .ok script)
    (hext : Scope.Extends p.skolems p.groundNodes (p.assignments.takeWhile p.isEarly))
    (hM : p.Interprets (.standard carrier) M) :
    ∃ plan conclusion, ∃ N : Interpretation α, p.IsPlan config plan ∧
      plan.conclusionCommands = .ok conclusion ∧ N.AgreesOn M (p.freeInputs.map Prod.fst) ∧
      (∀ us, p.ChoosesUniversals (.standard carrier) us →
        plan.scope.Realizes (.standard carrier) N
          (((p.inputValuation M us).withConstants p.constants).evaluate plan.early)
          ((plan.early.map Assignment.node).reverse ++ p.groundNodes)) ∧
      ((∃ J, Script.Runs (.standard carrier) script.commands (M.restrict p.undeclaredNodes) J ∧
          J.AgreesOn M (p.freeInputs.map Prod.fst)) ↔
        Script.Runs (.standard carrier) conclusion N N) := by
  obtain ⟨plan, hplan, hcommands⟩ := exists_plan_of_compile hscript
  obtain ⟨tuples, constants, existentials, trackers, freeSymbols, definitions, conclusion, htuples,
    hconstants, hexistentials, htrackers, hfreeSymbols, hdefinitions, hconclusion, hsections⟩ :=
    Plan.exists_sections_of_commands hcommands
  rw [hplan.ofProblem] at hconstants hexistentials hfreeSymbols
  rw [← hplan.early] at hext
  obtain ⟨N, hagrees, hrealizes, hN⟩ :=
    hp.exists_environment hplan hconstants hexistentials htrackers hdefinitions hext hM
  refine ⟨plan, conclusion, N, hplan, hconclusion, hagrees, hrealizes, ?_⟩
  have hnone : freeSymbols = [] := by
    rw [hp.freeSymbols] at hfreeSymbols
    exact (Except.ok.inj hfreeSymbols).symm
  have hopening : ∀ c ∈ plan.opening tuples, c.IsInert := by
    obtain ⟨query, hquery⟩ := hplan.logic
    exact Plan.isInert_opening (hplan.ofConfig ▸ hquery) htuples
  have hruns : ∀ I J, Script.Runs (.standard carrier) script.commands I J ↔
      ∃ K, Script.Runs (.standard carrier) (constants ++ (existentials ++ trackers) ++ definitions)
        I K ∧ Script.Runs (.standard carrier) conclusion K J := by
    rw [hsections, hnone]
    exact Plan.runs_sections_iff hopening (hplan.tables_eq_nil hp.tables)
      (hplan.arrays_eq_nil hp.arrays)
  have hrequirement := isRequirement_of_conclusionCommands hplan hconclusion
  -- The definitions determine the environment, and the conclusion only checks it.
  constructor
  · rintro ⟨J, hJ, hJagrees⟩
    obtain ⟨K, hK, hKJ⟩ := (hruns _ _).mp hJ
    obtain ⟨hholds, rfl⟩ := (Script.runs_iff_of_requirements hrequirement).mp hKJ
    rwa [(hN _).mp ⟨hK, hJagrees⟩] at hKJ
  · intro hN'
    exact ⟨N, (hruns _ _).mpr ⟨N, ((hN N).mpr rfl).1, hN'⟩, hagrees⟩

end IsWordProgram

end Problem

end SolverScript
