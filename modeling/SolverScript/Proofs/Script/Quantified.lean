import SolverScript.Proofs.Script.QuantifierFree

/-!
# Scripts under universal nodes

Under universal nodes the assignments before the first of them become definitions, and the others
local definitions inside of the one assertion that binds the universal nodes. Given functions of the
other inputs satisfy such a script exactly when evaluating the program makes the constraints and the
goal as they are required for all elements of the universal nodes.

## Main results

* `Problem.IsWordProgram.quantified_script_holds_iff` - scripts with universals preserve the meaning
-/

namespace SolverScript

variable {α : Type} {carrier : SortExpr → α → Prop}

/-! ### Bound names -/

namespace Interpretation

/-- Nodes with different identities are bound to their elements. -/
theorem bindAll_of_mem_zip_nodes (I : Interpretation α) {ns : List Node} {es : List (Element α)}
    (hids : (ns.map Node.id).Nodup) {n : Node} {e : Element α} (h : (n, e) ∈ ns.zip es) :
    I.bindAll (ns.map Node.name) es n.name = e.constant := by
  have hnames : (ns.map Node.name).Nodup := by
    rw [show ns.map Node.name = (ns.map Node.id).map nodeName by simp [Node.name]]
    exact hids.map nodeName_injective
  refine bindAll_of_mem_zip I hnames ?_
  rw [List.zip_map_left]
  exact List.mem_map_of_mem h

end Interpretation

/-- Known nodes are realized as before when other nodes are bound. -/
theorem Scope.Realizes.bindAll {scope : Scope} {T : Theory α} {I : Interpretation α}
    {ν : Valuation α} {known ns : List Node} (h : scope.Realizes T I ν known)
    (hnew : ∀ u ∈ ns, ∀ n ∈ known, ∀ m ∈ scope.skolems.mentioned n, m.id ≠ u.id)
    (es : List (Element α)) : scope.Realizes T (I.bindAll (ns.map Node.name) es) ν known := by
  induction ns generalizing I es with
  | nil => exact h
  | cons u ns ih =>
    obtain ⟨hu, hns⟩ := List.forall_mem_cons.mp hnew
    cases es with
    | nil => exact h
    | cons e es => exact ih (h.bind hu e.constant) hns es

/-- Nodes that are not assigned keep their elements. -/
theorem Valuation.at_evaluate {ν : Valuation α} {assignments : List Assignment} {n : Node}
    (hn : ∀ a ∈ assignments, n.id ≠ a.node.id) : (ν.evaluate assignments).at n = ν.at n := by
  induction assignments generalizing ν with
  | nil => rfl
  | cons a rest ih =>
    obtain ⟨ha, hrest⟩ := List.forall_mem_cons.mp hn
    rw [Valuation.evaluate, List.foldl_cons]
    exact (ih hrest).trans (Valuation.at_update _ ha)

namespace Problem

/-- The nodes that are known under the quantifiers: what is known before them, and all inputs. -/
def boundNodes (p : Problem) (early : List Assignment) : List Node :=
  (early.map Assignment.node).reverse ++ p.groundNodes ++ p.inputNodes

variable {p : Problem} {config : Config}

theorem ofBool_mem_boundNodes {early : List Assignment} (b : Bool) :
    Node.ofBool b ∈ p.boundNodes early :=
  List.mem_append_left _ (List.mem_append_right _ (ofBool_mem_groundNodes b))

theorem mem_boundNodes_of_early {early : List Assignment} {a : Assignment} (ha : a ∈ early) :
    a.node ∈ p.boundNodes early :=
  List.mem_append_left _ (List.mem_append_left _ (List.mem_reverse.mpr (List.mem_map_of_mem ha)))

theorem mem_boundNodes_of_given {early : List Assignment} {n : Node} (hn : n ∈ p.givenNodes) :
    n ∈ p.boundNodes early := by
  rcases List.mem_append.mp hn with hn | hn
  · exact List.mem_append_right _ hn
  · exact List.mem_append_left _ (List.mem_append_right _ (List.mem_append_right _ hn))

theorem available_of_mem_boundNodes {early : List Assignment} {n : Node}
    (hn : n ∈ p.boundNodes early) : p.Available early n := by
  rcases List.mem_append.mp hn with hn | hn
  · rcases List.mem_append.mp hn with hn | hn
    · exact .inr (.inl (List.mem_reverse.mp hn))
    · rcases given_of_mem_groundNodes hn with hn | hn
      · exact .inl hn
      · exact .inr (.inr hn)
  · exact .inl (List.mem_append_left _ hn)

theorem IsPlan.assignments_eq {plan : Plan} (hplan : p.IsPlan config plan) :
    p.assignments = plan.early ++ plan.late := by
  rw [hplan.early, hplan.late, List.takeWhile_append_dropWhile]

namespace IsWordProgram

variable (hp : p.IsWordProgram)

include hp

/-- Where the universal nodes are bound to some elements, all given nodes are realized. -/
theorem realizes_bound {scope : Scope} (hskolems : scope.skolems = p.skolems)
    {M N : Interpretation α} (hM : p.Interprets (.standard carrier) M) {us : List (Element α)}
    (hus : p.ChoosesUniversals (.standard carrier) us)
    (hN : N.AgreesOn M (p.freeInputs.map Prod.fst)) {early : List Assignment}
    (hearly : ∀ a ∈ early, a ∈ p.assignments)
    (h : scope.Realizes (.standard carrier) N
      (((p.inputValuation M us).withConstants p.constants).evaluate early)
      ((early.map Assignment.node).reverse ++ p.groundNodes)) :
    scope.Realizes (.standard carrier) (N.bindAll (p.universals.map Node.name) us)
      (((p.inputValuation M us).withConstants p.constants).evaluate early)
      (p.boundNodes early) := by
  have hbound : ∀ m u, (m, u) ∈ p.universals.zip us →
      N.bindAll (p.universals.map Node.name) us m.name [] = some u := by
    intro m u hzip
    rw [Interpretation.bindAll_of_mem_zip_nodes N hp.nodup_universals hzip]
    rfl
  have hvaluation : ∀ n ∈ p.inputNodes, Valuation.at
      (((p.inputValuation M us).withConstants p.constants).evaluate early) n =
        (p.inputValuation M us).at n := by
    intro n hn
    rw [Valuation.at_evaluate fun a ha => hp.id_ne_of_given (List.mem_append_left _ hn)
      (hearly a ha), Valuation.at_withConstants fun c hc => (hp.id_ne_of_constant hn hc).symm]
  have hnew : ∀ u ∈ p.universals, ∀ n ∈ (early.map Assignment.node).reverse ++ p.groundNodes,
      ∀ m ∈ scope.skolems.mentioned n, m.id ≠ u.id := by
    rw [hskolems]
    intro u hu n hn m hm
    have hground : p.IsGround n := by
      rcases List.mem_append.mp hn with hn | hn
      · obtain ⟨a, ha, rfl⟩ := List.mem_map.mp (List.mem_reverse.mp hn)
        exact hp.isGround_of_assignment (hearly a ha)
      · exact hp.isGround_of_mem_groundNodes hn
    exact hground m hm u hu
  -- What was known before stays as it was; the inputs that depend on universal nodes are new.
  intro n hn
  rcases List.mem_append.mp hn with hn | hn
  · exact h.bindAll hnew us n hn
  · rw [hvaluation n hn]
    rcases List.mem_append.mp (perm_inputNodes.mem_iff.mp hn) with hn | hn
    · exact hp.exists_eval_of_universal hus hn hskolems fun u hzip => hbound n u hzip
    · obtain ⟨d, hd, rfl⟩ := List.mem_map.mp hn
      refine hp.exists_eval_of_free hM hus hd hskolems ?_ fun m _ u hzip => hbound m u hzip
      -- The input itself is not universal, so the binder leaves its function alone.
      rw [Interpretation.bindAll_of_not_mem, hN d.1 (List.mem_map_of_mem hd)]
      intro hname
      obtain ⟨u, hu, hname⟩ := List.mem_map.mp hname
      exact hp.universal_ne_free hu hd (nodeName_injective hname)

/-- The assignments from the first universal node on can be defined under the quantifiers. -/
theorem extends_late {plan : Plan} (hplan : p.IsPlan config plan) :
    Scope.Extends p.skolems (p.boundNodes plan.early) plan.late := by
  have hstretch : p.assignments = plan.early ++ plan.late ++ [] := by
    rw [hplan.assignments_eq, List.append_nil]
  exact hp.extends_of_known (ordered_of_checkReferences hplan.references) hstretch
    (fun n hn => available_of_mem_boundNodes hn) ofBool_mem_boundNodes
    (fun a ha => mem_boundNodes_of_early ha) fun a _ n _ hn => mem_boundNodes_of_given hn

/-- The hard final formulas are about truth values that are known once all assignments are. -/
theorem literal_mem_boundNodes {plan : Plan} (hplan : p.IsPlan config plan) {f : FinalFormula}
    (hf : f ∈ FinalFormula.ofProblem p.constraints p.goal p.satisfiability)
    (hhard : f.soft = false) :
    f.literal.node ∈ (plan.late.map Assignment.node).reverse ++ p.boundNodes plan.early ∧
      f.literal.node.kind = .bool := by
  refine hp.literal_mem_known (fun b => ?_) (fun n hn => ?_) (fun a ha => ?_) hf hhard
  · exact List.mem_append_right _ (ofBool_mem_boundNodes b)
  · exact List.mem_append_right _ (mem_boundNodes_of_given hn)
  · rw [hplan.assignments_eq] at ha
    rcases List.mem_append.mp ha with ha | ha
    · exact List.mem_append_right _ (mem_boundNodes_of_early ha)
    · exact List.mem_append_left _ (List.mem_reverse.mpr (List.mem_map_of_mem ha))

/-- For given elements of the universal nodes, the formula under the quantifiers says what the
constraints and the goal require. -/
theorem eval_bound_iff {plan : Plan} (hplan : p.IsPlan config plan) {M N : Interpretation α}
    (hM : p.Interprets (.standard carrier) M) {us : List (Element α)}
    (hus : p.ChoosesUniversals (.standard carrier) us)
    (hN : N.AgreesOn M (p.freeInputs.map Prod.fst))
    (hrealizes : plan.scope.Realizes (.standard carrier) N
      (((p.inputValuation M us).withConstants p.constants).evaluate plan.early)
      ((plan.early.map Assignment.node).reverse ++ p.groundNodes))
    {definitions : List LocalDefinition}
    (hdefinitions : plan.late.mapM plan.scope.localDefinition = .ok definitions)
    (hhard : ∀ f ∈ FinalFormula.ofProblem p.constraints p.goal p.satisfiability,
      f.soft = false) :
    (QuantifiedBlock.withDefinitions definitions (Literal.conjunction p.skolems
        ((FinalFormula.ofProblem p.constraints p.goal p.satisfiability).map
          FinalFormula.literal))).eval (.standard carrier)
        (N.bindAll (p.universals.map Node.name) us) = some (.bool true) ↔
      p.HoldsAt (p.valuation (p.inputValuation M us)) := by
  have hskolems : plan.scope.skolems = p.skolems := hplan.skolems
  have hearly : ∀ a ∈ plan.early, a ∈ p.assignments := by
    intro a ha
    rw [hplan.assignments_eq]
    exact List.mem_append_left _ ha
  -- The local definitions take the known nodes under the quantifiers to all nodes.
  have hbound := hp.realizes_bound hskolems hM hus hN hearly hrealizes
  obtain ⟨J, hJ, hJrealizes⟩ :=
    hbound.localDefinitions (hskolems ▸ hp.extends_late hplan) hdefinitions
  have hvaluation : (((p.inputValuation M us).withConstants p.constants).evaluate
      plan.early).evaluate plan.late = p.valuation (p.inputValuation M us) := by
    rw [valuation, hplan.assignments_eq, Valuation.evaluate, Valuation.evaluate,
      ← List.foldl_append, Valuation.evaluate]
  rw [hvaluation] at hJrealizes
  have hliterals : ∀ l ∈ (FinalFormula.ofProblem p.constraints p.goal p.satisfiability).map
      FinalFormula.literal, plan.scope.skolems.IsTruthValue carrier J
        (p.valuation (p.inputValuation M us)) l.node := by
    intro l hl
    obtain ⟨f, hf, rfl⟩ := List.mem_map.mp hl
    obtain ⟨hnode, hkind⟩ := hp.literal_mem_boundNodes hplan hf (hhard f hf)
    exact hJrealizes.isTruthValue hnode hkind
  rw [hJ, ← hskolems, Literal.eval_conjunction_iff hliterals, List.forall_mem_map,
    ← FinalFormula.forall_holdsAt_iff]
  exact ⟨fun h f hf _ => h f hf, fun h f hf => h f hf (hhard f hf)⟩

end IsWordProgram

/-! ### A function of a universal node -/

/-- Whether there is something other than every given truth value. -/
def opposite : Problem where
  kinds := [.bool]
  quantified := [.universal ⟨0, .bool⟩, .existential ⟨1, .bool⟩ [⟨0, .bool⟩]]
  assignments := [⟨⟨2, .bool⟩, ⟨.xor, [⟨0, .bool⟩, ⟨1, .bool⟩]⟩⟩]
  goal := ⟨2, .bool⟩

theorem isWordProgram_opposite : opposite.IsWordProgram where
  tables := rfl
  arrays := rfl
  freeSymbols := rfl
  postulates := rfl
  distinct := by decide
  isWord := by
    intro n hn
    fin_cases hn <;> exact .bool
  input := by
    simp [opposite, inputNodes, declaredNodes, undeclaredNodes, Node.IsReserved,
      QuantifiedInput.node]
  reserved := by simp [opposite]
  dependency := by
    intro n dependencies hn m hm
    fin_cases hn
    fin_cases hm
    exact List.mem_cons_self
  constant := by simp [opposite]
  operand := by
    intro a ha n hn
    fin_cases ha
    have hnodes : ∀ m ∈ [⟨0, .bool⟩, ⟨1, .bool⟩], m ∈ opposite.nodes := by
      simp [nodes, givenNodes, opposite, inputNodes, declaredNodes, QuantifiedInput.node]
    fin_cases hn <;> exact .inl (hnodes _ (by simp))
  hasKind := by
    intro a ha
    fin_cases ha
    exact .xorBool
  literal := by simp [opposite]
  goal := ⟨.inl (by simp [nodes, opposite]), rfl⟩

theorem inCreationOrder_opposite : opposite.InCreationOrder where
  reference := by
    intro a ha n hn
    fin_cases ha
    fin_cases hn <;> decide
  dependency := by
    intro n dependencies hn m hm
    fin_cases hn
    fin_cases hm
    exact ⟨List.mem_cons_self, by decide⟩

/-- The negation of truth values, as a meaning for all names. -/
def negationInterpretation : Interpretation Empty := fun _ es =>
  match es with
  | [.bool b] => some (.bool !b)
  | _ => none

end Problem

end SolverScript
