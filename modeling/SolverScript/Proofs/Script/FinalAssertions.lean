import SolverScript.Proofs.Script.Conclusion

/-!
# Exact final assertions

The final assertions of a script are made from any constraints and any goal, whatever the nodes in
them are and depend on. Read at a choice of truth values for the nodes, they say that the hard
constraints and the goal are as they are required, no more and no less.

## Main definitions

* `Valuation.ofTruth` - a choice of truth values for the nodes
* `Term.HoldsAt` - whether a formula holds at a choice of truth values
* `Constraint.IsMisplaced` - the constraints that cannot be asserted under universals
* `Conclusion.IsSeparated` - the assertions without universals
* `Conclusion.IsCombined` - the assertion under universals

## Main results

* `Conclusion.ofFormulas_exact` - the final assertions say what is required
-/

namespace SolverScript

variable {α : Type} {carrier : SortExpr → α → Prop} {skolems : SkolemMap}

/-! ### Truth values for nodes -/

namespace Valuation

/-- The valuation that gives truth values to the nodes. Those of the truth values themselves are
fixed, whatever is chosen for them. -/
def ofTruth (τ : Int → Bool) : Valuation α := fun id => some (.bool (τ id))

theorem exists_at_ofTruth (τ : Int → Bool) (n : Node) :
    ∃ b, (ofTruth τ : Valuation α).at n = some (.bool b) := by
  unfold Valuation.at ofTruth
  split
  · exact ⟨true, rfl⟩
  · split
    · exact ⟨false, rfl⟩
    · exact ⟨τ n.id, rfl⟩

/-- The interpretation in which the symbol of a node stands for the element of the node, whatever it
is applied to. -/
noncomputable def symbols (ν : Valuation α) : Interpretation α := fun name _ =>
  (Function.partialInv nodeName name).bind fun id => ν.at ⟨id, .bool⟩

theorem symbols_nodeName (ν : Valuation α) (n : Node) (es : List (Element α)) :
    ν.symbols (nodeName n.id) es = ν.at n := by
  rw [symbols, Function.partialInv_left nodeName_injective, Option.bind_some]
  exact at_congr rfl

theorem apply_symbols_ofBool (ν : Valuation α) (b : Bool) (es : List (Element α)) :
    (Theory.standard carrier).apply ν.symbols (Node.ofBool b).term es = some (.bool b) := by
  have hsymbol : ν.symbols (nodeName (Node.ofBool b).id) es = some (.bool b) := by
    rw [symbols_nodeName]
    cases b <;> rfl
  -- The theory knows the truth values as constants only.
  cases es with
  | nil => cases b <;> exact Term.apply_symbol rfl rfl
  | cons e es => cases b <;> exact hsymbol

/-- Applying the symbol of a node gives the element of the node. -/
theorem apply_symbols (carrier : SortExpr → α → Prop) (ν : Valuation α) (n : Node)
    (es : List (Element α)) :
    (Theory.standard carrier).apply ν.symbols n.term es = ν.at n := by
  by_cases h : ∃ b, n.id = (Node.ofBool b).id
  · obtain ⟨b, hid⟩ := h
    rw [at_congr hid, show n.term = (Node.ofBool b).term from congrArg Term.node hid,
      apply_symbols_ofBool]
    cases b <;> rfl
  · have ht : n.id ≠ -1 := fun hid => h ⟨true, hid⟩
    have hf : n.id ≠ -2 := fun hid => h ⟨false, hid⟩
    rw [Node.term, Term.apply_node ht hf, symbols_nodeName]

end Valuation

/-- Whether a formula about nodes holds at a choice of truth values for them. -/
def Term.HoldsAt (t : Term) (carrier : SortExpr → α → Prop) (τ : Int → Bool) : Prop :=
  t.eval (.standard carrier) (Valuation.ofTruth τ).symbols = some (.bool true)

/-- The term of a node denotes the chosen truth value, also if the node depends on others. -/
theorem SkolemMap.isTruthValue_ofTruth (skolems : SkolemMap) (carrier : SortExpr → α → Prop)
    (τ : Int → Bool) (n : Node) :
    skolems.IsTruthValue carrier (Valuation.ofTruth τ).symbols (Valuation.ofTruth τ) n := by
  have hterm : ∀ m : Node, m.term.eval (.standard carrier) (Valuation.ofTruth τ).symbols =
      (Valuation.ofTruth τ).at m := fun m => by
    rw [← Valuation.apply_symbols carrier _ m []]
    simp only [Node.term, Term.eval]
  obtain ⟨b, hb⟩ := Valuation.exists_at_ofTruth (α := α) τ n
  refine ⟨b, hb, ?_⟩
  unfold SkolemMap.nodeTerm
  split
  · next dependencies _ =>
    have hoperands : ∃ es, Term.evalAll (.standard carrier) (Valuation.ofTruth τ).symbols
        (dependencies.map Node.term) = some es := by
      clear * - hterm
      induction dependencies with
      | nil => exact ⟨[], rfl⟩
      | cons m ms ih =>
        obtain ⟨c, hc⟩ := Valuation.exists_at_ofTruth (α := α) τ m
        obtain ⟨es, hes⟩ := ih
        exact ⟨.bool c :: es, by simp [Term.evalAll, hterm, hc, hes]⟩
    obtain ⟨es, hes⟩ := hoperands
    rw [Term.eval_app_of_evalAll hes, Valuation.apply_symbols, hb]
  · rw [hterm, hb]

namespace Valuation

/-- The hard constraints hold, or fail if they are negated, and the goal holds if it is to be
satisfied and fails if it is to be refuted. -/
def Meets (ν : Valuation α) (constraints : List Constraint) (goal : Node)
    (satisfiability : Bool) : Prop :=
  (∀ c ∈ constraints, c.soft = false → ν.Holds c.negated c.literal) ∧
    ν.Holds (!satisfiability) goal

end Valuation

/-! ### Constraints -/

namespace Constraint

/-- Whether a constraint holds always. -/
def isTrivial (c : Constraint) : Bool :=
  if c.negated then c.literal.isFalse else c.literal.isTrue

/-- Whether a constraint has no place under universals. -/
def IsMisplaced (c : Constraint) : Prop :=
  c.isTrivial = false ∧ (c.soft = true ∨ c.attributes ≠ [])

/-- The formula that a constraint asks for, without its attributes. The negation of true is written
as false. -/
def requirement (skolems : SkolemMap) (c : Constraint) : Term :=
  if !c.negated then skolems.nodeTerm c.literal
  else if c.literal.isTrue then skolems.nodeTerm (Node.ofBool false)
  else Term.negation (skolems.nodeTerm c.literal)

end Constraint

/-- The term of a node depends on its identity only. -/
theorem SkolemMap.nodeTerm_congr (skolems : SkolemMap) {n m : Node} (h : n.id = m.id) :
    skolems.nodeTerm n = skolems.nodeTerm m := by
  have hsame : n.same = m.same := funext fun k => congrArg (· == k.id) h
  unfold SkolemMap.nodeTerm SkolemMap.dependencies? Node.term
  rw [hsame, h]

namespace FinalFormula

theorem ofConstraint?_of_isTrivial {c : Constraint} (h : c.isTrivial = true) :
    ofConstraint? c = none := by
  unfold Constraint.isTrivial at h
  unfold ofConstraint? Literal.ofNode? Literal.negative? Literal.positive?
  split <;> simp_all

/-- A constraint that is not trivial has a final formula, with all that belongs to it. -/
theorem exists_of_not_isTrivial {c : Constraint} (skolems : SkolemMap)
    (h : c.isTrivial = false) :
    ∃ f, ofConstraint? c = some f ∧ f.soft = c.soft ∧ f.attributes = c.attributes ∧
      f.literal.term skolems = c.requirement skolems := by
  unfold Constraint.isTrivial at h
  unfold ofConstraint? Literal.ofNode? Literal.negative? Literal.positive?
    Constraint.requirement
  split at h
  · next hnegated =>
    simp only [hnegated, h, if_true, Bool.false_eq_true, if_false, Bool.not_true]
    split
    · exact ⟨_, rfl, rfl, rfl, rfl⟩
    · exact ⟨_, rfl, rfl, rfl, rfl⟩
  · next hnegated =>
    simp only [hnegated, h, Bool.false_eq_true, if_false, Bool.not_false, if_true]
    refine ⟨_, rfl, rfl, rfl, ?_⟩
    split
    -- A node with the identity of a truth value is written like it.
    · next hfalse => exact skolems.nodeTerm_congr (beq_iff_eq.mp hfalse).symm
    · rfl

end FinalFormula

/-- The formula of a constraint holds where the constraint is as it is required. -/
theorem Constraint.holdsAt_requirement_iff (c : Constraint) (τ : Int → Bool) :
    (c.requirement skolems).HoldsAt carrier τ ↔
      (Valuation.ofTruth τ : Valuation α).Holds c.negated c.literal := by
  obtain ⟨b, hvalue, heval⟩ := skolems.isTruthValue_ofTruth carrier τ c.literal
  unfold Term.HoldsAt Constraint.requirement Valuation.Holds
  rw [hvalue]
  split
  · next hnegated => simp [heval, hnegated]
  · split
    · next htrue =>
      obtain ⟨b', hfalse, hevalFalse⟩ :=
        skolems.isTruthValue_ofTruth carrier τ (Node.ofBool false)
      rw [Valuation.at_of_isFalse rfl] at hfalse
      rw [Valuation.at_of_isTrue htrue] at hvalue
      cases hfalse
      cases hvalue
      simp_all
    · simp_all [Term.eval_negation heval]

/-- The formula that a command suggests to the solver. -/
def Command.suggestion? : Command → Option Term
  | assertSoft formula => some formula
  | _ => none

/-- The formulas that a script suggests to the solver, in order. -/
def Script.suggestions (commands : List Command) : List Term :=
  commands.filterMap Command.suggestion?

namespace FinalFormula

variable {constraints : List Constraint} {goal : Node} {satisfiability : Bool}

/-- Only constraints that are not trivial put something special into the final formulas. -/
theorem exists_mem_ofProblem_iff :
    (∃ f ∈ ofProblem constraints goal satisfiability, f.soft = true ∨ f.attributes ≠ []) ↔
      ∃ c ∈ constraints, c.IsMisplaced := by
  constructor
  · rintro ⟨f, hf, hspecial⟩
    rcases List.mem_append.mp hf with hf | hf
    · obtain ⟨c, hc, hcf⟩ := List.mem_filterMap.mp hf
      have htrivial : c.isTrivial = false := by
        by_contra h
        rw [ofConstraint?_of_isTrivial (by simpa using h)] at hcf
        cases hcf
      obtain ⟨f', hf', hsoft, hattributes, -⟩ := exists_of_not_isTrivial [] htrivial
      cases hf'.symm.trans hcf
      exact ⟨c, hc, htrivial, hsoft ▸ hattributes ▸ hspecial⟩
    · obtain ⟨l, -, rfl⟩ := Option.map_eq_some_iff.mp (Option.mem_toList.mp hf)
      simp at hspecial
  · rintro ⟨c, hc, htrivial, hspecial⟩
    obtain ⟨f, hf, hsoft, hattributes, -⟩ := exists_of_not_isTrivial [] htrivial
    refine ⟨f, List.mem_append_left _ (List.mem_filterMap.mpr ⟨c, hc, hf⟩), ?_⟩
    rwa [hsoft, hattributes]

/-- The soft final formulas are the soft constraints that are not trivial. -/
theorem map_soft_ofProblem (skolems : SkolemMap) :
    ((ofProblem constraints goal satisfiability).filter fun f => f.soft).map (term skolems) =
      (constraints.filter fun c => c.soft && !c.isTrivial).map fun c =>
        Term.withAttributes c.attributes (c.requirement skolems) := by
  have hgoal : (((Literal.ofNode? (!satisfiability) goal).map fun l =>
      FinalFormula.mk l false []).toList.filter fun f => f.soft) = [] := by
    cases Literal.ofNode? (!satisfiability) goal <;> rfl
  rw [ofProblem, List.filter_append, hgoal, List.append_nil]
  induction constraints with
  | nil => rfl
  | cons c cs ih =>
    cases htrivial : c.isTrivial with
    | true =>
      rw [List.filterMap_cons_none (ofConstraint?_of_isTrivial htrivial), ih]
      simp [htrivial]
    | false =>
      obtain ⟨f, hf, hsoft, hattributes, hterm⟩ := exists_of_not_isTrivial skolems htrivial
      rw [List.filterMap_cons_some hf, List.filter_cons, List.filter_cons, hsoft, htrivial]
      cases c.soft with
      | false => simpa using ih
      | true => simpa [term, hterm, hattributes] using ih

/-- The suggestions among the final assertions. -/
theorem suggestions_commands {formulas : List FinalFormula} :
    Script.suggestions (commands skolems formulas) =
      (formulas.filter fun f => f.soft).map (term skolems) := by
  unfold Script.suggestions commands
  rw [List.filterMap_append, List.filterMap_map, List.filterMap_map]
  have hhard : (formulas.filter fun f => !f.soft).filterMap
      (Command.suggestion? ∘ fun f => .assert (f.term skolems)) = [] :=
    List.filterMap_eq_nil_iff.mpr fun _ _ => rfl
  rw [hhard, List.nil_append]
  exact congrFun List.filterMap_eq_map _

/-- The final assertions are those of the hard formulas, beside suggestions. -/
theorem assert_mem_commands_iff {formulas : List FinalFormula} {t : Term} :
    Command.assert t ∈ commands skolems formulas ↔
      ∃ f ∈ formulas, f.soft = false ∧ f.term skolems = t := by
  simp [commands, and_assoc]

/-- The hard final formulas hold where the constraints and the goal are as they are required. -/
theorem forall_holdsAt_term_iff (skolems : SkolemMap) (τ : Int → Bool) :
    (∀ f ∈ ofProblem constraints goal satisfiability, f.soft = false →
        (f.term skolems).HoldsAt carrier τ) ↔
      (Valuation.ofTruth τ : Valuation α).Meets constraints goal satisfiability := by
  have hliteral : ∀ f : FinalFormula, (f.term skolems).HoldsAt carrier τ ↔
      f.literal.HoldsAt (Valuation.ofTruth τ : Valuation α) := fun f => by
    rw [Term.HoldsAt, eval_term, Literal.eval_term_iff (skolems.isTruthValue_ofTruth carrier τ _)]
  simp only [hliteral]
  exact @forall_holdsAt_iff _ _
    { constraints := constraints, goal := goal, satisfiability := satisfiability }

end FinalFormula

/-! ### Conclusions -/

namespace Conclusion

/-- Separate assertions of constraints and a goal: nothing but assertions and suggestions, of which
the former require the hard constraints and the goal, and the latter are the soft constraints that
are not trivial, in order and with their attributes. -/
structure IsSeparated (carrier : SortExpr → α → Prop) (skolems : SkolemMap)
    (constraints : List Constraint) (goal : Node) (satisfiability : Bool)
    (commands : List Command) : Prop where
  assertions : ∀ c ∈ commands, ∃ t, c = .assert t ∨ c = .assertSoft t
  hard : ∀ τ : Int → Bool, (∀ t, Command.assert t ∈ commands → t.HoldsAt carrier τ) ↔
    (Valuation.ofTruth τ : Valuation α).Meets constraints goal satisfiability
  soft : Script.suggestions commands =
    (constraints.filter fun c => c.soft && !c.isTrivial).map fun c =>
      Term.withAttributes c.attributes (c.requirement skolems)
  requirement : ∀ c ∈ constraints, ∀ τ : Int → Bool, (c.requirement skolems).HoldsAt carrier τ ↔
    (Valuation.ofTruth τ : Valuation α).Holds c.negated c.literal

/-- A single assertion of constraints and a goal: one line, of which the formula requires all of
them, before the parentheses that close what it stands in. -/
structure IsCombined (carrier : SortExpr → α → Prop) (constraints : List Constraint) (goal : Node)
    (satisfiability : Bool) (conclusion : Conclusion) (formula : Term) : Prop where
  lines : ∀ nesting, conclusion.lines nesting = [nesting.closingLine formula]
  holds : ∀ τ : Int → Bool, formula.HoldsAt carrier τ ↔
    (Valuation.ofTruth τ : Valuation α).Meets constraints goal satisfiability

variable {constraints : List Constraint} {goal : Node} {satisfiability : Bool}

theorem isSeparated_commands (carrier : SortExpr → α → Prop) (skolems : SkolemMap)
    (constraints : List Constraint) (goal : Node) (satisfiability : Bool) :
    IsSeparated carrier skolems constraints goal satisfiability
      (FinalFormula.commands skolems
        (FinalFormula.ofProblem constraints goal satisfiability)) where
  assertions := by
    intro c hc
    rcases List.mem_append.mp hc with hc | hc <;> obtain ⟨f, -, rfl⟩ := List.mem_map.mp hc
    · exact ⟨_, .inl rfl⟩
    · exact ⟨_, .inr rfl⟩
  hard := by
    intro τ
    rw [← FinalFormula.forall_holdsAt_term_iff skolems]
    constructor
    · intro h f hf hsoft
      exact h _ (FinalFormula.assert_mem_commands_iff.mpr ⟨f, hf, hsoft, rfl⟩)
    · intro h t ht
      obtain ⟨f, hf, hsoft, rfl⟩ := FinalFormula.assert_mem_commands_iff.mp ht
      exact h f hf hsoft
  soft := FinalFormula.suggestions_commands.trans (FinalFormula.map_soft_ofProblem skolems)
  requirement := fun c _ τ => c.holdsAt_requirement_iff τ

/-- Under universals the final formulas are combined unless one of them is soft or has attributes,
which is a mistake. -/
theorem conjoined_cases (skolems : SkolemMap) (universals : List Node)
    (formulas : List FinalFormula) :
    ((∃ f ∈ formulas, f.soft = true ∨ f.attributes ≠ []) ∧ ∃ failure,
        FinalFormula.conjoined skolems universals formulas = .error failure ∧
          failure.category = .mistake) ∨
      (∀ f ∈ formulas, f.soft = false ∧ f.attributes = []) ∧
        FinalFormula.conjoined skolems universals formulas =
          .ok (Literal.conjunction skolems (formulas.map FinalFormula.literal)) := by
  unfold FinalFormula.conjoined
  dsimp only
  split
  · next hattributed =>
    obtain ⟨f, hf, hattributes⟩ : ∃ f ∈ formulas, f.attributes ≠ [] := by simpa using hattributed
    exact .inl ⟨⟨f, hf, .inr hattributes⟩, _, rfl, rfl⟩
  · next hattributed =>
    split
    · next hsoft =>
      obtain ⟨f, hf, hfsoft⟩ : ∃ f ∈ formulas, f.soft = true := by simpa using hsoft
      exact .inl ⟨⟨f, hf, .inl hfsoft⟩, _, rfl, rfl⟩
    · next hsoft =>
      refine .inr ⟨fun f hf => ⟨?_, ?_⟩, rfl⟩
      · by_contra h
        exact hsoft (by simpa using ⟨f, hf, by simpa using h⟩)
      · by_contra h
        exact hattributed (by simpa using ⟨f, hf, h⟩)

/-- The conjunction of the final formulas requires the hard constraints and the goal, if nothing is
soft. -/
theorem isCombined_conjunction (carrier : SortExpr → α → Prop) (skolems : SkolemMap)
    (hhard : ∀ f ∈ FinalFormula.ofProblem constraints goal satisfiability, f.soft = false) :
    IsCombined carrier constraints goal satisfiability
      (.underUniversals (Literal.conjunction skolems
        ((FinalFormula.ofProblem constraints goal satisfiability).map FinalFormula.literal)))
      (Literal.conjunction skolems
        ((FinalFormula.ofProblem constraints goal satisfiability).map FinalFormula.literal)) where
  lines := fun _ => rfl
  holds := by
    intro τ
    have hliteral : ∀ f ∈ FinalFormula.ofProblem constraints goal satisfiability,
        (f.literal.HoldsAt (Valuation.ofTruth τ : Valuation α) ↔
          (f.soft = false → (f.term skolems).HoldsAt carrier τ)) := fun f hf => by
      rw [Term.HoldsAt, FinalFormula.eval_term,
        Literal.eval_term_iff (skolems.isTruthValue_ofTruth carrier τ _)]
      simp [hhard f hf]
    rw [Term.HoldsAt, Literal.eval_conjunction_iff fun l _ =>
      skolems.isTruthValue_ofTruth carrier τ l.node, List.forall_mem_map,
      ← FinalFormula.forall_holdsAt_term_iff skolems]
    exact forall₂_congr hliteral

/-- The final assertions of any constraints and any goal are exact. Without universals there always
are some, and they are separate. With universals it is a mistake if a constraint is misplaced there,
and otherwise there is a single assertion. -/
theorem ofFormulas_exact (carrier : SortExpr → α → Prop) (skolems : SkolemMap)
    (universals : List Node) (constraints : List Constraint) (goal : Node)
    (satisfiability : Bool) :
    let result := ofFormulas skolems universals
      (FinalFormula.ofProblem constraints goal satisfiability)
    (universals = [] → ∃ commands, result = .ok (.separate commands) ∧
        IsSeparated carrier skolems constraints goal satisfiability commands) ∧
      (universals ≠ [] →
        ((∃ failure, result = .error failure ∧ failure.category = .mistake) ↔
            ∃ c ∈ constraints, c.IsMisplaced) ∧
          ((¬∃ c ∈ constraints, c.IsMisplaced) → ∃ conclusion formula, result = .ok conclusion ∧
            IsCombined carrier constraints goal satisfiability conclusion formula)) := by
  intro result
  have hmisplaced := @FinalFormula.exists_mem_ofProblem_iff constraints goal satisfiability
  refine ⟨fun huniversals => ?_, fun huniversals => ?_⟩
  · refine ⟨_, ?_, isSeparated_commands carrier skolems constraints goal satisfiability⟩
    exact if_pos (by simpa using huniversals)
  · have hresult : result = (FinalFormula.conjoined skolems universals
        (FinalFormula.ofProblem constraints goal satisfiability)).map .underUniversals :=
      if_neg (by simpa using huniversals)
    -- Under universal quantifiers there is one formula, with no place for soft constraints or
    -- attributes.
    rcases conjoined_cases skolems universals
        (FinalFormula.ofProblem constraints goal satisfiability) with
      ⟨hexists, failure, hfailure, hcategory⟩ | ⟨hplain, hformula⟩
    · rw [hfailure] at hresult
      exact ⟨iff_of_true ⟨failure, hresult, hcategory⟩ (hmisplaced.mp hexists),
        fun h => absurd (hmisplaced.mp hexists) h⟩
    · have hnone : ¬∃ c ∈ constraints, c.IsMisplaced := by
        intro h
        obtain ⟨f, hf, hsoft | hattributes⟩ := hmisplaced.mpr h
        · simp [(hplain f hf).1] at hsoft
        · exact hattributes (hplain f hf).2
      rw [hformula] at hresult
      refine ⟨iff_of_false ?_ hnone, fun _ => ⟨_, _, hresult,
        isCombined_conjunction carrier skolems fun f hf => (hplain f hf).1⟩⟩
      rintro ⟨failure, hfailure, -⟩
      cases hresult.symm.trans hfailure

end Conclusion

end SolverScript
