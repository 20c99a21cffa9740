import SolverScript.Proofs.Script.Definitions

/-!
# Final formulas

What the final assertions of a script say about the elements of nodes. Constraints that are always
true may be left out, and a conjunction may be sorted and rid of repetitions, because a literal
holds or fails by the identity of its node.

## Main results

* `FinalFormula.forall_holdsAt_iff` - the hard final formulas are the constraints and the goal
* `FinalFormula.runs_commands_iff` - the final assertions without universals
* `Literal.eval_conjunction_iff` - the conjunction under universals
-/

namespace SolverScript

variable {α : Type} {carrier : SortExpr → α → Prop} {skolems : SkolemMap} {I : Interpretation α}
  {ν : Valuation α}

namespace Valuation

theorem at_of_isTrue {n : Node} (h : n.isTrue = true) : ν.at n = some (.bool true) := by
  simp [Valuation.at, h]

theorem at_of_isFalse {n : Node} (h : n.isFalse = true) : ν.at n = some (.bool false) := by
  have hid : n.id = -2 := beq_iff_eq.mp h
  simp [Valuation.at, Node.isTrue, Node.isFalse, hid]

/-- The element of a node depends on its identity only. -/
theorem at_congr {n m : Node} (h : n.id = m.id) : ν.at n = ν.at m := by
  unfold Valuation.at Node.isTrue Node.isFalse
  rw [h]

end Valuation

/-- Whether the term of a node denotes a truth value, the one that a valuation gives to the node. -/
def SkolemMap.IsTruthValue (skolems : SkolemMap) (carrier : SortExpr → α → Prop)
    (I : Interpretation α) (ν : Valuation α) (n : Node) : Prop :=
  ∃ b, ν.at n = some (.bool b) ∧ (skolems.nodeTerm n).eval (.standard carrier) I = some (.bool b)

/-- A realized node of truth values has one. -/
theorem Scope.Realizes.isTruthValue {scope : Scope} {known : List Node}
    (h : scope.Realizes (.standard carrier) I ν known) {n : Node} (hn : n ∈ known)
    (hkind : n.kind = .bool) : scope.skolems.IsTruthValue carrier I ν n := by
  obtain ⟨e, hvalue, hofKind, heval⟩ := h n hn
  rw [hkind] at hofKind
  cases hofKind with
  | bool b => exact ⟨b, hvalue, heval⟩

namespace Literal

/-- Whether a literal holds at a valuation. -/
def HoldsAt (l : Literal) (ν : Valuation α) : Prop := ν.Holds l.negated l.node

/-- A node that is required to hold or to fail is replaced by a literal that does not change what is
required. -/
theorem forall_ofNode?_iff {negated : Bool} {n : Node} :
    (∀ l ∈ ofNode? negated n, l.HoldsAt ν) ↔ ν.Holds negated n := by
  have hfalse : ν.at (Node.ofBool false) = some (.bool false) := Valuation.at_of_isFalse rfl
  cases negated with
  | false =>
    simp only [ofNode?, positive?, Bool.false_eq_true, if_false]
    split
    · next h => simp [Valuation.Holds, Valuation.at_of_isTrue h]
    · split
      · next h => simp [HoldsAt, hfalse, Valuation.Holds, Valuation.at_of_isFalse h]
      · simp [HoldsAt]
  | true =>
    simp only [ofNode?, negative?, if_true]
    split
    · next h => simp [Valuation.Holds, Valuation.at_of_isFalse h]
    · split
      · next h => simp [HoldsAt, hfalse, Valuation.Holds, Valuation.at_of_isTrue h]
      · simp [HoldsAt]

/-- The node of a literal is the given one or a truth value. -/
theorem node_of_ofNode? {negated : Bool} {n : Node} {l : Literal} (h : l ∈ ofNode? negated n) :
    l.node = n ∨ l.node = Node.ofBool false := by
  unfold ofNode? positive? negative? at h
  split at h <;> split at h
  · cases h
  · split at h <;> cases h <;> simp
  · cases h
  · split at h <;> cases h <;> simp

/-- The term of a literal about a truth value says whether the literal holds. -/
theorem exists_eval_term {l : Literal} (hl : skolems.IsTruthValue carrier I ν l.node) :
    ∃ b, (l.term skolems).eval (.standard carrier) I = some (.bool b) ∧
      (b = true ↔ l.HoldsAt ν) := by
  obtain ⟨b, hvalue, heval⟩ := hl
  unfold Literal.term HoldsAt Valuation.Holds
  rw [hvalue]
  split
  · next hnegated =>
    exact ⟨!b, Term.eval_negation heval, by simp [hnegated]⟩
  · next hnegated => exact ⟨b, heval, by simp [hnegated]⟩

theorem eval_term_iff {l : Literal} (hl : skolems.IsTruthValue carrier I ν l.node) :
    (l.term skolems).eval (.standard carrier) I = some (.bool true) ↔ l.HoldsAt ν := by
  obtain ⟨b, heval, hb⟩ := exists_eval_term hl
  simp [heval, ← hb]

/-! ### Conjunctions -/

/-- Literals that are the same up to order hold together. -/
theorem holdsAt_congr {l m : Literal} (h : l.cmp m = .eq) : l.HoldsAt ν ↔ m.HoldsAt ν := by
  obtain ⟨hnegated, hid⟩ := Ordering.then_eq_eq.mp h
  have hid' : l.node.id = m.node.id := Std.LawfulEqOrd.eq_of_compare hid
  have hnegated' : l.negated = m.negated := Std.LawfulEqOrd.eq_of_compare hnegated
  rw [HoldsAt, HoldsAt, Valuation.Holds, Valuation.Holds, hnegated', Valuation.at_congr hid']

/-- Placing a literal into a list adds what it requires, and nothing else. -/
theorem forall_place_iff {l : Literal} {ls : List Literal} :
    (∀ m ∈ place l ls, m.HoldsAt ν) ↔ l.HoldsAt ν ∧ ∀ m ∈ ls, m.HoldsAt ν := by
  -- An equal literal may be another one with the same identity, so it is dropped by what it says.
  induction ls with
  | nil => simp [place]
  | cons m ms ih =>
    unfold place
    cases h : l.cmp m with
    | lt => simp
    | eq =>
      simp only [List.forall_mem_cons, holdsAt_congr h]
      tauto
    | gt =>
      simp only [List.forall_mem_cons, ih]
      tauto

theorem mem_of_mem_place {l m : Literal} {ls : List Literal} (h : m ∈ place l ls) :
    m = l ∨ m ∈ ls := by
  induction ls with
  | nil => simpa [place] using h
  | cons k ks ih =>
    unfold place at h
    split at h
    · simpa using h
    · exact .inr h
    · rcases List.mem_cons.mp h with rfl | h
      · exact .inr List.mem_cons_self
      · rcases ih h with rfl | h
        · exact .inl rfl
        · exact .inr (List.mem_cons_of_mem k h)

theorem forall_foldr_place_iff {ls : List Literal} :
    (∀ m ∈ ls.foldr place [], m.HoldsAt ν) ↔ ∀ m ∈ ls, m.HoldsAt ν := by
  induction ls with
  | nil => rfl
  | cons l ls ih => simp only [List.foldr_cons, forall_place_iff, ih, List.forall_mem_cons]

theorem mem_of_mem_foldr_place {m : Literal} {ls : List Literal} (h : m ∈ ls.foldr place []) :
    m ∈ ls := by
  induction ls with
  | nil => exact h
  | cons l ls ih =>
    rcases mem_of_mem_place h with rfl | h
    · exact List.mem_cons_self
    · exact List.mem_cons_of_mem l (ih h)

theorem holdsAt_of_isTrivial {l : Literal} (h : l.isTrivial = true) : l.HoldsAt ν := by
  unfold isTrivial at h
  split at h
  · next hnegated => simp [HoldsAt, Valuation.Holds, hnegated, Valuation.at_of_isFalse h]
  · next hnegated => simp [HoldsAt, Valuation.Holds, hnegated, Valuation.at_of_isTrue h]

theorem not_holdsAt_of_isContradiction {l : Literal} (h : l.isContradiction = true) :
    ¬l.HoldsAt ν := by
  unfold isContradiction at h
  split at h
  · next hnegated => simp [HoldsAt, Valuation.Holds, hnegated, Valuation.at_of_isTrue h]
  · next hnegated => simp [HoldsAt, Valuation.Holds, hnegated, Valuation.at_of_isFalse h]

/-- The application of the connective to the terms of some literals, at least two of them. -/
private theorem eval_and_iff {ls : List Literal}
    (hls : ∀ l ∈ ls, skolems.IsTruthValue carrier I ν l.node) (hlength : 2 ≤ ls.length) :
    (Term.app (.symbol "and") (ls.map (term skolems))).eval (.standard carrier) I =
      some (.bool true) ↔ ∀ l ∈ ls, l.HoldsAt ν := by
  have hbs : ∃ bs : List Bool, Term.evalAll (.standard carrier) I
        (ls.map (term skolems)) = some (bs.map Element.bool) ∧
      bs.length = ls.length ∧ (bs.all id = true ↔ ∀ l ∈ ls, l.HoldsAt ν) := by
    clear hlength
    induction ls with
    | nil => exact ⟨[], rfl, rfl, by simp⟩
    | cons l ls ih =>
      obtain ⟨hl, hls⟩ := List.forall_mem_cons.mp hls
      obtain ⟨b, heval, hb⟩ := exists_eval_term hl
      obtain ⟨bs, hbs, hlength, hall⟩ := ih hls
      refine ⟨b :: bs, ?_, by simp [hlength], by simp [← hall, ← hb]⟩
      simp [Term.evalAll, heval, hbs]
  obtain ⟨bs, hevalAll, hbslength, hall⟩ := hbs
  have hvalue := Element.Function.connective_bools (α := α) (f := fun bs => bs.all id)
    (hbslength ▸ hlength)
  rw [Term.eval_app_symbol rfl hevalAll hvalue, Option.some.injEq, Element.bool.injEq, hall]

/-- A conjunction of literals holds when all of them do. -/
theorem eval_conjunction_iff {ls : List Literal}
    (hls : ∀ l ∈ ls, skolems.IsTruthValue carrier I ν l.node) :
    (conjunction skolems ls).eval (.standard carrier) I = some (.bool true) ↔
      ∀ l ∈ ls, l.HoldsAt ν := by
  unfold conjunction
  generalize hplaced : (ls.foldr place []).filter (fun l => !l.isTrivial) = placed
  have hmem : ∀ l ∈ placed, skolems.IsTruthValue carrier I ν l.node := by
    intro l hl
    rw [← hplaced] at hl
    exact hls l (mem_of_mem_foldr_place (List.mem_filter.mp hl).1)
  have hall : (∀ l ∈ placed, l.HoldsAt ν) ↔ ∀ l ∈ ls, l.HoldsAt ν := by
    rw [← hplaced]
    -- Trivial literals hold anyway, and sorting keeps what is required.
    refine Iff.trans ⟨fun hholds l hl => ?_, fun hholds l hl => ?_⟩ forall_foldr_place_iff
    · by_cases htrivial : l.isTrivial = true
      · exact holdsAt_of_isTrivial htrivial
      · exact hholds l (List.mem_filter.mpr ⟨hl, by simpa using htrivial⟩)
    · exact hholds l (List.mem_filter.mp hl).1
  rw [← hall]
  match placed with
  | [] => simp [Term.eval_ofBool]
  | [l] => simpa using eval_term_iff (hmem l (by simp))
  | l :: m :: rest =>
    dsimp only
    split
    -- A contradiction is written as false without the other literals.
    · next hcontradiction =>
      obtain ⟨k, hk, hk'⟩ := List.any_eq_true.mp hcontradiction
      have hfalse : ¬∀ l' ∈ l :: m :: rest, l'.HoldsAt ν :=
        fun hholds => not_holdsAt_of_isContradiction hk' (hholds k hk)
      simp only [Term.eval_ofBool, hfalse]
      simp
    · exact eval_and_iff hmem (by simp)

end Literal

/-! ### Final formulas -/

namespace FinalFormula

variable {constraints : List Constraint} {goal : Node} {satisfiability : Bool}

/-- The hard final formulas hold when the constraints and the goal are as they are required. -/
theorem forall_holdsAt_iff {p : Problem} :
    (∀ f ∈ ofProblem p.constraints p.goal p.satisfiability, f.soft = false → f.literal.HoldsAt ν) ↔
      p.HoldsAt ν := by
  have hconstraints :
      (∀ f ∈ p.constraints.filterMap ofConstraint?, f.soft = false → f.literal.HoldsAt ν) ↔
        ∀ c ∈ p.constraints, c.soft = false → ν.Holds c.negated c.literal := by
    simp only [← Literal.forall_ofNode?_iff]
    constructor
    · intro h c hc hsoft l hl
      have hf : ofConstraint? c = some ⟨l, c.soft, c.attributes⟩ := by
        rw [ofConstraint?, Option.mem_def.mp hl, Option.map_some]
      exact h _ (List.mem_filterMap.mpr ⟨c, hc, hf⟩) hsoft
    · intro h f hf hsoft
      obtain ⟨c, hc, hcf⟩ := List.mem_filterMap.mp hf
      obtain ⟨l, hl, rfl⟩ := Option.map_eq_some_iff.mp hcf
      exact h c hc hsoft l hl
  have hgoal : (∀ f ∈ ((Literal.ofNode? (!p.satisfiability) p.goal).map fun l =>
        FinalFormula.mk l false []).toList, f.soft = false → f.literal.HoldsAt ν) ↔
      ν.Holds (!p.satisfiability) p.goal := by
    rw [← Literal.forall_ofNode?_iff]
    cases Literal.ofNode? (!p.satisfiability) p.goal <;> simp
  unfold Problem.HoldsAt ofProblem
  rw [List.forall_mem_append, hconstraints, hgoal]

/-- A final formula is about a constraint, the goal or a truth value. -/
theorem node_of_mem_ofProblem {f : FinalFormula}
    (hf : f ∈ ofProblem constraints goal satisfiability) :
    (∃ c ∈ constraints, c.soft = f.soft ∧ f.literal.node = c.literal) ∨ f.literal.node = goal ∨
      f.literal.node = Node.ofBool false := by
  rcases List.mem_append.mp hf with hf | hf
  · obtain ⟨c, hc, hcf⟩ := List.mem_filterMap.mp hf
    obtain ⟨l, hl, rfl⟩ := Option.map_eq_some_iff.mp hcf
    rcases Literal.node_of_ofNode? hl with hnode | hnode
    · exact .inl ⟨c, hc, rfl, hnode⟩
    · exact .inr (.inr hnode)
  · obtain ⟨l, hl, rfl⟩ := Option.map_eq_some_iff.mp (Option.mem_toList.mp hf)
    exact .inr (Literal.node_of_ofNode? hl)

theorem isRequirement_of_mem_commands {formulas : List FinalFormula} :
    ∀ c ∈ commands skolems formulas, c.IsRequirement := by
  intro c hc
  rcases List.mem_append.mp hc with hc | hc <;> obtain ⟨f, -, rfl⟩ := List.mem_map.mp hc <;>
    exact trivial

/-- Attributes do not change what a formula says. -/
theorem eval_term (f : FinalFormula) : (f.term skolems).eval (.standard carrier) I =
    (f.literal.term skolems).eval (.standard carrier) I :=
  Term.eval_withAttributes _ _

/-- The assertions without universals hold when the hard formulas do; they change nothing. -/
theorem runs_commands_iff {formulas : List FinalFormula}
    (hknown : ∀ f ∈ formulas, f.soft = false →
      skolems.IsTruthValue carrier I ν f.literal.node) {J : Interpretation α} :
    Script.Runs (.standard carrier) (commands skolems formulas) I J ↔
      (∀ f ∈ formulas, f.soft = false → f.literal.HoldsAt ν) ∧ J = I := by
  rw [Script.runs_iff_of_requirements isRequirement_of_mem_commands, and_congr_left_iff]
  intro _
  -- Soft formulas are suggestions to the solver and require nothing.
  simp only [commands, List.forall_mem_append, List.forall_mem_map, List.mem_filter,
    Command.required, List.forall_mem_cons, List.not_mem_nil, Bool.not_eq_true', eval_term]
  constructor
  · rintro ⟨hhard, -⟩ f hf hsoft
    exact (Literal.eval_term_iff (hknown f hf hsoft)).mp (hhard f ⟨hf, hsoft⟩).1
  · intro hholds
    refine ⟨fun f hf => ?_, by simp⟩
    exact ⟨(Literal.eval_term_iff (hknown f hf.1 hf.2)).mpr (hholds f hf.1 hf.2), by simp⟩

end FinalFormula

end SolverScript
