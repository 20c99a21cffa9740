import Mathlib.Algebra.Field.Rat
import Mathlib.Algebra.Order.Field.Basic
import Mathlib.Algebra.Order.Ring.Rat
import Mathlib.Tactic.NormNum
import SolverScript.Encoding.Operation
import SolverScript.Proofs.Script.RationalDefinitions

/-!
# Operations on rationals

A rational is a pair of integers with a positive denominator, not necessarily in lowest terms. The
operators on rationals become functions that a script defines; where their definitions hold, the
term of an operation denotes the result of the operation on rational numbers, and a rational result
has a positive denominator again.

## Main definitions

* `IsFraction` - the pairs of integers that stand for a rational number
* `Datum.Represents` - the values that stand for a truth value or a rational number
* `Operator.onRationals?` - what an operator means for rational numbers

## Main results

* `RationalFunction.exists_represents` - the functions compute in the rational numbers
* `Scope.eval_rational` - the term of an operation on rationals denotes its result
-/

namespace SolverScript

/-! ### Fractions -/

/-- Whether a pair of integers with a positive denominator stands for a rational number. -/
def IsFraction (p : Int × Int) (q : ℚ) : Prop := 0 < p.2 ∧ q = p.1 / p.2

namespace IsFraction

variable {m n : Int × Int} {p q : ℚ}

theorem cast_pos (hp : IsFraction m p) : 0 < (m.2 : ℚ) := Int.cast_pos.mpr hp.1

theorem add (hp : IsFraction m p) (hq : IsFraction n q) :
    IsFraction (m.1 * n.2 + m.2 * n.1, m.2 * n.2) (p + q) := by
  refine ⟨Int.mul_pos hp.1 hq.1, ?_⟩
  rw [hp.2, hq.2, div_add_div _ _ hp.cast_pos.ne' hq.cast_pos.ne']
  push_cast
  rfl

theorem sub (hp : IsFraction m p) (hq : IsFraction n q) :
    IsFraction (m.1 * n.2 - m.2 * n.1, m.2 * n.2) (p - q) := by
  refine ⟨Int.mul_pos hp.1 hq.1, ?_⟩
  rw [hp.2, hq.2, div_sub_div _ _ hp.cast_pos.ne' hq.cast_pos.ne']
  push_cast
  rfl

theorem mul (hp : IsFraction m p) (hq : IsFraction n q) :
    IsFraction (m.1 * n.1, m.2 * n.2) (p * q) := by
  refine ⟨Int.mul_pos hp.1 hq.1, ?_⟩
  rw [hp.2, hq.2, div_mul_div_comm]
  push_cast
  rfl

theorem neg (hp : IsFraction m p) : IsFraction (-1 * m.1, m.2) (-p) := by
  refine ⟨hp.1, ?_⟩
  rw [hp.2, ← neg_div, Int.neg_one_mul]
  push_cast
  rfl

theorem abs (hp : IsFraction m p) : IsFraction (m.1.natAbs, m.2) |p| := by
  refine ⟨hp.1, ?_⟩
  rw [hp.2, abs_div, abs_of_pos hp.cast_pos, Int.natCast_natAbs, Int.cast_abs]

/-- The denominators may be multiplied crosswise, since they are positive. -/
theorem eq_iff (hp : IsFraction m p) (hq : IsFraction n q) :
    p = q ↔ m.1 * n.2 = m.2 * n.1 := by
  rw [hp.2, hq.2, div_eq_div_iff hp.cast_pos.ne' hq.cast_pos.ne', Int.mul_comm m.2]
  exact_mod_cast Iff.rfl

theorem lt_iff (hp : IsFraction m p) (hq : IsFraction n q) :
    p < q ↔ m.1 * n.2 < m.2 * n.1 := by
  rw [hp.2, hq.2, div_lt_div_iff₀ hp.cast_pos hq.cast_pos, Int.mul_comm m.2]
  exact_mod_cast Iff.rfl

theorem le_iff (hp : IsFraction m p) (hq : IsFraction n q) :
    p ≤ q ↔ m.1 * n.2 ≤ m.2 * n.1 := by
  rw [hp.2, hq.2, div_le_div_iff₀ hp.cast_pos hq.cast_pos, Int.mul_comm m.2]
  exact_mod_cast Iff.rfl

end IsFraction

/-- The truth values and rational numbers that values stand for. -/
inductive Datum.Represents {C : SortExpr → Type} : Datum C → Bool ⊕ ℚ → Prop
  | truth (b : Bool) : Represents (.ofBool b) (.inl b)
  | fraction {m : Int × Int} {p : ℚ} (h : IsFraction m p) : Represents ⟨.rational, m⟩ (.inr p)

/-! ### Functions on rational numbers -/

namespace RationalFunction

/-- What a function of one parameter means for a rational number. -/
def onRational? (f : RationalFunction) (p : ℚ) : Option (Bool ⊕ ℚ) :=
  match f with
  | uneg => some (.inr (-p))
  | abs => some (.inr |p|)
  | _ => none

/-- What a function of two parameters means for rational numbers. -/
def onTwoRationals? (f : RationalFunction) (p q : ℚ) : Option (Bool ⊕ ℚ) :=
  match f with
  | eq => some (.inl (decide (p = q)))
  | notEq => some (.inl (decide (p ≠ q)))
  | lt => some (.inl (decide (p < q)))
  | leq => some (.inl (decide (p ≤ q)))
  | plus => some (.inr (p + q))
  | minus => some (.inr (p - q))
  | times => some (.inr (p * q))
  | uneg | abs => none

/-- What a function means for rational numbers. -/
def onRationals? (f : RationalFunction) : List ℚ → Option (Bool ⊕ ℚ)
  | [p] => f.onRational? p
  | [p, q] => f.onTwoRationals? p q
  | _ => none

variable {C : SortExpr → Type} {f : RationalFunction} {r : Bool ⊕ ℚ}

theorem exists_represents_one {m : Int × Int} {p : ℚ} (hp : IsFraction m p)
    (h : f.onRational? p = some r) :
    ∃ a : Datum C, f.onPairs? [m] = some a ∧ a.Represents r := by
  cases f with
  | uneg =>
    cases h
    exact ⟨_, rfl, .fraction hp.neg⟩
  | abs =>
    cases h
    exact ⟨_, rfl, .fraction hp.abs⟩
  | _ => cases h

theorem exists_represents_two {m n : Int × Int} {p q : ℚ} (hp : IsFraction m p)
    (hq : IsFraction n q) (h : f.onTwoRationals? p q = some r) :
    ∃ a : Datum C, f.onPairs? [m, n] = some a ∧ a.Represents r := by
  cases f with
  | uneg | abs => cases h
  | eq =>
    cases h
    rw [decide_eq_decide.mpr (hp.eq_iff hq)]
    exact ⟨_, rfl, .truth _⟩
  | notEq =>
    cases h
    rw [decide_not, decide_eq_decide.mpr (hp.eq_iff hq)]
    exact ⟨_, rfl, .truth _⟩
  | lt =>
    cases h
    rw [decide_eq_decide.mpr (hp.lt_iff hq)]
    exact ⟨_, rfl, .truth _⟩
  | leq =>
    cases h
    rw [decide_eq_decide.mpr (hp.le_iff hq)]
    exact ⟨_, rfl, .truth _⟩
  | plus =>
    cases h
    exact ⟨_, rfl, .fraction (hp.add hq)⟩
  | minus =>
    cases h
    exact ⟨_, rfl, .fraction (hp.sub hq)⟩
  | times =>
    cases h
    exact ⟨_, rfl, .fraction (hp.mul hq)⟩

/-- The functions compute in the rational numbers. -/
theorem exists_represents {ms : List (Int × Int)} {ps : List ℚ}
    (hps : List.Forall₂ IsFraction ms ps) (h : f.onRationals? ps = some r) :
    ∃ a : Datum C, f.onPairs? ms = some a ∧ a.Represents r := by
  rcases hps with _ | ⟨hp, _ | ⟨hq, _ | _⟩⟩
  · cases h
  · exact exists_represents_one hp h
  · exact exists_represents_two hp hq h
  · cases h

end RationalFunction

/-! ### Operators on rational numbers -/

namespace Operator

/-- What an operator with one operand means for a rational number. -/
def onRational? (op : Operator) (p : ℚ) : Option (Bool ⊕ ℚ) :=
  match op with
  | .uneg => some (.inr (-p))
  | .abs => some (.inr |p|)
  | _ => none

/-- What an operator with two operands means for rational numbers. -/
def onTwoRationals? (op : Operator) (p q : ℚ) : Option (Bool ⊕ ℚ) :=
  match op with
  | .plus => some (.inr (p + q))
  | .minus => some (.inr (p - q))
  | .times => some (.inr (p * q))
  | .equal => some (.inl (decide (p = q)))
  | .notEqual => some (.inl (decide (p ≠ q)))
  | .lessThan => some (.inl (decide (p < q)))
  | .greaterThan => some (.inl (decide (p > q)))
  | .lessEq => some (.inl (decide (p ≤ q)))
  | .greaterEq => some (.inl (decide (p ≥ q)))
  | _ => none

/-- What an operator means for rational numbers. -/
def onRationals? (op : Operator) : List ℚ → Option (Bool ⊕ ℚ)
  | [p] => op.onRational? p
  | [p, q] => op.onTwoRationals? p q
  | _ => none

end Operator

/-- An operator on rationals becomes a function, which may take the operands in the opposite
order. -/
theorem Arithmetic.exists_rational? {R : Term → ℚ → Prop} {op : Operator} {ts : List Term}
    {ps : List ℚ} {r : Bool ⊕ ℚ} (hts : List.Forall₂ R ts ps) (h : op.onRationals? ps = some r) :
    ∃ (f : RationalFunction) (us : List Term) (qs : List ℚ),
      rational? op ts = some (.ok (.app (.symbol f.symbol) us)) ∧ List.Forall₂ R us qs ∧
        f.onRationals? qs = some r := by
  rcases hts with _ | ⟨hp, _ | ⟨hq, _ | _⟩⟩
  · cases h
  · cases op with
    | uneg | abs => exact ⟨_, _, _, rfl, .cons hp .nil, h⟩
    | _ => cases h
  · cases op with
    | plus | minus | times | equal | notEqual | lessThan | lessEq =>
      exact ⟨_, _, _, rfl, .cons hp (.cons hq .nil), h⟩
    | greaterThan | greaterEq => exact ⟨_, _, _, rfl, .cons hq (.cons hp .nil), h⟩
    | _ => cases h
  · cases h

/-- The profile of operands that are rationals. -/
theorem OperandProfile.ofNodes_rational {ns : List Node} (hne : ns ≠ [])
    (hkinds : ∀ n ∈ ns, n.kind = .rational) :
    ofNodes ns =
      { allBounded := false
        allBool := false
        anyUnbounded := false
        anyRational := true
        anyReal := false
        anyFloating := false
        anyChar := false
        anyString := false
        anyList := false
        anySigned := true } := by
  have hreplicate : ns.map Node.kind = List.replicate ns.length .rational :=
    List.eq_replicate_iff.mpr ⟨List.length_map _, List.forall_mem_map.mpr hkinds⟩
  simp [ofNodes, hreplicate, hne, Kind.isBounded, Kind.isBool, Kind.isUnbounded, Kind.isRational,
    Kind.isReal, Kind.isFloating, Kind.floatFormat?, Kind.isChar, Kind.isString, Kind.isList,
    Kind.isSigned]

/-- Whether a term denotes a fraction that stands for a rational number. -/
def Term.DenotesFraction (S : OpenSorts) (J : Interpretation (Datum S.Carrier)) (t : Term)
    (p : ℚ) : Prop :=
  ∃ m, IsFraction m p ∧ t.eval S.theory J = some (RationalFunction.ofPair m)

variable {S : OpenSorts} {J : Interpretation (Datum S.Carrier)}

theorem Term.exists_fractions {ts : List Term} {ps : List ℚ}
    (h : List.Forall₂ (DenotesFraction S J) ts ps) :
    ∃ ms, List.Forall₂ IsFraction ms ps ∧
      evalAll S.theory J ts = some (ms.map RationalFunction.ofPair) := by
  induction h with
  | nil => exact ⟨[], .nil, rfl⟩
  | cons hhead _ ih =>
    obtain ⟨m, hm, ht⟩ := hhead
    obtain ⟨ms, hms, hts⟩ := ih
    refine ⟨m :: ms, .cons hm hms, ?_⟩
    rw [evalAll, ht, hts]
    rfl

namespace Scope

variable {scope : Scope} {op : Operator} {ns : List Node}

/-- Operations on rationals are encoded as such. -/
theorem term_of_rational (hne : ns ≠ []) (hkinds : ∀ n ∈ ns, n.kind = .rational)
    {result : Except Failure Term}
    (h : Arithmetic.rational? op (scope.nodeTerms ns) = some result) :
    scope.term ⟨op, ns⟩ = result := by
  have hgeneric : scope.generic ⟨op, ns⟩ = result := by
    simp [generic, OperandProfile.ofNodes_rational hne hkinds, onlyIf, h]
  cases op with
  | plus | minus | times | uneg | abs | equal | notEqual | lessThan | greaterThan | lessEq
  | greaterEq => exact hgeneric
  | _ => cases h

/-- The term of an operation on rationals denotes the result of the operation on rational numbers,
where the definitions hold that a script contains. A rational result has a positive denominator. -/
theorem eval_rational
    (hopen : ∀ f : RationalFunction, ∀ x ∈ f.parameters, S.theory.function (.symbol x) [] = none)
    (hdefinitions : ∀ d ∈ readDefinitions (joined "\n" Datatype.rationals), d.HoldsIn S.theory J)
    (hkinds : ∀ n ∈ ns, n.kind = .rational) {ps : List ℚ}
    (hoperands : List.Forall₂ (Term.DenotesFraction S J) (scope.nodeTerms ns) ps)
    {r : Bool ⊕ ℚ} (hresult : op.onRationals? ps = some r) :
    ∃ (t : Term) (a : Datum S.Carrier), scope.term ⟨op, ns⟩ = .ok t ∧
      t.eval S.theory J = some a.element ∧ a.Represents r := by
  have hne : ns ≠ [] := by
    rintro rfl
    cases hoperands
    cases hresult
  obtain ⟨f, us, qs, hterm, hus, hqs⟩ := Arithmetic.exists_rational? hoperands hresult
  have hcomputes := RationalFunction.computes_of_definitions hopen hdefinitions f
  obtain ⟨ms, hms, hvalues⟩ := Term.exists_fractions hus
  obtain ⟨a, ha, hrepresents⟩ := RationalFunction.exists_represents (C := S.Carrier) hms hqs
  refine ⟨_, a, term_of_rational hne hkinds hterm, ?_, hrepresents⟩
  rw [Term.eval_app_of_evalAll hvalues]
  exact hcomputes ms a ha

/-- One half for the first node, and two sixths for the others. -/
def halfAndSixths : Interpretation (Datum OpenSorts.decimals.Carrier) :=
  RationalFunction.model fun name =>
    (RationalFunction.ofPair (if name = nodeName 1 then (1, 2) else (2, 6))).constant

/-- One half is greater than two sixths. -/
theorem eval_rational_greaterThan_half :
    ∃ (t : Term) (a : Datum OpenSorts.decimals.Carrier),
      ({} : Scope).term ⟨.greaterThan, [⟨1, .rational⟩, ⟨2, .rational⟩]⟩ = .ok t ∧
        t.eval OpenSorts.decimals.theory halfAndSixths = some a.element ∧
          a.Represents (.inl true) := by
  -- The theory has no functions of these names, so the interpretation decides.
  have hopen : ∀ x ∈ ["x", "y", nodeName 1, nodeName 2],
      OpenSorts.decimals.theory.function (.symbol x) [] = none := by
    intro x hx
    simp only [List.mem_cons, List.not_mem_nil, or_false] at hx
    rcases hx with rfl | rfl | rfl | rfl <;>
      · rw [OpenSorts.function_theory]
        split <;> rfl
  have hparameters (f : RationalFunction) : ∀ x ∈ f.parameters,
      OpenSorts.decimals.theory.function (.symbol x) [] = none := fun x hx =>
    hopen x (List.mem_append_left [nodeName 1, nodeName 2] (f.parameters_subset hx))
  have hfree (f : RationalFunction) (es : List (Element (Datum OpenSorts.decimals.Carrier))) :
      OpenSorts.decimals.theory.function (.symbol f.symbol) es = none := by
    rw [OpenSorts.function_theory, Theory.standard_symbol, f.lookup_symbol, if_neg f.not_isDataHead]
    rfl
  have hhalf : Term.DenotesFraction OpenSorts.decimals halfAndSixths (.node 1) (1 / 2) :=
    ⟨(1, 2), ⟨by decide, by norm_num⟩, congrArg (Option.or · _) (hopen (nodeName 1) (by simp))⟩
  have hsixths : Term.DenotesFraction OpenSorts.decimals halfAndSixths (.node 2) (2 / 6) :=
    ⟨(2, 6), ⟨by decide, by norm_num⟩, congrArg (Option.or · _) (hopen (nodeName 2) (by simp))⟩
  have hoperands : List.Forall₂ (Term.DenotesFraction OpenSorts.decimals halfAndSixths)
      (({} : Scope).nodeTerms [⟨1, .rational⟩, ⟨2, .rational⟩]) [1 / 2, 2 / 6] :=
    .cons hhalf (.cons hsixths .nil)
  have hless : (1 / 2 : ℚ) > 2 / 6 := by norm_num
  exact eval_rational hparameters (RationalFunction.holdsIn_model hparameters hfree _) (by simp)
    hoperands (congrArg (fun b => some (Sum.inl b)) (decide_eq_true hless))

end Scope

end SolverScript
