import SolverScript.Proofs.Kind.Set
import SolverScript.Proofs.Results
import SolverScript.Script.OfProblem

/-!
# What a chosen logic covers

The name of a logic says what a solver has to be prepared for: `QF_` that no formula has quantifiers,
`A` that there are arrays, `UF` that there are functions without interpretation, `BV` and `FP` that
there are bit-vectors and floats. A logic covers a problem when nothing in the problem is left out by
the name.

The names for bit-vector problems are put together from what the problem has. For floats there are
fixed names, which only look at universal nodes and bit-vectors.

## Main definitions

* `Problem.chooseLogic` - the choice of the logic for a problem
* `Problem.CoveredBy` - the name of a logic leaves nothing of the problem out

## Main results

* `Problem.coveredBy_iff` - when a logic that has been chosen covers the problem
-/

namespace SolverScript

/-- The kind of the rounding modes. -/
def Kind.isRoundingMode (k : Kind) : Bool := k.userSort?.any UserSort.isRoundingMode

namespace Problem

/-- The features of a problem. -/
def features (p : Problem) : Features :=
  Features.detect (KindSet.closure p.kinds) p.assignments p.arrays

/-- The choice of the logic for a problem. -/
def chooseLogic (config : Config) (p : Problem) : Except Failure LogicChoice :=
  (p.logicQuery p.features).choose config

/-- The logic of a script is the one that is chosen for its problem. -/
theorem chooseLogic_of_plan {config : Config} {p : Problem} {plan : Plan}
    (h : p.plan config = .ok plan) : p.chooseLogic config = .ok plan.logic := by
  unfold Problem.plan at h
  obtain ⟨_, -, h⟩ := bind_eq_ok_iff.mp h
  obtain ⟨logic, hlogic, h⟩ := bind_eq_ok_iff.mp h
  obtain ⟨tables, -, h⟩ := bind_eq_ok_iff.mp h
  obtain ⟨arrays, -, h⟩ := bind_eq_ok_iff.mp h
  obtain ⟨conclusion, -, h⟩ := bind_eq_ok_iff.mp h
  cases h
  exact hlogic

/-- Whether a kind with some property occurs anywhere in the kinds of a problem. -/
def HasKind (p : Problem) (property : Kind → Bool) : Prop :=
  ∃ k ∈ p.kinds, k.occurs property

/-- Whether floats or rounding modes occur in the kinds of a problem. -/
def HasFloats (p : Problem) : Prop := p.HasKind Kind.isFloating ∨ p.HasKind Kind.isRoundingMode

/-- The name of a logic leaves nothing out that a problem has. -/
structure CoveredBy (p : Problem) (logic : String) : Prop where
  quantifiers : p.universals ≠ [] ∨ p.postulates ≠ [] → ¬"QF_".toList <+: logic.toList
  arrays : p.arrays ≠ [] → "A".toList <:+: logic.toList
  functions : p.freeSymbols ≠ [] ∨ p.tables ≠ [] → "UF".toList <:+: logic.toList
  bitVectors : p.HasKind Kind.isBounded → "BV".toList <:+: logic.toList
  floats : p.HasFloats → "FP".toList <:+: logic.toList

theorem any_closure_iff {kinds : List Kind} {property : Kind → Bool} :
    (KindSet.closure kinds).toList.any property ↔ ∃ k ∈ kinds, k.occurs property := by
  simp only [List.any_eq_true, KindSet.mem_closure_iff, Kind.occurs]
  constructor
  · rintro ⟨sub, ⟨k, hk, hsub⟩, hproperty⟩
    exact ⟨k, hk, sub, hsub, hproperty⟩
  · rintro ⟨k, hk, sub, hsub, hproperty⟩
    exact ⟨sub, ⟨k, hk, hsub⟩, hproperty⟩

theorem features_bitVectors_iff {p : Problem} :
    p.features.bitVectors ↔ p.HasKind Kind.isBounded :=
  any_closure_iff

theorem features_floats_iff {p : Problem} : p.features.floats ↔ p.HasKind Kind.isFloating :=
  any_closure_iff

theorem features_rounding_iff {p : Problem} :
    p.features.rounding ↔ p.HasKind Kind.isRoundingMode := by
  have hsorts : ∀ kinds : List Kind,
      (kinds.filterMap Kind.userSort?).any UserSort.isRoundingMode =
        kinds.any Kind.isRoundingMode := by
    intro kinds
    rw [List.any_filterMap]
    refine congrArg kinds.any (funext fun k => ?_)
    cases k <;> rfl
  rw [HasKind, ← any_closure_iff, ← hsorts]
  rfl

theorem hasFloats_iff {p : Problem} :
    p.HasFloats ↔ (p.features.floats || p.features.rounding) = true := by
  rw [HasFloats, Bool.or_eq_true, features_floats_iff, features_rounding_iff]

end Problem

namespace LogicQuery

variable {q : LogicQuery}

/-- A narrower name than the one of all theories is chosen for floats without universals or else for
bit-vectors. -/
theorem name_of_choose {config : Config} {name remark reason : String}
    (hrequest : config.requestedLogics = [])
    (hchoice : q.choose config = .ok ⟨.setLogic name remark, reason⟩) (hname : name ≠ "ALL") :
    (q.features.floats || q.features.rounding) ∧ q.hasUniversals = false ∧
        name = (if q.features.bitVectors then "QF_FPBV" else "QF_FP") ∨
      (q.features.floats || q.features.rounding) = false ∧ name = q.bitVectorLogic := by
  have hall : ∀ {remark' reason' : String},
      (⟨.setLogic "ALL" remark', reason'⟩ : LogicChoice) ≠ ⟨.setLogic name remark, reason⟩ := by
    rintro _ _ ⟨⟩
    exact hname rfl
  -- Three of the five choices are the logic of everything.
  rw [choose, hrequest] at hchoice
  simp only at hchoice
  split at hchoice
  · have hbest := Except.ok.inj hchoice
    rw [bestChoice] at hbest
    split at hbest
    · exact absurd hbest hall
    · split_ifs at hbest with hfloats hcontext hsupport
      · cases hbest
        cases huniversals : q.hasUniversals
        · exact .inl ⟨hfloats, rfl, by simp [floatLogic, huniversals]⟩
        · simp [floatLogic, huniversals] at hname
      · exact absurd hbest hall
      · cases hbest
        exact .inr ⟨by simpa using hfloats, rfl⟩
      · exact absurd hbest hall
  · cases hchoice

theorem toList_bitVectorLogic (q : LogicQuery) :
    q.bitVectorLogic.toList =
      (if q.hasUniversals || q.hasPostulates then [] else "QF_".toList) ++
        (if q.hasArrays then "A".toList else []) ++
        (if q.hasFunctions then "UF".toList else []) ++ "BV".toList := by
  simp only [bitVectorLogic, String.toList_append, apply_ite String.toList, String.toList_empty]

theorem not_quantifierFree_bitVectorLogic (h : q.hasUniversals ∨ q.hasPostulates) :
    ¬"QF_".toList <+: q.bitVectorLogic.toList := by
  rw [toList_bitVectorLogic, if_pos (by simpa using h)]
  cases q.hasArrays <;> cases q.hasFunctions <;> simp

theorem arrays_infix_bitVectorLogic (h : q.hasArrays) :
    "A".toList <:+: q.bitVectorLogic.toList := by
  rw [toList_bitVectorLogic, if_pos h, List.append_assoc (_ ++ _)]
  exact List.infix_append ..

theorem functions_infix_bitVectorLogic (h : q.hasFunctions) :
    "UF".toList <:+: q.bitVectorLogic.toList := by
  rw [toList_bitVectorLogic, if_pos h]
  exact List.infix_append ..

theorem bitVectors_infix_bitVectorLogic : "BV".toList <:+: q.bitVectorLogic.toList := by
  rw [toList_bitVectorLogic]
  exact (List.suffix_append ..).isInfix

end LogicQuery

namespace Problem

variable {config : Config} {p : Problem} {name remark reason : String}

/-- The name that is put together for bit-vectors covers every problem without floats. -/
theorem coveredBy_bitVectorLogic {f : Features} (hfloats : ¬p.HasFloats) :
    p.CoveredBy (p.logicQuery f).bitVectorLogic where
  quantifiers h := LogicQuery.not_quantifierFree_bitVectorLogic (by simpa [logicQuery] using h)
  arrays h := LogicQuery.arrays_infix_bitVectorLogic (by simpa [logicQuery] using h)
  functions h := LogicQuery.functions_infix_bitVectorLogic (by simpa [logicQuery] using h)
  bitVectors _ := LogicQuery.bitVectors_infix_bitVectorLogic
  floats h := absurd h hfloats

/-- The names for floats cover problems that have nothing but floats and bit-vectors. -/
theorem coveredBy_floatLogic_iff (huniversals : p.universals = []) :
    p.CoveredBy (if p.features.bitVectors then "QF_FPBV" else "QF_FP") ↔
      p.postulates = [] ∧ p.arrays = [] ∧ p.freeSymbols = [] ∧ p.tables = [] := by
  generalize hname : (if p.features.bitVectors then "QF_FPBV" else "QF_FP") = name
  have hprefix : "QF_".toList <+: name.toList := by
    rw [← hname]
    cases p.features.bitVectors <;> decide
  -- Neither name has the letters that stand for arrays and for functions.
  have hletters : 'A' ∉ name.toList ∧ 'U' ∉ name.toList := by
    rw [← hname]
    cases p.features.bitVectors <;> decide
  constructor
  · intro h
    have hfunctions : ¬(p.freeSymbols ≠ [] ∨ p.tables ≠ []) := fun hsome =>
      hletters.2 ((h.functions hsome).subset (by decide))
    refine ⟨?_, ?_, ?_, ?_⟩
    · exact by_contra fun hsome => h.quantifiers (.inr hsome) hprefix
    · exact by_contra fun hsome => hletters.1 ((h.arrays hsome).subset (by decide))
    · exact by_contra fun hsome => hfunctions (.inl hsome)
    · exact by_contra fun hsome => hfunctions (.inr hsome)
  · rintro ⟨hpostulates, harrays, hfreeSymbols, htables⟩
    refine ⟨?_, ?_, ?_, ?_, ?_⟩
    · simp [huniversals, hpostulates]
    · simp [harrays]
    · simp [hfreeSymbols, htables]
    · intro hbitVectors
      rw [← hname, if_pos (features_bitVectors_iff.mpr hbitVectors)]
      exact ⟨"QF_FP".toList, [], by decide⟩
    · intro _
      rw [← hname]
      cases p.features.bitVectors
      · exact ⟨"QF_".toList, [], by decide⟩
      · exact ⟨"QF_".toList, "BV".toList, by decide⟩

/-- A chosen logic covers its problem, unless floats meet with what the names for floats do not
show: postulates, arrays, and functions without interpretation. -/
theorem coveredBy_iff (hrequest : config.requestedLogics = [])
    (hchoice : p.chooseLogic config = .ok ⟨.setLogic name remark, reason⟩)
    (hname : name ≠ "ALL") :
    p.CoveredBy name ↔ (p.HasFloats →
      p.postulates = [] ∧ p.arrays = [] ∧ p.freeSymbols = [] ∧ p.tables = []) := by
  rcases LogicQuery.name_of_choose hrequest hchoice hname with
    ⟨hfloats, huniversals, rfl⟩ | ⟨hfloats, rfl⟩
  · rw [imp_iff_right (hasFloats_iff.mpr hfloats)]
    exact coveredBy_floatLogic_iff (by simpa [logicQuery] using huniversals)
  · have hnone : ¬p.HasFloats := by
      rw [hasFloats_iff]
      simpa [logicQuery] using hfloats
    exact iff_of_true (coveredBy_bitVectorLogic hnone) fun h => absurd h hnone

/-- Bits in an array and in a table, with an assumption of the user. -/
def bitsInArray : Problem where
  kinds := [.bounded false ⟨1, Nat.one_pos⟩]
  arrays :=
    [⟨0, "memory", .bounded false ⟨1, Nat.one_pos⟩, .bounded false ⟨1, Nat.one_pos⟩, .free none⟩]
  tables := [⟨0, .bounded false ⟨1, Nat.one_pos⟩, .bool, [Node.ofBool true]⟩]
  postulates := [⟨false, "some", ["(assert true)"]⟩]

/-- A script about bits in an array and in a table gets a logic with all three letters. -/
theorem coveredBy_bitsInArray :
    bitsInArray.chooseLogic {} = .ok ⟨.setLogic "AUFBV" "", "bit-vector problem"⟩ ∧
      bitsInArray.CoveredBy "AUFBV" := by
  have hchoice : bitsInArray.chooseLogic {} =
      .ok ⟨.setLogic "AUFBV" "", "bit-vector problem"⟩ := rfl
  refine ⟨hchoice, (coveredBy_iff rfl hchoice (by decide)).mpr fun hfloats => ?_⟩
  rw [hasFloats_iff] at hfloats
  cases hfloats

/-- Floats with an assumption of the user about all floats. -/
def floatsWithPostulate : Problem where
  kinds := [.float]
  postulates := [⟨false, "reflexive",
    ["(assert (forall ((x (_ FloatingPoint 8 24))) (fp.leq x x)))"]⟩]

/-- The logic for floats has no quantifiers even if a postulate has some. -/
theorem not_coveredBy_floatsWithPostulate :
    Config.requestedLogics {} = [] ∧
      floatsWithPostulate.chooseLogic {} =
        .ok ⟨.setLogic "QF_FP" "", "has floating point values"⟩ ∧
      "QF_FP" ≠ "ALL" ∧ ¬floatsWithPostulate.CoveredBy "QF_FP" := by
  refine ⟨rfl, rfl, by decide, fun h => h.quantifiers (.inr ?_) (by decide)⟩
  simp [floatsWithPostulate]

end Problem

end SolverScript
