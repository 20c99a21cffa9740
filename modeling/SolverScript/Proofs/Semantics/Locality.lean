import SolverScript.Proofs.Semantics.Evaluation
import SolverScript.Proofs.Semantics.Vocabulary

/-!
# Locality of evaluation

What a term denotes depends on the names that occur in it and on nothing else. Names that the term
binds itself are counted as well, although what they stand for outside does not matter.

## Main definitions

* `Interpretation.AgreesOnNames` - interpretations that give the same meaning to some names

## Main results

* `Term.eval_congr` - evaluation is local
-/

namespace SolverScript

variable {α : Type}

/-- Whether two interpretations agree on the nodes and functions among some names. -/
structure Interpretation.AgreesOnNames (names : List Name) (I J : Interpretation α) : Prop where
  function : ∀ {text}, .function text ∈ names → I text = J text
  node : ∀ {id}, .node id ∈ names → I (nodeName id) = J (nodeName id)

namespace Interpretation

variable {I J : Interpretation α} {names others : List Name}

theorem AgreesOnNames.mono (h : AgreesOnNames names I J) (hsub : others ⊆ names) :
    AgreesOnNames others I J :=
  ⟨fun hname => h.function (hsub hname), fun hid => h.node (hsub hid)⟩

theorem AgreesOnNames.append_left (h : AgreesOnNames (names ++ others) I J) :
    AgreesOnNames names I J :=
  h.mono (List.subset_append_left names others)

theorem AgreesOnNames.append_right (h : AgreesOnNames (names ++ others) I J) :
    AgreesOnNames others I J :=
  h.mono (List.subset_append_right names others)

theorem bindAll_eq_of_eq {name : String} (h : I name = J name) (bound : List String)
    (es : List (Element α)) : I.bindAll bound es name = J.bindAll bound es name := by
  induction bound generalizing I J es with
  | nil => exact h
  | cons other bound ih =>
    cases es with
    | nil => exact h
    | cons e es =>
      apply ih
      by_cases hname : name = other
      · rw [hname, bind_self, bind_self]
      · rw [bind_of_ne _ _ hname, bind_of_ne _ _ hname, h]

/-- Names that mean the same still do when others are bound. -/
theorem AgreesOnNames.bindAll (h : AgreesOnNames names I J) (bound : List String)
    (es : List (Element α)) :
    AgreesOnNames names (I.bindAll bound es) (J.bindAll bound es) :=
  ⟨fun hname => bindAll_eq_of_eq (h.function hname) bound es,
    fun hid => bindAll_eq_of_eq (h.node hid) bound es⟩

end Interpretation

namespace Term

variable {T : Theory α} {I J : Interpretation α}

theorem apply_congr {head : Term} (h : I.AgreesOnNames head.names J) :
    T.apply I head = T.apply J head := by
  unfold Theory.apply
  cases head with
  | symbol text => simp only [name?, h.function List.mem_cons_self]
  | node id => simp only [name?, h.node List.mem_cons_self]
  | _ => rfl

mutual

/-- What a term denotes depends on the names in it only. -/
theorem eval_congr {t : Term} {I J : Interpretation α} (h : I.AgreesOnNames t.names J) :
    t.eval T I = t.eval T J := by
  cases t with
  | app head operands =>
    rw [names] at h
    rw [eval, eval, apply_congr h.append_left, evalAll_congr_names h.append_right]
  | bind bound values body =>
    rw [names] at h
    rw [eval, eval, evalAll_congr_names h.append_left.append_right]
    simp only [eval_congr (h.append_right.bindAll bound _)]
  | forAll binders body =>
    rw [names] at h
    rw [eval, eval]
    refine congrArg (fun b => some (Element.bool b)) (decide_eq_decide.mpr ?_)
    refine forall_congr' fun es => imp_congr_right fun _ => ?_
    rw [eval_congr (h.append_right.bindAll _ es)]
  | attributed body attributes =>
    rw [names] at h
    rw [eval, eval, eval_congr h.append_left]
  | adjacent => rfl
  | _ => exact congrFun (apply_congr h) []

theorem evalAll_congr_names {ts : List Term} {I J : Interpretation α}
    (h : I.AgreesOnNames (namesAll ts) J) : evalAll T I ts = evalAll T J ts := by
  cases ts with
  | nil => rfl
  | cons t ts =>
    rw [namesAll] at h
    rw [evalAll, evalAll, eval_congr h.append_left, evalAll_congr_names h.append_right]

end

end Term

end SolverScript
