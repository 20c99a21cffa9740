import SolverScript.Encoding.Operation
import SolverScript.Proofs.Script.DecidingFormulas
import SolverScript.Proofs.Semantics.Numbers
import SolverScript.Proofs.Semantics.Sequences

/-!
# Difference of numbers

That numbers are all different is one application for a solver that knows it, and a formula about
every pair of them for the others. Floats always need the pairs, since their equality is not that of
the values: neither zero differs from the other one, and what is not a number differs from itself.

## Main definitions

* `OpenSorts.Floats.equals` - equality of the values of a kind

## Main results

* `Comparison.denotes_pairwiseDifferent` - the formula about all pairs
* `Scope.denotes_notEqual_numbers` - numbers differ if no two of them are equal, for every solver
-/

namespace SolverScript

/-! ### Pairs -/

namespace Comparison

variable {α β : Type}

theorem forall_mem_pairs_iff {r : α → α → Prop} {as : List α} :
    (∀ p ∈ pairs as, r p.1 p.2) ↔ as.Pairwise r := by
  induction as with
  | nil => simp [pairs]
  | cons a as ih => simp [pairs, ← ih, or_imp, forall_and]

/-- Three elements have more than one pair. -/
theorem two_le_length_pairs {as : List α} (h : 3 ≤ as.length) : 2 ≤ (pairs as).length := by
  match as, h with
  | a :: b :: c :: rest, _ =>
    simp only [pairs, List.map_cons, List.cons_append, List.length_cons]
    omega

theorem forall₂_pairs {r : α → β → Prop} {as : List α} {bs : List β} (h : List.Forall₂ r as bs) :
    List.Forall₂ (fun p q => r p.1 q.1 ∧ r p.2 q.2) (pairs as) (pairs bs) := by
  induction h with
  | nil => exact .nil
  | cons hhead hrest ih =>
    refine List.rel_append ?_ ih
    rw [List.forall₂_map_left_iff, List.forall₂_map_right_iff]
    exact hrest.imp fun _ _ h => ⟨hhead, h⟩

end Comparison

/-- A relation between elements that can belong to one sort. -/
theorem Element.Function.relation_of_sameSort {α : Type} {r : List (Element α) → Bool}
    {es : List (Element α)} (hlength : 2 ≤ es.length)
    (hsort : ∀ a ∈ es, ∀ b ∈ es, a.sameSort b = true) : relation r es = some (.bool (r es)) := by
  match es, hlength with
  | a :: b :: rest, _ =>
    have hall : (b :: rest).all a.sameSort = true :=
      List.all_eq_true.mpr fun c hc => hsort a (by simp) c (List.mem_cons_of_mem a hc)
    simp only [relation, hall, if_true]

/-- Data of one domain can belong to one sort. -/
theorem Datum.sameSort_element {C : SortExpr → Type} {d : Domain} (x y : d.Model C) :
    (Datum.element ⟨d, x⟩).sameSort (Datum.element ⟨d, y⟩) = true := by
  cases d <;> simp [Datum.element, Element.sameSort]

namespace Comparison

variable {S : OpenSorts} {P : Interpretation (Datum S.Carrier) → Prop} {β : Type}
  {datum : β → Datum S.Carrier} {equality : String} {equal : β → β → Bool}

/-- The formula about all pairs says that no two operands are equal. -/
theorem denotes_pairwiseDifferent
    (hequality : ∀ t u a b, t.Denotes S P (datum a) → u.Denotes S P (datum b) →
      (Term.app (.symbol equality) [t, u]).Denotes S P (.ofBool (equal a b)))
    {ts : List Term} {as : List β} (hlength : 2 ≤ ts.length)
    (hts : List.Forall₂ (fun t a => t.Denotes S P (datum a)) ts as) :
    (pairwiseDifferent equality ts).Denotes S P
      (.ofBool (decide (as.Pairwise fun a b => ¬equal a b))) := by
  have hunequal (t u a b) (ht : t.Denotes S P (datum a)) (hu : u.Denotes S P (datum b)) :
      (unequal equality t u).Denotes S P (.ofBool !equal a b) :=
    .standard rfl (.cons (hequality t u a b ht hu) .nil) rfl
  have hpairs : List.Forall₂ (fun t b => t.Denotes S P (.ofBool b))
      ((pairs ts).map fun p => unequal equality p.1 p.2)
      ((pairs as).map fun p => !equal p.1 p.2) := by
    rw [List.forall₂_map_left_iff, List.forall₂_map_right_iff]
    exact (forall₂_pairs hts).imp fun p q h => hunequal p.1 p.2 q.1 q.2 h.1 h.2
  have hall : ((pairs as).map fun p => !equal p.1 p.2).all id =
      decide (as.Pairwise fun a b => ¬equal a b) := by
    rw [Bool.eq_iff_iff, decide_eq_true_iff, ← forall_mem_pairs_iff]
    simp
  unfold pairwiseDifferent
  split
  · -- A single pair needs no conjunction.
    rcases hts with _ | ⟨ha, _ | ⟨hb, _ | _⟩⟩
    rw [← hall]
    simpa [pairs] using hunequal _ _ _ _ ha hb
  · next _ hother =>
    -- With three operands or more, the conjunction is about several pairs.
    have htwo : ts.length ≠ 2 := fun h => by
      obtain ⟨t, u, h⟩ := List.length_eq_two.mp h
      exact hother t u h
    have hcount : 2 ≤ ((pairs as).map fun p => !equal p.1 p.2).length := by
      rw [← hpairs.length_eq, List.length_map]
      exact two_le_length_pairs (by omega)
    have hne : ((pairs ts).map fun p => unequal equality p.1 p.2) ≠ [] := by
      rw [← List.length_pos_iff, hpairs.length_eq]
      omega
    change (Term.apply "and" ((pairs ts).map fun p => unequal equality p.1 p.2)).Denotes S P _
    rw [Term.apply, Term.applyTo_of_ne_nil hne, ← hall]
    exact .connective Term.Denotes.conjunction_name hpairs hcount

/-! ### Values -/

variable {d : Domain} {ts : List Term} {xs : List (d.Model S.Carrier)}

open Classical in
/-- One application says that no two data of a domain are the same. -/
theorem denotes_distinct (hlength : 2 ≤ ts.length)
    (hts : List.Forall₂ (fun t x => t.Denotes S P ⟨d, x⟩) ts xs) :
    (Term.apply "distinct" ts).Denotes S P
      (.ofBool (decide (xs.Pairwise fun x y => ¬decide (x = y)))) := by
  have hne : ts ≠ [] := List.length_pos_iff.mp (by omega)
  rw [hts.length_eq] at hlength
  have hdata : List.Forall₂ (Term.Denotes S P) ts (xs.map (Datum.mk d)) :=
    List.forall₂_map_right_iff.mpr hts
  have hnodup : ((xs.map (Datum.mk d)).map Datum.element).Nodup ↔
      xs.Pairwise fun x y => ¬decide (x = y) := by
    rw [List.nodup_map_iff Datum.element_injective, List.nodup_map_iff (Datum.mk_injective d)]
    simp only [decide_eq_true_eq]
    rfl
  rw [Term.apply, Term.applyTo_of_ne_nil hne, ← decide_eq_decide.mpr hnodup]
  refine .standard (f := Element.Function.relation fun es => decide es.Nodup) rfl hdata ?_
  refine Element.Function.relation_of_sameSort (by simpa using hlength) ?_
  simp only [List.mem_map, forall_exists_index, and_imp, forall_apply_eq_imp_iff₂]
  exact fun x _ y _ => Datum.sameSort_element x y

open Classical in
/-- The formula about all pairs of data of a domain says the same. -/
theorem denotes_pairwiseDifferent_data (hlength : 2 ≤ ts.length)
    (hts : List.Forall₂ (fun t x => t.Denotes S P ⟨d, x⟩) ts xs) :
    (pairwiseDifferent "=" ts).Denotes S P
      (.ofBool (decide (xs.Pairwise fun x y => ¬decide (x = y)))) := by
  refine denotes_pairwiseDifferent (fun t u x y ht hu => ?_) hlength hts
  rw [← decide_eq_decide.mpr (Datum.mk_injective d).eq_iff]
  exact ht.equation hu (Datum.sameSort_element x y)

open Classical in
/-- That data of a domain differ does not depend on how a solver is told so. -/
theorem denotes_different_data (knowsDistinct : Bool) (hlength : 2 ≤ ts.length)
    (hts : List.Forall₂ (fun t x => t.Denotes S P ⟨d, x⟩) ts xs) :
    (if knowsDistinct then Term.apply "distinct" ts else pairwiseDifferent "=" ts).Denotes S P
      (.ofBool (decide (xs.Pairwise fun x y => ¬decide (x = y)))) := by
  cases knowsDistinct with
  | true => exact denotes_distinct hlength hts
  | false => exact denotes_pairwiseDifferent_data hlength hts

/-- The formula about all pairs of floats uses their own equality. -/
theorem denotes_pairwiseDifferent_floats (F : S.Floats) (format : FloatFormat)
    {xs : List (S.Carrier format.sort)} (hlength : 2 ≤ ts.length)
    (hts : List.Forall₂ (fun t x => t.Denotes S P ⟨.basic format.sort, x⟩) ts xs) :
    (pairwiseDifferent "fp.eq" ts).Denotes S P (.ofBool (decide (xs.Pairwise fun x y =>
      ¬((F.ofDatum format).symm x).1.equal ((F.ofDatum format).symm y).1))) := by
  refine denotes_pairwiseDifferent (fun t u x y ht hu => ?_) hlength hts
  obtain ⟨a, rfl⟩ := (F.ofDatum format).surjective x
  obtain ⟨b, rfl⟩ := (F.ofDatum format).surjective y
  rw [Equiv.symm_apply_apply, Equiv.symm_apply_apply]
  exact OpenSorts.Floats.denotes_equal ht hu

end Comparison

/-! ### Operations -/

open Classical in
/-- Equality of the values of a kind; that of floats is not that of their data. -/
noncomputable def OpenSorts.Floats.equals {S : OpenSorts} (F : S.Floats) :
    (k : Kind) → k.domain.Model S.Carrier → k.domain.Model S.Carrier → Bool
  | .float, x, y => ((F.ofDatum .single).symm x).1.equal ((F.ofDatum .single).symm y).1
  | .double, x, y => ((F.ofDatum .double).symm x).1.equal ((F.ofDatum .double).symm y).1
  | .floating format, x, y => ((F.ofDatum format).symm x).1.equal ((F.ofDatum format).symm y).1
  | _, x, y => decide (x = y)

namespace Scope

variable {scope : Scope} {ns : List Node} {k : Kind}

theorem term_notEqual_of_uniform (hk : k = .unbounded ∨ k = .real ∨ k.isFloating)
    (hne : ns ≠ []) (hkinds : ∀ n ∈ ns, n.kind = k) :
    scope.term ⟨.notEqual, ns⟩ = .ok (if !k.isFloating && scope.config.capabilities.distinct then
        Term.apply "distinct" (scope.nodeTerms ns)
      else Comparison.pairwiseDifferent (if k.isFloating then "fp.eq" else "=")
        (scope.nodeTerms ns)) := by
  have hreplicate : ns.map Node.kind = List.replicate ns.length k :=
    List.eq_replicate_iff.mpr ⟨List.length_map _, List.forall_mem_map.mpr hkinds⟩
  have hfloating : (OperandProfile.ofNodes ns).anyFloating = k.isFloating := by
    simp [OperandProfile.ofNodes, hreplicate, hne]
  have hgeneric : scope.generic ⟨.notEqual, ns⟩ = .ok (Comparison.different
      scope.config.capabilities (OperandProfile.ofNodes ns) (scope.nodeTerms ns)) := by
    -- The classes of operands are tried in turn, and the ones in front do not take these.
    rcases hk with rfl | rfl | hk
    · simp [generic, OperandProfile.ofNodes, hreplicate, hne, onlyIf, Arithmetic.integer?,
        Arithmetic.shared?, Kind.isUnbounded]
    · simp [generic, OperandProfile.ofNodes, hreplicate, hne, onlyIf, Arithmetic.realOrFloat?,
        Arithmetic.shared?, Kind.isUnbounded, Kind.isBool, Kind.isBounded, Kind.isReal]
    · cases k with
      | float | double | floating =>
        simp [generic, OperandProfile.ofNodes, hreplicate, hne, onlyIf, Arithmetic.realOrFloat?,
          Arithmetic.shared?, Kind.isUnbounded, Kind.isBool, Kind.isBounded, Kind.isReal,
          Kind.isRational, Kind.isFloating, Kind.floatFormat?]
      | _ => cases hk
  rw [Comparison.different, hfloating] at hgeneric
  exact hgeneric

/-- Numbers differ if no two of them are equal, whatever the solver knows. -/
theorem denotes_notEqual_numbers {S : OpenSorts} {P : Interpretation (Datum S.Carrier) → Prop}
    (F : S.Floats) (hk : k = .unbounded ∨ k = .real ∨ k.isFloating) (hlength : 2 ≤ ns.length)
    (hkinds : ∀ n ∈ ns, n.kind = k) {xs : List (k.domain.Model S.Carrier)}
    (hvalues : List.Forall₂ (fun n x => (scope.nodeTerm n).Denotes S P ⟨k.domain, x⟩) ns xs) :
    ∃ t, scope.term ⟨.notEqual, ns⟩ = .ok t ∧
      t.Denotes S P (.ofBool (decide (xs.Pairwise fun x y => ¬F.equals k x y))) := by
  have hterms : 2 ≤ (scope.nodeTerms ns).length := by rwa [nodeTerms, List.length_map]
  have hts : List.Forall₂ (fun t x => t.Denotes S P ⟨k.domain, x⟩) (scope.nodeTerms ns) xs :=
    List.forall₂_map_left_iff.mpr hvalues
  refine ⟨_, term_notEqual_of_uniform hk (List.length_pos_iff.mp (by omega)) hkinds, ?_⟩
  rcases hk with rfl | rfl | hk
  · exact Comparison.denotes_different_data scope.config.capabilities.distinct hterms hts
  · exact Comparison.denotes_different_data scope.config.capabilities.distinct hterms hts
  · rw [hk]
    cases k with
    | float => exact Comparison.denotes_pairwiseDifferent_floats F .single hterms hts
    | double => exact Comparison.denotes_pairwiseDifferent_floats F .double hterms hts
    | floating format => exact Comparison.denotes_pairwiseDifferent_floats F format hterms hts
    | _ => cases hk

/-- The third node is zero, and all others are not numbers. -/
noncomputable def zeroAndNans : Interpretation (Datum OpenSorts.numbers.Carrier) := fun name =>
  Element.constant (Datum.element (if name = nodeName 3 then
      OpenSorts.numbers.floats.datum .double ⟨.zero false, .zero false⟩
    else OpenSorts.numbers.floats.datum .double ⟨.nan, .nan⟩))

/-- Two data that are not numbers differ, although they are the same. -/
theorem denotes_notEqual_nans :
    ∃ t, ({} : Scope).term ⟨.notEqual, [⟨1, .double⟩, ⟨2, .double⟩, ⟨3, .double⟩]⟩ = .ok t ∧
      t.Denotes .numbers (· = zeroAndNans) (.ofBool true) := by
  let nan : Kind.double.domain.Model OpenSorts.numbers.Carrier :=
    OpenSorts.numbers.floats.ofDatum .double ⟨.nan, .nan⟩
  let zero : Kind.double.domain.Model OpenSorts.numbers.Carrier :=
    OpenSorts.numbers.floats.ofDatum .double ⟨.zero false, .zero false⟩
  have hnode : ∀ id ∈ [1, 2, 3], ∀ x : Kind.double.domain.Model OpenSorts.numbers.Carrier,
      zeroAndNans (nodeName id) [] = some (Datum.element ⟨Kind.double.domain, x⟩) →
        (({} : Scope).nodeTerm ⟨id, .double⟩).Denotes .numbers (· = zeroAndNans)
          ⟨Kind.double.domain, x⟩ := by
    rintro id hid x hx J rfl
    -- The theory has no functions of these names, so the interpretation decides.
    have hopen : OpenSorts.numbers.theory.function (.symbol (nodeName id)) [] = none := by
      simp only [List.mem_cons, List.not_mem_nil, or_false] at hid
      rcases hid with rfl | rfl | rfl <;>
        · rw [OpenSorts.function_theory]
          split <;> rfl
    exact (congrArg (Option.or · _) hopen).trans hx
  have hdiffer : [nan, nan, zero].Pairwise fun x y =>
      ¬OpenSorts.numbers.floats.equals .double x y := by
    have hnan (x) : OpenSorts.numbers.floats.equals .double nan x = false :=
      congrArg (fun d : FloatFormat.double.Datum => d.1.equal _) (Equiv.symm_apply_apply _ _)
    simp [hnan]
  rw [← decide_eq_true hdiffer]
  exact denotes_notEqual_numbers OpenSorts.numbers.floats (.inr (.inr rfl)) (by simp) (by simp)
    (.cons (hnode 1 (by simp) nan rfl) (.cons (hnode 2 (by simp) nan rfl)
      (.cons (hnode 3 (by simp) zero rfl) .nil)))

end Scope

end SolverScript
