import SolverScript.Encoding.Operation
import SolverScript.Proofs.Script.DecidingFormulas
import SolverScript.Proofs.Semantics.Numbers
import SolverScript.Proofs.Semantics.Sequences
import SolverScript.Proofs.Semantics.Spelling

/-!
# Pseudo-Boolean constraints

A constraint holds if the weights of the true formulas together compare with the bound as its
threshold says. Both forms of a constraint, the one for solvers that know such constraints and the
one that compares a sum, say this, as long as weights and bound have no sign. The sum has them
written as they are, and a bare minus sign does not make a negative integer.

## Main definitions

* `PseudoBoolean.Holds` - what a threshold says about a weight and a bound
* `PseudoBoolean.truth` - the truth value of a constraint, by those of its formulas
* `Term.withoutGaps` - a term without the blanks that stand for no operand
* `IsIntegerText` - the texts of integers in the target language

## Main results

* `PseudoBoolean.denotes_truth` - both forms say how the weight of the true formulas compares
* `Scope.denotes_pseudoBoolean` - so does the term of a constraint, for every solver
* `PseudoBoolean.isIntegerText_reduced_iff` - when the sum consists of integers
-/

namespace SolverScript

/-! ### Gaps -/

namespace Term

/-- Whether a term is an operand without any text. -/
def isGap : Term → Bool
  | .adjacent [] => true
  | _ => false

/-- A term without the gaps between its operands. -/
def withoutGaps : Term → Term
  | .app head operands => .app head (operands.filter fun t => !t.isGap)
  | t => t

theorem isGap_apply (name : String) (ts : List Term) : (Term.apply name ts).isGap = false := by
  cases ts <;> rfl

theorem withoutGaps_app {head : Term} {ts : List Term} (h : ∀ t ∈ ts, t.isGap = false) :
    (Term.app head ts).withoutGaps = .app head ts := by
  have hfilter : ts.filter (fun t => !t.isGap) = ts :=
    List.filter_eq_self.mpr fun t ht => by rw [h t ht]; rfl
  rw [withoutGaps, hfilter]

end Term

theorem Scope.isGap_nodeTerm (scope : Scope) (n : Node) : (scope.nodeTerm n).isGap = false := by
  unfold nodeTerm SkolemMap.nodeTerm
  split <;> rfl

namespace PseudoBoolean

variable {threshold : Threshold} {coefficients : List Int} {bound : Int} {formulas : List Term}

/-- The relation between integers that a threshold stands for. -/
def relation : Threshold → String
  | .atMost | .le => "<="
  | .atLeast | .ge => ">="
  | .exactly | .eq => "="

theorem withoutGaps_comparison {sum bound : Term} (hsum : sum.isGap = false)
    (hbound : bound.isGap = false) : (comparison threshold sum bound).withoutGaps =
      .app (.symbol (relation threshold)) [sum, bound] := by
  have hgap : (Term.adjacent []).isGap = true := rfl
  cases threshold <;>
    simp only [comparison, relation, Term.withoutGaps, List.filter, hsum, hbound, hgap,
      Bool.not_true, Bool.not_false]

/-- A gap separates nothing, so the text of a comparison is read as if there were none. -/
theorem lexemes_withoutGaps {sum bound : Term} (hsum : sum.isGap = false)
    (hbound : bound.isGap = false) :
    lexemes (comparison threshold sum bound).withoutGaps.render =
      lexemes (comparison threshold sum bound).render := by
  have hopening (rest : String) : lexemes ("(" ++ rest) = [.opening] ++ lexemes rest :=
    lexemes_append rfl
  have hsymbol (rest : String) : lexemes ("= " ++ rest) = [.word ['=']] ++ lexemes rest :=
    lexemes_append rfl
  have hblank (rest : String) : lexemes (" " ++ rest) = [] ++ lexemes rest := lexemes_append rfl
  rw [withoutGaps_comparison hsum hbound]
  cases threshold with
  | atMost | le | atLeast | ge => rfl
  | exactly | eq =>
    simp [comparison, relation, Term.render, Term.renderAll, joined, String.append_assoc, hopening,
      hsymbol, hblank]

/-! ### Weights -/

/-- The weights that a constraint gives to its formulas. -/
def weights (threshold : Threshold) (coefficients : List Int) (count : Nat) : List Int :=
  if isWeighted threshold then coefficients else List.replicate count 1

/-- What a threshold says about a weight and a bound. -/
def Holds (threshold : Threshold) (weight bound : Int) : Prop :=
  match threshold with
  | .atMost | .le => weight ≤ bound
  | .atLeast | .ge => bound ≤ weight
  | .exactly | .eq => weight = bound

instance (threshold : Threshold) (weight bound : Int) : Decidable (Holds threshold weight bound) :=
  match threshold with
  | .atMost | .le => inferInstanceAs (Decidable (weight ≤ bound))
  | .atLeast | .ge => inferInstanceAs (Decidable (bound ≤ weight))
  | .exactly | .eq => inferInstanceAs (Decidable (weight = bound))

/-- The truth value of a constraint on formulas with given truth values. -/
def truth (threshold : Threshold) (coefficients : List Int) (bound : Int) (bs : List Bool) : Bool :=
  decide (Holds threshold (totalWeight (weights threshold coefficients bs.length) bs) bound)

/-- Whether a constraint has a weight for each of some formulas, and no sign anywhere. A constraint
without weights can have any coefficients. -/
structure IsProper (threshold : Threshold) (coefficients : List Int) (bound : Int) (count : Nat) :
    Prop where
  length : isWeighted threshold → coefficients.length = count
  nonneg : isWeighted threshold → ∀ c ∈ coefficients, 0 ≤ c
  bound_nonneg : 0 ≤ bound

namespace IsProper

variable {count : Nat}

theorem length_weights (h : IsProper threshold coefficients bound count) :
    (weights threshold coefficients count).length = count := by
  unfold weights
  split
  · next hweighted => exact h.length hweighted
  · exact List.length_replicate

theorem weights_nonneg (h : IsProper threshold coefficients bound count) :
    ∀ w ∈ weights threshold coefficients count, 0 ≤ w := by
  unfold weights
  split
  · next hweighted => exact h.nonneg hweighted
  · intro w hw
    rw [List.eq_of_mem_replicate hw]
    decide

end IsProper

theorem map_summand_weighted (threshold : Threshold) (coefficients : List Int)
    (formulas : List Term) :
    ((weighted threshold coefficients formulas).map fun (f, w) => summand f w) =
      formulas.zipWith summand (weights threshold coefficients formulas.length) := by
  have hzip : weighted threshold coefficients formulas =
      formulas.zip (weights threshold coefficients formulas.length) := by
    unfold weighted weights
    split
    · rfl
    · rw [← List.map_const']
      exact List.map_prod_left_eq_zip
  rw [hzip]
  exact List.map_zip_eq_zipWith

theorem totalWeight_replicate (bs : List Bool) :
    totalWeight (List.replicate bs.length 1) bs = bs.count true := by
  unfold totalWeight
  induction bs with
  | nil => rfl
  | cons b bs ih =>
    rw [List.length_cons, List.replicate_succ, List.zipWith_cons_cons, List.sum_cons, ih]
    cases b <;> simp [Int.add_comm]

variable {S : OpenSorts} {P : Interpretation (Datum S.Carrier) → Prop}

/-- A formula contributes its weight if it is true. -/
theorem denotes_summand {f : Term} {b : Bool} {w : Int} (hf : f.Denotes S P (.ofBool b))
    (hw : 0 ≤ w) : (summand f w).Denotes S P ⟨.int, if b then w else Int.ofNat 0⟩ := by
  obtain ⟨n, rfl⟩ := Int.eq_ofNat_of_zero_le hw
  have h := hf.choice (.numeral n) (.numeral 0) rfl
  cases b <;> exact h

theorem forall₂_summands {formulas : List Term} {bs : List Bool} {ws : List Int}
    (hformulas : List.Forall₂ (fun t b => t.Denotes S P (.ofBool b)) formulas bs)
    (hws : ∀ w ∈ ws, 0 ≤ w) :
    List.Forall₂ (Term.Denotes S P) (formulas.zipWith summand ws)
      ((ws.zipWith (fun w b => if b then w else 0) bs).map fun n : Int =>
        (⟨.int, n⟩ : Datum S.Carrier)) := by
  induction hformulas generalizing ws with
  | nil => simp
  | cons hf _ ih =>
    cases ws with
    | nil => simp
    | cons w ws =>
      obtain ⟨hw, hws⟩ := List.forall_mem_cons.mp hws
      exact .cons (denotes_summand hf hw) (ih hws)

/-- The truth value of a comparison of integers. -/
theorem denotes_comparison (threshold : Threshold) {t u : Term} {m n : Int}
    (ht : t.Denotes S P ⟨.int, m⟩) (hu : u.Denotes S P ⟨.int, n⟩) :
    (Term.app (.symbol (relation threshold)) [t, u]).Denotes S P
      (.ofBool (decide (Holds threshold m n))) := by
  cases threshold with
  | atMost | le | atLeast | ge => exact .standard rfl (.cons ht (.cons hu .nil)) rfl
  | exactly | eq =>
    have h := Term.Denotes.equalInts ht hu
    have hholds : m = n ↔ Holds .exactly m n := Iff.rfl
    rw [decide_eq_decide.mpr hholds] at h
    exact h

/-- A constraint on some formulas is a function with the bound and the weights as indices. -/
theorem denotes_constraint {name : String} {k : Int} {ws : List Int} {formulas : List Term}
    {bs : List Bool} {b : Bool} (hne : formulas ≠ [])
    (hformulas : List.Forall₂ (fun t b => t.Denotes S P (.ofBool b)) formulas bs)
    (hstandard : Theory.indexed (α := Datum S.Carrier) name (k :: ws) (bs.map .bool) = none)
    (h : S.function (.indexed name (k :: ws)) (bs.map .bool) = some (.bool b)) :
    (Term.applyTo (.indexed name (k :: ws)) formulas).Denotes S P (.ofBool b) := by
  have hhead : ¬S.IsDataHead (.indexed name (k :: ws)) := nofun
  rw [Term.applyTo_of_ne_nil hne]
  have hoperands : List.Forall₂ (Term.Denotes S P) formulas (bs.map .ofBool) :=
    List.forall₂_map_right_iff.mpr hformulas
  refine .app (fun _ => by simp) hoperands ?_
  rw [Datum.map_element_ofBool]
  exact (OpenSorts.function_of_open hhead hstandard).trans h

section

variable {bs : List Bool} (hS : S.Counting) (hne : formulas ≠ [])
  (hformulas : List.Forall₂ (fun t b => t.Denotes S P (.ofBool b)) formulas bs)
  (h : IsProper threshold coefficients bound formulas.length)

include hS hne hformulas h

/-- The constraint for solvers that know it. -/
theorem denotes_native : (native threshold coefficients bound formulas).Denotes S P
    (.ofBool (truth threshold coefficients bound bs)) := by
  have hbs : bs ≠ [] := by
    rintro rfl
    exact hne (List.forall₂_nil_right_iff.mp hformulas)
  have hbound := h.bound_nonneg
  rw [hformulas.length_eq] at h
  have hlength := h.length_weights
  have hindices := List.forall_mem_cons.mpr ⟨hbound, h.weights_nonneg⟩
  unfold native
  rw [hformulas.length_eq]
  cases threshold with
  -- Without weights, a constraint counts the formulas.
  | atMost =>
    refine denotes_constraint hne hformulas rfl ((hS.atMost bound bs hbs hbound).trans ?_)
    simp [truth, Holds, weights, isWeighted, totalWeight_replicate]
  | atLeast =>
    refine denotes_constraint hne hformulas rfl ((hS.atLeast bound bs hbs hbound).trans ?_)
    simp [truth, Holds, weights, isWeighted, totalWeight_replicate]
  | le => exact denotes_constraint hne hformulas rfl (hS.le bound _ bs hbs hlength hindices)
  | ge => exact denotes_constraint hne hformulas rfl (hS.ge bound _ bs hbs hlength hindices)
  | exactly | eq =>
    exact denotes_constraint hne hformulas rfl (hS.eq bound _ bs hbs hlength hindices)

/-- The sum of the weights of the true formulas. -/
theorem denotes_sum : (Term.apply "+" ((weighted threshold coefficients formulas).map fun (f, w) =>
    summand f w)).Denotes S P
      ⟨.int, totalWeight (weights threshold coefficients bs.length) bs⟩ := by
  have hsummands := forall₂_summands hformulas h.weights_nonneg
  have hlength : 0 < (formulas.zipWith summand
      (weights threshold coefficients formulas.length)).length := by
    rw [List.length_zipWith, h.length_weights, Nat.min_self]
    exact List.length_pos_iff.mpr hne
  have hvalues := hlength
  rw [hsummands.length_eq, List.length_map] at hvalues
  rw [map_summand_weighted, Term.apply, Term.applyTo_of_ne_nil (List.length_pos_iff.mp hlength),
    ← hformulas.length_eq]
  exact hS.denotes_sum (List.length_pos_iff.mp hvalues) hsummands

/-- The comparison of the sum with the bound. -/
theorem denotes_reduced :
    (reduced threshold coefficients bound formulas).withoutGaps.Denotes S P
      (.ofBool (truth threshold coefficients bound bs)) := by
  have hsum := denotes_sum hS hne hformulas h
  obtain ⟨n, rfl⟩ := Int.eq_ofNat_of_zero_le h.bound_nonneg
  unfold reduced
  rw [withoutGaps_comparison (Term.isGap_apply _ _) rfl]
  exact denotes_comparison threshold hsum (.numeral n)

end

end PseudoBoolean

open PseudoBoolean in
/-- The term of a constraint says the same for all solvers. -/
theorem Scope.denotes_pseudoBoolean {S : OpenSorts}
    {P : Interpretation (Datum S.Carrier) → Prop} (hS : S.Counting) (scope : Scope)
    {threshold : Threshold} {coefficients : List Int} {bound : Int} {ns : List Node}
    {bs : List Bool} (hne : ns ≠ [])
    (hvalues : List.Forall₂ (fun n b => (scope.nodeTerm n).Denotes S P (.ofBool b)) ns bs)
    (h : IsProper threshold coefficients bound ns.length) :
    ∃ t, scope.term ⟨.pseudoBoolean threshold coefficients bound, ns⟩ = .ok t ∧
      t.withoutGaps.Denotes S P (.ofBool (truth threshold coefficients bound bs)) := by
  have hlength : (scope.nodeTerms ns).length = ns.length := List.length_map _
  have hterms : scope.nodeTerms ns ≠ [] := mt List.map_eq_nil_iff.mp hne
  have hformulas : List.Forall₂ (fun t b => t.Denotes S P (.ofBool b)) (scope.nodeTerms ns) bs :=
    List.forall₂_map_left_iff.mpr hvalues
  rw [← hlength] at h
  refine ⟨_, rfl, ?_⟩
  split
  · have hgaps : ∀ t ∈ scope.nodeTerms ns, t.isGap = false :=
      List.forall_mem_map.mpr fun n _ => isGap_nodeTerm scope n
    have hnative := denotes_native hS hterms hformulas h
    unfold native at hnative ⊢
    rw [Term.applyTo_of_ne_nil hterms] at hnative ⊢
    rwa [Term.withoutGaps_app hgaps]
  · exact denotes_reduced hS hterms hformulas h

/-! ### Integers in the sum -/

/-- The texts of integers: a numeral, or the negation of one. -/
inductive IsIntegerText : String → Int → Prop
  | numeral (n : Nat) : IsIntegerText (Nat.repr n) n
  | negation (n : Nat) (h : 0 < n) : IsIntegerText ("(- " ++ Nat.repr n ++ ")") (-n)

theorem Term.render_int_neg {n : Nat} (h : 0 < n) :
    (Term.int (-n)).render = "(- " ++ Nat.repr n ++ ")" := by
  rw [← String.toList_inj]
  simp [Term.int, h, Term.render, Term.renderAll, joined, Numeral.decimal]

/-- The text of an integer is that of its literal. -/
theorem isIntegerText_iff {text : String} {n : Int} :
    IsIntegerText text n ↔ (Value.unbounded n).describe false = .ok text := by
  constructor
  · rintro (⟨n⟩ | ⟨n, h⟩)
    · have hint : Term.int n = .numeral n := if_neg (by omega)
      exact congrArg (Except.ok ∘ Term.render) hint
    · exact congrArg Except.ok (Term.render_int_neg h)
  · intro h
    obtain rfl : (Term.int n).render = text := Except.ok.inj h
    cases n with
    | ofNat n => exact .numeral n
    | negSucc n =>
      have hpos := Nat.succ_pos n
      exact (Term.render_int_neg hpos).symm ▸ .negation (n + 1) hpos

/-- A numeral is written with a bare minus sign if it is negative. -/
theorem isIntegerText_numeral_iff {n : Int} :
    IsIntegerText (Term.numeral n).render n ↔ 0 ≤ n := by
  cases n with
  | ofNat n => exact iff_of_true (.numeral n) (Int.natCast_nonneg n)
  | negSucc n =>
    refine iff_of_false (fun h => ?_) (by omega)
    have htext : (Term.int (.negSucc n)).render = (Term.numeral (.negSucc n)).render :=
      Except.ok.inj (isIntegerText_iff.mp h)
    have hhead := congrArg (fun text => text.toList.head?) htext
    simp [Term.int, Term.render, Term.renderAll, joined, Numeral.decimal] at hhead

namespace Term

mutual

/-- The numerals in a term. -/
def numerals : Term → List Int
  | .numeral value => [value]
  | .app head operands => numerals head ++ numeralsAll operands
  | .bind _ values body => numeralsAll values ++ numerals body
  | .forAll _ body => numerals body
  | .attributed body _ => numerals body
  | .adjacent terms => numeralsAll terms
  | _ => []

/-- The numerals in several terms. -/
def numeralsAll : List Term → List Int
  | [] => []
  | t :: ts => numerals t ++ numeralsAll ts

end

theorem numerals_apply (name : String) (ts : List Term) :
    (Term.apply name ts).numerals = numeralsAll ts := by
  cases ts <;> rfl

theorem numeralsAll_eq_nil {ts : List Term} (h : ∀ t ∈ ts, t.numerals = []) :
    numeralsAll ts = [] := by
  induction ts with
  | nil => rfl
  | cons t ts ih =>
    obtain ⟨ht, hts⟩ := List.forall_mem_cons.mp h
    rw [numeralsAll, ht, ih hts, List.append_nil]

/-- Nodes are written by their symbols. -/
theorem numerals_nodeTerm (scope : Scope) (n : Node) : (scope.nodeTerm n).numerals = [] := by
  unfold Scope.nodeTerm SkolemMap.nodeTerm
  split
  · next dependencies _ =>
    have hdependencies : numeralsAll (dependencies.map Node.term) = [] :=
      numeralsAll_eq_nil (List.forall_mem_map.mpr fun _ _ => rfl)
    rw [numerals, hdependencies]
    rfl
  · rfl

end Term

namespace PseudoBoolean

theorem numerals_comparison (threshold : Threshold) (sum bound : Term) :
    (comparison threshold sum bound).numerals = sum.numerals ++ bound.numerals := by
  cases threshold <;> simp [comparison, Term.numerals, Term.numeralsAll]

/-- The numerals of a sum are weights and zeros. -/
theorem forall_numeralsAll_summands {formulas : List Term} {ws : List Int}
    (h : ∀ f ∈ formulas, f.numerals = []) :
    (∀ n ∈ Term.numeralsAll (formulas.zipWith summand ws), 0 ≤ n) ↔
      ∀ w ∈ ws.take formulas.length, 0 ≤ w := by
  induction formulas generalizing ws with
  | nil => simp [Term.numeralsAll]
  | cons f formulas ih =>
    obtain ⟨hf, hformulas⟩ := List.forall_mem_cons.mp h
    cases ws with
    | nil => simp [Term.numeralsAll]
    | cons w ws =>
      have hsummand : (summand f w).numerals = [w, 0] := by
        simp [summand, Term.numerals, Term.numeralsAll, hf]
      simp [Term.numeralsAll, hsummand, ih hformulas]

theorem forall_weights_take_iff (threshold : Threshold) (coefficients : List Int) (count : Nat) :
    (∀ w ∈ (weights threshold coefficients count).take count, 0 ≤ w) ↔
      (isWeighted threshold → ∀ c ∈ coefficients.take count, 0 ≤ c) := by
  unfold weights
  split
  · next h => simp [h]
  · next h => simp [h]

/-- The sum for a solver without such constraints consists of integers if no sign is written. -/
theorem isIntegerText_reduced_iff (scope : Scope) (ns : List Node) (threshold : Threshold)
    (coefficients : List Int) (bound : Int) :
    (∀ n ∈ (reduced threshold coefficients bound (scope.nodeTerms ns)).numerals,
        IsIntegerText (Term.numeral n).render n ∧
          (Value.unbounded n).describe false = .ok (Term.numeral n).render) ↔
      0 ≤ bound ∧ (isWeighted threshold → ∀ c ∈ coefficients.take ns.length, 0 ≤ c) := by
  have hnodes : ∀ f ∈ scope.nodeTerms ns, f.numerals = [] :=
    List.forall_mem_map.mpr fun n _ => Term.numerals_nodeTerm scope n
  have hlength : (scope.nodeTerms ns).length = ns.length := List.length_map _
  simp only [← isIntegerText_iff, and_self, isIntegerText_numeral_iff]
  rw [reduced, map_summand_weighted, numerals_comparison, Term.numerals_apply,
    List.forall_mem_append, forall_numeralsAll_summands hnodes, hlength, forall_weights_take_iff,
    and_comm]
  simp [Term.numerals]

/-- A coefficient of minus one is written as a symbol. -/
theorem not_isIntegerText_reduced_minusOne :
    (reduced .le [-1, 2] 3 [.node 0, .node 1]).render =
        "(<= (+ (ite s0 -1 0) (ite s1 2 0)) 3)" ∧
      ¬∀ n ∈ (reduced .le [-1, 2] 3 [.node 0, .node 1]).numerals,
        IsIntegerText (Term.numeral n).render n ∧
          (Value.unbounded n).describe false = .ok (Term.numeral n).render := by
  refine ⟨by decide, fun h => ?_⟩
  have hone := isIntegerText_numeral_iff.mp (h (-1) (by decide)).1
  exact absurd hone (by decide)

end PseudoBoolean

end SolverScript
