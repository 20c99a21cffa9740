import SolverScript.Proofs.Script.InvariantSorts
import SolverScript.Proofs.Semantics.Signatures
import SolverScript.Proofs.Semantics.Vocabulary

/-!
# Invariants of related terms

Apart from the term that they are about, the invariants of a kind are made of names that scripts
write of their own accord. A relation between terms that is respected by the functions and
quantifiers of these names relates the invariants for one term to those for another, if it relates
the two terms inside of all quantifiers of the invariants. So what is said about a constant is what is
said about the result of a function in its place, as long as no quantifier hides the constant.

## Main definitions

* `Interpretation.AgreesOff` - interpretations that differ at some names only
* `IsInvariantName` - the names in invariants
* `IsCompatible` - relations that the functions and quantifiers of these names respect

## Main results

* `Kind.related_invariants` - the invariants for related terms
* `Kind.eval_conjunction_invariants` - the invariants for a constant and for a result
* `Kind.definesNothing_conjunction_invariants` - there are no local definitions in invariants
-/

namespace SolverScript

variable {α : Type}

/-- Two names may be given their meanings in either order. -/
theorem Interpretation.bind_comm (J : Interpretation α) {name other : String} (h : other ≠ name)
    (f g : Element.Function α) :
    (J.bind name f).bind other g = (J.bind other g).bind name f := by
  ext x : 1
  by_cases hx : x = other
  · subst hx
    rw [bind_self, bind_of_ne _ _ h, bind_self]
  · rw [bind_of_ne _ _ hx]
    by_cases hname : x = name
    · subst hname
      rw [bind_self, bind_self]
    · rw [bind_of_ne _ _ hname, bind_of_ne _ _ hname, bind_of_ne _ _ hx]

/-- Whether two interpretations give other names than the given ones the same meaning. -/
def Interpretation.AgreesOff (names : List String) (J J' : Interpretation α) : Prop :=
  ∀ name ∉ names, J' name = J name

namespace Interpretation.AgreesOff

variable {J J' : Interpretation α} {names inner : List String}

theorem mono (h : AgreesOff inner J J') (hsub : inner ⊆ names) : AgreesOff names J J' :=
  fun name hname => h name fun hinner => hname (hsub hinner)

theorem of_bind {name : String} {f : Element.Function α} (h : AgreesOff inner (J.bind name f) J') :
    AgreesOff (name :: inner) J J' := by
  intro other hother
  obtain ⟨hne, hinner⟩ := List.ne_and_not_mem_of_not_mem_cons hother
  rw [h other hinner, bind_of_ne _ _ hne]

end Interpretation.AgreesOff

/-- The functions that invariants apply, by name. -/
abbrev invariantFunctions : List String :=
  ["true", "and", "=>", "=", "<", ">=", "str.len", "seq.len", "seq.nth", "select",
    RationalFunction.denominator, Composite.maybeAccessor, Composite.maybeConstructor true,
    Composite.sideAccessor false, Composite.sideAccessor true, Composite.sideConstructor false,
    Composite.sideConstructor true]

/-- The names in invariants, apart from those of what they are about. -/
inductive IsInvariantName : String → Prop
  | function {name : String} (h : name ∈ invariantFunctions) : IsInvariantName name
  | projection (position arity : Nat) : IsInvariantName (Composite.projection position arity)
  | element (depth : Nat) : IsInvariantName ("seq" ++ Nat.repr depth)
  | member (depth : Nat) : IsInvariantName ("set" ++ Nat.repr depth)

theorem IsInvariantName.isBuiltin {name : String} (h : IsInvariantName name) :
    Name.IsBuiltin (.function name) := by
  cases h with
  | function h =>
    simp only [invariantFunctions, List.mem_cons, List.not_mem_nil, or_false] at h
    rcases h with rfl | rfl | rfl | rfl | rfl | rfl | rfl | rfl | rfl | rfl | rfl | rfl | rfl |
      rfl | rfl | rfl | rfl
    case inr.inr.inr.inr.inr.inr.inl => exact .ofString .length
    case inr.inr.inr.inr.inr.inr.inr.inl => exact .ofSequence .length
    case inr.inr.inr.inr.inr.inr.inr.inr.inl => exact .ofSequence .nth
    all_goals exact .function _ (by decide)
  | projection position arity => exact .projection position arity
  | element depth => exact .element depth
  | member depth => exact .member depth

/-- The result of a function has a name of its own in the formulas about it. -/
theorem not_isInvariantName_resultName : ¬IsInvariantName resultName := by
  intro h
  generalize hname : resultName = name at h
  have hhead := congrArg (fun name => name.toList.head?) hname
  cases h with
  | function h => exact absurd (hname ▸ h) (by decide)
  | projection => simp [resultName, Composite.projection] at hhead
  | element | member => simp [resultName] at hhead

/-- Whether a relation between terms is respected by functions, testers and quantifiers with the
names of invariants. It may depend on what the names of variables stand for. -/
structure IsCompatible (R : Interpretation α → Term → Term → Prop) : Prop where
  symbol : ∀ {name}, IsInvariantName name → ∀ J, R J (.symbol name) (.symbol name)
  numeral : ∀ n J, R J (.numeral n) (.numeral n)
  app : ∀ {name}, IsInvariantName name → ∀ {J ts us}, List.Forall₂ (R J) ts us →
    R J (.app (.symbol name) ts) (.app (.symbol name) us)
  tester : ∀ {constructor}, IsInvariantName constructor →
    ∀ {J t u}, R J t u → ∀ (parameters : List Kind) (whole : Kind),
      R J (.app (Composite.testerWithSignature constructor parameters whole) [t])
        (.app (Composite.testerWithSignature constructor parameters whole) [u])
  forAll : ∀ {name}, IsInvariantName name → ∀ {J t u}, (∀ f, R (J.bind name f) t u) → ∀ s,
    R J (.forAll [(name, s)] t) (.forAll [(name, s)] u)

namespace IsCompatible

variable {R : Interpretation α → Term → Term → Prop} {J : Interpretation α} {t u p q : Term}

theorem implication (hR : IsCompatible R) (hp : R J p q) (h : R J t u) :
    R J (Kind.implication p t) (Kind.implication q u) :=
  hR.app (.function (by decide)) (.cons hp (.cons h .nil))

/-- Formulas under related premises. -/
theorem guarded (hR : IsCompatible R) (hp : R J p q) {fs gs : List Term}
    (h : List.Forall₂ (R J) fs gs) :
    List.Forall₂ (R J) (fs.map (Kind.implication p)) (gs.map (Kind.implication q)) := by
  rw [List.forall₂_map_left_iff, List.forall₂_map_right_iff]
  exact h.imp fun _ _ => hR.implication hp

theorem conjunction (hR : IsCompatible R) {fs gs : List Term} (h : List.Forall₂ (R J) fs gs) :
    R J (Kind.conjunction fs) (Kind.conjunction gs) := by
  cases h with
  | nil => exact hR.symbol (.function (by decide)) J
  | cons h hrest =>
    cases hrest with
    | nil => exact h
    | cons h' hrest => exact hR.app (.function (by decide)) (.cons h (.cons h' hrest))

theorem leafInvariants (hR : IsCompatible R) (k : Kind) (h : R J t u) :
    List.Forall₂ (R J) (k.leafInvariants t) (k.leafInvariants u) := by
  unfold Kind.leafInvariants
  split
  · exact .cons (hR.app (.function (by decide)) (.cons (hR.numeral 1 J)
      (.cons (hR.app (.function (by decide)) (.cons h .nil)) .nil))) .nil
  · exact .cons (hR.app (.function (by decide)) (.cons (hR.numeral 0 J)
      (.cons (hR.app (.function (by decide)) (.cons h .nil)) .nil))) .nil
  · exact .nil

end IsCompatible

namespace Kind

mutual

/-- The invariants of a kind for terms that are related inside of all quantifiers. -/
theorem related_invariantsAt {R : Interpretation α → Term → Term → Prop} (hR : IsCompatible R)
    {k : Kind} {depth : Nat} {leaf : Kind → Term → List Term}
    (hleaf : ∀ k J t u, R J t u → List.Forall₂ (R J) (leaf k t) (leaf k u))
    {t u : Term} {J : Interpretation α}
    (h : ∀ J', J.AgreesOff (k.binders depth) J' → R J' t u) :
    List.Forall₂ (R J) (k.invariantsAt depth leaf t) (k.invariantsAt depth leaf u) := by
  have hself : R J t u := h J fun _ _ => rfl
  -- The terms have to be related in every interpretation that the quantifiers on the way lead to,
  -- which is why the relation is indexed by one.
  cases k with
  | list k =>
    rw [invariantsAt, invariantsAt]
    split
    · next hcontains =>
      rw [binders, if_pos hcontains] at h
      have hindex := hR.symbol (IsInvariantName.element depth)
      refine .cons (hR.forAll (.element depth) (fun f => hR.implication ?_ ?_) _) .nil
      · have hbound := h (J.bind ("seq" ++ Nat.repr depth) f) (.of_bind fun _ _ => rfl)
        refine hR.app (.function (by decide)) (.cons (hR.app (.function (by decide)) (.cons (hindex _)
          (.cons (hR.numeral 0 _) .nil))) (.cons (hR.app (.function (by decide)) (.cons (hindex _)
            (.cons (hR.app ?_ (.cons hbound .nil)) .nil))) .nil))
        exact .function (by decide)
      · refine hR.conjunction (related_invariantsAt hR hleaf fun J' hJ' => ?_)
        exact hR.app (.function (by decide)) (.cons (h J' (.of_bind hJ')) (.cons (hindex J') .nil))
    · exact .nil
  | set k =>
    rw [invariantsAt, invariantsAt]
    split
    · next hcontains =>
      rw [binders, if_pos hcontains] at h
      have hmember := hR.symbol (IsInvariantName.member depth)
      refine .cons (hR.forAll (.member depth) (fun f => hR.conjunction ?_) _) .nil
      refine related_invariantsAt hR (fun sub J' part part' hpart => ?_) fun J' hJ' =>
        h J' (.of_bind hJ')
      exact hR.guarded (hR.app (.function (by decide)) (.cons hpart (.cons (hmember J') .nil)))
        (hleaf sub J' _ _ (hmember J'))
    · exact .nil
  | tuple ks =>
    rw [invariantsAt, invariantsAt]
    exact related_componentInvariants hR hleaf h
  | maybe k =>
    rw [invariantsAt, invariantsAt]
    refine hR.guarded (hR.tester (.function (by decide)) hself _ _)
      (related_invariantsAt hR hleaf fun J' hJ' => ?_)
    exact hR.app (.function (by decide)) (.cons (h J' hJ') .nil)
  | either l r =>
    rw [invariantsAt, invariantsAt]
    rw [binders] at h
    refine List.rel_append (hR.guarded (hR.tester (.function (by decide)) hself _ _)
        (related_invariantsAt hR hleaf fun J' hJ' => ?_))
      (hR.guarded (hR.tester (.function (by decide)) hself _ _)
        (related_invariantsAt hR hleaf fun J' hJ' => ?_))
    · exact hR.app (.function (by decide))
        (.cons (h J' (hJ'.mono (List.subset_append_left _ _))) .nil)
    · exact hR.app (.function (by decide))
        (.cons (h J' (hJ'.mono (List.subset_append_right _ _))) .nil)
  | _ => exact hleaf _ J t u hself

theorem related_componentInvariants {R : Interpretation α → Term → Term → Prop}
    (hR : IsCompatible R) {ks : List Kind} {depth : Nat} {leaf : Kind → Term → List Term}
    (hleaf : ∀ k J t u, R J t u → List.Forall₂ (R J) (leaf k t) (leaf k u))
    {t u : Term} {J : Interpretation α} {arity position : Nat}
    (h : ∀ J', J.AgreesOff (componentBinders depth ks) J' → R J' t u) :
    List.Forall₂ (R J) (componentInvariants depth leaf t arity position ks)
      (componentInvariants depth leaf u arity position ks) := by
  cases ks with
  | nil => exact .nil
  | cons k ks =>
    rw [componentInvariants, componentInvariants]
    refine List.rel_append (related_invariantsAt hR hleaf fun J' hJ' => ?_)
      (related_componentInvariants hR hleaf fun J' hJ' => ?_)
    · exact hR.app (.projection position arity)
        (.cons (h J' (hJ'.mono (List.subset_append_left _ _))) .nil)
    · exact h J' (hJ'.mono (List.subset_append_right _ _))

end

variable {R : Interpretation α → Term → Term → Prop} {J : Interpretation α} {t u : Term}

/-- The conjunctions of the invariants for related terms. -/
theorem related_invariants (hR : IsCompatible R) {k : Kind}
    (h : ∀ J', J.AgreesOff (k.binders 0) J' → R J' t u) :
    R J (conjunction (k.invariants t)) (conjunction (k.invariants u)) :=
  hR.conjunction (related_invariantsAt hR (fun k _ _ _ => hR.leafInvariants k) h)

end Kind

/-! ### Terms that denote the same -/

namespace Term

variable {T : Theory α} {J : Interpretation α}

theorem evalAll_congr_forall₂ {J' : Interpretation α} {ts us : List Term}
    (h : List.Forall₂ (fun t u => t.eval T J = u.eval T J') ts us) :
    evalAll T J ts = evalAll T J' us := by
  induction h with
  | nil => rfl
  | cons ht _ ih => rw [evalAll, evalAll, ht, ih]

theorem apply_bind_of_ne {name other : String} (h : other ≠ name) (f : Element.Function α) :
    T.apply (J.bind name f) (.symbol other) = T.apply J (.symbol other) := by
  unfold Theory.apply
  simp only [name?, J.bind_of_ne f h]

/-- Denoting the same, where a name that is not used in invariants has another meaning on the right,
is respected by applications and quantifiers. -/
theorem isCompatible_eval (T : Theory α) {fresh : String} (hfresh : ¬IsInvariantName fresh)
    (f : Element.Function α) :
    IsCompatible fun J t u => t.eval T J = u.eval T (J.bind fresh f) := by
  have hne {name : String} (h : IsInvariantName name) : name ≠ fresh := fun heq => hfresh (heq ▸ h)
  exact {
    symbol := fun h J => (congrFun (apply_bind_of_ne (T := T) (hne h) f) []).symm
    numeral := fun _ _ => rfl
    app := fun h _ ts us hts => by
      rw [eval, eval, apply_bind_of_ne (hne h), evalAll_congr_forall₂ hts]
    tester := fun _ _ t u ht _ _ => by
      rw [eval, eval, evalAll_congr_forall₂ (.cons ht .nil)]
      rfl
    forAll := fun h J t u ht s => by
      rw [eval, eval]
      refine congrArg (fun b => some (Element.bool b)) (decide_eq_decide.mpr ?_)
      refine forall_congr' fun es => imp_congr_right fun hes => ?_
      obtain ⟨e, _, -, hnil, rfl⟩ := List.forall₂_cons_left_iff.mp hes
      obtain rfl := List.forall₂_nil_left_iff.mp hnil
      refine Iff.of_eq (congrArg (· = some (Element.bool true)) ((ht e.constant).trans ?_))
      -- The variable and the other name are not the same, so either may be bound first.
      exact congrArg (eval T · u) (J.bind_comm (hne h) _ _).symm }

/-- Applications and quantifiers are no local definitions. -/
theorem isCompatible_definesNothing :
    IsCompatible fun (_ : Interpretation α) t _ => t.definesNothing = true where
  symbol _ _ := rfl
  numeral _ _ := rfl
  app _ _ ts us h := by
    refine (Bool.true_and _).trans (allDefineNothing_iff.mpr ?_)
    induction h with
    | nil => exact fun t ht => absurd ht List.not_mem_nil
    | cons ht _ ih => exact List.forall_mem_cons.mpr ⟨ht, ih⟩
  tester _ _ _ _ h _ _ := by simp [Composite.testerWithSignature, definesNothing,
    allDefineNothing, h]
  forAll _ _ _ _ h _ := h fun _ => none

end Term

namespace Kind

/-- What is said about a constant may be said about the result of a function in its place, unless a
quantifier hides the constant. -/
theorem eval_conjunction_invariants {T : Theory α} {J : Interpretation α} {k : Kind} {name : String}
    (hname : ∀ es, T.function (.symbol name) es = none)
    (hresult : ∀ es, T.function (.symbol resultName) es = none) (hvisible : name ∉ k.binders 0) :
    (conjunction (k.invariants (.symbol name))).eval T J =
      (conjunction (k.invariants (.symbol resultName))).eval T (J.bind resultName (J name)) := by
  refine related_invariants
    (Term.isCompatible_eval T not_isInvariantName_resultName (J name)) fun J' hJ' => ?_
  have hleft : (Term.symbol name).eval T J' = J' name [] :=
    congrArg (Option.or · _) (hname [])
  have hright : (Term.symbol resultName).eval T (J'.bind resultName (J name)) =
      J'.bind resultName (J name) resultName [] :=
    congrArg (Option.or · _) (hresult [])
  rw [hleft, hright, Interpretation.bind_self, hJ' name hvisible]

theorem definesNothing_conjunction_invariants {k : Kind} {t : Term}
    (h : t.definesNothing = true) : (conjunction (k.invariants t)).definesNothing = true :=
  related_invariants (α := Unit) (J := fun _ _ => none) (u := t)
    Term.isCompatible_definesNothing fun _ _ => h

end Kind

end SolverScript
