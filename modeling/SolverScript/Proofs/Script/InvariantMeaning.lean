import SolverScript.Proofs.Script.DecidingFormulas
import SolverScript.Proofs.Script.WellFormedValues

/-!
# The meaning of invariants

The invariants of a kind are formulas about a term. Here they are read as a property of the value
that the term denotes: every character inside has length one and every denominator inside is
positive. Lists, optionals, sums and tuples have it when what they are made of does. A set of
characters or rationals has it when all of its members do, and so does not if it is the complement
of a finite set. The invariants of a set of composites that contain such values are about the
components of the set, which has none, and so hold for no set.

## Main definitions

* `Kind.Allows` - the property of values
* `IsForeign` - whether a term denotes nothing, or a set of values too large for a kind

## Main results

* `Kind.admits_iff_allows` - what a term denotes has the invariants of a kind just if the kind
  allows the value
-/

namespace SolverScript

namespace Kind

mutual

/-- Whether a value of the sort of a kind is one of the kind. -/
def Allows {C : SortExpr → Type} : (k : Kind) → k.domain.Model C → Prop
  | char => fun cs : List CodePoint => cs.length = 1
  | rational => fun q : Int × Int => 0 < q.2
  | list k => fun xs : List (k.domain.Model C) => ∀ x ∈ xs, Allows k x
  | set k => fun f : k.domain.Model C → Bool =>
    k.containsCharOrRational = true → k.isComposite = false ∧ ∀ x, f x = true → Allows k x
  | tuple ks => AllowsAll ks
  | maybe k => fun o : Option (k.domain.Model C) => ∀ x ∈ o, Allows k x
  | either l r => Sum.elim (Allows l) (Allows r)
  | _ => fun _ => True

/-- Whether the components of a tuple are values of their kinds. -/
def AllowsAll {C : SortExpr → Type} : (ks : List Kind) → Domain.Models C (domains ks) → Prop
  | [] => fun _ => True
  | k :: ks => fun xs : k.domain.Model C × Domain.Models C (domains ks) =>
    Allows k xs.1 ∧ AllowsAll ks xs.2

end

variable {C : SortExpr → Type}

theorem allows_set {k : Kind} {f : k.domain.Model C → Bool} :
    (set k).Allows (C := C) f ↔ (k.containsCharOrRational = true →
      k.isComposite = false ∧ ∀ x, f x = true → k.Allows x) := Iff.rfl

mutual

/-- A kind without characters and rationals inside allows all values of its sort. -/
theorem allows_of_not_contains {k : Kind} (h : k.containsCharOrRational = false)
    (x : k.domain.Model C) : k.Allows x := by
  cases k with
  | list k => exact fun y _ => allows_of_not_contains (k := k) h y
  | set k =>
    intro hcontains
    exact absurd (h.symm.trans hcontains) (by decide)
  | tuple ks => exact allowsAll_of_not_contains (containsCharOrRational_tuple h) x
  | maybe k => exact fun y _ => allows_of_not_contains (k := k) h y
  | either l r =>
    rw [containsCharOrRational_either, Bool.or_eq_false_iff] at h
    cases x with
    | inl x => exact allows_of_not_contains h.1 x
    | inr x => exact allows_of_not_contains h.2 x
  | char | rational => cases h
  | _ => trivial

theorem allowsAll_of_not_contains {ks : List Kind}
    (h : ∀ k ∈ ks, k.containsCharOrRational = false) (xs : Domain.Models C (domains ks)) :
    AllowsAll ks xs := by
  cases ks with
  | nil => trivial
  | cons k ks =>
    obtain ⟨hk, hks⟩ := List.forall_mem_cons.mp h
    exact ⟨allows_of_not_contains hk _, allowsAll_of_not_contains hks _⟩

end

end Kind

/-! ### Terms of other sorts -/

/-- Whether a term denotes nothing, or a set of values of at least a given size. -/
def IsForeign (S : OpenSorts) (J : Interpretation (Datum S.Carrier)) (t : Term) (size : Nat) :
    Prop :=
  t.eval S.theory J = none ∨ ∃ (d : Domain) (f : d.Model S.Carrier → Bool),
    t.eval S.theory J = some (Datum.element ⟨.set d, f⟩) ∧ size ≤ sizeOf d

namespace IsForeign

variable {S : OpenSorts} {J : Interpretation (Datum S.Carrier)} {t : Term} {size : Nat}

/-- A set has neither elements nor components nor parts that an accessor gives. -/
theorem eval_accessor (h : IsForeign S J t size) (hJ : J.LeavesData S) {name : String}
    (hname : S.IsDataName name)
    (hstandard : (Theory.symbols (α := Datum S.Carrier)).lookup name = none)
    (hset : ∀ d f, S.functionOnData (.symbol name) [⟨.set d, f⟩] = none) :
    (Term.app (.symbol name) [t]).eval S.theory J = none := by
  rcases h with h | ⟨d, f, h, -⟩
  · exact Fails.eval_app_eq_none List.mem_cons_self h
  · rw [Term.eval_app_of_evalAll (Term.evalAll_eq_some_iff.mpr (.cons h .nil))]
    have hfunction := OpenSorts.function_eq (.symbol hname) [⟨.set d, f⟩]
      (by rw [Theory.standard_symbol, hstandard, Option.bind_none])
    have hnone := hfunction.trans (congrArg (Option.map _) (hset d f))
    exact (congrArg (Option.or · _) hnone).trans (hJ name hname _)

/-- A set was not made by a constructor. -/
theorem eval_tester (h : IsForeign S J t size) {constructor : String} {parameters : List Kind}
    {whole : Kind} (hwhole : ∀ d, whole.domain ≠ .set d) :
    (Term.app (Composite.testerWithSignature constructor parameters whole) [t]).eval S.theory J =
      none := by
  rcases h with h | ⟨d, f, h, -⟩
  · exact Fails.eval_app_eq_none List.mem_cons_self h
  · rw [Term.eval_app_of_evalAll (Term.evalAll_eq_some_iff.mpr (.cons h .nil))]
    refine (OpenSorts.function_eq (.tester _ _) [⟨.set d, f⟩] rfl).trans ?_
    have hdomain : ¬Domain.set d = whole.sort.domain := by
      rw [whole.domain_sort]
      exact fun heq => hwhole d heq.symm
    exact congrArg (Option.map _) (if_neg hdomain)

/-- A set has no members of other sorts. -/
theorem eval_select (h : IsForeign S J t size) (hJ : J.LeavesData S) {u : Term}
    {a : Datum S.Carrier} (hu : u.eval S.theory J = some a.element)
    (hsize : sizeOf a.domain < size) :
    (Term.app (.symbol "select") [t, u]).eval S.theory J = none := by
  rcases h with h | ⟨d, f, h, hd⟩
  · exact Fails.eval_app_eq_none List.mem_cons_self h
  · have hname : S.IsDataName "select" := .symbol (mem_keys_of_lookup rfl)
    have hdomain : a.domain ≠ d := by
      rintro rfl
      omega
    rw [Term.eval_app_of_evalAll (Term.evalAll_eq_some_iff.mpr (.cons h (.cons hu .nil)))]
    have hfunction := OpenSorts.function_eq (.symbol hname) [⟨.set d, f⟩, a] rfl
    have hdata : S.functionOnData (.symbol "select") [⟨.set d, f⟩, a] =
        ((a.as? d).map fun x => ⟨.bool, f x⟩).or none := rfl
    rw [hdata, Datum.as?_of_ne hdomain] at hfunction
    exact (congrArg (Option.or · _) hfunction).trans (hJ _ hname _)

end IsForeign

/-! ### Kinds -/

namespace Kind

variable {S : OpenSorts} {J : Interpretation (Datum S.Carrier)} {depth : Nat} {t : Term}

theorem decides_leafInvariants_char {cs : List CodePoint}
    (ht : t.Denotes S (J.AgreesOutside depth) ⟨.text, cs⟩) :
    Decides S J (char.leafInvariants t) (cs.length = 1) := by
  have h := Term.Denotes.equalInts (.numeral 1) ht.length J (.refl depth J)
  refine .singleton h ?_
  rw [decide_eq_true_iff]
  exact ⟨fun h => (Int.ofNat.inj h).symm, fun h => congrArg Int.ofNat h.symm⟩

theorem decides_leafInvariants_rational {q : Int × Int}
    (ht : t.Denotes S (J.AgreesOutside depth) ⟨.rational, q⟩) :
    Decides S J (rational.leafInvariants t) (0 < q.2) := by
  have h := Term.Denotes.less (.numeral 0) ht.denominator J (.refl depth J)
  refine .singleton h ?_
  rw [decide_eq_true_iff]
  rfl

/-- The leaf invariants of a kind that is not composite. -/
theorem decides_leafInvariants {k : Kind} (hk : k.isComposite = false)
    {x : k.domain.Model S.Carrier} (ht : t.Denotes S (J.AgreesOutside depth) ⟨k.domain, x⟩) :
    Decides S J (k.leafInvariants t) (k.Allows x) := by
  cases k with
  | char => exact decides_leafInvariants_char ht
  | rational => exact decides_leafInvariants_rational ht
  | list | set | tuple | maybe | either => cases hk
  | _ => exact .nil trivial

theorem invariantsAt_of_not_composite {k : Kind} (hk : k.isComposite = false)
    {leaf : Kind → Term → List Term} : k.invariantsAt depth leaf t = leaf k t := by
  cases k with
  | list | set | tuple | maybe | either => cases hk
  | _ => rfl

/-- What a walk along a kind needs of the invariants of characters and rationals: they are the only
ones, and are not formulas that hold for a term without a meaning. -/
structure IsLeaf (S : OpenSorts) (leaf : Kind → Term → List Term) : Prop
    extends IsExactLeaf leaf where
  fails : ∀ k t J, k.isComposite = false → k.containsCharOrRational = true →
    t.eval S.theory J = none → Fails S J (leaf k t)

theorem isLeaf_leafInvariants : IsLeaf S leafInvariants where
  toIsExactLeaf := isExactLeaf_leafInvariants
  fails k t J hk hcontains ht := by
    have hformula : ∀ op bound name,
        Fails S J [.app (.symbol op) [.numeral bound, .app (.symbol name) [t]]] := by
      intro op bound name
      refine .of_none (List.cons_ne_nil _ _) (List.forall_mem_singleton.mpr ?_)
      exact Fails.eval_app_eq_none (List.mem_cons_of_mem _ List.mem_cons_self)
        (Fails.eval_app_eq_none List.mem_cons_self ht)
    rcases eq_char_or_rational hk hcontains with rfl | rfl
    · exact hformula _ _ _
    · exact hformula _ _ _

/-- The invariants of the members of a set, in place of those of its elements. -/
theorem IsLeaf.ofMember {leaf : Kind → Term → List Term} (hleaf : IsLeaf S leaf) (member : String) :
    IsLeaf S fun sub part => (leaf sub (.symbol member)).map
      (implication (.app (.symbol "select") [part, .symbol member])) where
  toIsExactLeaf := hleaf.toIsExactLeaf.ofMember member
  fails k _ _ hk hcontains ht :=
    .guarded (hleaf.ne_nil k _ hk hcontains) (Fails.eval_app_eq_none List.mem_cons_self ht)

mutual

/-- The invariants of a composite kind do not hold for a set that is not of this kind, and those of
no kind hold for a term without a meaning. -/
theorem fails_invariantsAt {k : Kind} {leaf : Kind → Term → List Term} {depth size : Nat}
    {t : Term} {J : Interpretation (Datum S.Carrier)} (hleaf : IsLeaf S leaf)
    (hJ : J.LeavesData S) (hcontains : k.containsCharOrRational = true)
    (hsize : sizeOf k.domain ≤ size)
    (ht : ∀ J', J.AgreesOutside depth J' → IsForeign S J' t size)
    (hk : k.isComposite = true ∨ t.eval S.theory J = none) :
    Fails S J (k.invariantsAt depth leaf t) := by
  cases k with
  | list k =>
    have hk : k.containsCharOrRational = true := hcontains
    have hposition : IsBoundName depth ("seq" ++ Nat.repr depth) := .position (Nat.le_refl depth)
    have hagrees := Interpretation.AgreesOutside.bind (J := J) hposition (Element.int 0).constant
    -- The invariants of a list ask for its length first.
    have hname : S.IsDataName "seq.len" := .symbol (mem_keys_of_lookup rfl)
    have hlength := (ht _ hagrees).eval_accessor (hJ.of_agreesOutside hagrees) hname rfl
      fun _ _ => rfl
    rw [invariantsAt, if_pos hk]
    exact .elementwise hlength
  | set k =>
    have hk : k.containsCharOrRational = true := hcontains
    have hmember : IsBoundName depth ("set" ++ Nat.repr depth) := .member (Nat.le_refl depth)
    set y : Datum S.Carrier := ⟨k.domain, S.unspecified "" [] k.domain⟩
    have hagrees := Interpretation.AgreesOutside.bind (J := J) hmember y.element.constant
    have hsize : sizeOf k.domain < size := by
      rw [domain, Domain.set.sizeOf_spec] at hsize
      omega
    -- The walk goes on with the same term. Only leaves are about the member, and those are reached
    -- at once or behind an accessor that a set does not have.
    rw [invariantsAt, if_pos hk]
    refine .forAll (S.hasDomains_theory.contains k y.value) (Fails.eval_conjunction_ne ?_)
    cases hcomposite : k.isComposite with
    | true =>
      exact fails_invariantsAt (hleaf.ofMember _) (hJ.of_agreesOutside hagrees) hk hsize.le
        (fun J' hJ' => ht J' (.of_bind hmember hJ')) (.inl hcomposite)
    | false =>
      -- The members of the set are larger than the one that it is asked for.
      rw [invariantsAt_of_not_composite hcomposite]
      refine .guarded (hleaf.ne_nil _ _ hcomposite hk) ?_
      have hy := Term.Denotes.bound hmember (IsBoundName.not_member depth) J y
      exact (ht _ hagrees).eval_select (hJ.of_agreesOutside hagrees)
        (hy _ (.refl (depth + 1) _)) hsize
  | tuple ks =>
    rw [containsCharOrRational_tuple_eq_any] at hcontains
    rw [invariantsAt]
    refine fails_componentInvariants hleaf hJ hcontains fun position J' hJ' => ?_
    refine (ht J' hJ').eval_accessor (hJ.of_agreesOutside hJ') (.projection position ks.length)
      (OpenSorts.lookup_projection_standard position ks.length) fun d f => ?_
    rw [OpenSorts.functionOnData_symbol, OpenSorts.lookup_projection]
    rfl
  | maybe k =>
    have hk : k.containsCharOrRational = true := hcontains
    have hjust : ∀ J', J.AgreesOutside depth J' →
        (Term.app (.symbol Composite.maybeAccessor) [t]).eval S.theory J' = none := fun J' hJ' =>
      (ht J' hJ').eval_accessor (hJ.of_agreesOutside hJ')
        (.symbol (mem_keys_of_lookup rfl)) rfl fun _ _ => rfl
    have hinner : Fails S J
        (k.invariantsAt (depth + 1) leaf (.app (.symbol Composite.maybeAccessor) [t])) :=
      fails_invariantsAt hleaf hJ hk le_rfl (fun J' hJ' => .inl (hjust J' hJ'.deeper))
        (.inr (hjust J (.refl depth J)))
    rw [invariantsAt]
    exact .guarded hinner.ne_nil ((ht J (.refl depth J)).eval_tester (by simp [domain]))
  | either l r =>
    have hside : ∀ isRight J', J.AgreesOutside depth J' →
        (Term.app (.symbol (Composite.sideAccessor isRight)) [t]).eval S.theory J' = none := by
      intro isRight J' hJ'
      cases isRight with
      | false =>
        exact (ht J' hJ').eval_accessor (hJ.of_agreesOutside hJ')
          (.symbol (mem_keys_of_lookup rfl)) rfl fun _ _ => rfl
      | true =>
        exact (ht J' hJ').eval_accessor (hJ.of_agreesOutside hJ')
          (.symbol (mem_keys_of_lookup rfl)) rfl fun _ _ => rfl
    have hguarded : ∀ {formulas constructor parameter}, Fails S J formulas →
        Fails S J (whenMadeBy constructor parameter (either l r) t formulas) := fun h =>
      .guarded h.ne_nil ((ht J (.refl depth J)).eval_tester (by simp [domain]))
    rw [invariantsAt]
    refine .append (fun hl => hguarded ?_) (fun hl => ?_) (fun hr => hguarded ?_) (fun hr => ?_)
      (containsCharOrRational_either l r ▸ hcontains)
    · exact fails_invariantsAt hleaf hJ hl le_rfl
        (fun J' hJ' => .inl (hside false J' hJ'.deeper)) (.inr (hside false J (.refl depth J)))
    · rw [invariantsAt_eq_nil hleaf.eq_nil hl]
      rfl
    · exact fails_invariantsAt hleaf hJ hr le_rfl
        (fun J' hJ' => .inl (hside true J' hJ'.deeper)) (.inr (hside true J (.refl depth J)))
    · rw [invariantsAt_eq_nil hleaf.eq_nil hr]
      rfl
  | _ => exact hleaf.fails _ _ _ rfl hcontains (hk.resolve_left Bool.false_ne_true)

theorem fails_componentInvariants {ks : List Kind} {leaf : Kind → Term → List Term}
    {depth : Nat} {t : Term} {J : Interpretation (Datum S.Carrier)} {arity position : Nat}
    (hleaf : IsLeaf S leaf) (hJ : J.LeavesData S)
    (hcontains : ks.any containsCharOrRational = true)
    (ht : ∀ position J', J.AgreesOutside depth J' →
      (Term.app (.symbol (Composite.projection position arity)) [t]).eval S.theory J' = none) :
    Fails S J (componentInvariants depth leaf t arity position ks) := by
  cases ks with
  | nil => cases hcontains
  | cons k ks =>
    rw [componentInvariants]
    refine .append (fun hk => ?_) (invariantsAt_eq_nil hleaf.eq_nil)
      (fun hks => fails_componentInvariants hleaf hJ hks ht) (fun hks => ?_) hcontains
    · exact fails_invariantsAt hleaf hJ hk le_rfl
        (fun J' hJ' => .inl (ht position J' hJ'.deeper)) (.inr (ht position J (.refl depth J)))
    · exact componentInvariants_eq_nil hleaf.eq_nil (by simpa using hks)

end

/-- The invariants of a set of composite values hold for no set. -/
theorem decides_invariantsAt_composite (hJ : J.LeavesData S) {k : Kind}
    (hk : k.isComposite = true) (hcontains : k.containsCharOrRational = true)
    {f : k.domain.Model S.Carrier → Bool}
    (ht : t.Denotes S (J.AgreesOutside depth) ⟨.set k.domain, f⟩) :
    Decides S J ((set k).invariantsAt depth leafInvariants t) False := by
  have hmember : IsBoundName depth ("set" ++ Nat.repr depth) := .member (Nat.le_refl depth)
  set y : Datum S.Carrier := ⟨k.domain, S.unspecified "" [] k.domain⟩
  -- What is asserted under the quantifier is about the set itself, as if it were a member.
  rw [invariantsAt, if_pos hcontains]
  refine .forAll ⟨fun hall => ?_, False.elim⟩
  have hfails := fails_invariantsAt (isLeaf_leafInvariants.ofMember ("set" ++ Nat.repr depth))
    (hJ.of_agreesOutside (.bind hmember y.element.constant)) hcontains le_rfl
    (fun J' hJ' => .inr ⟨k.domain, f, ht J' (.of_bind hmember hJ'), le_rfl⟩) (.inl hk)
  exact hfails.eval_conjunction_ne (hall _ (S.hasDomains_theory.contains k y.value))

theorem decides_invariantsAt_set {k : Kind} {f : k.domain.Model S.Carrier → Bool}
    (hJ : (set k).HasPlainSets ∨ J.LeavesData S)
    (ht : t.Denotes S (J.AgreesOutside depth) ⟨.set k.domain, f⟩) :
    Decides S J ((set k).invariantsAt depth leafInvariants t) ((set k).Allows f) := by
  cases hcontains : k.containsCharOrRational with
  | false =>
    rw [invariantsAt, hcontains]
    exact .nil (allows_of_not_contains (k := .set k) hcontains f)
  | true =>
    cases hk : k.isComposite with
    | true =>
      have hJ := hJ.resolve_left fun hplain =>
        absurd (hk.symm.trans (hplain.isComposite_element hcontains)) (by decide)
      refine (decides_invariantsAt_composite hJ hk hcontains ht).congr ⟨False.elim, fun h => ?_⟩
      exact absurd (hk.symm.trans (h hcontains).1) (by decide)
    | false =>
      have hmember : IsBoundName depth ("set" ++ Nat.repr depth) := .member (Nat.le_refl depth)
      rw [invariantsAt, if_pos hcontains]
      simp only [invariantsAt_of_not_composite hk]
      refine (Decides.forAllOf (k := k) fun y => ?_).congr
        ⟨fun hall _ => ⟨hk, hall⟩, fun hallows => (hallows hcontains).2⟩
      have hy := Term.Denotes.bound hmember (IsBoundName.not_member depth) J ⟨k.domain, y⟩
      have hselect := (ht.under hmember (Datum.element ⟨k.domain, y⟩).constant).select hy
      exact (Decides.guarded (hselect _ (.refl (depth + 1) _))
        (decides_leafInvariants hk hy)).conjunction

mutual

/-- The invariants of a kind say of a value of its sort whether the kind allows it. Only those of
sets of composites depend on what the names of functions on data stand for elsewhere. -/
theorem decides_invariantsAt {k : Kind} {x : k.domain.Model S.Carrier} {depth : Nat} {t : Term}
    {J : Interpretation (Datum S.Carrier)} (hJ : k.HasPlainSets ∨ J.LeavesData S)
    (ht : t.Denotes S (J.AgreesOutside depth) ⟨k.domain, x⟩) :
    Decides S J (k.invariantsAt depth leafInvariants t) (k.Allows x) := by
  cases k with
  | list k =>
    cases hcontains : k.containsCharOrRational with
    | false =>
      rw [invariantsAt, hcontains]
      exact .nil (allows_of_not_contains (k := .list k) hcontains x)
    | true =>
      rw [invariantsAt, if_pos hcontains]
      have hposition : IsBoundName depth ("seq" ++ Nat.repr depth) := .position (Nat.le_refl depth)
      refine .elementwise ht fun i => decides_invariantsAt
        (hJ.imp hasPlainSets_list.mp fun hJ => hJ.of_agreesOutside (.bind hposition _)) ?_
      exact (ht.under hposition _).nth
        (.bound hposition (IsBoundName.not_position depth) J ⟨.int, i⟩)
  | set k => exact decides_invariantsAt_set hJ ht
  | tuple ks =>
    rw [invariantsAt, ← length_domains]
    refine decides_componentInvariants (hJ.imp_left hasPlainSets_tuple.mp) fun i a hcomponent => ?_
    rw [Nat.add_comm]
    exact ht.projection hcomponent
  | maybe k =>
    -- The accessor has some value in any case; the premise tells whether it is the one inside.
    have hjust := decides_invariantsAt (k := k) (hJ.imp_left hasPlainSets_maybe.mp)
      ht.getJust.deeper
    rw [invariantsAt]
    refine (Decides.guarded (ht.tester rfl J (.refl depth J)) hjust).congr ?_
    cases x with
    | none => exact ⟨fun _ y hy => (by cases hy), fun _ hsome => (by cases hsome)⟩
    | some y => exact ⟨fun h _ hy => Option.some.inj hy ▸ h rfl, fun h _ => h y rfl⟩
  | either l r =>
    have hplain := hasPlainSets_either (l := l) (r := r)
    have hleft := decides_invariantsAt (k := l) (hJ.imp_left fun h => (hplain.mp h).1)
      ht.getLeft.deeper
    have hright := decides_invariantsAt (k := r) (hJ.imp_left fun h => (hplain.mp h).2)
      ht.getRight.deeper
    rw [invariantsAt]
    refine ((Decides.guarded (ht.tester rfl J (.refl depth J)) hleft).append
      (Decides.guarded (ht.tester rfl J (.refl depth J)) hright)).congr ?_
    cases x with
    | inl y => exact ⟨fun h => h.1 rfl, fun h => ⟨fun _ => h, fun hside => (by cases hside)⟩⟩
    | inr y => exact ⟨fun h => h.2 rfl, fun h => ⟨fun hside => (by cases hside), fun _ => h⟩⟩
  | _ => exact decides_leafInvariants rfl ht

/-- The invariants of the components of a tuple, from a position on. -/
theorem decides_componentInvariants {ks : List Kind} {xs : Domain.Models S.Carrier (domains ks)}
    {depth : Nat} {t : Term} {J : Interpretation (Datum S.Carrier)} {arity position : Nat}
    (hJ : (∀ k ∈ ks, k.HasPlainSets) ∨ J.LeavesData S)
    (ht : ∀ i a, Datum.component? (domains ks) xs i = some a →
      Term.Denotes S (J.AgreesOutside depth)
        (.app (.symbol (Composite.projection (position + i) arity)) [t]) a) :
    Decides S J (componentInvariants depth leafInvariants t arity position ks)
      (AllowsAll ks xs) := by
  cases ks with
  | nil => exact .nil trivial
  | cons k ks =>
    have hhead := ht 0 _ rfl
    have hk := hJ.imp_left fun h => (List.forall_mem_cons.mp h).1
    have hks := hJ.imp_left fun h => (List.forall_mem_cons.mp h).2
    refine .append (decides_invariantsAt hk hhead.deeper)
      (decides_componentInvariants hks fun i a hcomponent => ?_)
    rw [Nat.add_assoc, Nat.add_comm 1]
    exact ht (i + 1) a hcomponent

end

/-- What a term denotes has the invariants of a kind just if the kind allows it. -/
theorem admits_iff_allows (hJ : J.LeavesData S) {k : Kind} {x : k.domain.Model S.Carrier}
    (ht : t.Denotes S (J.AgreesOutside 0) ⟨k.domain, x⟩) : k.Admits S.theory J t ↔ k.Allows x :=
  (decides_invariantsAt (.inr hJ) ht).holds_iff

end Kind

end SolverScript
