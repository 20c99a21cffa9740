import SolverScript.Problem.Features
import SolverScript.Proofs.Kind.Set
import SolverScript.Script.Invariant

/-!
# Which kinds have invariants

A kind has invariants just if there are characters or rationals inside. The invariants of what an
optional or a sum is made from are guarded by a test for its constructor, so an optional or a sum is
tested just for the constructors of components that have invariants.

## Main definitions

* `Kind.IsExactLeaf` - invariants of characters and rationals, and of nothing else
* `Kind.HasPlainSets` - kinds without sets of composites that have invariants
* `Kind.guards` - the constructors that the invariants of a kind test for

## Main results

* `Kind.invariants_eq_nil_iff` - which kinds have no invariants
-/

namespace SolverScript.Kind

/-! ### Kinds without characters and rationals -/

@[simp] theorem containsCharOrRational_maybe (k : Kind) :
    (maybe k).containsCharOrRational = k.containsCharOrRational := rfl

@[simp] theorem containsCharOrRational_either (l r : Kind) :
    (either l r).containsCharOrRational =
      (l.containsCharOrRational || r.containsCharOrRational) :=
  List.any_append

theorem containsCharOrRational_tuple_eq_any (ks : List Kind) :
    (tuple ks).containsCharOrRational = ks.any containsCharOrRational := by
  have hall : (subkindsAll ks).any (fun sub => sub.isChar || sub.isRational) =
      ks.any containsCharOrRational := by
    induction ks with
    | nil => rfl
    | cons k ks ih => rw [subkindsAll, List.any_append, ih, List.any_cons]; rfl
  exact hall

theorem containsCharOrRational_tuple {ks : List Kind}
    (h : (tuple ks).containsCharOrRational = false) :
    ∀ k ∈ ks, k.containsCharOrRational = false := by
  simpa [containsCharOrRational_tuple_eq_any] using h

theorem eq_char_or_rational {k : Kind} (hk : k.isComposite = false)
    (hcontains : k.containsCharOrRational = true) : k = char ∨ k = rational := by
  cases k with
  | char => exact .inl rfl
  | rational => exact .inr rfl
  | list | set | tuple | maybe | either => cases hk
  | _ => cases hcontains

/-! ### Kinds without invariants -/

mutual

/-- A kind without characters and rationals inside has no invariants. -/
theorem invariantsAt_eq_nil {depth : Nat} {leaf : Kind → Term → List Term} {t : Term} {k : Kind}
    (hleaf : ∀ k t, k.isChar = false → k.isRational = false → leaf k t = [])
    (h : k.containsCharOrRational = false) : invariantsAt depth leaf t k = [] := by
  cases k with
  | list k | set k =>
    have hk : k.containsCharOrRational = false := h
    rw [invariantsAt, hk]
    rfl
  | tuple ks => exact componentInvariants_eq_nil hleaf (containsCharOrRational_tuple h)
  | maybe k =>
    have hk : k.containsCharOrRational = false := h
    rw [invariantsAt, invariantsAt_eq_nil hleaf hk]
    rfl
  | either l r =>
    rw [containsCharOrRational_either, Bool.or_eq_false_iff] at h
    rw [invariantsAt, invariantsAt_eq_nil hleaf h.1, invariantsAt_eq_nil hleaf h.2]
    rfl
  | char | rational => cases h
  | _ => exact hleaf _ _ rfl rfl

theorem componentInvariants_eq_nil {depth : Nat} {leaf : Kind → Term → List Term} {t : Term}
    {arity position : Nat} {ks : List Kind}
    (hleaf : ∀ k t, k.isChar = false → k.isRational = false → leaf k t = [])
    (h : ∀ k ∈ ks, k.containsCharOrRational = false) :
    componentInvariants depth leaf t arity position ks = [] := by
  cases ks with
  | nil => rfl
  | cons k ks =>
    obtain ⟨hk, hks⟩ := List.forall_mem_cons.mp h
    rw [componentInvariants, invariantsAt_eq_nil hleaf hk, componentInvariants_eq_nil hleaf hks]
    rfl

end

/-- What a walk along a kind needs of the invariants at its leaves: characters and rationals have
some, and no other kinds have any. -/
structure IsExactLeaf (leaf : Kind → Term → List Term) : Prop where
  eq_nil : ∀ k t, k.isChar = false → k.isRational = false → leaf k t = []
  ne_nil : ∀ k t, k.isComposite = false → k.containsCharOrRational = true → leaf k t ≠ []

theorem isExactLeaf_leafInvariants : IsExactLeaf leafInvariants where
  eq_nil k t hchar hrational := by
    cases k with
    | char => cases hchar
    | rational => cases hrational
    | _ => rfl
  ne_nil k t hk hcontains := by
    rcases eq_char_or_rational hk hcontains with rfl | rfl <;> exact List.cons_ne_nil _ _

/-- The invariants of the members of a set, in place of those of its elements. -/
theorem IsExactLeaf.ofMember {leaf : Kind → Term → List Term} (hleaf : IsExactLeaf leaf)
    (member : String) : IsExactLeaf fun sub part => (leaf sub (.symbol member)).map
      (implication (.app (.symbol "select") [part, .symbol member])) where
  eq_nil k t hchar hrational := by rw [hleaf.eq_nil k _ hchar hrational, List.map_nil]
  ne_nil k t hk hcontains := by simpa using hleaf.ne_nil k (.symbol member) hk hcontains

mutual

/-- A kind with characters or rationals inside has invariants. -/
theorem invariantsAt_ne_nil {depth : Nat} {leaf : Kind → Term → List Term} {t : Term} {k : Kind}
    (hleaf : IsExactLeaf leaf) (h : k.containsCharOrRational = true) :
    invariantsAt depth leaf t k ≠ [] := by
  cases k with
  | list k | set k =>
    have hk : k.containsCharOrRational = true := h
    rw [invariantsAt, if_pos hk]
    exact List.cons_ne_nil _ _
  | tuple ks =>
    exact componentInvariants_ne_nil hleaf (containsCharOrRational_tuple_eq_any ks ▸ h)
  | maybe k =>
    have hk : k.containsCharOrRational = true := h
    simpa [invariantsAt, whenMadeBy] using invariantsAt_ne_nil hleaf hk
  | either l r =>
    rw [containsCharOrRational_either, Bool.or_eq_true] at h
    simp only [invariantsAt, whenMadeBy, ne_eq, List.append_eq_nil_iff, List.map_eq_nil_iff]
    rintro ⟨hleft, hright⟩
    exact h.elim (fun hl => invariantsAt_ne_nil hleaf hl hleft)
      fun hr => invariantsAt_ne_nil hleaf hr hright
  | _ => exact hleaf.ne_nil _ _ rfl h

theorem componentInvariants_ne_nil {depth : Nat} {leaf : Kind → Term → List Term} {t : Term}
    {arity position : Nat} {ks : List Kind} (hleaf : IsExactLeaf leaf)
    (h : ks.any containsCharOrRational = true) :
    componentInvariants depth leaf t arity position ks ≠ [] := by
  cases ks with
  | nil => cases h
  | cons k ks =>
    rw [List.any_cons, Bool.or_eq_true] at h
    rw [componentInvariants, ne_eq, List.append_eq_nil_iff]
    rintro ⟨hhead, htail⟩
    exact h.elim (fun hk => invariantsAt_ne_nil hleaf hk hhead)
      fun hks => componentInvariants_ne_nil hleaf hks htail

end

theorem invariantsAt_eq_nil_iff {depth : Nat} {leaf : Kind → Term → List Term} {t : Term}
    {k : Kind} (hleaf : IsExactLeaf leaf) :
    invariantsAt depth leaf t k = [] ↔ k.containsCharOrRational = false := by
  refine ⟨fun h => ?_, invariantsAt_eq_nil hleaf.eq_nil⟩
  by_contra hcontains
  exact invariantsAt_ne_nil hleaf (by simpa using hcontains) h

/-- A kind has no invariants just if there are no characters and rationals inside. -/
theorem invariants_eq_nil_iff {k : Kind} {t : Term} :
    k.invariants t = [] ↔ k.containsCharOrRational = false :=
  invariantsAt_eq_nil_iff isExactLeaf_leafInvariants

theorem invariants_eq_nil {k : Kind} (h : k.containsCharOrRational = false) (t : Term) :
    k.invariants t = [] :=
  invariants_eq_nil_iff.mpr h

/-! ### Sets of characters and rationals -/

/-- Whether the elements of each set inside a kind are characters, rationals, or free of both. -/
def HasPlainSets (k : Kind) : Prop :=
  ∀ element, set element ∈ k.subkinds →
    element = char ∨ element = rational ∨ element.containsCharOrRational = false

theorem hasPlainSets_list {k : Kind} : (list k).HasPlainSets ↔ k.HasPlainSets := by
  simp [HasPlainSets, subkinds]

theorem hasPlainSets_maybe {k : Kind} : (maybe k).HasPlainSets ↔ k.HasPlainSets := by
  simp [HasPlainSets, subkinds]

theorem hasPlainSets_set {k : Kind} :
    (set k).HasPlainSets ↔
      (k = char ∨ k = rational ∨ k.containsCharOrRational = false) ∧ k.HasPlainSets := by
  simp [HasPlainSets, subkinds, or_imp, forall_and]

theorem hasPlainSets_either {l r : Kind} :
    (either l r).HasPlainSets ↔ l.HasPlainSets ∧ r.HasPlainSets := by
  simp [HasPlainSets, subkinds, or_imp, forall_and]

theorem hasPlainSets_tuple {ks : List Kind} :
    (tuple ks).HasPlainSets ↔ ∀ k ∈ ks, k.HasPlainSets := by
  simp only [HasPlainSets, subkinds, List.mem_cons, reduceCtorEq, false_or, mem_subkindsAll]
  exact ⟨fun h k hk element helement => h element ⟨k, hk, helement⟩,
    fun h element ⟨k, hk, helement⟩ => h k hk element helement⟩

/-- A kind without characters and rationals has no sets of them. -/
theorem hasPlainSets_of_not_contains {k : Kind} (h : k.containsCharOrRational = false) :
    k.HasPlainSets := by
  intro element helement
  have hself : element ∈ (set element).subkinds := by
    cases element <;> exact List.mem_cons_of_mem _ List.mem_cons_self
  exact .inr (.inr (occurs_eq_false_of_mem h (subkinds_subset helement hself)))

/-- The elements of a set of that sort are not composite, if they have invariants. -/
theorem HasPlainSets.isComposite_element {k : Kind} (h : (set k).HasPlainSets)
    (hcontains : k.containsCharOrRational = true) : k.isComposite = false := by
  rcases (hasPlainSets_set.mp h).1 with rfl | rfl | hfree
  · rfl
  · rfl
  · exact absurd (hfree.symm.trans hcontains) (by decide)

/-! ### Guards -/

/-- The constructors that the invariants of a kind test its values for, each with the kind of what
it is applied to. There is no test for what has no invariants, nor inside the value. -/
def guards : Kind → List (String × Kind)
  | maybe k => if k.containsCharOrRational then [(Composite.maybeConstructor true, k)] else []
  | either l r =>
    (if l.containsCharOrRational then [(Composite.sideConstructor false, l)] else []) ++
      if r.containsCharOrRational then [(Composite.sideConstructor true, r)] else []
  | _ => []

/-- Only optionals and sums with characters or rationals inside are tested. -/
theorem guards_eq_nil_iff {k : Kind} :
    k.guards = [] ↔ (k.isMaybe || k.isEither) = true → k.containsCharOrRational = false := by
  cases k <;> simp [guards, isMaybe, isEither]

end SolverScript.Kind
