import SolverScript.Proofs.Kind.Sorts
import SolverScript.Proofs.Script.InvariantMeaning
import SolverScript.Proofs.Semantics.WellSorted

/-!
# Sorts of invariants

Whether the invariants of a kind are formulas of the target language: whether every function in them
is applied to terms of the sorts that it expects. They are, for a constant that is declared with the
sort of the kind, with two exceptions. The invariants of a set of composites that have characters or
rationals inside speak of a member of the set as if it were such a character or rational. And a
constant that is called like a variable of the invariants is hidden by that variable.

## Main definitions

* `Sorting.AgreesOff` - sorts that differ at some names only
* `Kind.binders` - the variables of the invariants of a kind

## Main results

* `Kind.accepts_invariantsAt` - a walk along a kind with plain sets makes formulas
* `Kind.hasPlainSets_of_accepts`, `Kind.not_mem_binders_of_accepts` - what formulas need
* `Kind.accepts_invariants_iff` - for which constants the invariants of a kind are formulas
-/

namespace SolverScript

namespace Sorting

/-- Whether the sorts of other names than the given ones are the same. -/
def AgreesOff (names : List String) (Γ Γ' : Sorting) : Prop := ∀ name ∉ names, Γ' name = Γ name

variable {Γ Γ' : Sorting} {names inner : List String} {fs gs : List Term} {s : SortExpr}

theorem AgreesOff.refl (names : List String) (Γ : Sorting) : AgreesOff names Γ Γ := fun _ _ => rfl

theorem AgreesOff.mono (h : AgreesOff inner Γ Γ') (hsub : inner ⊆ names) : AgreesOff names Γ Γ' :=
  fun name hname => h name fun hinner => hname (hsub hinner)

theorem AgreesOff.of_bind {name : String} (h : AgreesOff inner (Γ.bind name s) Γ') :
    AgreesOff (name :: inner) Γ Γ' := by
  intro other hother
  obtain ⟨hne, hinner⟩ := List.ne_and_not_mem_of_not_mem_cons hother
  rw [h other hinner, bind_of_ne _ _ hne]

theorem accepts_append : Γ.Accepts (fs ++ gs) ↔ Γ.Accepts fs ∧ Γ.Accepts gs :=
  List.forall_mem_append

theorem accepts_singleton {f : Term} : Γ.Accepts [f] ↔ f.sort? Γ = some Kind.bool.sort :=
  List.forall_mem_singleton

/-- Formulas under a premise. -/
theorem accepts_guarded_iff {premise : Term} :
    Γ.Accepts (fs.map (Kind.implication premise)) ↔
      (fs ≠ [] → premise.sort? Γ = some Kind.bool.sort) ∧ Γ.Accepts fs := by
  simp only [Accepts, List.forall_mem_map, Term.sort?_implication_iff]
  constructor
  · intro h
    refine ⟨fun hne => ?_, fun f hf => (h f hf).2⟩
    obtain ⟨f, hf⟩ := List.exists_mem_of_ne_nil fs hne
    exact (h f hf).1
  · rintro ⟨hpremise, hfs⟩ f hf
    exact ⟨hpremise (List.ne_nil_of_mem hf), hfs f hf⟩

end Sorting

namespace Kind

/-! ### Variables -/

mutual

/-- The variables that the invariants of a kind bind, if those of the kind have a given depth. -/
def binders (depth : Nat) : Kind → List String
  | list k =>
    if k.containsCharOrRational then ("seq" ++ Nat.repr depth) :: binders (depth + 1) k else []
  | set k =>
    if k.containsCharOrRational then ("set" ++ Nat.repr depth) :: binders (depth + 1) k else []
  | tuple ks => componentBinders depth ks
  | maybe k => binders (depth + 1) k
  | either l r => binders (depth + 1) l ++ binders (depth + 1) r
  | _ => []

/-- The variables that the invariants of the components of a tuple bind. -/
def componentBinders (depth : Nat) : List Kind → List String
  | [] => []
  | k :: ks => binders (depth + 1) k ++ componentBinders depth ks

end

theorem binders_of_not_composite {k : Kind} (hk : k.isComposite = false) {depth : Nat} :
    k.binders depth = [] := by
  cases k with
  | list | set | tuple | maybe | either => cases hk
  | _ => rfl

mutual

theorem isBoundName_of_mem_binders {k : Kind} {depth : Nat} {name : String}
    (h : name ∈ k.binders depth) : IsBoundName depth name := by
  cases k with
  | list k =>
    rw [binders] at h
    split at h
    · rcases List.mem_cons.mp h with rfl | h
      · exact .position (Nat.le_refl depth)
      · exact (isBoundName_of_mem_binders h).mono (Nat.le_succ depth)
    · cases h
  | set k =>
    rw [binders] at h
    split at h
    · rcases List.mem_cons.mp h with rfl | h
      · exact .member (Nat.le_refl depth)
      · exact (isBoundName_of_mem_binders h).mono (Nat.le_succ depth)
    · cases h
  | tuple ks => exact isBoundName_of_mem_componentBinders h
  | maybe k => exact (isBoundName_of_mem_binders (k := k) h).mono (Nat.le_succ depth)
  | either l r =>
    rcases List.mem_append.mp h with h | h
    · exact (isBoundName_of_mem_binders h).mono (Nat.le_succ depth)
    · exact (isBoundName_of_mem_binders h).mono (Nat.le_succ depth)
  | _ => cases h

theorem isBoundName_of_mem_componentBinders {ks : List Kind} {depth : Nat} {name : String}
    (h : name ∈ componentBinders depth ks) : IsBoundName depth name := by
  cases ks with
  | nil => cases h
  | cons k ks =>
    rcases List.mem_append.mp h with h | h
    · exact (isBoundName_of_mem_binders h).mono (Nat.le_succ depth)
    · exact isBoundName_of_mem_componentBinders h

end

/-- A variable keeps its sort inside of its quantifier. -/
theorem sort?_bound {Γ Γ' : Sorting} {name : String} {s : SortExpr} {k : Kind} {depth : Nat}
    (hname : IsBoundName depth name) (hinner : ¬IsBoundName (depth + 1) name)
    (h : (Γ.bind name s).AgreesOff (k.binders (depth + 1)) Γ') :
    (Term.symbol name).sort? Γ' = some s := by
  rw [Term.sort?_of_name? rfl (Sorting.lookup_of_isBoundName hname),
    h name fun hmem => hinner (isBoundName_of_mem_binders hmem), Sorting.bind_self]

/-! ### Leaves -/

theorem accepts_leafInvariants_iff {Γ : Sorting} {k : Kind} {t : Term} (hk : k.isComposite = false)
    (hcontains : k.containsCharOrRational = true) :
    Γ.Accepts (k.leafInvariants t) ↔ t.sort? Γ = some k.sort := by
  rcases eq_char_or_rational hk hcontains with rfl | rfl
  · rw [leafInvariants, Sorting.accepts_singleton]
    constructor
    · intro h
      obtain ⟨a, b, -, hlength, -⟩ := Term.sort?_app_two.mp h
      obtain ⟨c, hc, hresult⟩ := Term.sort?_app_one.mp hlength
      obtain ⟨hstring, -⟩ := Sorting.result?_length_iff.mp hresult
      rw [hc, List.singleton_inj.mp hstring]
      rfl
    · intro ht
      exact Term.sort?_app_two.mpr ⟨_, _, rfl, Term.sort?_app_one.mpr ⟨_, ht, rfl⟩, rfl⟩
  · rw [leafInvariants, Sorting.accepts_singleton]
    constructor
    · intro h
      obtain ⟨a, b, -, hdenominator, -⟩ := Term.sort?_app_two.mp h
      obtain ⟨c, hc, hresult⟩ := Term.sort?_app_one.mp hdenominator
      obtain ⟨hrational, -⟩ := Sorting.result?_denominator_iff.mp hresult
      rw [hc, List.singleton_inj.mp hrational]
    · intro ht
      exact Term.sort?_app_two.mpr ⟨_, _, rfl, Term.sort?_app_one.mpr ⟨_, ht, rfl⟩, rfl⟩

/-! ### Constants that the invariants are formulas about -/

mutual

/-- The invariants of a kind with plain sets are formulas, if the term keeps the sort of the kind
inside of all quantifiers of the invariants. -/
theorem accepts_invariantsAt {k : Kind} {depth : Nat} {t : Term} {Γ : Sorting}
    (hk : k.HasPlainSets)
    (ht : ∀ Γ', Γ.AgreesOff (k.binders depth) Γ' → t.sort? Γ' = some k.sort) :
    Γ.Accepts (k.invariantsAt depth leafInvariants t) := by
  cases k with
  | list k =>
    rw [invariantsAt]
    split
    · next hcontains =>
      rw [binders, if_pos hcontains] at ht
      have hposition : IsBoundName depth ("seq" ++ Nat.repr depth) := .position (Nat.le_refl depth)
      refine Sorting.accepts_singleton.mpr ((Term.sort?_elementwise_iff
        (Sorting.lookup_of_isBoundName hposition)).mpr ⟨⟨_, ht _ (.of_bind (.refl _ _))⟩, ?_⟩)
      refine Term.sort?_conjunction_iff.mpr
        (accepts_invariantsAt (hasPlainSets_list.mp hk) fun Γ' hΓ' => ?_)
      have hindex := sort?_bound hposition (IsBoundName.not_position depth) hΓ'
      exact Term.sort?_app_two.mpr
        ⟨_, _, ht Γ' (.of_bind hΓ'), hindex, Sorting.result?_nth_iff.mpr ⟨rfl, rfl⟩⟩
    · exact fun f hf => absurd hf List.not_mem_nil
  | set k =>
    rw [invariantsAt]
    split
    · next hcontains =>
      -- The members are not composite, so that the one invariant is about the member itself.
      have hcomposite := hk.isComposite_element hcontains
      rw [binders, if_pos hcontains] at ht
      have hmember : IsBoundName depth ("set" ++ Nat.repr depth) := .member (Nat.le_refl depth)
      have hsort := sort?_bound (k := k) hmember (IsBoundName.not_member depth)
        (.refl _ (Γ.bind ("set" ++ Nat.repr depth) k.sort))
      refine Sorting.accepts_singleton.mpr
        (Term.sort?_forAll_iff.mpr (Term.sort?_conjunction_iff.mpr ?_))
      rw [invariantsAt_of_not_composite hcomposite]
      refine Sorting.accepts_guarded_iff.mpr
        ⟨fun _ => ?_, (accepts_leafInvariants_iff hcomposite hcontains).mpr hsort⟩
      exact Term.sort?_app_two.mpr
        ⟨_, _, ht _ (.of_bind (.refl _ _)), hsort, Sorting.result?_select_iff.mpr rfl⟩
    · exact fun f hf => absurd hf List.not_mem_nil
  | tuple ks =>
    rw [invariantsAt]
    refine accepts_componentInvariants (hasPlainSets_tuple.mp hk) fun i s hi Γ' hΓ' => ?_
    -- A tuple with a component is not empty, and then its sort has projections.
    have hne : ks ≠ [] := by
      rintro rfl
      cases hi
    refine Term.sort?_app_one.mpr ⟨_, ht Γ' hΓ', ?_⟩
    rw [sort_tuple hne, Nat.add_comm, ← length_sortAll]
    exact Sorting.result?_projection_tuple hi
  | maybe k =>
    rw [invariantsAt]
    refine Sorting.accepts_guarded_iff.mpr
      ⟨fun _ => Term.sort?_tester_iff.mpr ⟨ht Γ (.refl _ Γ), rfl, rfl⟩, ?_⟩
    refine accepts_invariantsAt (hasPlainSets_maybe.mp hk) fun Γ' hΓ' => ?_
    exact Term.sort?_app_one.mpr ⟨_, ht Γ' hΓ', Sorting.result?_getJust_iff.mpr rfl⟩
  | either l r =>
    obtain ⟨hl, hr⟩ := hasPlainSets_either.mp hk
    rw [binders] at ht
    rw [invariantsAt]
    refine Sorting.accepts_append.mpr ⟨Sorting.accepts_guarded_iff.mpr
      ⟨fun _ => Term.sort?_tester_iff.mpr ⟨ht Γ (.refl _ Γ), rfl, rfl⟩, ?_⟩,
      Sorting.accepts_guarded_iff.mpr
      ⟨fun _ => Term.sort?_tester_iff.mpr ⟨ht Γ (.refl _ Γ), rfl, rfl⟩, ?_⟩⟩
    · refine accepts_invariantsAt hl fun Γ' hΓ' => ?_
      exact Term.sort?_app_one.mpr ⟨_, ht Γ' (hΓ'.mono (List.subset_append_left _ _)),
        Sorting.result?_getSide_iff.mpr ⟨_, _, rfl, rfl⟩⟩
    · refine accepts_invariantsAt hr fun Γ' hΓ' => ?_
      exact Term.sort?_app_one.mpr ⟨_, ht Γ' (hΓ'.mono (List.subset_append_right _ _)),
        Sorting.result?_getSide_iff.mpr ⟨_, _, rfl, rfl⟩⟩
  | char | rational => exact (accepts_leafInvariants_iff rfl rfl).mpr (ht Γ (.refl _ Γ))
  | _ => exact fun f hf => absurd hf List.not_mem_nil

theorem accepts_componentInvariants {ks : List Kind} {depth arity position : Nat} {t : Term}
    {Γ : Sorting} (hks : ∀ k ∈ ks, k.HasPlainSets)
    (ht : ∀ i s, (sortAll ks)[i]? = some s →
      ∀ Γ', Γ.AgreesOff (componentBinders depth ks) Γ' →
        (Term.app (.symbol (Composite.projection (position + i) arity)) [t]).sort? Γ' = some s) :
    Γ.Accepts (componentInvariants depth leafInvariants t arity position ks) := by
  cases ks with
  | nil => exact fun f hf => absurd hf List.not_mem_nil
  | cons k ks =>
    obtain ⟨hk, hks⟩ := List.forall_mem_cons.mp hks
    rw [componentInvariants]
    refine Sorting.accepts_append.mpr ⟨accepts_invariantsAt hk fun Γ' hΓ' => ?_,
      accepts_componentInvariants hks fun i s hi Γ' hΓ' => ?_⟩
    · exact ht 0 _ rfl Γ' (hΓ'.mono (List.subset_append_left _ _))
    · rw [Nat.add_assoc, Nat.add_comm 1]
      exact ht (i + 1) s hi Γ' (hΓ'.mono (List.subset_append_right _ _))

end

/-! ### Sets of composites -/

/-- Whether what is said of characters and rationals is no formula, whatever sorts the variables
have that are bound at a given depth or further inside. -/
def RejectsLeaves (Γ : Sorting) (depth : Nat) (leaf : Kind → Term → List Term) : Prop :=
  ∀ Γ' : Sorting, (∀ name, ¬IsBoundName depth name → Γ' name = Γ name) →
    ∀ k t, k.isComposite = false → k.containsCharOrRational = true → ¬Γ'.Accepts (leaf k t)

variable {Γ : Sorting} {leaf : Kind → Term → List Term} {depth : Nat}

theorem RejectsLeaves.bind (h : RejectsLeaves Γ depth leaf) {name : String}
    (hname : IsBoundName depth name) (s : SortExpr) :
    RejectsLeaves (Γ.bind name s) (depth + 1) leaf := by
  intro Γ' hΓ'
  refine h Γ' fun other hother => ?_
  have hne : other ≠ name := fun heq => hother (heq ▸ hname)
  rw [hΓ' other fun hinner => hother (hinner.mono (Nat.le_succ depth)), Sorting.bind_of_ne _ _ hne]

theorem RejectsLeaves.deeper (h : RejectsLeaves Γ depth leaf) :
    RejectsLeaves Γ (depth + 1) leaf := fun Γ' hΓ' =>
  h Γ' fun name hname => hΓ' name fun hinner => hname (hinner.mono (Nat.le_succ depth))

theorem RejectsLeaves.ofMember (h : RejectsLeaves Γ depth leaf) (member : String) :
    RejectsLeaves Γ depth fun sub part => (leaf sub (.symbol member)).map
      (implication (.app (.symbol "select") [part, .symbol member])) :=
  fun Γ' hΓ' k _ hk hcontains hall =>
    h Γ' hΓ' k _ hk hcontains (Sorting.accepts_guarded_iff.mp hall).2

mutual

/-- What is no formula at the leaves of a walk is none at its end. -/
theorem not_accepts_invariantsAt {k : Kind} {leaf : Kind → Term → List Term} {depth : Nat}
    {t : Term} {Γ : Sorting} (hleaf : RejectsLeaves Γ depth leaf)
    (hcontains : k.containsCharOrRational = true) :
    ¬Γ.Accepts (k.invariantsAt depth leaf t) := by
  -- A part that has invariants is reached in every case, and its leaf is rejected there.
  cases k with
  | list k =>
    have hk : k.containsCharOrRational = true := hcontains
    have hposition : IsBoundName depth ("seq" ++ Nat.repr depth) := .position (Nat.le_refl depth)
    rw [invariantsAt, if_pos hk, Sorting.accepts_singleton,
      Term.sort?_elementwise_iff (Sorting.lookup_of_isBoundName hposition),
      Term.sort?_conjunction_iff]
    exact fun h => not_accepts_invariantsAt (hleaf.bind hposition _) hk h.2
  | set k =>
    have hk : k.containsCharOrRational = true := hcontains
    have hmember : IsBoundName depth ("set" ++ Nat.repr depth) := .member (Nat.le_refl depth)
    rw [invariantsAt, if_pos hk, Sorting.accepts_singleton, Term.sort?_forAll_iff,
      Term.sort?_conjunction_iff]
    exact not_accepts_invariantsAt ((hleaf.bind hmember _).ofMember _) hk
  | tuple ks =>
    rw [containsCharOrRational_tuple_eq_any] at hcontains
    exact not_accepts_componentInvariants hleaf hcontains
  | maybe k =>
    have hk : k.containsCharOrRational = true := hcontains
    rw [invariantsAt, whenMadeBy, Sorting.accepts_guarded_iff]
    exact fun h => not_accepts_invariantsAt hleaf.deeper hk h.2
  | either l r =>
    rw [containsCharOrRational_either, Bool.or_eq_true] at hcontains
    rw [invariantsAt, whenMadeBy, whenMadeBy, Sorting.accepts_append, Sorting.accepts_guarded_iff,
      Sorting.accepts_guarded_iff]
    rintro ⟨⟨-, hleft⟩, -, hright⟩
    rcases hcontains with hl | hr
    · exact not_accepts_invariantsAt hleaf.deeper hl hleft
    · exact not_accepts_invariantsAt hleaf.deeper hr hright
  | _ => exact hleaf Γ (fun _ _ => rfl) _ t rfl hcontains

theorem not_accepts_componentInvariants {ks : List Kind} {leaf : Kind → Term → List Term}
    {depth arity position : Nat} {t : Term} {Γ : Sorting} (hleaf : RejectsLeaves Γ depth leaf)
    (hcontains : ks.any containsCharOrRational = true) :
    ¬Γ.Accepts (componentInvariants depth leaf t arity position ks) := by
  cases ks with
  | nil => cases hcontains
  | cons k ks =>
    rw [List.any_cons, Bool.or_eq_true] at hcontains
    rw [componentInvariants, Sorting.accepts_append]
    rintro ⟨hhead, htail⟩
    rcases hcontains with hk | hks
    · exact not_accepts_invariantsAt hleaf.deeper hk hhead
    · exact not_accepts_componentInvariants hleaf hks htail

end

/-- A composite kind that has characters or rationals inside has another sort than these. -/
theorem sort_ne_of_composite {k leaf : Kind} (hk : k.isComposite = true)
    (hcontains : k.containsCharOrRational = true) (hleaf : leaf.isComposite = false)
    (hleafContains : leaf.containsCharOrRational = true) : k.sort ≠ leaf.sort := by
  rcases eq_char_or_rational hleaf hleafContains with rfl | rfl <;> cases k with
  | tuple ks =>
    -- The empty tuple has nothing inside.
    have hne : ks ≠ [] := by
      rintro rfl
      cases hcontains
    rw [sort_tuple hne]
    exact nofun
  | list | set | maybe | either => exact nofun
  | _ => cases hk

/-- What is said about a member of a set of composites is no formula. -/
theorem rejectsLeaves_ofMember {k : Kind} (hk : k.isComposite = true)
    (hcontains : k.containsCharOrRational = true) (Γ : Sorting) (depth : Nat) :
    RejectsLeaves (Γ.bind ("set" ++ Nat.repr depth) k.sort) (depth + 1) fun sub part =>
      (leafInvariants sub (.symbol ("set" ++ Nat.repr depth))).map
        (implication (.app (.symbol "select") [part, .symbol ("set" ++ Nat.repr depth)])) := by
  have hmember : IsBoundName depth ("set" ++ Nat.repr depth) := .member (Nat.le_refl depth)
  intro Γ' hΓ' sub _ hsub hsubContains hall
  have hleaf := (accepts_leafInvariants_iff hsub hsubContains).mp
    (Sorting.accepts_guarded_iff.mp hall).2
  rw [Term.sort?_of_name? rfl (Sorting.lookup_of_isBoundName hmember),
    hΓ' _ (IsBoundName.not_member depth), Sorting.bind_self, Option.some.injEq] at hleaf
  exact sort_ne_of_composite hk hcontains hsub hsubContains hleaf

mutual

/-- The invariants of a kind are formulas only if its sets are plain, whatever they are about. -/
theorem hasPlainSets_of_accepts {k : Kind} {depth : Nat} {t : Term} {Γ : Sorting}
    (h : Γ.Accepts (k.invariantsAt depth leafInvariants t)) : k.HasPlainSets := by
  by_cases hcontains : k.containsCharOrRational = true
  case neg => exact hasPlainSets_of_not_contains (Bool.eq_false_iff.mpr hcontains)
  cases k with
  | list k =>
    have hk : k.containsCharOrRational = true := hcontains
    have hposition : IsBoundName depth ("seq" ++ Nat.repr depth) := .position (Nat.le_refl depth)
    rw [invariantsAt, if_pos hk, Sorting.accepts_singleton,
      Term.sort?_elementwise_iff (Sorting.lookup_of_isBoundName hposition),
      Term.sort?_conjunction_iff] at h
    exact hasPlainSets_list.mpr (hasPlainSets_of_accepts h.2)
  | set k =>
    have hk : k.containsCharOrRational = true := hcontains
    rw [invariantsAt, if_pos hk, Sorting.accepts_singleton, Term.sort?_forAll_iff,
      Term.sort?_conjunction_iff] at h
    -- Invariants of composite members are about the parts of a member, but are stated of the
    -- member.
    cases hcomposite : k.isComposite with
    | true =>
      exact absurd h (not_accepts_invariantsAt (rejectsLeaves_ofMember hcomposite hk Γ depth) hk)
    | false =>
      rcases eq_char_or_rational hcomposite hk with rfl | rfl <;> simp [HasPlainSets, subkinds]
  | tuple ks => exact hasPlainSets_tuple.mpr (forall_hasPlainSets_of_accepts h)
  | maybe k =>
    rw [invariantsAt, whenMadeBy, Sorting.accepts_guarded_iff] at h
    exact hasPlainSets_maybe.mpr (hasPlainSets_of_accepts h.2)
  | either l r =>
    rw [invariantsAt, whenMadeBy, whenMadeBy, Sorting.accepts_append, Sorting.accepts_guarded_iff,
      Sorting.accepts_guarded_iff] at h
    exact hasPlainSets_either.mpr
      ⟨hasPlainSets_of_accepts h.1.2, hasPlainSets_of_accepts h.2.2⟩
  | char | rational => simp [HasPlainSets, subkinds]
  | _ => cases hcontains

theorem forall_hasPlainSets_of_accepts {ks : List Kind} {depth arity position : Nat} {t : Term}
    {Γ : Sorting}
    (h : Γ.Accepts (componentInvariants depth leafInvariants t arity position ks)) :
    ∀ k ∈ ks, k.HasPlainSets := by
  cases ks with
  | nil => exact fun k hk => absurd hk List.not_mem_nil
  | cons k ks =>
    rw [componentInvariants, Sorting.accepts_append] at h
    exact List.forall_mem_cons.mpr
      ⟨hasPlainSets_of_accepts h.1, forall_hasPlainSets_of_accepts h.2⟩

end

/-! ### Hidden constants -/

/-- Whether a term has a composite sort only if a name does that it is read from. -/
def FollowsName (name : String) (t : Term) : Prop :=
  ∀ (Γ : Sorting) (s s' : SortExpr), Γ name = some s → s.isApplied = false →
    t.sort? Γ = some s' → s'.isApplied = false

/-- What is read from a composite term of that sort has no sort if the name has none. -/
theorem FollowsName.read {name : String} {t u : Term} (ht : FollowsName name t)
    (h : ∀ Γ s, u.sort? Γ = some s → ∃ head arguments, t.sort? Γ = some (.applied head arguments)) :
    FollowsName name u := by
  intro Γ s s' hname hs hu
  obtain ⟨head, arguments, hcomposite⟩ := h Γ s' hu
  exact absurd (ht Γ s _ hname hs hcomposite) Bool.noConfusion

theorem FollowsName.not_applied {name : String} {t : Term} {Γ : Sorting} (ht : FollowsName name t)
    {s : SortExpr} (hs : s.isApplied = false) {head : String} {arguments : List SortExpr} :
    t.sort? (Γ.bind name s) ≠ some (.applied head arguments) :=
  fun h => absurd (ht _ s _ (Sorting.bind_self _ _ _) hs h) Bool.noConfusion

theorem followsName_of_name? {name : String} {t : Term} (hname : t.name? = some name)
    (hfree : Sorting.functions.lookup name = none) : FollowsName name t := by
  intro Γ s s' hs happlied ht
  rw [Term.sort?_of_name? hname hfree, hs] at ht
  cases ht
  exact happlied

theorem isApplied_sort {k : Kind} (hk : k.isComposite = false) : k.sort.isApplied = false := by
  cases k with
  | list | set | tuple | maybe | either => cases hk
  | _ => rfl

mutual

/-- If the invariants of a kind are formulas, then their variables do not hide the name that they
are about. -/
theorem not_mem_binders_of_accepts {k : Kind} {depth : Nat} {t : Term} {Γ : Sorting} {name : String}
    (ht : FollowsName name t) (h : Γ.Accepts (k.invariantsAt depth leafInvariants t)) :
    name ∉ k.binders depth := by
  cases k with
  | list k =>
    rw [binders]
    split
    · next hcontains =>
      have hposition : IsBoundName depth ("seq" ++ Nat.repr depth) := .position (Nat.le_refl depth)
      rw [invariantsAt, if_pos hcontains, Sorting.accepts_singleton,
        Term.sort?_elementwise_iff (Sorting.lookup_of_isBoundName hposition),
        Term.sort?_conjunction_iff] at h
      obtain ⟨⟨element, hlist⟩, helements⟩ := h
      rw [List.mem_cons, not_or]
      constructor
      · rintro rfl
        exact ht.not_applied (s := unbounded.sort) rfl hlist
      · refine not_mem_binders_of_accepts (ht.read fun Γ s hs => ?_) helements
        obtain ⟨a, b, ha, -, hresult⟩ := Term.sort?_app_two.mp hs
        obtain ⟨-, rfl⟩ := Sorting.result?_nth_iff.mp hresult
        exact ⟨_, _, ha⟩
    · exact List.not_mem_nil
  | set k =>
    have hplain := hasPlainSets_of_accepts h
    rw [binders]
    split
    · next hcontains =>
      have hcomposite := hplain.isComposite_element hcontains
      rw [invariantsAt, if_pos hcontains, Sorting.accepts_singleton, Term.sort?_forAll_iff,
        Term.sort?_conjunction_iff, invariantsAt_of_not_composite hcomposite,
        Sorting.accepts_guarded_iff] at h
      obtain ⟨a, b, ha, -, hresult⟩ := Term.sort?_app_two.mp
        (h.1 (isExactLeaf_leafInvariants.ne_nil k _ hcomposite hcontains))
      obtain rfl := Sorting.result?_select_iff.mp hresult
      -- The elements are not composite, so nothing else is bound inside.
      rw [binders_of_not_composite hcomposite, List.mem_singleton]
      rintro rfl
      exact ht.not_applied (isApplied_sort hcomposite) ha
    · exact List.not_mem_nil
  | tuple ks => exact not_mem_componentBinders_of_accepts ht h
  | maybe k =>
    rw [invariantsAt, whenMadeBy, Sorting.accepts_guarded_iff] at h
    refine not_mem_binders_of_accepts (k := k) (ht.read fun Γ s hs => ?_) h.2
    obtain ⟨a, ha, hresult⟩ := Term.sort?_app_one.mp hs
    obtain rfl := Sorting.result?_getJust_iff.mp hresult
    exact ⟨_, _, ha⟩
  | either l r =>
    rw [invariantsAt, whenMadeBy, whenMadeBy, Sorting.accepts_append, Sorting.accepts_guarded_iff,
      Sorting.accepts_guarded_iff] at h
    have hside : ∀ isRight, FollowsName name
        (.app (.symbol (Composite.sideAccessor isRight)) [t]) := fun isRight =>
      ht.read fun Γ s hs => by
        obtain ⟨a, ha, hresult⟩ := Term.sort?_app_one.mp hs
        obtain ⟨_, _, rfl, -⟩ := Sorting.result?_getSide_iff.mp hresult
        exact ⟨_, _, ha⟩
    rw [binders, List.mem_append, not_or]
    exact ⟨not_mem_binders_of_accepts (hside false) h.1.2,
      not_mem_binders_of_accepts (hside true) h.2.2⟩
  | _ => exact List.not_mem_nil

theorem not_mem_componentBinders_of_accepts {ks : List Kind} {depth arity position : Nat} {t : Term}
    {Γ : Sorting} {name : String} (ht : FollowsName name t)
    (h : Γ.Accepts (componentInvariants depth leafInvariants t arity position ks)) :
    name ∉ componentBinders depth ks := by
  cases ks with
  | nil => exact List.not_mem_nil
  | cons k ks =>
    rw [componentInvariants, Sorting.accepts_append] at h
    rw [componentBinders, List.mem_append, not_or]
    refine ⟨not_mem_binders_of_accepts (ht.read fun Γ s hs => ?_) h.1,
      not_mem_componentBinders_of_accepts ht h.2⟩
    obtain ⟨a, ha, hresult⟩ := Term.sort?_app_one.mp hs
    obtain ⟨_, _, rfl⟩ := Sorting.exists_of_result?_projection hresult
    exact ⟨_, _, ha⟩

end

/-! ### Declared constants -/

/-- The invariants of a kind for a constant that is declared with its sort are formulas just if the
sets inside the kind are plain and the constant is not called like one of their variables. -/
theorem accepts_invariants_iff {k : Kind} {t : Term} {name : String} (hname : t.name? = some name)
    (hfree : Sorting.functions.lookup name = none) {Γ : Sorting} (hΓ : Γ name = some k.sort) :
    (∀ f ∈ k.invariants t, f.sort? Γ = some bool.sort) ↔
      k.HasPlainSets ∧ name ∉ k.binders 0 := by
  constructor
  · intro h
    exact ⟨hasPlainSets_of_accepts h,
      not_mem_binders_of_accepts (followsName_of_name? hname hfree) h⟩
  · rintro ⟨hplain, hvisible⟩
    refine accepts_invariantsAt hplain fun Γ' hΓ' => ?_
    rw [Term.sort?_of_name? hname hfree, hΓ' name hvisible, hΓ]

/-- A list of sums of characters and sets of rationals. -/
theorem accepts_invariants_iff_list :
    Sorting.Accepts (fun _ => some (list (either char (set rational))).sort)
      ((list (either char (set rational))).invariants (.node 12)) := by
  have hname : (Term.node 12).name? = some "s12" := rfl
  refine (accepts_invariants_iff hname (by decide) rfl).mpr ⟨?_, by decide⟩
  simp [HasPlainSets, subkinds]

/-- What is said of a set of pairs of a character and an integer selects and measures pairs. And a
list of characters is hidden by the position in it, if it is called like that. -/
theorem not_accepts_invariants :
    (¬∀ f ∈ (set (tuple [char, unbounded])).invariants (.symbol "s12"),
      f.sort? (Sorting.bind (fun _ => none) "s12" (set (tuple [char, unbounded])).sort) =
        some bool.sort) ∧
    ¬∀ f ∈ (list char).invariants (.symbol "seq0"),
      f.sort? (Sorting.bind (fun _ => none) "seq0" (list char).sort) = some bool.sort := by
  decide

end Kind

end SolverScript
