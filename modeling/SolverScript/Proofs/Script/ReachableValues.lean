import Mathlib.Data.Set.Lattice
import SolverScript.Proofs.Script.InvariantMeaning
import SolverScript.Proofs.Semantics.Locality
import SolverScript.Proofs.Semantics.Symbols

/-!
# Characters and rationals inside of values

The sorts of characters and rationals have values that the kinds do not have. This file collects
what is found in the place of a character or a rational anywhere inside of a value: in the elements
of a list, the members of a set, the components of a tuple, an optional that is present, and the
present side of a sum. If the sets inside a kind have characters, rationals or neither for their
elements, then the conjunction of the invariants of the kind says that all of these are well formed,
of every value of its sort and whichever name the value goes by.

## Main definitions

* `Leaf`, `Leaf.IsWellFormed` - what is found in the place of a character or a rational
* `Kind.reachable` - what is found inside of a value

## Main results

* `Kind.allows_iff_reachable` - the values that a kind allows, by what is inside of them
* `Kind.invariants_exact` - the conjunction of the invariants of a kind
-/

namespace SolverScript

/-- What stands in the place of a character or of a rational. -/
inductive Leaf where
  | character (characters : List CodePoint)
  | rational (numerator denominator : Int)

/-- Whether it is a character or a rational indeed. -/
def Leaf.IsWellFormed : Leaf → Prop
  | character cs => cs.length = 1
  | rational _ n => 0 < n

namespace Kind

variable {C : SortExpr → Type}

mutual

/-- What is found in the place of characters and rationals inside of a value. -/
def reachable : (k : Kind) → k.domain.Model C → Set Leaf
  | char => fun cs : List CodePoint => {.character cs}
  | rational => fun q : Int × Int => {.rational q.1 q.2}
  | list k => fun xs : List (k.domain.Model C) => {leaf | ∃ x ∈ xs, leaf ∈ reachable k x}
  | set k => fun f : k.domain.Model C → Bool => {leaf | ∃ x, f x = true ∧ leaf ∈ reachable k x}
  | tuple ks => reachableAll ks
  | maybe k => fun o : Option (k.domain.Model C) => {leaf | ∃ x ∈ o, leaf ∈ reachable k x}
  | either l r => Sum.elim (reachable l) (reachable r)
  | _ => fun _ => ∅

/-- What is found inside of the components of a tuple. -/
def reachableAll : (ks : List Kind) → Domain.Models C (domains ks) → Set Leaf
  | [] => fun _ => ∅
  | k :: ks => fun xs : k.domain.Model C × Domain.Models C (domains ks) =>
    reachable k xs.1 ∪ reachableAll ks xs.2

end

mutual

/-- Nothing is found inside of values of kinds that have no characters and rationals inside. -/
theorem reachable_eq_empty {k : Kind} (h : k.containsCharOrRational = false)
    (x : k.domain.Model C) : k.reachable x = ∅ := by
  cases k with
  | list k =>
    refine Set.eq_empty_of_forall_notMem ?_
    rintro leaf ⟨y, -, hleaf⟩
    rwa [reachable_eq_empty (k := k) h y] at hleaf
  | set k =>
    refine Set.eq_empty_of_forall_notMem ?_
    rintro leaf ⟨y, -, hleaf⟩
    rwa [reachable_eq_empty (k := k) h y] at hleaf
  | tuple ks => exact reachableAll_eq_empty (containsCharOrRational_tuple h) x
  | maybe k =>
    refine Set.eq_empty_of_forall_notMem ?_
    rintro leaf ⟨y, -, hleaf⟩
    rwa [reachable_eq_empty (k := k) h y] at hleaf
  | either l r =>
    rw [containsCharOrRational_either, Bool.or_eq_false_iff] at h
    cases x with
    | inl y => exact reachable_eq_empty h.1 y
    | inr y => exact reachable_eq_empty h.2 y
  | char | rational => cases h
  | _ => rfl

theorem reachableAll_eq_empty {ks : List Kind} (h : ∀ k ∈ ks, k.containsCharOrRational = false)
    (xs : Domain.Models C (domains ks)) : reachableAll ks xs = ∅ := by
  cases ks with
  | nil => rfl
  | cons k ks =>
    obtain ⟨hk, hks⟩ := List.forall_mem_cons.mp h
    exact Set.union_empty_iff.mpr ⟨reachable_eq_empty hk _, reachableAll_eq_empty hks _⟩

end

/-- A property of what is found in some values inside of another one. -/
theorem forall_reachable_iff {k : Kind} {p : k.domain.Model C → Prop} {Q : Leaf → Prop} :
    (∀ leaf ∈ {leaf | ∃ x, p x ∧ leaf ∈ k.reachable x}, Q leaf) ↔
      ∀ x, p x → ∀ leaf ∈ k.reachable x, Q leaf :=
  ⟨fun h x hx leaf hleaf => h leaf ⟨x, hx, hleaf⟩,
    fun h leaf ⟨x, hx, hleaf⟩ => h x hx leaf hleaf⟩

mutual

/-- A kind allows a value if all characters and rationals inside of it are well formed. -/
theorem allows_iff_reachable {k : Kind} (hk : k.HasPlainSets) (x : k.domain.Model C) :
    k.Allows x ↔ ∀ leaf ∈ k.reachable x, leaf.IsWellFormed := by
  cases k with
  | list k =>
    refine Iff.trans ?_ forall_reachable_iff.symm
    exact forall₂_congr fun y _ => allows_iff_reachable (hasPlainSets_list.mp hk) y
  | set k =>
    have hmembers : (∀ y, x y = true → k.Allows y) ↔
        ∀ y, x y = true → ∀ leaf ∈ k.reachable y, leaf.IsWellFormed :=
      forall₂_congr fun y _ => allows_iff_reachable (hasPlainSets_set.mp hk).2 y
    refine Iff.trans ?_ (hmembers.trans forall_reachable_iff.symm)
    -- Members without characters or rationals satisfy both sides.
    by_cases hcontains : k.containsCharOrRational = true
    · exact ⟨fun h => (h hcontains).2, fun h _ => ⟨hk.isComposite_element hcontains, h⟩⟩
    · have hfree := Bool.eq_false_iff.mpr hcontains
      exact iff_of_true (fun h => absurd h hcontains) fun y _ => allows_of_not_contains hfree y
  | tuple ks => exact allowsAll_iff_reachable (hasPlainSets_tuple.mp hk) x
  | maybe k =>
    refine Iff.trans ?_ forall_reachable_iff.symm
    exact forall₂_congr fun y _ => allows_iff_reachable (hasPlainSets_maybe.mp hk) y
  | either l r =>
    rw [hasPlainSets_either] at hk
    cases x with
    | inl y => exact allows_iff_reachable hk.1 y
    | inr y => exact allows_iff_reachable hk.2 y
  | char | rational => exact ⟨fun h leaf hleaf => hleaf ▸ h, fun h => h _ rfl⟩
  | _ => exact iff_of_true trivial fun _ hleaf => hleaf.elim

theorem allowsAll_iff_reachable {ks : List Kind} (hks : ∀ k ∈ ks, k.HasPlainSets)
    (xs : Domain.Models C (domains ks)) :
    AllowsAll ks xs ↔ ∀ leaf ∈ reachableAll ks xs, leaf.IsWellFormed := by
  cases ks with
  | nil => exact iff_of_true trivial fun _ hleaf => hleaf.elim
  | cons k ks =>
    obtain ⟨hk, hks⟩ := List.forall_mem_cons.mp hks
    refine (and_congr (allows_iff_reachable hk _) (allowsAll_iff_reachable hks _)).trans ?_
    exact ⟨fun h leaf hleaf => hleaf.elim (h.1 leaf) (h.2 leaf),
      fun h => ⟨fun leaf hleaf => h leaf (.inl hleaf), fun leaf hleaf => h leaf (.inr hleaf)⟩⟩

end

end Kind

/-! ### Names -/

/-- Nodes are not called like the variables of invariants. -/
theorem not_isBoundName_nodeName (depth : Nat) (id : Int) : ¬IsBoundName depth (nodeName id) := by
  intro h
  have hhead := h.head?_eq
  rw [head?_nodeName] at hhead
  have ht : id ≠ -1 := by
    rintro rfl
    exact absurd hhead (by decide)
  have hf : id ≠ -2 := by
    rintro rfl
    exact absurd hhead (by decide)
  -- The second character is a letter here, and a digit or a minus sign there.
  have hsecond : (nodeName id).toList[1]? = some 'e' := by
    generalize nodeName id = name at h
    cases h <;> simp
  rw [nodeName_of_ne ht hf] at hsecond
  have hmem : 'e' ∈ (Numeral.decimal id).toList := by
    refine List.mem_of_getElem? (i := 0) ?_
    simpa using hsecond
  exact absurd (Numeral.isDecimalChar_of_mem hmem) (by decide)

variable {S : OpenSorts} {J : Interpretation (Datum S.Carrier)} {t : Term}

/-- A term without the variables of invariants denotes the same wherever they are bound. -/
theorem Term.Denotes.of_names {a : Datum S.Carrier}
    (hnames : ∀ name, .function name ∈ t.names → ¬IsBoundName 0 name)
    (ht : t.eval S.theory J = some a.element) : t.Denotes S (J.AgreesOutside 0) a := by
  intro J' hJ'
  rw [← ht]
  refine Term.eval_congr ⟨fun hname => hJ' _ (hnames _ hname), fun _ => hJ' _ ?_⟩
  exact not_isBoundName_nodeName 0 _

/-! ### The conjunction of the invariants -/

/-- The conjunction of the invariants of a kind, whose sets are plain, denotes a truth value for
every value of the sort of the kind. It holds if all characters and rationals that are found inside
of the value are well formed. There are no invariants just if there are no such parts. -/
theorem Kind.invariants_exact {k : Kind} (hk : k.HasPlainSets)
    (hnames : ∀ name, .function name ∈ t.names → ¬IsBoundName 0 name) :
    (∀ {S : OpenSorts} {J : Interpretation (Datum S.Carrier)} {x : k.domain.Model S.Carrier},
      t.eval S.theory J = some (Datum.element ⟨k.domain, x⟩) →
        ∃ b, (conjunction (k.invariants t)).eval S.theory J = some (.bool b) ∧
          (b = true ↔ ∀ leaf ∈ k.reachable x, leaf.IsWellFormed)) ∧
      (k.invariants t = [] ↔ k.containsCharOrRational = false) := by
  refine ⟨fun {S J x} ht => ?_, invariants_eq_nil_iff⟩
  have hdecides := (decides_invariantsAt (.inl hk) (.of_names hnames ht)).conjunction
  obtain ⟨b, hb⟩ := hdecides.defined _ (List.mem_singleton_self _)
  refine ⟨b, hb, Iff.trans ?_ (allows_iff_reachable hk x)⟩
  have hholds := hdecides.holds_iff
  rw [List.forall_mem_singleton, hb] at hholds
  simpa using hholds

/-- Two letters on the left side of a sum, whose other side would be a set of rationals. -/
theorem Kind.invariants_exact_twoLetters :
    ∃ J : Interpretation (Datum OpenSorts.decimals.Carrier),
      (conjunction ((either (list char) (set rational)).invariants (.node 12))).eval
        OpenSorts.decimals.theory J = some (.bool true) := by
  let letters : (either (list char) (set rational)).domain.Model OpenSorts.decimals.Carrier :=
    Sum.inl [[97], [98]]
  let J : Interpretation (Datum OpenSorts.decimals.Carrier) := fun _ =>
    (Datum.element ⟨_, letters⟩).constant
  have hplain : (either (list char) (set rational)).HasPlainSets := by
    simp [HasPlainSets, subkinds]
  -- The theory has no function of this name, so the interpretation decides.
  have hopen : OpenSorts.decimals.theory.function (.symbol (nodeName 12)) [] = none := by
    have hlookup := Term.lookup_nodeName (α := Datum OpenSorts.decimals.Carrier)
      (by decide : (12 : Int) ≠ -1) (by decide)
    rw [OpenSorts.function_theory, Theory.standard_symbol, hlookup]
    split <;> rfl
  have hnode : (Term.node 12).eval OpenSorts.decimals.theory J =
      some (Datum.element ⟨_, letters⟩) := congrArg (Option.or · _) hopen
  obtain ⟨b, hb, htrue⟩ := (invariants_exact hplain (by simp)).1 hnode
  refine ⟨J, hb.trans (congrArg (fun b => some (Element.bool b)) (htrue.mpr ?_))⟩
  rintro leaf ⟨cs, hcs, rfl⟩
  have hletters : ∀ cs ∈ ([[97], [98]] : List (List CodePoint)), cs.length = 1 := by decide
  exact hletters cs hcs

end SolverScript
