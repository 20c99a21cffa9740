import SolverScript.Kind.Set
import SolverScript.Proofs.Kind.Order
import Mathlib.Data.List.Sort

/-!
# Members of sets of kinds

A set of kinds is kept as an increasing list. Only its members matter: placing a kind adds it, and
the closure of some kinds consists of their universes.

## Main results

* `KindSet.mem_ofList_iff`, `KindSet.mem_closure_iff` - the members of sets and closures
* `KindSet.increasing_ofList` - sets are kept as increasing lists
* `KindSet.ofList_eq_iff` - a set forgets how its members were listed
* `Kind.cmp_totalOrder` - kinds are totally ordered, and increasing lists stand for sets
-/

namespace SolverScript

theorem Kind.mem_subkindsAll {k : Kind} {ks : List Kind} :
    k ∈ subkindsAll ks ↔ ∃ m ∈ ks, k ∈ m.subkinds := by
  induction ks with
  | nil => simp [subkindsAll]
  | cons m ms ih => simp [subkindsAll, ih]

mutual

/-- What is below something below a kind is below the kind. -/
theorem Kind.subkinds_subset {k sub : Kind} (h : sub ∈ k.subkinds) : sub.subkinds ⊆ k.subkinds := by
  cases k with
  | list k | set k | maybe k =>
    rcases List.mem_cons.mp h with rfl | h
    · exact List.Subset.refl _
    · exact List.subset_cons_of_subset _ (subkinds_subset h)
  | tuple ks =>
    rcases List.mem_cons.mp h with rfl | h
    · exact List.Subset.refl _
    · exact List.subset_cons_of_subset _ (subkinds_subset_all h)
  | either l r =>
    rcases List.mem_cons.mp h with rfl | h
    · exact List.Subset.refl _
    · refine List.subset_cons_of_subset _ ?_
      rcases List.mem_append.mp h with h | h
      · exact List.subset_append_of_subset_left _ (subkinds_subset h)
      · exact List.subset_append_of_subset_right _ (subkinds_subset h)
  | _ =>
    obtain rfl := List.mem_singleton.mp h
    exact List.Subset.refl _

theorem Kind.subkinds_subset_all {ks : List Kind} {sub : Kind} (h : sub ∈ subkindsAll ks) :
    sub.subkinds ⊆ subkindsAll ks := by
  cases ks with
  | nil => cases h
  | cons k ks =>
    rcases List.mem_append.mp h with h | h
    · exact List.subset_append_of_subset_left _ (subkinds_subset h)
    · exact List.subset_append_of_subset_right _ (subkinds_subset_all h)

end

/-- What does not occur in a kind does not occur below it. -/
theorem Kind.occurs_eq_false_of_mem {q : Kind → Bool} {k sub : Kind} (h : k.occurs q = false)
    (hsub : sub ∈ k.subkinds) : sub.occurs q = false := by
  simp only [occurs, List.any_eq_false] at h ⊢
  exact fun part hpart => h part (subkinds_subset hsub hpart)

namespace KindSet

theorem mem_place_iff {k m : Kind} {members : List Kind} :
    m ∈ place k members ↔ m = k ∨ m ∈ members := by
  induction members with
  | nil => simp [place]
  | cons first rest ih =>
    rw [place]
    split
    · exact List.mem_cons
    · next hsame =>
      rw [Kind.cmp_eq_iff.mp hsame]
      simp
    · rw [List.mem_cons, ih, List.mem_cons, or_left_comm]

theorem mem_ofList_iff {m : Kind} {kinds : List Kind} : m ∈ (ofList kinds).toList ↔ m ∈ kinds := by
  suffices h : ∀ members : List Kind,
      m ∈ kinds.foldl (fun members k => place k members) members ↔ m ∈ kinds ∨ m ∈ members by
    simpa [ofList] using h []
  induction kinds with
  | nil => simp
  | cons k kinds ih =>
    intro members
    rw [List.foldl_cons, ih, mem_place_iff, List.mem_cons, or_assoc, or_left_comm]

/-- The closure of some kinds consists of everything in their universes. -/
theorem mem_closure_iff {m : Kind} {kinds : List Kind} :
    m ∈ (closure kinds).toList ↔ ∃ k ∈ kinds, m ∈ k.subkinds := by
  rw [closure, mem_ofList_iff, List.mem_flatMap]

/-! ### Sets are increasing lists -/

/-- Placing a kind keeps a list increasing. -/
theorem increasing_place {k : Kind} {members : List Kind}
    (h : members.Pairwise fun l m => l.cmp m = .lt) :
    (place k members).Pairwise fun l m => l.cmp m = .lt := by
  induction members with
  | nil => exact List.pairwise_singleton _ _
  | cons first rest ih =>
    obtain ⟨hfirst, hrest⟩ := List.pairwise_cons.mp h
    rw [place]
    split
    · next hlt =>
      refine List.pairwise_cons.mpr ⟨List.forall_mem_cons.mpr ⟨hlt, fun m hm => ?_⟩, h⟩
      exact Kind.cmp_lt_trans hlt (hfirst m hm)
    · exact h
    · next hgt =>
      refine List.pairwise_cons.mpr ⟨fun m hm => ?_, ih hrest⟩
      rcases mem_place_iff.mp hm with rfl | hm
      · rw [← Kind.swap_cmp, hgt]
        rfl
      · exact hfirst m hm

/-- The set of some kinds lists them in increasing order. -/
theorem increasing_ofList (kinds : List Kind) :
    (ofList kinds).toList.Pairwise fun l m => l.cmp m = .lt := by
  suffices h : ∀ members : List Kind, (members.Pairwise fun l m => l.cmp m = .lt) →
      (kinds.foldl (fun members k => place k members) members).Pairwise fun l m =>
        l.cmp m = .lt from h [] List.Pairwise.nil
  induction kinds with
  | nil => exact fun _ h => h
  | cons k kinds ih => exact fun _ h => ih _ (increasing_place h)

theorem nodup_ofList (kinds : List Kind) : (ofList kinds).toList.Nodup := by
  refine (increasing_ofList kinds).imp fun hlt heq => ?_
  rw [Kind.cmp_eq_iff.mpr heq] at hlt
  cases hlt

/-- No kind comes before itself. -/
instance : Std.Irrefl fun l m : Kind => l.cmp m = .lt where
  irrefl k h := by
    rw [Kind.cmp_self k] at h
    cases h

/-- Of two kinds at most one comes before the other. -/
instance : Std.Antisymm fun l m : Kind => l.cmp m = .lt where
  antisymm k m hkm hmk := by
    rw [← Kind.swap_cmp, hkm] at hmk
    cases hmk

/-- Two lists make the same set just if they have the same members. -/
theorem ofList_eq_iff {kinds others : List Kind} :
    ofList kinds = ofList others ↔ ∀ k, k ∈ kinds ↔ k ∈ others := by
  constructor
  · intro h k
    rw [← mem_ofList_iff, h, mem_ofList_iff]
  · intro h
    have hmembers : ∀ k, k ∈ (ofList kinds).toList ↔ k ∈ (ofList others).toList := fun k => by
      rw [mem_ofList_iff, mem_ofList_iff, h]
    have hlists : (ofList kinds).toList = (ofList others).toList :=
      (increasing_ofList kinds).eq_of_mem_iff (increasing_ofList others) hmembers
    exact congrArg KindSet.mk hlists

end KindSet

/-- Kinds are totally ordered, and only kinds that are the same compare as equal. So whatever list
of the same kinds a set is made from, it is the same increasing list of them. -/
theorem Kind.cmp_totalOrder :
    (∀ a b : Kind, (a.cmp b).swap = b.cmp a) ∧ (∀ a b : Kind, a.cmp b = .eq ↔ a = b) ∧
      (∀ a b c : Kind, a.cmp b = .lt → b.cmp c = .lt → a.cmp c = .lt) ∧
      ∀ kinds others : List Kind, (∀ k, k ∈ kinds ↔ k ∈ others) →
        KindSet.ofList kinds = KindSet.ofList others ∧
          ((KindSet.ofList kinds).toList.Pairwise fun l m => l.cmp m = .lt) ∧
          ∀ k, k ∈ (KindSet.ofList kinds).toList ↔ k ∈ kinds :=
  ⟨swap_cmp, fun _ _ => cmp_eq_iff, fun _ _ _ => cmp_lt_trans, fun kinds _ h =>
    ⟨KindSet.ofList_eq_iff.mpr h, KindSet.increasing_ofList kinds, fun _ =>
      KindSet.mem_ofList_iff⟩⟩

/-- Two enumerations of one name inside tuples, and sets of kinds listed the other way round. -/
theorem Kind.cmp_totalOrder_enumerations :
    let plain := tuple [userSort ⟨"S", none⟩]
    let empty := tuple [userSort ⟨"S", some []⟩]
    let filled := tuple [userSort ⟨"S", some ["a"]⟩]
    plain.cmp empty = .lt ∧ empty.cmp filled = .lt ∧ plain.cmp filled = .lt ∧
      KindSet.ofList [filled, plain, empty, plain] = KindSet.ofList [plain, empty, filled] := by
  intro plain empty filled
  have hplain : plain.cmp empty = .lt := by decide
  have hempty : empty.cmp filled = .lt := by decide
  obtain ⟨-, -, htrans, hsets⟩ := Kind.cmp_totalOrder
  refine ⟨hplain, hempty, htrans _ _ _ hplain hempty, (hsets _ _ fun k => ?_).1⟩
  simp only [List.mem_cons, List.not_mem_nil, or_false]
  tauto

end SolverScript
