import SolverScript.Proofs.Kind.Set
import Mathlib.Data.Set.Basic
import Mathlib.Logic.Relation
import Mathlib.Order.Bounds.Basic

/-!
# Closures of sets of kinds

The parts of a kind are what is reached from it by going to components, again and again. The closure
of some kinds consists of their parts. It is the least set that contains the kinds and what its
members consist of, which makes it a closure operator: it adds nothing to a set that is closed already,
and keeps inclusions and unions. A property that is looked for below some kinds is found among the
members of their closure.

## Main definitions

* `Kind.HasPart` - the parts of a kind
* `Kind.IsClosed` - sets of kinds that contain the components of their members
* `KindSet.IsClosureOperator` - what closing some kinds has to do

## Main results

* `Kind.mem_subkinds_iff`, `Kind.occurs_iff` - what the universe of a kind lists, and what occurs in
  it
* `KindSet.isLeast_closure` - the closure is the least closed set around some kinds
* `KindSet.isClosureOperator_closure` - the closure has all of these properties
-/

namespace SolverScript

namespace Kind

/-! ### Parts -/

/-- Whether a kind is another one, a component of it, a component of a component, and so on. -/
def HasPart : Kind → Kind → Prop := Relation.ReflTransGen fun whole part => part ∈ whole.children

theorem hasPart_self (k : Kind) : k.HasPart k := .refl

theorem subkindsAll_eq (ks : List Kind) : subkindsAll ks = ks.flatMap subkinds := by
  induction ks with
  | nil => rfl
  | cons k ks ih => rw [subkindsAll, ih, List.flatMap_cons]

/-- The universe of a kind is the kind followed by the universes of its components. -/
theorem subkinds_eq (k : Kind) : k.subkinds = k :: k.children.flatMap subkinds := by
  cases k with
  | tuple ks => rw [subkinds, subkindsAll_eq, children]
  | _ => simp [subkinds, children]

theorem mem_subkinds_self (k : Kind) : k ∈ k.subkinds := by
  rw [subkinds_eq]
  exact List.mem_cons_self

theorem mem_subkinds_of_mem_children {k part : Kind} (h : part ∈ k.children) :
    part ∈ k.subkinds := by
  rw [subkinds_eq]
  exact List.mem_cons_of_mem _ (List.mem_flatMap.mpr ⟨part, h, part.mem_subkinds_self⟩)

mutual

theorem hasPart_of_mem_subkinds {k m : Kind} (h : m ∈ k.subkinds) : k.HasPart m := by
  cases k with
  | list k | set k | maybe k =>
    rcases List.mem_cons.mp h with rfl | h
    · exact .refl
    · exact .head (List.mem_singleton_self k) (hasPart_of_mem_subkinds h)
  | tuple ks =>
    rcases List.mem_cons.mp h with rfl | h
    · exact .refl
    · obtain ⟨k, hk, hpart⟩ := exists_hasPart_of_mem_subkindsAll h
      exact .head hk hpart
  | either l r =>
    rcases List.mem_cons.mp h with rfl | h
    · exact .refl
    · rcases List.mem_append.mp h with h | h
      · exact .head List.mem_cons_self (hasPart_of_mem_subkinds h)
      · exact .head (List.mem_cons_of_mem l (List.mem_singleton_self r)) (hasPart_of_mem_subkinds h)
  | _ =>
    obtain rfl := List.mem_singleton.mp h
    exact .refl

theorem exists_hasPart_of_mem_subkindsAll {ks : List Kind} {m : Kind} (h : m ∈ subkindsAll ks) :
    ∃ k ∈ ks, k.HasPart m := by
  cases ks with
  | nil => cases h
  | cons k ks =>
    rcases List.mem_append.mp h with h | h
    · exact ⟨k, List.mem_cons_self, hasPart_of_mem_subkinds h⟩
    · obtain ⟨other, hother, hpart⟩ := exists_hasPart_of_mem_subkindsAll h
      exact ⟨other, List.mem_cons_of_mem k hother, hpart⟩

end

/-- The universe of a kind lists its parts. -/
theorem mem_subkinds_iff {k m : Kind} : m ∈ k.subkinds ↔ k.HasPart m := by
  refine ⟨hasPart_of_mem_subkinds, fun h => ?_⟩
  induction h with
  | refl => exact k.mem_subkinds_self
  | tail _ hpart ih => exact subkinds_subset ih (mem_subkinds_of_mem_children hpart)

/-- What occurs in a kind is found in the kind itself or below one of its components. -/
theorem occurs_iff {k : Kind} {property : Kind → Bool} :
    k.occurs property ↔ property k ∨ ∃ part ∈ k.children, part.occurs property := by
  simp only [occurs, List.any_eq_true]
  rw [subkinds_eq]
  simp only [List.mem_cons, List.mem_flatMap, exists_eq_or_imp]
  constructor
  · rintro (h | ⟨m, ⟨part, hpart, hm⟩, h⟩)
    · exact .inl h
    · exact .inr ⟨part, hpart, m, hm, h⟩
  · rintro (h | ⟨part, hpart, m, hm, h⟩)
    · exact .inl h
    · exact .inr ⟨m, ⟨part, hpart, hm⟩, h⟩

theorem occurs_iff_exists_part {k : Kind} {property : Kind → Bool} :
    k.occurs property ↔ ∃ part, k.HasPart part ∧ property part := by
  simp only [occurs, List.any_eq_true, mem_subkinds_iff]

/-- Whether a set of kinds contains the components of its members. -/
def IsClosed (members : Set Kind) : Prop := ∀ k ∈ members, ∀ part ∈ k.children, part ∈ members

theorem IsClosed.mem_of_hasPart {members : Set Kind} (h : IsClosed members) {k m : Kind}
    (hk : k ∈ members) (hpart : k.HasPart m) : m ∈ members := by
  induction hpart with
  | refl => exact hk
  | tail _ hchild ih => exact h _ ih _ hchild

end Kind

/-! ### Closures -/

namespace KindSet

variable {kinds others : List Kind} {m : Kind}

/-- A closure consists of the parts of its kinds. -/
theorem mem_closure_iff_exists_hasPart :
    m ∈ (closure kinds).toList ↔ ∃ k ∈ kinds, k.HasPart m := by
  simp only [mem_closure_iff, Kind.mem_subkinds_iff]

theorem isClosed_closure (kinds : List Kind) : Kind.IsClosed {m | m ∈ (closure kinds).toList} := by
  intro m hm part hpart
  obtain ⟨k, hk, hkm⟩ := mem_closure_iff_exists_hasPart.mp hm
  exact mem_closure_iff_exists_hasPart.mpr ⟨k, hk, hkm.tail hpart⟩

theorem mem_closure_of_mem (h : m ∈ kinds) : m ∈ (closure kinds).toList :=
  mem_closure_iff_exists_hasPart.mpr ⟨m, h, m.hasPart_self⟩

/-- The closure of some kinds is the least closed set that contains them. -/
theorem isLeast_closure (kinds : List Kind) :
    IsLeast {members : Set Kind | (∀ k ∈ kinds, k ∈ members) ∧ Kind.IsClosed members}
      {m | m ∈ (closure kinds).toList} := by
  refine ⟨⟨fun k => mem_closure_of_mem, isClosed_closure kinds⟩, ?_⟩
  rintro members ⟨hkinds, hclosed⟩ m hm
  obtain ⟨k, hk, hpart⟩ := mem_closure_iff_exists_hasPart.mp hm
  exact hclosed.mem_of_hasPart (hkinds k hk) hpart

theorem closure_mono (h : kinds ⊆ others) : (closure kinds).toList ⊆ (closure others).toList := by
  intro m hm
  obtain ⟨k, hk, hpart⟩ := mem_closure_iff_exists_hasPart.mp hm
  exact mem_closure_iff_exists_hasPart.mpr ⟨k, h hk, hpart⟩

/-- Closures are equal if they have the same members. -/
theorem closure_eq_iff : closure kinds = closure others ↔
    ∀ m, m ∈ (closure kinds).toList ↔ m ∈ (closure others).toList := by
  simp only [closure, ofList_eq_iff, mem_ofList_iff]

/-- Only which kinds there are matters for their closure. -/
theorem closure_toList_ofList (kinds : List Kind) :
    closure (ofList kinds).toList = closure kinds := by
  refine closure_eq_iff.mpr fun m => ?_
  simp only [mem_closure_iff_exists_hasPart, mem_ofList_iff]

/-- A closure is closed already. -/
theorem closure_closure (kinds : List Kind) : closure (closure kinds).toList = closure kinds := by
  refine closure_eq_iff.mpr fun m => ⟨fun hm => ?_, mem_closure_of_mem⟩
  obtain ⟨k, hk, hpart⟩ := mem_closure_iff_exists_hasPart.mp hm
  exact (isClosed_closure kinds).mem_of_hasPart hk hpart

/-- The closure of a union is the union of the closures. -/
theorem closure_append (kinds others : List Kind) :
    closure (kinds ++ others) = ofList ((closure kinds).toList ++ (closure others).toList) := by
  refine ofList_eq_iff.mpr fun m => ?_
  rw [List.flatMap_append, List.mem_append, List.mem_append, closure, closure, mem_ofList_iff,
    mem_ofList_iff]

theorem exists_mem_closure_iff {property : Kind → Bool} :
    (∃ m ∈ (closure kinds).toList, property m) ↔ ∃ k ∈ kinds, k.occurs property := by
  simp only [mem_closure_iff_exists_hasPart, Kind.occurs_iff_exists_part]
  constructor
  · rintro ⟨m, ⟨k, hk, hpart⟩, hm⟩
    exact ⟨k, hk, m, hpart, hm⟩
  · rintro ⟨k, hk, m, hpart, hm⟩
    exact ⟨m, ⟨k, hk, hpart⟩, hm⟩

/-- Whether a function closes lists of kinds: it gives the least closed set around them, which has
nothing in it but their parts. So it depends on their members only, adds nothing to what is closed,
respects inclusions and unions, and shows what a search below the kinds finds. -/
structure IsClosureOperator (close : List Kind → KindSet) : Prop where
  least (kinds : List Kind) :
    IsLeast {members : Set Kind | (∀ k ∈ kinds, k ∈ members) ∧ Kind.IsClosed members}
      {m | m ∈ (close kinds).toList}
  hasPart (kinds : List Kind) : ∀ m ∈ (close kinds).toList, ∃ k ∈ kinds, k.HasPart m
  ofList (kinds : List Kind) : close (ofList kinds).toList = close kinds
  idempotent (kinds : List Kind) : close (close kinds).toList = close kinds
  monotone {kinds others : List Kind} (h : kinds ⊆ others) :
    (close kinds).toList ⊆ (close others).toList
  union (kinds others : List Kind) :
    close (kinds ++ others) = KindSet.ofList ((close kinds).toList ++ (close others).toList)
  occurs (kinds : List Kind) (property : Kind → Bool) :
    (∃ m ∈ (close kinds).toList, property m) ↔ ∃ k ∈ kinds, k.occurs property

/-- The closure of some kinds is what it has to be. What occurs in a kind is what is found by going
down from it. -/
theorem isClosureOperator_closure :
    IsClosureOperator closure ∧ ∀ (k : Kind) (property : Kind → Bool),
      k.occurs property ↔ property k ∨ ∃ part ∈ k.children, part.occurs property :=
  ⟨{ least := isLeast_closure
     hasPart := fun _ _ hm => mem_closure_iff_exists_hasPart.mp hm
     ofList := closure_toList_ofList
     idempotent := closure_closure
     monotone := closure_mono
     union := closure_append
     occurs := fun _ _ => exists_mem_closure_iff }, fun _ _ => Kind.occurs_iff⟩

/-- The closure of nested kinds, in the order of kinds. -/
example : (closure [.maybe (.tuple [.char, .list .char]), .char]).toList =
    [.char, .list .char, .tuple [.char, .list .char], .maybe (.tuple [.char, .list .char])] := by
  rfl

end KindSet

end SolverScript
