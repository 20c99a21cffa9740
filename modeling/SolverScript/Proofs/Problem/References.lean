import SolverScript.Problem.References
import SolverScript.Proofs.Results

/-!
# Checked references

When the references of a problem have been checked, its assignments are in the order of their
identities, and each refers to identities that are known before it.

## Main definitions

* `Problem.Ordered` - assignments in order, each about known nodes
* `Problem.InCreationOrder` - nodes are numbered after the nodes that they are made from

## Main results

* `Problem.ordered_of_checkReferences` - checked assignments are in order
-/

namespace SolverScript.Problem

/-- Nodes are numbered in the order of their creation: an assigned node after the nodes that its
operation refers to, an existential input after the universal ones that it depends on. -/
structure InCreationOrder (p : Problem) : Prop where
  reference : ∀ a ∈ p.assignments, ∀ n ∈ a.operation.references, n.id < a.node.id
  dependency : ∀ n dependencies, (n, dependencies) ∈ p.existentials →
    ∀ m ∈ dependencies, m ∈ p.universals ∧ m.id < n.id

theorem checkKnown_eq_ok_iff {known : List Int} {failure : Node → Failure} {ns : List Node} :
    checkKnown known failure ns = .ok () ↔ ∀ n ∈ ns, n.id ∈ known := by
  induction ns with
  | nil => simp [checkKnown]
  | cons n ns ih =>
    unfold checkKnown
    split <;> simp_all

/-- Assignments in the order of their identities, each of them about known ones. -/
structure Ordered (known : List Int) (last : Int) (assignments : List Assignment) : Prop where
  increasing : assignments.Pairwise fun a b => a.node.id < b.node.id
  later : ∀ a ∈ assignments, last < a.node.id
  reference : ∀ earlier a rest, assignments = earlier ++ a :: rest →
    ∀ n ∈ a.operation.references, n.id ∈ known ∨ n.id ∈ earlier.map (·.node.id)

theorem Ordered.cons {known : List Int} {last : Int} {a : Assignment} {rest : List Assignment}
    (hlast : last < a.node.id) (ha : ∀ n ∈ a.operation.references, n.id ∈ known)
    (hrest : Ordered (a.node.id :: known) a.node.id rest) : Ordered known last (a :: rest) where
  increasing := List.pairwise_cons.mpr ⟨hrest.later, hrest.increasing⟩
  later := by
    intro b hb
    rcases List.mem_cons.mp hb with rfl | hb
    · exact hlast
    · exact Int.lt_trans hlast (hrest.later b hb)
  reference := by
    intro earlier b post hsplit n hn
    cases earlier with
    | nil =>
      obtain ⟨rfl, rfl⟩ := List.cons_eq_cons.mp hsplit
      exact .inl (ha n hn)
    | cons c earlier =>
      rw [List.cons_append] at hsplit
      obtain ⟨rfl, htail⟩ := List.cons_eq_cons.mp hsplit
      rcases hrest.reference earlier b post htail n hn with hknown | hearlier
      · rcases List.mem_cons.mp hknown with hid | hid
        · exact .inr (by simp [hid])
        · exact .inl hid
      · exact .inr (List.mem_cons_of_mem _ hearlier)

/-- The check of assignments succeeds only if they are in order. -/
theorem ordered_of_checkAssignments {known known' : List Int} {last : Int}
    {assignments : List Assignment} (h : checkAssignments known last assignments = .ok known') :
    Ordered known last assignments ∧
      ∀ id ∈ known', id ∈ known ∨ id ∈ assignments.map (·.node.id) := by
  induction assignments generalizing known last with
  | nil =>
    cases h
    exact ⟨⟨.nil, by simp, by simp⟩, fun id hid => .inl hid⟩
  | cons a rest ih =>
    unfold checkAssignments at h
    by_cases hlast : a.node.id ≤ last
    · simp [hlast, throw, throwThe, MonadExceptOf.throw, bind, Except.bind] at h
    simp only [hlast, if_false] at h
    obtain ⟨_, hreferences, h⟩ := bind_eq_ok_iff.mp h
    obtain ⟨hrest, hknown'⟩ := ih h
    refine ⟨.cons (Int.not_le.mp hlast) (checkKnown_eq_ok_iff.mp hreferences) hrest,
      fun id hid => ?_⟩
    rcases hknown' id hid with hid | hid
    · rcases List.mem_cons.mp hid with rfl | hid
      · exact .inr (by simp)
      · exact .inl hid
    · exact .inr (List.mem_cons_of_mem _ hid)

/-- The assignments of a checked problem are in order, and its final formulas are about known
nodes. -/
theorem ordered_of_checkReferences {p : Problem} (h : p.checkReferences = .ok ()) :
    Ordered p.initiallyKnown (-1) p.assignments := by
  obtain ⟨known, hknown, _⟩ := bind_eq_ok_iff.mp h
  exact (ordered_of_checkAssignments hknown).1

end SolverScript.Problem
