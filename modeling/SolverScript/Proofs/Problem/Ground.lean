import SolverScript.Proofs.Problem.Nodes
import SolverScript.Proofs.Problem.References

/-!
# Ground nodes

A node is ground if no universal node occurs in the term that it is written as: it is not universal
itself, and it is not a function of universal nodes. Constants and assigned nodes are ground, and so
is everything that an assignment before all universal nodes refers to.

## Main definitions

* `Problem.IsGround` - nodes whose terms have no universal node in them
* `Problem.groundNodes` - the nodes that are known before any assignment, without universal ones

## Main results

* `Problem.HasDistinctNodes.isGround_of_mem_groundNodes` - these nodes are ground
* `Problem.InCreationOrder.isGround_of_reference` - early assignments refer to ground nodes
-/

namespace SolverScript.Problem

/-- Whether an identity is not the one of a universal node. -/
def NotUniversal (p : Problem) (id : Int) : Prop := ∀ u ∈ p.universals, id ≠ u.id

/-- Whether no universal node occurs in the term of a node. -/
def IsGround (p : Problem) (n : Node) : Prop := ∀ m ∈ p.skolems.mentioned n, p.NotUniversal m.id

/-- The nodes whose elements are given and do not depend on universal nodes. -/
def groundNodes (p : Problem) : List Node :=
  [Node.ofBool true, Node.ofBool false] ++
    (p.freeInputs.filter fun d => d.2.isEmpty).map Prod.fst ++ p.constants.map Constant.node

variable {p : Problem}

/-- A node that is not universal is ground unless it depends on other nodes. -/
theorem isGround_of_plain {n : Node} (hn : p.NotUniversal n.id)
    (hplain : ∀ d ∈ p.existentials, d.1.id = n.id → d.2 = []) : p.IsGround n := by
  have hnone : p.skolems.dependencies? n = none := by
    cases hskolem : p.skolems.dependencies? n with
    | none => rfl
    | some dependencies =>
      obtain ⟨k, hk, hne, hid⟩ := exists_of_dependencies? hskolem
      exact absurd (hplain _ hk hid) hne
  intro m hm
  rw [SkolemMap.mentioned, hnone] at hm
  rwa [List.mem_singleton.mp hm]

/-! ### Known nodes -/

theorem ofBool_mem_groundNodes (b : Bool) : Node.ofBool b ∈ p.groundNodes := by
  cases b <;> simp [groundNodes]

/-- The known nodes are the truth values, the inputs that depend on nothing, and the constants. -/
theorem mem_groundNodes_iff {n : Node} :
    n ∈ p.groundNodes ↔ (∃ b, n = Node.ofBool b) ∨
      (∃ d ∈ p.freeInputs, d.2 = [] ∧ d.1 = n) ∨ ∃ c ∈ p.constants, c.node = n := by
  simp only [groundNodes, List.mem_append, List.mem_cons, List.not_mem_nil, or_false, List.mem_map,
    List.mem_filter, List.isEmpty_iff, Bool.exists_bool, or_assoc, and_assoc]
  exact or_left_comm

/-- A ground node is a given one or a truth value. -/
theorem given_of_mem_groundNodes {n : Node} (hn : n ∈ p.groundNodes) :
    n ∈ p.givenNodes ∨ ∃ b, n = Node.ofBool b := by
  rcases mem_groundNodes_iff.mp hn with hb | ⟨d, hd, -, rfl⟩ | ⟨c, hc, rfl⟩
  · exact .inr hb
  · exact .inl (List.mem_append_left _ (mem_inputNodes_of_free hd))
  · exact .inl (List.mem_append_right _ (List.mem_map_of_mem hc))

/-- A given node is ground unless it is universal or depends on universal nodes. -/
theorem mem_groundNodes {n : Node} (hn : n ∈ p.givenNodes) (huniversal : n ∉ p.universals)
    (hplain : ∀ d ∈ p.freeInputs, d.1 = n → d.2 = []) : n ∈ p.groundNodes := by
  rw [mem_groundNodes_iff]
  rcases List.mem_append.mp hn with hn | hn
  · rcases List.mem_append.mp (perm_inputNodes.mem_iff.mp hn) with hn | hn
    · exact absurd hn huniversal
    · obtain ⟨d, hd, hdn⟩ := List.mem_map.mp hn
      exact .inr (.inl ⟨d, hd, hplain d hd hdn, hdn⟩)
  · exact .inr (.inr (List.mem_map.mp hn))

/-! ### Nodes with identities of their own -/

namespace HasDistinctNodes

variable (hp : p.HasDistinctNodes)

include hp

theorem notUniversal_of_reserved {n : Node} (hn : n.IsReserved) : p.NotUniversal n.id := by
  intro u hu hid
  apply hp.not_reserved_of_universal hu
  rwa [Node.IsReserved, ← hid]

theorem notUniversal_of_constant {c : Constant} (hc : c ∈ p.constants) :
    p.NotUniversal c.node.id :=
  fun _ hu => (hp.id_ne_of_constant (mem_inputNodes_of_universal hu) hc).symm

theorem notUniversal_of_assignment {a : Assignment} (ha : a ∈ p.assignments) :
    p.NotUniversal a.node.id :=
  fun _ hu => (hp.id_ne_of_given (List.mem_append_left _ (mem_inputNodes_of_universal hu)) ha).symm

theorem notUniversal_of_free {d : Node × List Node} (hd : d ∈ p.freeInputs) :
    p.NotUniversal d.1.id :=
  fun _ hu => (hp.universal_ne_free hu hd).symm

theorem isGround_of_reserved {n : Node} (hn : n.IsReserved) : p.IsGround n := by
  refine isGround_of_plain (hp.notUniversal_of_reserved hn) fun d hd hid => ?_
  apply absurd _ (hp.input _ (mem_inputNodes_of_existential hd))
  rwa [Node.IsReserved, hid]

theorem isGround_of_constant {n : Node} {c : Constant} (hc : c ∈ p.constants)
    (hid : c.node.id = n.id) : p.IsGround n :=
  isGround_of_plain (hid ▸ hp.notUniversal_of_constant hc) fun _ hd hdn =>
    absurd (hdn.trans hid.symm) (hp.id_ne_of_constant (mem_inputNodes_of_existential hd) hc)

theorem isGround_of_assignment {a : Assignment} (ha : a ∈ p.assignments) : p.IsGround a.node :=
  isGround_of_plain (hp.notUniversal_of_assignment ha) fun _ hd hid =>
    absurd hid (hp.id_ne_of_given (List.mem_append_left _ (mem_inputNodes_of_existential hd)) ha)

/-- An input that depends on nothing is ground. -/
theorem isGround_of_free {d : Node × List Node} (hd : d ∈ p.freeInputs) (hempty : d.2 = []) :
    p.IsGround d.1 := by
  refine isGround_of_plain (hp.notUniversal_of_free hd) fun e he hid => ?_
  have hfree : e ∈ p.freeInputs := List.mem_append_left _ (List.mem_append_left _ he)
  rwa [List.inj_on_of_nodup_map hp.nodup_freeInputs hfree hd hid]

theorem isGround_of_mem_groundNodes {n : Node} (hn : n ∈ p.groundNodes) : p.IsGround n := by
  rcases mem_groundNodes_iff.mp hn with ⟨b, rfl⟩ | ⟨d, hd, hempty, rfl⟩ | ⟨c, hc, rfl⟩
  · exact hp.isGround_of_reserved (Node.isReserved_ofBool b)
  · exact hp.isGround_of_free hd hempty
  · exact hp.isGround_of_constant hc rfl

/-- A node with a known value is ground. -/
theorem isGround_of_fixes {n : Node} (hn : p.constants.fixes n = true) : p.IsGround n := by
  have hcases : n.IsReserved ∨ ∃ c ∈ p.constants, c.node.id = n.id := by
    simp only [Constants.fixes, Constants.value?, Node.isTrue, Node.isFalse, Bool.or_eq_true,
      beq_iff_eq, Option.isSome_map, List.find?_isSome, Node.same] at hn
    exact hn
  rcases hcases with hreserved | ⟨c, hc, hid⟩
  · exact hp.isGround_of_reserved hreserved
  · exact hp.isGround_of_constant hc hid

end HasDistinctNodes

/-! ### Early assignments -/

namespace InCreationOrder

variable (horder : p.InCreationOrder) {a : Assignment} (ha : a ∈ p.assignments)
  (hearly : ∀ u ∈ p.universals, a.node.id < u.id) {n : Node} (hn : n ∈ a.operation.references)

include horder ha hearly hn

/-- What an assignment before all universal nodes refers to is before them, too. -/
theorem lt_universal_of_reference : ∀ u ∈ p.universals, n.id < u.id :=
  fun u hu => Int.lt_trans (horder.reference a ha n hn) (hearly u hu)

/-- An input that depends on universal nodes comes after them. -/
theorem dependencies_eq_nil_of_reference {d : Node × List Node} (hd : d ∈ p.existentials)
    (hid : d.1.id = n.id) : d.2 = [] := by
  by_contra hne
  obtain ⟨m, hm⟩ := List.exists_mem_of_ne_nil _ hne
  obtain ⟨huniversal, hbefore⟩ := horder.dependency d.1 d.2 hd m hm
  have hafter := horder.lt_universal_of_reference ha hearly hn m huniversal
  omega

/-- What an early assignment refers to is there before the universal nodes, and so is everything
that it depends on. -/
theorem isGround_of_reference : p.IsGround n :=
  isGround_of_plain
    (fun u hu => Int.ne_of_lt (horder.lt_universal_of_reference ha hearly hn u hu))
    fun _ hd hid => horder.dependencies_eq_nil_of_reference ha hearly hn hd hid

theorem mem_groundNodes_of_reference (hgiven : n ∈ p.givenNodes) : n ∈ p.groundNodes := by
  refine mem_groundNodes hgiven (fun hu => ?_) fun d hd hdn => ?_
  · exact Int.lt_irrefl _ (horder.lt_universal_of_reference ha hearly hn n hu)
  · by_contra hne
    exact hne (horder.dependencies_eq_nil_of_reference ha hearly hn
      (mem_existentials_of_free hd hne) (congrArg Node.id hdn))

end InCreationOrder

end SolverScript.Problem
