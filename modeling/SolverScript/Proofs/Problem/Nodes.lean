import Mathlib.Data.List.Nodup
import Mathlib.Data.List.Perm.Basic
import SolverScript.Script.OfProblem

/-!
# Nodes of a problem

The nodes of a problem are its inputs, its constants and its assignments. Universal inputs are bound
by the script; the other inputs are free, and some of them are functions of universal ones. Where
different nodes have different identities, each node is written in one way.

## Main definitions

* `Problem.inputNodes`, `Problem.givenNodes`, `Problem.nodes` - the nodes of a problem
* `Problem.freeInputs` - the inputs that are not universal
* `Problem.HasDistinctNodes` - different nodes have different identities

## Main results

* `Problem.perm_inputNodes` - inputs are universal or free
* `Problem.HasDistinctNodes.dependencies?_of_free` - how free inputs are written
-/

namespace SolverScript

/-! ### Maps with later entries first -/

theorem exists_of_latest? {κ β : Type} {isKey : κ → Bool} {entries : List (κ × β)} {b : β}
    (h : latest? isKey entries = some b) : ∃ k, (k, b) ∈ entries ∧ isKey k = true := by
  induction entries with
  | nil => cases h
  | cons entry rest ih =>
    obtain ⟨k, c⟩ := entry
    unfold latest? at h
    split at h
    · next later hlater =>
      cases h
      obtain ⟨k', hmem, hkey⟩ := ih hlater
      exact ⟨k', List.mem_cons_of_mem _ hmem, hkey⟩
    · split at h
      · next hkey =>
        cases h
        exact ⟨k, List.mem_cons_self, hkey⟩
      · cases h

theorem exists_latest?_of_mem {κ β : Type} (isKey : κ → Bool) {entries : List (κ × β)} {k : κ}
    {b : β} (hmem : (k, b) ∈ entries) (hkey : isKey k = true) :
    ∃ c, latest? isKey entries = some c := by
  induction entries with
  | nil => cases hmem
  | cons entry rest ih =>
    unfold latest?
    rcases List.mem_cons.mp hmem with rfl | hmem
    · cases latest? isKey rest with
      | none => exact ⟨b, if_pos hkey⟩
      | some c => exact ⟨c, rfl⟩
    · obtain ⟨c, hc⟩ := ih hmem
      exact ⟨c, by rw [hc]⟩

theorem latest?_append {κ β : Type} (isKey : κ → Bool) (earlier later : List (κ × β)) :
    latest? isKey (earlier ++ later) = (latest? isKey later).or (latest? isKey earlier) := by
  induction earlier with
  | nil => simp [latest?]
  | cons entry rest ih =>
    obtain ⟨k, b⟩ := entry
    simp only [List.cons_append, latest?, ih]
    cases latest? isKey later <;> rfl

/-! ### The nodes -/

/-- Whether a node has the identity of a truth value. -/
def Node.IsReserved (n : Node) : Prop := n.id = -1 ∨ n.id = -2

theorem Node.isReserved_ofBool (b : Bool) : (ofBool b).IsReserved := by
  cases b <;> simp [IsReserved, ofBool]

/-- The nodes that occur in the term of a node. -/
def SkolemMap.mentioned (skolems : SkolemMap) (n : Node) : List Node :=
  n :: (skolems.dependencies? n).getD []

namespace Problem

/-- The inputs that a script declares or quantifies over. -/
def declaredNodes (p : Problem) : List Node :=
  p.quantified.map QuantifiedInput.node ++ p.trackers.map NamedNode.node

/-- The named inputs that a script does not declare. -/
def undeclaredNodes (p : Problem) : List Node :=
  (p.inputs.map NamedNode.node).filter fun n => !p.declaredNodes.any n.same

/-- The inputs of a problem. -/
def inputNodes (p : Problem) : List Node := p.declaredNodes ++ p.undeclaredNodes

/-- The nodes whose elements are given: inputs and constants. -/
def givenNodes (p : Problem) : List Node := p.inputNodes ++ p.constants.map Constant.node

/-- The nodes that a problem gives a meaning to, besides the truth values. -/
def nodes (p : Problem) : List Node := p.givenNodes ++ p.assignments.map Assignment.node

/-- Whether a node is one of the problem. -/
def HasNode (p : Problem) (n : Node) : Prop := n ∈ p.nodes ∨ ∃ b, n = Node.ofBool b

/-- The inputs that a script declares, with the nodes that they are functions of. -/
def declaredInputs (p : Problem) : List (Node × List Node) :=
  p.existentials ++ p.trackers.map fun t => (t.node, [])

/-- The inputs that are not universal, with the nodes that they are functions of. -/
def freeInputs (p : Problem) : List (Node × List Node) :=
  p.declaredInputs ++ p.undeclaredNodes.map fun n => (n, [])

/-- Different nodes have different identities, and no input has the one of a truth value. -/
structure HasDistinctNodes (p : Problem) : Prop where
  distinct : (p.nodes.map Node.id).Nodup
  input : ∀ n ∈ p.inputNodes, ¬n.IsReserved

variable {p : Problem}

theorem mem_nodes_of_assignment {a : Assignment} (ha : a ∈ p.assignments) : a.node ∈ p.nodes :=
  List.mem_append_right _ (List.mem_map_of_mem ha)

theorem mem_inputNodes_of_quantified {q : QuantifiedInput} (hq : q ∈ p.quantified) :
    q.node ∈ p.inputNodes := by
  simp only [inputNodes, declaredNodes, List.mem_append, List.mem_map]
  exact .inl (.inl ⟨q, hq, rfl⟩)

theorem mem_inputNodes_of_tracker {t : NamedNode} (ht : t ∈ p.trackers) :
    t.node ∈ p.inputNodes := by
  simp only [inputNodes, declaredNodes, List.mem_append, List.mem_map]
  exact .inl (.inr ⟨t, ht, rfl⟩)

/-- A named input shares its identity with an input of the problem. -/
theorem exists_inputNode_of_named {x : NamedNode} (hx : x ∈ p.inputs) :
    ∃ n ∈ p.inputNodes, n.id = x.node.id := by
  by_cases hdeclared : p.declaredNodes.any x.node.same = true
  · obtain ⟨n, hn, hsame⟩ := List.any_eq_true.mp hdeclared
    exact ⟨n, List.mem_append_left _ hn, (beq_iff_eq.mp hsame).symm⟩
  · refine ⟨x.node, List.mem_append_right _ (List.mem_filter.mpr ⟨List.mem_map_of_mem hx, ?_⟩), rfl⟩
    simpa using hdeclared

theorem mem_inputNodes_of_universal {n : Node} (hn : n ∈ p.universals) : n ∈ p.inputNodes := by
  obtain ⟨q, hq, hqn⟩ := List.mem_filterMap.mp hn
  cases q with
  | universal m =>
    cases hqn
    exact mem_inputNodes_of_quantified hq
  | existential => cases hqn

theorem mem_inputNodes_of_existential {n : Node} {dependencies : List Node}
    (hn : (n, dependencies) ∈ p.existentials) : n ∈ p.inputNodes := by
  obtain ⟨q, hq, hqn⟩ := List.mem_filterMap.mp hn
  cases q with
  | universal => cases hqn
  | existential m ds =>
    cases hqn
    exact mem_inputNodes_of_quantified hq

theorem perm_quantified (qs : List QuantifiedInput) :
    (qs.map QuantifiedInput.node).Perm
      (qs.filterMap QuantifiedInput.universal? ++
        (qs.filterMap QuantifiedInput.existential?).map Prod.fst) := by
  induction qs with
  | nil => exact .nil
  | cons q qs ih =>
    cases q with
    | universal n => exact ih.cons n
    | existential n dependencies => exact (ih.cons n).trans List.perm_middle.symm

/-- The inputs are the universal nodes and the others. -/
theorem perm_inputNodes : p.inputNodes.Perm (p.universals ++ p.freeInputs.map Prod.fst) := by
  have hrest : p.freeInputs.map Prod.fst =
      p.existentials.map Prod.fst ++ p.trackers.map NamedNode.node ++ p.undeclaredNodes := by
    simp [freeInputs, declaredInputs, Function.comp_def]
  rw [hrest, inputNodes, declaredNodes, ← List.append_assoc, ← List.append_assoc]
  exact ((perm_quantified p.quantified).append_right _).append_right _

theorem mem_inputNodes_of_free {d : Node × List Node} (hd : d ∈ p.freeInputs) :
    d.1 ∈ p.inputNodes :=
  perm_inputNodes.mem_iff.mpr (List.mem_append_right _ (List.mem_map_of_mem hd))

/-- Only declared existential inputs depend on others. -/
theorem mem_existentials_of_free {d : Node × List Node} (hd : d ∈ p.freeInputs) (hne : d.2 ≠ []) :
    d ∈ p.existentials := by
  rcases List.mem_append.mp hd with hd | hd
  · rcases List.mem_append.mp hd with hd | hd
    · exact hd
    · obtain ⟨t, -, rfl⟩ := List.mem_map.mp hd
      exact absurd rfl hne
  · obtain ⟨n, -, rfl⟩ := List.mem_map.mp hd
    exact absurd rfl hne

/-- What is known from the start has the identity of a truth value or of a given node. -/
theorem exists_of_initiallyKnown {id : Int} (h : id ∈ p.initiallyKnown) :
    (id = -1 ∨ id = -2) ∨ ∃ n ∈ p.givenNodes, n.id = id := by
  simp only [initiallyKnown, List.mem_append, List.mem_map, List.mem_cons, List.not_mem_nil,
    or_false] at h
  rcases h with (((h | ⟨x, hx, rfl⟩) | ⟨t, ht, rfl⟩) | ⟨q, hq, rfl⟩) | ⟨c, hc, rfl⟩
  · exact .inl h
  · obtain ⟨n, hn, hid⟩ := exists_inputNode_of_named hx
    exact .inr ⟨n, List.mem_append_left _ hn, hid⟩
  · exact .inr ⟨t.node, List.mem_append_left _ (mem_inputNodes_of_tracker ht), rfl⟩
  · exact .inr ⟨q.node, List.mem_append_left _ (mem_inputNodes_of_quantified hq), rfl⟩
  · exact .inr ⟨c.node, List.mem_append_right _ (List.mem_map_of_mem hc), rfl⟩

/-- An assignment is early if it comes before every universal node. -/
theorem isEarly_iff {a : Assignment} :
    p.isEarly a = true ↔ ∀ u ∈ p.universals, a.node.id < u.id := by
  unfold isEarly firstUniversal?
  cases hmin : (p.universals.map Node.id).min? with
  | none =>
    have hnone : p.universals = [] := by simpa using hmin
    simp [hnone]
  | some first =>
    obtain ⟨hmem, hle⟩ := List.min?_eq_some_iff.mp hmin
    rw [decide_eq_true_iff]
    constructor
    · intro hlt u hu
      exact Int.lt_of_lt_of_le hlt (hle _ (List.mem_map_of_mem hu))
    · intro hall
      obtain ⟨u, hu, rfl⟩ := List.mem_map.mp hmem
      exact hall u hu

/-! ### Nodes that depend on others -/

/-- A node that is written as an application is an existential input with dependencies. -/
theorem exists_of_dependencies? {n : Node} {dependencies : List Node}
    (h : p.skolems.dependencies? n = some dependencies) :
    ∃ k, (k, dependencies) ∈ p.existentials ∧ dependencies ≠ [] ∧ k.id = n.id := by
  obtain ⟨k, hmem, hkey⟩ := exists_of_latest? h
  obtain ⟨hmem, hne⟩ := List.mem_filter.mp hmem
  have hid : n.id = k.id := beq_iff_eq.mp hkey
  exact ⟨k, hmem, by simpa using hne, hid.symm⟩

/-- Other nodes are written as symbols. -/
theorem dependencies?_eq_none {n : Node} (h : ∀ d ∈ p.existentials, d.1.id ≠ n.id) :
    p.skolems.dependencies? n = none := by
  cases hskolem : p.skolems.dependencies? n with
  | none => rfl
  | some dependencies =>
    obtain ⟨k, hk, -, hid⟩ := exists_of_dependencies? hskolem
    exact absurd hid (h _ hk)

namespace HasDistinctNodes

variable (hp : p.HasDistinctNodes)

include hp

/-- Nodes of a problem are told apart by their identities. -/
theorem eq_of_id_eq {n m : Node} (hn : n ∈ p.nodes) (hm : m ∈ p.nodes) (h : n.id = m.id) :
    n = m :=
  List.inj_on_of_nodup_map hp.distinct hn hm h

theorem id_ne_of_given {n : Node} {a : Assignment} (hn : n ∈ p.givenNodes)
    (ha : a ∈ p.assignments) : n.id ≠ a.node.id := by
  have hdistinct := hp.distinct
  rw [nodes, List.map_append, List.nodup_append] at hdistinct
  exact hdistinct.2.2 _ (List.mem_map_of_mem hn) _
    (List.mem_map_of_mem (List.mem_map_of_mem ha))

theorem nodup_constants : (p.constants.map (·.node.id)).Nodup := by
  have hdistinct := hp.distinct
  rw [nodes, givenNodes, List.map_append, List.map_append] at hdistinct
  have hconstants := hdistinct.of_append_left.of_append_right
  rwa [List.map_map] at hconstants

theorem id_ne_of_constant {n : Node} {c : Constant} (hn : n ∈ p.inputNodes) (hc : c ∈ p.constants) :
    n.id ≠ c.node.id := by
  have hdistinct := hp.distinct
  rw [nodes, givenNodes, List.map_append, List.map_append] at hdistinct
  exact (List.nodup_append.mp hdistinct.of_append_left).2.2 _ (List.mem_map_of_mem hn) _
    (List.mem_map_of_mem (List.mem_map_of_mem hc))

theorem nodup_inputs : ((p.universals ++ p.freeInputs.map Prod.fst).map Node.id).Nodup := by
  have hdistinct := hp.distinct
  rw [nodes, givenNodes, List.map_append, List.map_append] at hdistinct
  have hinputs := hdistinct.of_append_left.of_append_left
  exact (perm_inputNodes.map Node.id).nodup_iff.mp hinputs

theorem nodup_freeInputs : (p.freeInputs.map fun d => d.1.id).Nodup := by
  have h := hp.nodup_inputs
  rw [List.map_append, List.map_map] at h
  exact h.of_append_right

theorem nodup_universals : (p.universals.map Node.id).Nodup := by
  have h := hp.nodup_inputs
  rw [List.map_append] at h
  exact h.of_append_left

theorem universal_ne_free {n : Node} (hn : n ∈ p.universals) {d : Node × List Node}
    (hd : d ∈ p.freeInputs) : n.id ≠ d.1.id := by
  have h := hp.nodup_inputs
  rw [List.map_append, List.map_map] at h
  intro heq
  exact (List.disjoint_of_nodup_append h) (List.mem_map_of_mem hn)
    (heq ▸ List.mem_map_of_mem hd)

theorem not_reserved_of_free {d : Node × List Node} (hd : d ∈ p.freeInputs) :
    ¬d.1.IsReserved :=
  hp.input _ (mem_inputNodes_of_free hd)

theorem not_reserved_of_universal {n : Node} (hn : n ∈ p.universals) : ¬n.IsReserved :=
  hp.input _ (mem_inputNodes_of_universal hn)

theorem dependencies?_of_reserved {n : Node} (hn : n.IsReserved) :
    p.skolems.dependencies? n = none := by
  refine dependencies?_eq_none fun d hd hid => hp.input _ (mem_inputNodes_of_existential hd) ?_
  rwa [Node.IsReserved, hid]

/-- An input that is not universal is written with the nodes that it depends on. -/
theorem dependencies?_of_free {d : Node × List Node} (hd : d ∈ p.freeInputs) :
    p.skolems.dependencies? d.1 = if d.2 = [] then none else some d.2 := by
  have hentry : ∀ dependencies, p.skolems.dependencies? d.1 = some dependencies →
      dependencies = d.2 ∧ d.2 ≠ [] := by
    intro dependencies hskolem
    obtain ⟨k, hk, hne, hid⟩ := exists_of_dependencies? hskolem
    have hfree : (k, dependencies) ∈ p.freeInputs :=
      List.mem_append_left _ (List.mem_append_left _ hk)
    rw [← List.inj_on_of_nodup_map hp.nodup_freeInputs hfree hd hid]
    exact ⟨rfl, hne⟩
  cases hskolem : p.skolems.dependencies? d.1 with
  | some dependencies =>
    obtain ⟨rfl, hne⟩ := hentry dependencies hskolem
    rw [if_neg hne]
  | none =>
    rw [if_pos]
    by_contra hne
    have hmem : d ∈ p.skolems := List.mem_filter.mpr ⟨mem_existentials_of_free hd hne, by simpa⟩
    obtain ⟨c, hc⟩ := exists_latest?_of_mem d.1.same hmem (by simp [Node.same])
    rw [SkolemMap.dependencies?, hc] at hskolem
    cases hskolem

end HasDistinctNodes

end Problem

end SolverScript
