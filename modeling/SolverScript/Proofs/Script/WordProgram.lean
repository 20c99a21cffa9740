import SolverScript.Proofs.Problem.Ground
import SolverScript.Proofs.Script.Declarations

/-!
# Programs over truth values and bit-vectors

The nodes of such a program are its inputs, its constants and its assignments, and no two of them
share an identity. An assignment that the check of references lets through is about nodes before it,
so that any stretch of the assignments can be defined once the nodes before it are.

## Main definitions

* `Problem.IsWordProgram` - programs over truth values and bit-vectors
* `Problem.Available` - nodes that are there after some assignments

## Main results

* `Problem.IsWordProgram.extends_of_known` - a stretch of assignments can be defined
-/

namespace SolverScript

namespace Problem

/-- Programs over truth values and bit-vectors, without tables, arrays, free symbols and postulates.
Different nodes have different identities. Those of the truth values are reserved: no input has one
of them, and a constant that does is a truth value. Every operation is applied to operands of the
right kinds. -/
structure IsWordProgram (p : Problem) : Prop extends p.HasDistinctNodes where
  tables : p.tables = []
  arrays : p.arrays = []
  freeSymbols : p.freeSymbols = []
  postulates : p.postulates = []
  isWord : ∀ n ∈ p.nodes, n.kind.IsWord
  reserved : ∀ c ∈ p.constants, c.node.IsReserved → c.node.kind = .bool
  dependency : ∀ n dependencies, (n, dependencies) ∈ p.existentials →
    ∀ m ∈ dependencies, m ∈ p.universals
  constant : ∀ c ∈ p.constants, ∃ i, Value.ofInteger c.node.kind i = .ok c.value
  operand : ∀ a ∈ p.assignments, ∀ n ∈ a.operation.operands, p.HasNode n
  hasKind : ∀ a ∈ p.assignments,
    a.operation.operator.HasKind (a.operation.operands.map Node.kind) a.node.kind
  literal : ∀ c ∈ p.constraints, c.soft = false → p.HasNode c.literal ∧ c.literal.kind = .bool
  goal : p.HasNode p.goal ∧ p.goal.kind = .bool

/-- Whether a node is there once some assignments have been made. -/
def Available (p : Problem) (earlier : List Assignment) (n : Node) : Prop :=
  n ∈ p.givenNodes ∨ n ∈ earlier.map Assignment.node ∨ ∃ b, n = Node.ofBool b

variable {p : Problem}

theorem Available.append {earlier more : List Assignment} {n : Node} (h : p.Available earlier n) :
    p.Available (earlier ++ more) n := by
  rcases h with hn | hn | hb
  · exact .inl hn
  · exact .inr (.inl (by simp [List.mem_map.mp hn]))
  · exact .inr (.inr hb)

namespace IsWordProgram

variable (hp : p.IsWordProgram)

include hp

/-- What occurs in the term of a node is the node or an input. -/
theorem mem_of_mentioned {n m : Node}
    (hm : m ∈ p.skolems.mentioned n) : m = n ∨ m ∈ p.inputNodes := by
  rcases List.mem_cons.mp hm with rfl | hm
  · exact .inl rfl
  · cases hskolem : p.skolems.dependencies? n with
    | none => simp [hskolem] at hm
    | some dependencies =>
      rw [hskolem, Option.getD_some] at hm
      obtain ⟨k, hk, -, -⟩ := exists_of_dependencies? hskolem
      exact .inr (mem_inputNodes_of_universal (hp.dependency k dependencies hk m hm))

variable (horder : Ordered p.initiallyKnown (-1) p.assignments) {earlier later : List Assignment}
  {a : Assignment} (hsplit : p.assignments = earlier ++ a :: later)

include horder hsplit

/-- An assignment has another identity than everything that is available before it. -/
theorem id_ne_of_available {n : Node} (hn : p.Available earlier n) : n.id ≠ a.node.id := by
  have hmem : a ∈ p.assignments := by simp [hsplit]
  rcases hn with hn | hn | ⟨b, rfl⟩
  · exact hp.id_ne_of_given hn hmem
  · obtain ⟨b, hb, rfl⟩ := List.mem_map.mp hn
    have hincreasing := horder.increasing
    rw [hsplit, List.pairwise_append] at hincreasing
    exact Int.ne_of_lt (hincreasing.2.2 b hb a List.mem_cons_self)
  · have hlater : -1 < a.node.id := horder.later a hmem
    cases b <;> simp only [Node.ofBool] <;> omega

/-- An assignment is about nodes that are available before it. -/
theorem available_of_operand {n : Node} (hn : n ∈ a.operation.operands) :
    p.Available earlier n := by
  rcases hp.operand a (by simp [hsplit]) n hn with hnode | hb
  · rcases List.mem_append.mp hnode with hgiven | hassigned
    · exact .inl hgiven
    · -- The operand is defined by an assignment; the check has found it among the earlier ones.
      obtain ⟨c, hc, rfl⟩ := List.mem_map.mp hassigned
      rcases horder.reference earlier a later hsplit c.node (List.mem_append_left _ hn) with
        hid | hid
      · have hlater : -1 < c.node.id := horder.later c hc
        rcases exists_of_initiallyKnown hid with hid | ⟨m, hm, hid⟩
        · omega
        · exact absurd hid (hp.id_ne_of_given hm hc)
      · obtain ⟨d, hd, hid⟩ := List.mem_map.mp hid
        have hdp : d ∈ p.assignments := by simp [hsplit, hd]
        rw [← hp.eq_of_id_eq (mem_nodes_of_assignment hdp) (mem_nodes_of_assignment hc) hid]
        exact .inr (.inl (List.mem_map_of_mem hd))
  · exact .inr (.inr hb)

omit hsplit

/-- A stretch of assignments can be defined when the assignments before it are, and the given nodes
that it refers to are known. -/
theorem extends_of_known {assignments : List Assignment}
    (hsplit : p.assignments = earlier ++ assignments ++ later) {known : List Node}
    (hknown : ∀ n ∈ known, p.Available earlier n)
    (htruth : ∀ b, Node.ofBool b ∈ known) (hearlier : ∀ a ∈ earlier, a.node ∈ known)
    (hgiven : ∀ a ∈ assignments, ∀ n ∈ a.operation.operands, n ∈ p.givenNodes → n ∈ known) :
    Scope.Extends p.skolems known assignments := by
  induction assignments generalizing earlier known with
  | nil => exact .nil known
  | cons a rest ih =>
    have hmem : a ∈ p.assignments := by simp [hsplit]
    have hfirst : p.assignments = earlier ++ a :: (rest ++ later) := by simp [hsplit]
    have hnew : ∀ n, p.Available earlier n → n.id ≠ a.node.id :=
      fun n hn => hp.id_ne_of_available horder hfirst hn
    refine .cons ?_ (hp.hasKind a hmem) ?_ ?_ ?_ ?_
    · intro n hn
      -- Operands are given, results of earlier assignments, or truth values.
      rcases hp.available_of_operand horder hfirst hn with hn' | hn' | ⟨b, rfl⟩
      · exact hgiven a List.mem_cons_self n hn hn'
      · obtain ⟨b, hb, rfl⟩ := List.mem_map.mp hn'
        exact hearlier b hb
      · exact htruth b
    · intro n hn m hm
      rcases hp.mem_of_mentioned hm with rfl | hm
      · exact hnew m (hknown m hn)
      · exact hnew m (.inl (List.mem_append_left _ hm))
    · exact dependencies?_eq_none fun d hd =>
        hnew d.1 (.inl (List.mem_append_left _ (mem_inputNodes_of_existential hd)))
    · have hlater : -1 < a.node.id := horder.later a hmem
      rw [Node.IsReserved]
      omega
    · -- The rest of the stretch comes after the assignments before it and this one.
      have hstretch : p.assignments = (earlier ++ [a]) ++ rest ++ later := by simp [hsplit]
      refine ih hstretch ?_ ?_ ?_ ?_
      · intro n hn
        rcases List.mem_cons.mp hn with rfl | hn
        · exact .inr (.inl (by simp))
        · exact (hknown n hn).append
      · exact fun b => List.mem_cons_of_mem _ (htruth b)
      · intro b hb
        rcases List.mem_append.mp hb with hb | hb
        · exact List.mem_cons_of_mem _ (hearlier b hb)
        · rw [List.mem_singleton.mp hb]
          exact List.mem_cons_self
      · exact fun b hb n hn hnode =>
          List.mem_cons_of_mem _ (hgiven b (List.mem_cons_of_mem a hb) n hn hnode)

end IsWordProgram

end Problem

end SolverScript
