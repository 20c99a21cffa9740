import Mathlib.Logic.Function.Basic
import SolverScript.Proofs.Script.KnownNodes

/-!
# Problems that can be evaluated

The check of a problem's references goes through its parts from left to right and keeps a growing
list of known identities. What it accepts can be said without such a list: the assignments come in
the order of their identities, each reads what is provided or was assigned before it, the other
parts read what is provided or assigned anywhere, and arrays are made from arrays of the problem,
in whatever order these are listed. Then every assignment can be evaluated when its turn comes.

## Main definitions

* `Operation.Reads`, `Problem.Provides`, `Problem.Supplies` - what operations read, and where it
  comes from
* `Problem.IsEvaluable` - problems whose parts read only what there is
* `Problem.evaluate?` - the values of nodes, computed in the order of the assignments

## Main results

* `Problem.checkReferences_eq_ok_iff` - the check succeeds for the problems that can be evaluated
* `Problem.checkReferences_exact` - it fails for all others over a mistake, and no evaluation of a
  checked problem reads a node without a value
-/

namespace SolverScript

/-- The nodes that an operation reads: its operands, and those that a look-up or a cast of floats
carries. -/
inductive Operation.Reads (o : Operation) : Node → Prop
  | operand {n : Node} (h : n ∈ o.operands) : o.Reads n
  | index {l : Lookup} (h : o.operator = .lookup l) : o.Reads l.index
  | default {l : Lookup} (h : o.operator = .lookup l) : o.Reads l.default
  | rounding {source target : Kind} {n : Node} (h : o.operator = .floatCast source target n) :
    o.Reads n

theorem Operation.mem_references_iff {o : Operation} {n : Node} :
    n ∈ o.references ↔ o.Reads n := by
  obtain ⟨op, ns⟩ := o
  rw [references, List.mem_append]
  constructor
  · rintro (h | h)
    · exact .operand h
    · cases op with
      | lookup l =>
        rcases List.mem_pair.mp h with rfl | rfl
        · exact .index rfl
        · exact .default rfl
      | floatCast source target rounding =>
        obtain rfl := List.mem_singleton.mp h
        exact .rounding rfl
      | _ => cases h
  · rintro (h | h | h | h)
    · exact .inl h
    all_goals
      obtain rfl : op = _ := h
      simp [Operator.hiddenOperands]

namespace Problem

/-! ### What there is to read -/

/-- The identities that have values before any assignment: those of the truth values, of inputs of
all sorts and of constants. -/
inductive Provides (p : Problem) : Int → Prop
  | truth (b : Bool) : p.Provides (Node.ofBool b).id
  | input {x : NamedNode} (h : x ∈ p.inputs) : p.Provides x.node.id
  | tracker {x : NamedNode} (h : x ∈ p.trackers) : p.Provides x.node.id
  | quantified {q : QuantifiedInput} (h : q ∈ p.quantified) : p.Provides q.node.id
  | constant {c : Constant} (h : c ∈ p.constants) : p.Provides c.node.id

/-- Whether a node has a value when some assignments have been made. -/
def Supplies (p : Problem) (assignments : List Assignment) (n : Node) : Prop :=
  p.Provides n.id ∨ ∃ a ∈ assignments, a.node.id = n.id

/-- Whether the assignments can be evaluated in their order, and the other parts of the problem
after them. -/
structure IsEvaluable (p : Problem) : Prop where
  nonneg : ∀ a ∈ p.assignments, 0 ≤ a.node.id
  increasing : p.assignments.Pairwise fun a b => a.node.id < b.node.id
  assignment : ∀ earlier a later, p.assignments = earlier ++ a :: later →
    ∀ n, a.operation.Reads n → p.Supplies earlier n
  literal : ∀ c ∈ p.constraints, p.Supplies p.assignments c.literal
  goal : p.Supplies p.assignments p.goal
  element : ∀ t ∈ p.tables, ∀ n ∈ t.elements, p.Supplies p.assignments n
  dependency : ∀ a ∈ p.arrays, ∀ n ∈ ArraySetup.dependencies a.context,
    p.Supplies p.assignments n
  source : ∀ a ∈ p.arrays, ∀ id ∈ a.context.sources, ∃ b ∈ p.arrays, b.id = id

variable {p : Problem} {known : List Int} {last : Int} {assignments : List Assignment}

theorem mem_initiallyKnown_iff {id : Int} : id ∈ p.initiallyKnown ↔ p.Provides id := by
  simp only [initiallyKnown, List.mem_append, List.mem_map, List.mem_pair]
  constructor
  · rintro (((((rfl | rfl) | ⟨x, hx, rfl⟩) | ⟨x, hx, rfl⟩) | ⟨q, hq, rfl⟩) | ⟨c, hc, rfl⟩)
    · exact .truth true
    · exact .truth false
    · exact .input hx
    · exact .tracker hx
    · exact .quantified hq
    · exact .constant hc
  · rintro (b | h | h | h | h)
    · cases b <;> simp
    · exact .inl (.inl (.inl (.inr ⟨_, h, rfl⟩)))
    · exact .inl (.inl (.inr ⟨_, h, rfl⟩))
    · exact .inl (.inr ⟨_, h, rfl⟩)
    · exact .inr ⟨_, h, rfl⟩

/-- What is known after some assignments, in the order in which the check finds it. -/
theorem mem_reverse_append_initiallyKnown_iff {n : Node} :
    n.id ∈ (assignments.map (·.node.id)).reverse ++ p.initiallyKnown ↔
      p.Supplies assignments n := by
  rw [List.mem_append, List.mem_reverse, List.mem_map, mem_initiallyKnown_iff, Supplies, or_comm]

/-! ### What the check accepts -/

theorem ordered_cons_iff {a : Assignment} {rest : List Assignment} :
    Ordered known last (a :: rest) ↔ last < a.node.id ∧
      (∀ n ∈ a.operation.references, n.id ∈ known) ∧
        Ordered (a.node.id :: known) a.node.id rest := by
  refine ⟨fun h => ?_, fun ⟨hlast, ha, hrest⟩ => .cons hlast ha hrest⟩
  obtain ⟨hlater, hincreasing⟩ := List.pairwise_cons.mp h.increasing
  refine ⟨h.later a List.mem_cons_self, fun n hn => ?_, hincreasing, hlater, ?_⟩
  · simpa using h.reference [] a rest rfl n hn
  · rintro earlier b later rfl n hn
    have hb := h.reference (a :: earlier) b later rfl n hn
    simp only [List.map_cons, List.mem_cons] at hb ⊢
    tauto

/-- The check of assignments succeeds exactly if they are in order, and then their identities have
become known. -/
theorem checkAssignments_eq_ok_iff {known' : List Int} :
    checkAssignments known last assignments = .ok known' ↔
      Ordered known last assignments ∧
        known' = (assignments.map (·.node.id)).reverse ++ known := by
  induction assignments generalizing known last with
  | nil =>
    have hnil : Ordered known last [] := ⟨.nil, by simp, by simp⟩
    simp [checkAssignments, hnil, eq_comm]
  | cons a rest ih =>
    have hrest : ((a :: rest).map (·.node.id)).reverse ++ known =
        (rest.map (·.node.id)).reverse ++ a.node.id :: known := by simp
    rw [checkAssignments, ordered_cons_iff, hrest]
    by_cases hlast : a.node.id ≤ last
    · rw [if_pos hlast]
      exact iff_of_false nofun fun h => absurd h.1.1 (Int.not_lt.mpr hlast)
    · rw [if_neg hlast]
      -- The head is checked against what is known, and is known to the rest.
      have hchecked : (do
            checkKnown known (.unknownOperand a.node) a.operation.references
            checkAssignments (a.node.id :: known) a.node.id rest) = .ok known' ↔
          (∀ n ∈ a.operation.references, n.id ∈ known) ∧
            Ordered (a.node.id :: known) a.node.id rest ∧
              known' = (rest.map (·.node.id)).reverse ++ a.node.id :: known := by
        rw [bind_eq_ok_iff, ← ih, ← checkKnown_eq_ok_iff]
        exact ⟨fun ⟨_, h⟩ => h, fun h => ⟨_, h⟩⟩
      refine hchecked.trans ?_
      rw [and_assoc, and_assoc, and_iff_right (Int.not_le.mp hlast)]

theorem checkArrayContext_eq_ok_iff {listed : List Int} {a : ArrayDatum} :
    checkArrayContext known listed a = .ok () ↔
      (∀ n ∈ ArraySetup.dependencies a.context, n.id ∈ known) ∧
        ∀ id ∈ a.context.sources, id ∈ listed := by
  refine ⟨of_checkArrayContext, fun ⟨hknown, hlisted⟩ => ?_⟩
  have hpart : checkKnown known (.unknownPart (arrayName a.id))
      (ArraySetup.dependencies a.context) = .ok () := checkKnown_eq_ok_iff.mpr hknown
  have harray : ∀ id ∈ a.context.sources, checkArray listed a.id id = .ok () := fun id hid =>
    checkArray_eq_ok_iff.mpr (hlisted id hid)
  unfold checkArrayContext
  cases hcontext : a.context with
  | free initializer =>
    rw [hcontext] at hpart
    exact hpart
  | mutate base index value =>
    rw [hcontext] at hpart harray
    exact bind_eq_ok_iff.mpr ⟨_, harray base (by simp [ArrayContext.sources]), hpart⟩
  | merge condition thenArray elseArray =>
    rw [hcontext] at hpart harray
    exact bind_eq_ok_iff.mpr ⟨_, hpart, bind_eq_ok_iff.mpr
      ⟨_, harray thenArray (by simp [ArrayContext.sources]),
        harray elseArray (by simp [ArrayContext.sources])⟩⟩

/-- The check goes over the assignments, the final formulas, the tables and the arrays. -/
theorem checkReferences_eq_ok_iff_refersToKnown :
    p.checkReferences = .ok () ↔ Ordered p.initiallyKnown (-1) p.assignments ∧
      p.RefersToKnown ((p.assignments.map (·.node.id)).reverse ++ p.initiallyKnown) := by
  simp only [checkReferences, bind_eq_ok_iff, checkAssignments_eq_ok_iff]
  constructor
  · rintro ⟨_, ⟨hordered, rfl⟩, _, hformulas, _, htables, harrays⟩
    have helement := fun t ht => checkKnown_eq_ok_iff.mp (forM_eq_ok_iff.mp htables t ht)
    have harray := fun a ha => checkArrayContext_eq_ok_iff.mp (forM_eq_ok_iff.mp harrays a ha)
    exact ⟨hordered, checkKnown_eq_ok_iff.mp hformulas, helement, fun a ha => (harray a ha).1,
      fun a ha => (harray a ha).2⟩
  · rintro ⟨hordered, h⟩
    exact ⟨_, ⟨hordered, rfl⟩, (), checkKnown_eq_ok_iff.mpr h.formula, (),
      forM_eq_ok_iff.mpr fun t ht => checkKnown_eq_ok_iff.mpr (h.element t ht),
      forM_eq_ok_iff.mpr fun a ha =>
        checkArrayContext_eq_ok_iff.mpr ⟨h.dependency a ha, h.source a ha⟩⟩

/-- The check succeeds exactly for the problems that can be evaluated. -/
theorem checkReferences_eq_ok_iff : p.checkReferences = .ok () ↔ p.IsEvaluable := by
  -- The checker goes by identifiers in a list that grows with every assignment.
  have hearlier (earlier : List Assignment) (n : Node) :
      (n.id ∈ p.initiallyKnown ∨ n.id ∈ earlier.map (·.node.id)) ↔ p.Supplies earlier n := by
    rw [mem_initiallyKnown_iff, List.mem_map, Supplies]
  rw [checkReferences_eq_ok_iff_refersToKnown]
  constructor
  · rintro ⟨hordered, h⟩
    exact
      { nonneg := hordered.later
        increasing := hordered.increasing
        assignment := fun earlier a later hsplit n hn => (hearlier earlier n).mp
          (hordered.reference earlier a later hsplit n (Operation.mem_references_iff.mpr hn))
        literal := fun c hc => mem_reverse_append_initiallyKnown_iff.mp
          (h.formula _ (List.mem_append_left _ (List.mem_map_of_mem hc)))
        goal := mem_reverse_append_initiallyKnown_iff.mp
          (h.formula _ (List.mem_append_right _ List.mem_cons_self))
        element := fun t ht n hn => mem_reverse_append_initiallyKnown_iff.mp (h.element t ht n hn)
        dependency := fun a ha n hn =>
          mem_reverse_append_initiallyKnown_iff.mp (h.dependency a ha n hn)
        source := fun a ha id hid => List.mem_map.mp (h.source a ha id hid) }
  · intro h
    refine ⟨⟨h.increasing, h.nonneg, fun earlier a later hsplit n hn => ?_⟩, ?_⟩
    · exact (hearlier earlier n).mpr
        (h.assignment earlier a later hsplit n (Operation.mem_references_iff.mp hn))
    · have hformula : ∀ n ∈ p.constraints.map (·.literal) ++ [p.goal],
          p.Supplies p.assignments n := by
        rw [List.forall_mem_append, List.forall_mem_map, List.forall_mem_singleton]
        exact ⟨h.literal, h.goal⟩
      exact
        { formula := fun n hn => mem_reverse_append_initiallyKnown_iff.mpr (hformula n hn)
          element := fun t ht n hn => mem_reverse_append_initiallyKnown_iff.mpr (h.element t ht n hn)
          dependency := fun a ha n hn =>
            mem_reverse_append_initiallyKnown_iff.mpr (h.dependency a ha n hn)
          source := fun a ha id hid => List.mem_map.mpr (h.source a ha id hid) }

/-! ### What the check refuses -/

theorem findsMistakes_checkKnown {failure : Node → Failure}
    (h : ∀ n, (failure n).category = .mistake) (ns : List Node) :
    FindsMistakes (checkKnown known failure ns) := by
  induction ns with
  | nil => exact .ok ()
  | cons n ns ih =>
    unfold checkKnown
    split
    · exact ih
    · exact .error (h n)

theorem findsMistakes_checkAssignments :
    FindsMistakes (checkAssignments known last assignments) := by
  induction assignments generalizing known last with
  | nil => exact .ok known
  | cons a rest ih =>
    have hoperands : FindsMistakes (do
        checkKnown known (.unknownOperand a.node) a.operation.references
        checkAssignments (a.node.id :: known) a.node.id rest) :=
      (findsMistakes_checkKnown (fun _ => rfl) _).bind fun _ => ih
    unfold checkAssignments
    split
    · exact (FindsMistakes.error rfl).bind fun _ => hoperands
    · exact hoperands

theorem findsMistakes_checkArray {listed : List Int} {user other : Int} :
    FindsMistakes (checkArray listed user other) := by
  unfold checkArray
  split
  · exact .ok ()
  · exact .error rfl

theorem findsMistakes_checkArrayContext {listed : List Int} {a : ArrayDatum} :
    FindsMistakes (checkArrayContext known listed a) := by
  have hpart (ns : List Node) :
      FindsMistakes (checkKnown known (.unknownPart (arrayName a.id)) ns) :=
    findsMistakes_checkKnown (fun _ => rfl) ns
  unfold checkArrayContext
  cases a.context with
  | free initializer => exact hpart _
  | mutate base index value => exact findsMistakes_checkArray.bind fun _ => hpart _
  | merge condition thenArray elseArray =>
    exact (hpart _).bind fun _ => findsMistakes_checkArray.bind fun _ => findsMistakes_checkArray

/-- The check fails over mistakes only. -/
theorem findsMistakes_checkReferences : FindsMistakes p.checkReferences :=
  findsMistakes_checkAssignments.bind fun _ =>
    (findsMistakes_checkKnown (fun _ => rfl) _).bind fun _ =>
      (FindsMistakes.forM (fun _ => findsMistakes_checkKnown (fun _ => rfl) _) _).bind fun _ =>
        FindsMistakes.forM (fun _ => findsMistakes_checkArrayContext) _

/-! ### Evaluation -/

section

variable {β : Type} (meaning : Operation → List β → β)

/-- The values of nodes after some assignments, each computed from the values of the nodes that its
operation reads; `none` if one of these has no value yet. -/
def evaluate? (values : Int → Option β) : List Assignment → Option (Int → Option β)
  | [] => some values
  | a :: rest => do
    let arguments ← a.operation.references.mapM fun n => values n.id
    evaluate? (Function.update values a.node.id (some (meaning a.operation arguments))) rest

variable {values : Int → Option β}

/-- Several nodes can be read if each of them has a value. -/
theorem exists_mapM_values {ns : List Node} (h : ∀ n ∈ ns, ∃ b, values n.id = some b) :
    ∃ bs, ns.mapM (fun n => values n.id) = some bs := by
  induction ns with
  | nil => exact ⟨[], rfl⟩
  | cons n ns ih =>
    obtain ⟨⟨b, hb⟩, hns⟩ := List.forall_mem_cons.mp h
    obtain ⟨bs, hbs⟩ := ih hns
    exact ⟨b :: bs, by rw [List.mapM_cons, hb, hbs]; rfl⟩

/-- Assignments in order can be evaluated from values of what is known, and afterwards all their
nodes have values, too. -/
theorem Ordered.exists_evaluate? (h : Ordered known last assignments)
    (hvalues : ∀ id ∈ known, ∃ b, values id = some b) :
    ∃ final, evaluate? meaning values assignments = some final ∧
      ∀ id ∈ (assignments.map (·.node.id)).reverse ++ known, ∃ b, final id = some b := by
  induction assignments generalizing known last values with
  | nil => exact ⟨values, rfl, hvalues⟩
  | cons a rest ih =>
    obtain ⟨-, hreferences, hrest⟩ := ordered_cons_iff.mp h
    obtain ⟨arguments, harguments⟩ :=
      exists_mapM_values fun n hn => hvalues _ (hreferences n hn)
    -- The new value replaces none that is missing, so what was known keeps having values.
    have hupdated : ∀ id ∈ a.node.id :: known, ∃ b, Function.update values a.node.id
        (some (meaning a.operation arguments)) id = some b := by
      intro id hid
      by_cases hself : id = a.node.id
      · exact ⟨_, by rw [hself, Function.update_self]⟩
      · rw [Function.update_of_ne hself]
        exact hvalues id ((List.mem_cons.mp hid).resolve_left hself)
    obtain ⟨final, hfinal, hall⟩ := ih hrest hupdated
    refine ⟨final, ?_, fun id hid => hall id ?_⟩
    · rw [evaluate?, harguments]
      exact hfinal
    · simpa using hid

end

/-- The check of references accepts exactly the problems that can be evaluated, and refuses the
others over a mistake. Whatever the operations mean, an evaluation of an accepted problem in the
order of its assignments reads no node without a value, and then every node that some part of the
problem reads has one. -/
theorem checkReferences_exact (p : Problem) :
    (p.checkReferences = .ok () ↔ p.IsEvaluable) ∧
      (¬p.IsEvaluable → ∃ f, p.checkReferences = .error f ∧ f.category = .mistake) ∧
      (p.checkReferences = .ok () → ∀ (β : Type) (meaning : Operation → List β → β)
        (values : Int → Option β), (∀ id, p.Provides id → ∃ b, values id = some b) →
        ∃ final, evaluate? meaning values p.assignments = some final ∧
          ∀ n, p.Supplies p.assignments n → ∃ b, final n.id = some b) := by
  refine ⟨checkReferences_eq_ok_iff, fun h => ?_, fun h β meaning values hvalues => ?_⟩
  · refine findsMistakes_checkReferences.exists_error ?_
    rintro ⟨u, hcheck⟩
    exact h (checkReferences_eq_ok_iff.mp hcheck)
  · obtain ⟨hordered, -⟩ := checkReferences_eq_ok_iff_refersToKnown.mp h
    obtain ⟨final, hfinal, hall⟩ := hordered.exists_evaluate? meaning
      fun id hid => hvalues id (mem_initiallyKnown_iff.mp hid)
    exact ⟨final, hfinal, fun n hn => hall _ (mem_reverse_append_initiallyKnown_iff.mpr hn)⟩

/-- A look-up at an input with a default that was assigned before it, an array that is merged from
two that are listed behind it, and a goal about a truth value. -/
def lookupAndMerge : Problem where
  inputs := [⟨⟨0, .bool⟩, "x"⟩]
  tables := [⟨0, .bool, .bool, [⟨1, .bool⟩, ⟨2, .bool⟩]⟩]
  arrays := [⟨2, "c", .bool, .bool, .merge ⟨2, .bool⟩ 0 1⟩, ⟨0, "a", .bool, .bool, .free none⟩,
    ⟨1, "b", .bool, .bool, .mutate 0 ⟨0, .bool⟩ ⟨1, .bool⟩⟩]
  assignments := [⟨⟨1, .bool⟩, ⟨.not, [⟨0, .bool⟩]⟩⟩,
    ⟨⟨2, .bool⟩, ⟨.lookup ⟨0, .bool, .bool, 2, ⟨0, .bool⟩, ⟨1, .bool⟩⟩, []⟩⟩]
  constraints := [{ literal := ⟨2, .bool⟩ }]

/-- The problem is accepted, and each of its nodes has a depth. -/
theorem checkReferences_exact_lookupAndMerge :
    lookupAndMerge.checkReferences = .ok () ∧ lookupAndMerge.IsEvaluable ∧
      ∃ final, evaluate? (fun _ depths => depths.foldl Nat.max 0 + 1) (fun id => if id < 1 then some 0 else none)
        lookupAndMerge.assignments = some final ∧ ∃ depth : Nat, final 2 = some depth := by
  obtain ⟨haccepts, -, hevaluates⟩ := checkReferences_exact lookupAndMerge
  have hcheck : lookupAndMerge.checkReferences = .ok () := rfl
  have hprovided : ∀ id, lookupAndMerge.Provides id →
      ∃ b, (if id < 1 then some 0 else none) = some b := by
    rintro _ (b | h | h | h | h)
    · cases b <;> exact ⟨0, rfl⟩
    · obtain rfl := List.mem_singleton.mp h
      exact ⟨0, rfl⟩
    all_goals cases h
  obtain ⟨final, hfinal, hall⟩ := hevaluates hcheck Nat _ _ hprovided
  exact ⟨hcheck, haccepts.mp hcheck, final, hfinal,
    hall ⟨2, .bool⟩ (.inr ⟨_, List.mem_cons_of_mem _ List.mem_cons_self, rfl⟩)⟩

end Problem

end SolverScript
