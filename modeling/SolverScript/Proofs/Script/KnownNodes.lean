import SolverScript.Proofs.Problem.References
import SolverScript.Proofs.Script.EntityVocabulary

/-!
# Known nodes

Every part of a checked problem refers to nodes that are known: the truth values, the inputs and
constants that a script introduces at its start, and the assignments. An assignment refers to earlier
ones, the other parts to any.

## Main definitions

* `Problem.startingNodes` - the nodes that a script introduces before its definitions
* `Problem.IsKnownAfter` - nodes that are known when some assignments have been made

## Main results

* `Problem.refersToKnown_of_checkReferences` - what the parts of a checked problem refer to
-/

namespace SolverScript

namespace Problem

/-- The constants other than the truth values, which need no definition. -/
def properConstants (p : Problem) : Constants :=
  p.constants.filter fun c => !(c.node.isTrue || c.node.isFalse)

/-- The nodes that a script introduces before its definitions. -/
def startingNodes (p : Problem) : List Node :=
  p.quantified.map QuantifiedInput.node ++ p.trackers.map NamedNode.node ++
    p.properConstants.map Constant.node

/-- Whether a node is known when some assignments have been made. -/
def IsKnownAfter (p : Problem) (earlier : List Assignment) (n : Node) : Prop :=
  n.IsReserved ∨ n.id ∈ (p.startingNodes ++ earlier.map Assignment.node).map Node.id

variable {p : Problem}

theorem IsKnownAfter.mono {earlier later : List Assignment} {n : Node}
    (h : p.IsKnownAfter earlier n) : p.IsKnownAfter (earlier ++ later) n := by
  refine h.imp_right fun hid => ?_
  simp only [List.map_append, List.mem_append] at hid ⊢
  tauto

theorem isKnownAfter_of_starting {earlier : List Assignment} {n m : Node}
    (hm : m ∈ p.startingNodes) (hid : m.id = n.id) : p.IsKnownAfter earlier n := by
  rw [IsKnownAfter, ← hid, List.map_append]
  exact .inr (List.mem_append_left _ (List.mem_map_of_mem hm))

theorem isKnownAfter_of_constant {earlier : List Assignment} {n : Node} {c : Constant}
    (hc : c ∈ p.constants) (hid : c.node.id = n.id) : p.IsKnownAfter earlier n := by
  by_cases hreserved : c.node.IsReserved
  · left
    rwa [Node.IsReserved, ← hid]
  · refine isKnownAfter_of_starting (List.mem_append_right _ (List.mem_map_of_mem
      (List.mem_filter.mpr ⟨hc, ?_⟩))) hid
    simpa [Node.IsReserved, Node.isTrue, Node.isFalse] using hreserved

/-- Nodes with known values are known from the start. -/
theorem isKnownAfter_of_fixes {earlier : List Assignment} {n : Node}
    (h : p.constants.fixes n = true) : p.IsKnownAfter earlier n := by
  simp only [Constants.fixes, Bool.or_eq_true, Node.isTrue, Node.isFalse, beq_iff_eq] at h
  rcases h with (h | h) | h
  · exact .inl (.inl h)
  · exact .inl (.inr h)
  · obtain ⟨v, hv⟩ := Option.isSome_iff_exists.mp h
    obtain ⟨c, hc, -⟩ := Option.map_eq_some_iff.mp hv
    have hsame := List.find?_some hc
    exact isKnownAfter_of_constant (List.mem_of_find?_eq_some hc) (by simpa [Node.same] using hsame)

/-- What is known from the start is a truth value or has been introduced, if every named input is
quantified. -/
theorem isKnownAfter_of_initiallyKnown
    (hinputs : ∀ x ∈ p.inputs, ∃ q ∈ p.quantified, q.node.id = x.node.id)
    {earlier : List Assignment} {n : Node}
    (h : n.id ∈ p.initiallyKnown ∨ n.id ∈ earlier.map (·.node.id)) : p.IsKnownAfter earlier n := by
  have hquantified : ∀ q ∈ p.quantified, q.node ∈ p.startingNodes := fun q hq =>
    List.mem_append_left _ (List.mem_append_left _ (List.mem_map_of_mem hq))
  rcases h with h | h
  · simp only [initiallyKnown, List.mem_append, List.mem_map, List.mem_cons, List.not_mem_nil,
      or_false] at h
    rcases h with (((h | ⟨x, hx, hid⟩) | ⟨t, ht, hid⟩) | ⟨q, hq, hid⟩) | ⟨c, hc, hid⟩
    · exact .inl h
    · obtain ⟨q, hq, hqid⟩ := hinputs x hx
      exact isKnownAfter_of_starting (hquantified q hq) (hqid.trans hid)
    · exact isKnownAfter_of_starting
        (List.mem_append_left _ (List.mem_append_right _ (List.mem_map_of_mem ht))) hid
    · exact isKnownAfter_of_starting (hquantified q hq) hid
    · exact isKnownAfter_of_constant hc hid
  · rw [IsKnownAfter, List.map_append]
    exact .inr (List.mem_append_right _ (by simpa using h))

/-! ### Checked references -/

/-- What the parts of a problem refer to besides the assignments. -/
structure RefersToKnown (p : Problem) (known : List Int) : Prop where
  formula : ∀ n ∈ p.constraints.map (·.literal) ++ [p.goal], n.id ∈ known
  element : ∀ t ∈ p.tables, ∀ n ∈ t.elements, n.id ∈ known
  dependency : ∀ a ∈ p.arrays, ∀ n ∈ ArraySetup.dependencies a.context, n.id ∈ known
  source : ∀ a ∈ p.arrays, ∀ id ∈ a.context.sources, id ∈ p.arrays.map ArrayDatum.id

theorem forM_eq_ok_iff {β : Type} {f : β → Except Failure Unit} {bs : List β} :
    bs.forM f = .ok () ↔ ∀ b ∈ bs, f b = .ok () := by
  induction bs with
  | nil => simp [pure, Except.pure]
  | cons b bs ih =>
    rw [List.forall_mem_cons, ← ih]
    exact bind_eq_ok_iff.trans ⟨fun ⟨_, hb, hbs⟩ => ⟨hb, hbs⟩, fun ⟨hb, hbs⟩ => ⟨_, hb, hbs⟩⟩

theorem checkArray_eq_ok_iff {listed : List Int} {user other : Int} :
    checkArray listed user other = .ok () ↔ other ∈ listed := by
  unfold checkArray
  split <;> simp_all

theorem of_checkArrayContext {known listed : List Int} {a : ArrayDatum}
    (h : checkArrayContext known listed a = .ok ()) :
    (∀ n ∈ ArraySetup.dependencies a.context, n.id ∈ known) ∧
      ∀ id ∈ a.context.sources, id ∈ listed := by
  unfold checkArrayContext at h
  cases hcontext : a.context with
  | free initializer =>
    simp only [hcontext] at h
    exact ⟨checkKnown_eq_ok_iff.mp h, by simp [ArrayContext.sources]⟩
  | mutate base index value =>
    simp only [hcontext] at h
    obtain ⟨_, hbase, h⟩ := bind_eq_ok_iff.mp h
    refine ⟨checkKnown_eq_ok_iff.mp h, ?_⟩
    simpa [ArrayContext.sources] using checkArray_eq_ok_iff.mp hbase
  | merge condition thenArray elseArray =>
    simp only [hcontext] at h
    obtain ⟨_, hcondition, h⟩ := bind_eq_ok_iff.mp h
    obtain ⟨_, hthen, helse⟩ := bind_eq_ok_iff.mp h
    refine ⟨checkKnown_eq_ok_iff.mp hcondition, ?_⟩
    simpa [ArrayContext.sources] using
      ⟨checkArray_eq_ok_iff.mp hthen, checkArray_eq_ok_iff.mp helse⟩

/-- All parts of a checked problem refer to known nodes and to its own arrays. -/
theorem refersToKnown_of_checkReferences (h : p.checkReferences = .ok ()) :
    p.RefersToKnown (p.initiallyKnown ++ p.assignments.map (·.node.id)) := by
  obtain ⟨known, hknown, h⟩ := bind_eq_ok_iff.mp h
  obtain ⟨_, hformulas, h⟩ := bind_eq_ok_iff.mp h
  obtain ⟨_, htables, harrays⟩ := bind_eq_ok_iff.mp h
  have hmem : ∀ id ∈ known, id ∈ p.initiallyKnown ++ p.assignments.map (·.node.id) :=
    fun id hid => List.mem_append.mpr ((ordered_of_checkAssignments hknown).2 id hid)
  have htable := forM_eq_ok_iff.mp htables
  have harray := fun a ha => of_checkArrayContext (forM_eq_ok_iff.mp harrays a ha)
  exact
    { formula := fun n hn => hmem _ (checkKnown_eq_ok_iff.mp hformulas n hn)
      element := fun t ht n hn => hmem _ (checkKnown_eq_ok_iff.mp (htable t ht) n hn)
      dependency := fun a ha n hn => hmem _ ((harray a ha).1 n hn)
      source := fun a ha => (harray a ha).2 }

end Problem

end SolverScript
