import SolverScript.Proofs.Encoding.Vocabulary

/-!
# Nodes and tests that occur in encoded operations

The nodes that occur in the term of an operation are those that the operation refers to. A look-up
also applies the table to the nodes that the table takes before its index; no other operation
mentions a node of its own accord.

## Main definitions

* `ResultWithin` - encodings in which nothing occurs but what may, if they succeed

## Main results

* `Scope.resultWithin_term` - what occurs in operations is what they refer to, what tables take, and
  tests in the form of the solver
* `Scope.of_within_lookup` - what the table takes does occur in a look-up
-/

namespace SolverScript

variable {A : Occurrences}

@[simp] theorem Occurrences.allowsTestsFor_ofNodes (P : Int → Prop) (c : Capabilities) :
    (Occurrences.ofNodes P).AllowsTestsFor c := by
  intro constructor parameters result
  unfold Capabilities.tester
  split <;> simp [Composite.testerWithSignature]

/-- Whether the tests of a solver are allowed is a matter of the restriction of tests. -/
theorem Occurrences.AllowsTestsFor.ofTesters {c : Capabilities} (h : A.AllowsTestsFor c) :
    (Occurrences.ofTesters A.tester).AllowsTestsFor c := fun constructor parameters result =>
  (Term.within_iff_madeOf.mp (h constructor parameters result)).2

/-- Whether an encoding fails or nothing occurs in it but what may. -/
def ResultWithin (A : Occurrences) (r : Except Failure Term) : Prop :=
  ∀ t, r = .ok t → t.Within A

@[simp] theorem ResultWithin.ok_iff {t : Term} : ResultWithin A (.ok t) ↔ t.Within A := by
  simp [ResultWithin]

@[simp] theorem ResultWithin.error (e : Failure) : ResultWithin A (.error e) := by
  simp [ResultWithin]

theorem ResultMadeOf.within {r : Except Failure Term} (h : ResultMadeOf A.names A.tester r) :
    ResultWithin A r :=
  fun t ht => Term.within_iff_madeOf.mpr (h t ht)

namespace Scope

variable {scope : Scope} {operation : Operation}

theorem within_at {head : TableHead} {index : Term} :
    (head.at index).Within A ↔ (∀ n ∈ head.leading, A.node n.id) ∧ index.Within A := by
  simp [TableHead.at, or_imp, forall_and, Node.term]

/-- What the table takes before its index occurs in the term of a look-up. -/
theorem of_within_lookup {l : Lookup} {t : Term} (h : scope.lookup l operation = .ok t)
    (ht : t.Within A) : ∀ n ∈ (scope.tables.head l.table).leading, A.node n.id := by
  obtain ⟨relations, -, h⟩ := bind_eq_ok_iff.mp h
  split at h
  · cases h
    exact (within_at.mp ht).1
  · obtain ⟨condition, -, h⟩ := bind_eq_ok_iff.mp h
    cases h
    simp only [Term.Within, Term.allWithin_iff, List.forall_mem_cons] at ht
    exact (within_at.mp ht.2.2.2.1).1

/-- The names that an operator stands for restrict a node only if a table takes it. -/
theorem operatorNames_names {op : Operator}
    (hleading : ∀ l, op = .lookup l → ∀ n ∈ (scope.tables.head l.table).leading, A.node n.id) :
    ∀ x ∈ scope.operatorNames op, A.names x := by
  have hfunction : ∀ name, A.names (.function name) := fun _ => trivial
  have hkind : ∀ k : Kind, ∀ x ∈ k.names, A.names x := fun k => k.over_names
  cases op with
  | lookup l =>
    exact List.forall_mem_cons.mpr ⟨hfunction _, List.forall_mem_map.mpr (hleading l rfl)⟩
  | reverse what => exact List.forall_mem_map.mpr fun name _ => hfunction name
  | eitherConstructor l r | eitherIs l r =>
    exact List.forall_mem_append.mpr ⟨hkind l, hkind r⟩
  | maybeConstructor k | maybeIs k => exact hkind k
  | _ => simp [operatorNames, hfunction]

/-- What occurs in the term of an operation is what it refers to, what the table of a look-up takes,
and tests in the form of the solver. -/
theorem resultWithin_term (htests : A.AllowsTestsFor scope.config.capabilities)
    (hreferences : ∀ n ∈ operation.references, (scope.nodeTerm n).Within A)
    (hleading : ∀ l, operation.operator = .lookup l →
      ∀ n ∈ (scope.tables.head l.table).leading, A.node n.id) :
    ResultWithin A (scope.term operation) :=
  (resultMadeOf_term A.vocabulary_names htests.ofTesters
    (fun n hn => Term.within_iff_madeOf.mp (hreferences n hn)) (fun n _ => n.kind.over_names)
    (operatorNames_names hleading) fun _ _ => trivial).within

end Scope

end SolverScript
