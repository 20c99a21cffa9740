import SolverScript.Proofs.Encoding.Occurrence
import SolverScript.Proofs.Script.CommandForms
import SolverScript.Proofs.Script.Invariants
import SolverScript.Proofs.Script.Plan
import SolverScript.Proofs.Script.TableEquations

/-!
# Nodes and tests that occur in commands

A command mentions the node whose name it gives a meaning to and the nodes that occur in its terms,
and it makes the tests that occur in them. The commands that set up sorts, tables and arrays mention
no nodes besides those that their equations are about, and make no tests. A declaration makes those
that guard the invariants of its result, always with a signature.

## Main definitions

* `Command.terms` - the terms of a command
* `Command.Within` - commands in which nothing occurs but what may
* `Command.MentionsOnly` - commands that mention only nodes with a property
* `Occurrences.AllowsGuardsOf` - the tests that guard the invariants of a kind may occur

## Main results

* `Kind.within_invariants_iff` - what occurs in invariants
* `Declaration.within_symbol_iff` - what occurs in the declaration of a symbol
* `TableSetup.within_constantCommands` - tables mention their elements
* `ArraySetup.within_ofArray` - arrays mention nodes with known values, and others as far as they
  can wait
* `Plan.within_middle_iff`, `Plan.within_arrayCommands` - sections between declarations, definitions
  and conclusion
-/

namespace SolverScript

variable {A : Occurrences}

namespace Command

/-- The terms of a command. The lines of the user are not read. -/
def terms : Command → List Term
  | defineConstructorIndex name constructors =>
    [(Datatype.constructorIndex name constructors).body.term]
  | declareRationals => RationalFunction.all.map fun f => f.definition.body.term
  | defineFun _ _ value _ => [value]
  | defineReversal what name => [(what.definition name).body.term]
  | assert formula | assertSoft formula => [formula]
  | assertAll formulas | assertResults _ _ formulas => formulas
  | assertForAll block => [block.term]
  | _ => []

/-- Whether only nodes that may occur are given a meaning by a command, and nothing occurs in its
terms but what may. -/
def Within (A : Occurrences) (c : Command) : Prop :=
  (∀ id, c.introduced? = some (nodeName id) → A.node id) ∧ ∀ t ∈ c.terms, t.Within A

/-- Whether only nodes with a property are given a meaning by a command or occur in its terms. -/
def MentionsOnly (P : Int → Prop) (c : Command) : Prop :=
  (∀ id, c.introduced? = some (nodeName id) → P id) ∧ ∀ t ∈ c.terms, t.MentionsOnly P

section

attribute [local simp] Within MentionsOnly introduced? terms

theorem mentionsOnly_iff_within {P : Int → Prop} {c : Command} :
    c.MentionsOnly P ↔ c.Within (.ofNodes P) := by
  simp [Term.mentionsOnly_iff_within]

@[simp] theorem within_assert {formula : Term} :
    (assert formula).Within A ↔ formula.Within A := by
  simp

@[simp] theorem within_assertSoft {formula : Term} :
    (assertSoft formula).Within A ↔ formula.Within A := by
  simp

@[simp] theorem within_assertForAll {block : QuantifiedBlock} :
    (assertForAll block).Within A ↔ block.term.Within A := by
  simp

theorem within_declareFun {name : String} {domain : List SortExpr} {range : SortExpr}
    {remark : String} : (declareFun name domain range remark).Within A ↔
      ∀ id, name = nodeName id → A.node id := by
  simp

theorem within_defineFun {name : String} {sort : SortExpr} {value : Term}
    {remark : String} : (defineFun name sort value remark).Within A ↔
      (∀ id, name = nodeName id → A.node id) ∧ value.Within A := by
  simp

end

end Command

/-! ### Sorts and functions that a script needs -/

theorem Datatype.within_positionOf (n : Nat) (constructors : List String) :
    (positionOf n constructors).Within A := by
  fun_induction positionOf n constructors with
  | case1 => simp
  | case2 => simp
  | case3 n c next rest ih => simp [ih]

theorem RationalFunction.within_definition (f : RationalFunction) :
    f.definition.body.term.Within A := by
  cases f <;> simp [definition, body, Layout.term, Layout.terms, crosswise, commonDenominator,
    product, wideNumeratorOf, numeratorOf, denominatorOf]

theorem Reversible.within_definition (name : String) (what : Reversible) :
    (what.definition name).body.term.Within A := by
  cases what <;> simp [definition, stringBody, listBody, byEmptiness, restOf, Layout.term,
    Layout.terms]

/-- Commands that do nothing in a run mention no nodes and test nothing. -/
theorem Command.IsInert.within {c : Command} (hc : c.IsInert) : c.Within A := by
  refine ⟨fun id hid => ?_, ?_⟩
  · rw [hc.introduced?] at hid
    cases hid
  · cases c with
    | defineConstructorIndex name constructors =>
      simp [terms, Datatype.constructorIndex, Layout.term, Datatype.within_positionOf]
    | declareRationals => simp [terms, RationalFunction.within_definition]
    | defineReversal what name => simp [terms, Reversible.within_definition]
    | _ => first | exact hc.elim | simp [terms]

@[simp] theorem Command.within_note (text : String) : (note text).Within A :=
  IsInert.within trivial

theorem Command.IsInert.mentionsOnly {P : Int → Prop} {c : Command} (hc : c.IsInert) :
    c.MentionsOnly P :=
  mentionsOnly_iff_within.mpr hc.within

@[simp] theorem Command.mentionsOnly_note {P : Int → Prop} (text : String) :
    (note text).MentionsOnly P :=
  IsInert.mentionsOnly trivial

/-! ### Guards -/

namespace Occurrences

/-- Whether the tests that guard the invariants of a kind may occur. They are written with a
signature. -/
def AllowsGuardsOf (A : Occurrences) (k : Kind) : Prop :=
  ∀ sub ∈ k.subkinds, ∀ guard ∈ sub.guards, A.tester guard.1 (some ([guard.2.sort], sub.sort))

@[simp] theorem allowsGuardsOf_ofNodes (P : Int → Prop) (k : Kind) :
    (ofNodes P).AllowsGuardsOf k :=
  fun _ _ _ _ => trivial

@[simp] theorem allowsGuardsOf_list {k : Kind} :
    A.AllowsGuardsOf (.list k) ↔ A.AllowsGuardsOf k := by
  simp [AllowsGuardsOf, Kind.subkinds, Kind.guards]

@[simp] theorem allowsGuardsOf_set {k : Kind} : A.AllowsGuardsOf (.set k) ↔ A.AllowsGuardsOf k := by
  simp [AllowsGuardsOf, Kind.subkinds, Kind.guards]

@[simp] theorem allowsGuardsOf_tuple {ks : List Kind} :
    A.AllowsGuardsOf (.tuple ks) ↔ ∀ k ∈ ks, A.AllowsGuardsOf k := by
  simp only [AllowsGuardsOf, Kind.subkinds, List.forall_mem_cons, Kind.mem_subkindsAll]
  simp only [Kind.guards, List.not_mem_nil, false_imp_iff, implies_true, true_and]
  constructor
  · exact fun h k hk sub hsub => h sub ⟨k, hk, hsub⟩
  · rintro h sub ⟨k, hk, hsub⟩
    exact h k hk sub hsub

@[simp] theorem allowsGuardsOf_maybe {k : Kind} : A.AllowsGuardsOf (.maybe k) ↔
    (k.containsCharOrRational = true → A.tester (Composite.maybeConstructor true)
      (some ([k.sort], (Kind.maybe k).sort))) ∧ A.AllowsGuardsOf k := by
  simp only [AllowsGuardsOf, Kind.subkinds, List.forall_mem_cons]
  refine and_congr_left' ?_
  unfold Kind.guards
  split <;> simp_all

@[simp] theorem allowsGuardsOf_either {l r : Kind} : A.AllowsGuardsOf (.either l r) ↔
    ((l.containsCharOrRational = true → A.tester (Composite.sideConstructor false)
        (some ([l.sort], (Kind.either l r).sort))) ∧ A.AllowsGuardsOf l) ∧
      (r.containsCharOrRational = true → A.tester (Composite.sideConstructor true)
        (some ([r.sort], (Kind.either l r).sort))) ∧ A.AllowsGuardsOf r := by
  simp only [AllowsGuardsOf, Kind.subkinds, List.forall_mem_cons, List.forall_mem_append]
  rw [and_and_and_comm]
  refine and_congr_left' ?_
  simp only [Kind.guards, List.forall_mem_append]
  refine and_congr ?_ ?_ <;> split <;> simp_all

/-- A kind without characters and rationals inside has no invariants, and so no guards. -/
theorem allowsGuardsOf_of_not_contains {k : Kind} (h : k.containsCharOrRational = false) :
    A.AllowsGuardsOf k := by
  intro sub hsub guard hguard
  have hnone : sub.guards = [] :=
    Kind.guards_eq_nil_iff.mpr fun _ => Kind.occurs_eq_false_of_mem h hsub
  rw [hnone] at hguard
  cases hguard

end Occurrences

/-! ### Invariants -/

namespace Kind

theorem within_conjunction_iff {fs : List Term} :
    (conjunction fs).Within A ↔ ∀ f ∈ fs, f.Within A := by
  unfold conjunction
  split <;> simp

/-- Guarded formulas test for the constructor, if there are any. -/
theorem within_whenMadeBy_iff {constructor : String} {parameter whole : Kind} {t : Term}
    {fs : List Term} (ht : t.Within A) :
    (∀ f ∈ whenMadeBy constructor parameter whole t fs, f.Within A) ↔
      (fs ≠ [] → A.tester constructor (some ([parameter.sort], whole.sort))) ∧
        ∀ f ∈ fs, f.Within A := by
  have hguarded : ∀ f, (implication
      (.app (Composite.testerWithSignature constructor [parameter] whole) [t]) f).Within A ↔
        A.tester constructor (some ([parameter.sort], whole.sort)) ∧ f.Within A := by
    simp [implication, Composite.testerWithSignature, ht]
  simp only [whenMadeBy, List.forall_mem_map, hguarded]
  constructor
  · intro h
    refine ⟨fun hne => ?_, fun f hf => (h f hf).2⟩
    obtain ⟨f, hf⟩ := List.exists_mem_of_ne_nil fs hne
    exact (h f hf).1
  · rintro ⟨htester, hfs⟩ f hf
    exact ⟨htester (List.ne_nil_of_mem hf), hfs f hf⟩

/-- What a walk along a kind needs of the invariants at its leaves: besides the term that they are
stated for, nothing occurs in them. -/
structure IsLeafWithin (A : Occurrences) (leaf : Kind → Term → List Term) : Prop
    extends IsExactLeaf leaf where
  within : ∀ k t, t.Within A → ∀ f ∈ leaf k t, f.Within A

theorem isLeafWithin_leafInvariants : IsLeafWithin A leafInvariants where
  toIsExactLeaf := isExactLeaf_leafInvariants
  within k t ht := by
    unfold leafInvariants
    split <;> simp [ht]

theorem IsLeafWithin.ofMember {leaf : Kind → Term → List Term} (hleaf : IsLeafWithin A leaf)
    (member : String) : IsLeafWithin A fun sub part => (leaf sub (.symbol member)).map
      (implication (.app (.symbol "select") [part, .symbol member])) where
  toIsExactLeaf := hleaf.toIsExactLeaf.ofMember member
  within k t ht := by
    rw [List.forall_mem_map]
    intro f hf
    simp [implication, ht, hleaf.within k _ (by simp) f hf]

mutual

/-- What occurs in the invariants of a kind is what occurs in the term that they are stated for, and
the tests that guard them. -/
theorem within_invariantsAt_iff {depth : Nat} {leaf : Kind → Term → List Term} {t : Term}
    {k : Kind} (hleaf : IsLeafWithin A leaf) (ht : t.Within A) :
    (∀ f ∈ invariantsAt depth leaf t k, f.Within A) ↔ A.AllowsGuardsOf k := by
  cases k with
  | list k =>
    rw [Occurrences.allowsGuardsOf_list]
    cases hk : k.containsCharOrRational with
    | false => simp [invariantsAt, hk, Occurrences.allowsGuardsOf_of_not_contains hk]
    | true =>
      have helement : (Term.app (.symbol "seq.nth")
          [t, .symbol ("seq" ++ Nat.repr depth)]).Within A := by simp [ht]
      simp [invariantsAt, hk, elementwise, implication, ht, within_conjunction_iff,
        within_invariantsAt_iff hleaf helement]
  | set k =>
    rw [Occurrences.allowsGuardsOf_set]
    cases hk : k.containsCharOrRational with
    | false => simp [invariantsAt, hk, Occurrences.allowsGuardsOf_of_not_contains hk]
    | true =>
      -- The invariants of the members are stated for a bound variable.
      simp [invariantsAt, hk, within_conjunction_iff,
        within_invariantsAt_iff (hleaf.ofMember ("set" ++ Nat.repr depth)) ht]
  | tuple ks =>
    rw [Occurrences.allowsGuardsOf_tuple]
    exact within_componentInvariants_iff hleaf ht
  | maybe k =>
    rw [Occurrences.allowsGuardsOf_maybe, invariantsAt, within_whenMadeBy_iff ht,
      within_invariantsAt_iff hleaf (by simp [ht]), ne_eq,
      invariantsAt_eq_nil_iff hleaf.toIsExactLeaf, Bool.not_eq_false]
  | either l r =>
    rw [Occurrences.allowsGuardsOf_either, invariantsAt, List.forall_mem_append,
      within_whenMadeBy_iff ht, within_whenMadeBy_iff ht,
      within_invariantsAt_iff hleaf (by simp [ht]), within_invariantsAt_iff hleaf (by simp [ht]),
      ne_eq, ne_eq, invariantsAt_eq_nil_iff hleaf.toIsExactLeaf,
      invariantsAt_eq_nil_iff hleaf.toIsExactLeaf, Bool.not_eq_false, Bool.not_eq_false]
  | _ =>
    refine iff_of_true (hleaf.within _ t ht) fun sub hsub guard hguard => ?_
    obtain rfl := List.mem_singleton.mp hsub
    cases hguard

theorem within_componentInvariants_iff {depth : Nat} {leaf : Kind → Term → List Term} {t : Term}
    {arity position : Nat} {ks : List Kind} (hleaf : IsLeafWithin A leaf) (ht : t.Within A) :
    (∀ f ∈ componentInvariants depth leaf t arity position ks, f.Within A) ↔
      ∀ k ∈ ks, A.AllowsGuardsOf k := by
  cases ks with
  | nil => simp [componentInvariants]
  | cons k ks =>
    rw [componentInvariants, List.forall_mem_append, List.forall_mem_cons,
      within_invariantsAt_iff hleaf (by simp [ht]), within_componentInvariants_iff hleaf ht]

end

theorem within_invariants_iff {k : Kind} {t : Term} (ht : t.Within A) :
    (∀ f ∈ k.invariants t, f.Within A) ↔ A.AllowsGuardsOf k :=
  within_invariantsAt_iff isLeafWithin_leafInvariants ht

end Kind

/-! ### Declarations and definitions -/

namespace Declaration

theorem within_constantInvariants_iff {name : String} {k : Kind} :
    (∀ c ∈ constantInvariants name k, c.Within A) ↔ A.AllowsGuardsOf k := by
  rw [← Kind.within_invariants_iff (t := .symbol name) (by simp)]
  unfold constantInvariants
  split <;> simp_all [Command.Within, Command.introduced?, Command.terms]

theorem within_resultInvariants_iff {name : String} {arguments : List Kind} {k : Kind} :
    (∀ c ∈ resultInvariants name arguments k, c.Within A) ↔ A.AllowsGuardsOf k := by
  rw [← Kind.within_invariants_iff (t := .symbol resultName) (by simp)]
  simp [resultInvariants, Command.Within, Command.introduced?, Command.terms]

/-- What occurs in the declaration of a symbol is a node that the symbol is called like, and the
tests that guard the invariants of its result. -/
theorem within_symbol_iff {name remark : String} {ks : List Kind} {cs : List Command}
    (h : symbol name ks remark = .ok cs) :
    (∀ c ∈ cs, c.Within A) ↔ (∀ id, name = nodeName id → A.node id) ∧
      ∀ arguments result, splitSignature? ks = some (arguments, result) →
        A.AllowsGuardsOf result := by
  unfold symbol at h
  split at h
  · cases h
  next arguments result hsplit =>
  cases h
  rw [List.forall_mem_cons, Command.within_declareFun]
  refine and_congr_right' ?_
  have hresult : (∀ arguments' result', splitSignature? ks = some (arguments', result') →
      A.AllowsGuardsOf result') ↔ A.AllowsGuardsOf result := by
    simp [hsplit]
  rw [hresult]
  -- The invariants of a constant are about it, those of a function about its bound result.
  split
  · next hnone => simpa using Occurrences.allowsGuardsOf_of_not_contains (by simpa using hnone)
  split
  · exact within_constantInvariants_iff
  · exact within_resultInvariants_iff

theorem exists_introduced_of_symbol {name remark : String} {ks : List Kind} {cs : List Command}
    (h : symbol name ks remark = .ok cs) : ∃ c ∈ cs, c.introduced? = some name := by
  unfold symbol at h
  split at h <;> cases h
  exact ⟨_, List.mem_cons_self, rfl⟩

/-- The definition of a node mentions the node and what its value mentions. -/
theorem within_defined {c : Capabilities} {n : Node} {value : Term} {remark : String}
    (hn : A.node n.id) (hvalue : value.Within A) :
    ∀ d ∈ defined c n value remark, d.Within A := by
  have hname : ∀ id, n.name = nodeName id → A.node id := by
    intro id hid
    rwa [← nodeName_injective hid]
  exact forall_mem_defined (Command.within_defineFun.mpr ⟨hname, hvalue⟩)
    (Command.within_declareFun.mpr hname) (by simp [Node.term, hn, hvalue])

theorem of_within_defined {c : Capabilities} {n : Node} {value : Term} {remark : String}
    (h : ∀ d ∈ defined c n value remark, d.Within A) : value.Within A := by
  unfold defined at h
  split at h
  · exact (Command.within_defineFun.mp (h _ (List.mem_singleton_self _))).2
  · have hassert := Command.within_assert.mp
      (h _ (List.mem_cons_of_mem _ (List.mem_singleton_self _)))
    simp only [Term.Within, Term.allWithin_iff, List.forall_mem_cons] at hassert
    exact hassert.2.2.1

/-- A symbol mentions a node only if it is called like it. -/
theorem mentionsOnly_symbol {P : Int → Prop} {name remark : String} {ks : List Kind}
    {cs : List Command} (h : symbol name ks remark = .ok cs)
    (hname : ∀ id, name = nodeName id → P id) : ∀ c ∈ cs, c.MentionsOnly P := by
  simp only [Command.mentionsOnly_iff_within]
  exact (within_symbol_iff h).mpr ⟨hname, fun _ _ _ => Occurrences.allowsGuardsOf_ofNodes _ _⟩

theorem within_constant {config : Config} {c : Constant} {cs : List Command}
    (h : constant config c = .ok cs) (hc : A.node c.node.id) : ∀ d ∈ cs, d.Within A :=
  forall_mem_constant h fun _ ht => within_defined hc (Value.within_term ht)

end Declaration

/-- What occurs in the definition of a node by an operation is the node, what the operation refers
to, what the table of a look-up takes, and tests in the form of the solver. -/
theorem Scope.within_definitionCommands {scope : Scope} {a : Assignment} {cs : List Command}
    (h : scope.definitionCommands a = .ok cs)
    (htests : A.AllowsTestsFor scope.config.capabilities) (hnode : A.node a.node.id)
    (hreferences : ∀ n ∈ a.operation.references, (scope.nodeTerm n).Within A)
    (hleading : ∀ l, a.operation.operator = .lookup l →
      ∀ n ∈ (scope.tables.head l.table).leading, A.node n.id) : ∀ c ∈ cs, c.Within A :=
  forall_mem_definitionCommands h fun value _ hvalue => Declaration.within_defined hnode
    (resultWithin_term htests hreferences hleading value (term_of_definition hvalue))

/-! ### Tables and arrays -/

namespace Initializer

variable {entity : String}

theorem within_part (hentity : ∀ id rest, nodeName id ≠ entity ++ rest) (i : Nat)
    {equation : Term} (hequation : equation.Within A) :
    (part entity i equation).Within A := by
  refine Command.within_defineFun.mpr ⟨fun id hid => ?_, hequation⟩
  -- The name of an initializer goes on after the name of its table or array.
  rw [partName, name, String.append_assoc, String.append_assoc] at hid
  exact absurd hid.symm (hentity id _)

theorem within_parts (hentity : ∀ id rest, nodeName id ≠ entity ++ rest) (i : Nat)
    {equations : List Term} (hequations : ∀ q ∈ equations, q.Within A) :
    ∀ c ∈ parts entity i equations, c.Within A :=
  forall_mem_parts fun j q hq => within_part hentity j (hequations q hq)

theorem within_setup (hentity : ∀ id rest, nodeName id ≠ entity ++ rest) (count : Nat) :
    ∀ c ∈ setup entity count, c.Within A := by
  have hname : ∀ id, name entity = nodeName id → A.node id := fun id hid =>
    absurd hid.symm (hentity id _)
  unfold setup
  dsimp only
  split <;> simpa [Command.within_defineFun] using hname

end Initializer

namespace TableSetup

variable {config : Config} {skolems : SkolemMap} {universals : List Node} {constants : Constants}
  {table : Table} {s : TableSetup}

/-- The equations of a table mention its elements, and what the table takes if it waits. -/
theorem within_equations (h : ofTable config skolems universals constants table = .ok s)
    (hleading : s.isConstant = false → ∀ u ∈ universals, A.node u.id)
    (helements : ∀ n ∈ table.elements, (skolems.nodeTerm n).Within A) :
    ∀ q ∈ s.equations, q.Within A := by
  intro q hq
  obtain ⟨i, n, index, hi, hindex, rfl⟩ := (mem_equations_iff h).mp hq
  obtain ⟨v, -, hindex⟩ := bind_eq_ok_iff.mp hindex
  have hhead : ∀ u ∈ (s.head universals).leading, A.node u.id := by
    unfold head
    split
    · simp
    · next hwaits => exact hleading (by simpa using hwaits)
  have happlied := Scope.within_at.mpr ⟨hhead, Value.within_term hindex⟩
  simp [equation, happlied, helements n (List.mem_of_getElem? hi)]

theorem within_declaration (table : Table) : (declaration table).Within A :=
  Command.within_declareFun.mpr fun id hid => absurd hid.symm (nodeName_ne_tableName id _)

theorem within_initializers (hequations : ∀ q ∈ s.equations, q.Within A) :
    ∀ c ∈ s.initializers, c.Within A := by
  have hentity := fun id => nodeName_ne_tableName_append id s.table.id
  exact List.forall_mem_append.mpr ⟨Initializer.within_parts hentity 0 hequations,
    Initializer.within_setup hentity _⟩

/-- A table whose elements are known from the start mentions nothing but them. -/
theorem within_constantCommands (h : ofTable config skolems universals constants table = .ok s)
    (hconstant : s.isConstant = true)
    (helements : ∀ n ∈ table.elements, (skolems.nodeTerm n).Within A) :
    ∀ c ∈ s.constantCommands, c.Within A :=
  List.forall_mem_cons.mpr ⟨within_declaration _, within_initializers
    (within_equations h (by simp [hconstant]) helements)⟩

theorem within_deferredDeclaration (universals : List Node) (table : Table) :
    (deferredDeclaration universals table).Within A :=
  Command.within_declareFun.mpr fun id hid => absurd hid.symm (nodeName_ne_tableName id _)

end TableSetup

namespace ArraySetup

variable {config : Config} {skolems : SkolemMap} {constants : Constants} {a : ArrayDatum}
  {s : ArraySetup} {term : Node → Except Failure Term}

theorem within_declaration (hterm : ∀ n ∈ dependencies a.context,
      ResultWithin A (term n)) {c : Command}
    (h : declaration config constants term a = .ok c) : c.Within A := by
  have hname : ∀ id, arrayName a.id = nodeName id → A.node id := by
    intro id hid
    exact absurd (by simpa using hid.symm) (nodeName_ne_arrayName_append id a.id "")
  unfold declaration at h
  dsimp only at h
  split at h
  · next initializer hcontext =>
    split at h
    · obtain ⟨value, hvalue, h⟩ := bind_eq_ok_iff.mp h
      cases h
      exact Command.within_defineFun.mpr ⟨hname, by simp [Value.within_term hvalue]⟩
    · obtain ⟨value, hvalue, h⟩ := bind_eq_ok_iff.mp h
      cases h
      have hinitializer := hterm initializer (by simp [hcontext, dependencies]) value hvalue
      exact Command.within_defineFun.mpr ⟨hname, by simp [hinitializer]⟩
  · split at h
    · cases h
    · cases h
      exact Command.within_declareFun.mpr hname
  · cases h
    exact Command.within_declareFun.mpr hname

theorem within_of_equation? (hterm : ∀ n ∈ dependencies a.context,
      ResultWithin A (term n)) {q : Term} (h : equation? term a = .ok (some q)) :
    q.Within A := by
  unfold equation? at h
  dsimp only at h
  split at h
  · cases h
  · next base index value hcontext =>
    obtain ⟨i, hi, h⟩ := bind_eq_ok_iff.mp h
    obtain ⟨v, hv, h⟩ := bind_eq_ok_iff.mp h
    cases h
    simp [hterm index (by simp [hcontext, dependencies]) i hi,
      hterm value (by simp [hcontext, dependencies]) v hv]
  · next condition thenArray elseArray hcontext =>
    obtain ⟨c, hc, h⟩ := bind_eq_ok_iff.mp h
    cases h
    simp [hterm condition (by simp [hcontext, dependencies]) c hc]

/-- The commands of an array mention the nodes that it is made from. Under quantifiers these have
known values: an array cannot wait there. -/
theorem within_ofArray {isQuantified : Bool}
    (h : ofArray config isQuantified constants skolems a = .ok s)
    (hnodes : ∀ n, (isQuantified = true → constants.fixes n = true) →
      (skolems.nodeTerm n).Within A) :
    ∀ c ∈ s.declarations ++ s.deferred ++ s.setup, c.Within A := by
  have hentity := fun id => nodeName_ne_arrayName_append id a.id
  have hterm : ∀ n ∈ dependencies a.context, ResultWithin A (nodeTerm
      (!isQuantified || (dependencies a.context).all constants.fixes) constants skolems n) := by
    intro n hn
    unfold nodeTerm
    split
    · next hknown =>
      refine ResultWithin.ok_iff.mpr (hnodes n fun hquantified => ?_)
      simp only [hquantified, Bool.not_true, Bool.false_or, Bool.or_eq_true,
        List.all_eq_true] at hknown
      exact hknown.elim (fun hall => hall n hn) id
    · simp
  exact forall_mem_ofArray h rfl (fun _ => within_declaration hterm)
    (fun _ hq => Initializer.within_part hentity 0 (within_of_equation? hterm hq))
    (Initializer.within_setup hentity)

end ArraySetup

/-! ### Sections of a script -/

namespace Plan

variable {plan : Plan}

/-- Between the declarations of inputs and the first definition, free symbols decide, if what may
occur in tables and arrays does. -/
theorem within_middle_iff {freeSymbols : List Command}
    (htables : ∀ c ∈ plan.constantTables.flatMap TableSetup.constantCommands, c.Within A)
    (harrays : ∀ a ∈ plan.arrays, ∀ c ∈ a.declarations ++ a.deferred ++ a.setup, c.Within A) :
    (∀ c ∈ plan.middle freeSymbols, c.Within A) ↔ ∀ c ∈ freeSymbols, c.Within A := by
  constructor
  · intro h c hc
    exact h c (by simp [middle, hc])
  · intro hfree
    have hdeclarations : ∀ c ∈ plan.arrays.flatMap ArraySetup.declarations, c.Within A :=
      List.forall_mem_flatMap.mpr fun a ha c hc => harrays a ha c (by simp [hc])
    have hreversals : ∀ c ∈ plan.reversalCommands, c.Within A :=
      fun c hc => (isInert_reversalCommands plan c hc).within
    have hpostulate : ∀ postulate, (Command.postulate postulate).Within A :=
      fun _ => Command.IsInert.within trivial
    -- Notes and declarations of tables that wait are about no nodes.
    simp only [middle, List.forall_mem_append, List.forall_mem_cons, List.forall_mem_map,
      Command.within_note, TableSetup.within_deferredDeclaration, hpostulate]
    simp only [true_and, and_true, implies_true]
    exact ⟨⟨⟨⟨htables, hdeclarations⟩, hfree⟩, hreversals⟩, by simp⟩

theorem within_arrayCommands
    (harrays : ∀ a ∈ plan.arrays, ∀ c ∈ a.declarations ++ a.deferred ++ a.setup, c.Within A) :
    ∀ c ∈ plan.arrayCommands, c.Within A := by
  simp only [arrayCommands, List.forall_mem_append, List.forall_mem_cons, List.forall_mem_flatMap,
    Command.within_note, true_and]
  exact ⟨⟨fun a ha c hc => harrays a ha c (by simp [hc]),
    fun a ha c hc => harrays a ha c (by simp [hc])⟩, by simp⟩

end Plan

end SolverScript
