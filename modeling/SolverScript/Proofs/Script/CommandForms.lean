import SolverScript.Proofs.Script.Commands

/-!
# The forms of commands

Sorts, nodes, symbols, tables and arrays are introduced by commands of few forms. Which forms these
are is said here, once for each of them, so that a property of all commands in a part of a script is
a matter of the forms.

## Main results

* `Declaration.forall_mem_defined`, `Declaration.forall_mem_constant`,
  `Declaration.forall_mem_symbol` - the commands of nodes and symbols
* `Initializer.forall_mem_parts`, `Initializer.forall_mem_setup` - the commands of initializers
* `ArraySetup.declaration_cases`, `ArraySetup.forall_mem_ofArray`, `ArraySetup.forall_mem_sections` -
  the commands of arrays
* `Plan.forall_mem_trackerCommands`, `Plan.forall_mem_reversalCommands` - sections with a heading
-/

namespace SolverScript

variable {P : Command → Prop}

/-! ### Sorts and data types -/

/-- A user sort is declared without constructors, or with them and their positions. -/
theorem Declaration.forall_mem_userSort {s : UserSort} (hsort : P (.declareSort s.name))
    (henumeration : ∀ constructors ∈ s.constructors, P (.declareEnumeration s.name constructors) ∧
      P (.defineConstructorIndex s.name constructors)) : ∀ c ∈ userSort s, P c := by
  unfold userSort
  split
  · simp
  · split
    · exact List.forall_mem_singleton.mpr hsort
    · next constructors hconstructors =>
      obtain ⟨hdeclare, hindex⟩ := henumeration constructors hconstructors
      exact List.forall_mem_cons.mpr ⟨hdeclare, List.forall_mem_singleton.mpr hindex⟩

namespace Features

theorem forall_mem_tupleCommands {f : Features} {cs : List Command}
    (h : f.tupleCommands = .ok cs) (htuple : ∀ arity, P (.declareTuple arity)) :
    ∀ c ∈ cs, P c := by
  intro c hc
  obtain ⟨arity, -, hdeclared⟩ := exists_of_mem_mapM h hc
  unfold Declaration.tuple at hdeclared
  split at hdeclared <;> cases hdeclared
  exact htuple arity

theorem forall_mem_datatypeCommands (f : Features) (hsum : P .declareSum)
    (hoptional : P .declareOptional) (hrationals : P .declareRationals) :
    ∀ c ∈ f.datatypeCommands, P c := by
  unfold datatypeCommands
  simp only [List.forall_mem_append]
  refine ⟨⟨?_, ?_⟩, ?_⟩ <;> split <;> simp [hsum, hoptional, hrationals]

end Features

/-! ### Nodes and symbols -/

namespace Declaration

/-- A node is defined, or declared and equated with its value. -/
theorem forall_mem_defined {c : Capabilities} {n : Node} {value : Term} {remark : String}
    (hdefine : P (.defineFun n.name n.kind.sort value remark))
    (hdeclare : P (.declareFun n.name [] n.kind.sort remark))
    (hequate : P (.assert (.app (.symbol "=") [n.term, value]))) :
    ∀ d ∈ defined c n value remark, P d := by
  unfold defined
  split
  · exact List.forall_mem_singleton.mpr hdefine
  · exact List.forall_mem_cons.mpr ⟨hdeclare, List.forall_mem_singleton.mpr hequate⟩

/-- A constant is defined as its literal, except for the truth values, which are never defined. -/
theorem constant_cases {config : Config} {c : Constant} {cs : List Command}
    (h : constant config c = .ok cs) :
    ((c.node.isTrue || c.node.isFalse) = true ∧ cs = []) ∨
      (c.node.isTrue || c.node.isFalse) = false ∧ ∃ value,
        c.value.term config.roundingMode = .ok value ∧
          cs = defined config.capabilities c.node value "" := by
  unfold constant at h
  split at h
  · next hreserved =>
    cases h
    exact .inl ⟨hreserved, rfl⟩
  · next hreserved =>
    obtain ⟨value, hvalue, h⟩ := bind_eq_ok_iff.mp h
    cases h
    exact .inr ⟨by simpa using hreserved, value, hvalue, rfl⟩

theorem forall_mem_constant {config : Config} {c : Constant} {cs : List Command}
    (h : constant config c = .ok cs)
    (hdefined : ∀ value, c.value.term config.roundingMode = .ok value →
      ∀ d ∈ defined config.capabilities c.node value "", P d) : ∀ d ∈ cs, P d := by
  rcases constant_cases h with ⟨-, rfl⟩ | ⟨-, value, hvalue, rfl⟩
  · simp
  · exact hdefined value hvalue

/-- The invariants of a constant are asserted alone or together. -/
theorem forall_mem_constantInvariants {name : String} {k : Kind}
    (hassert : ∀ t ∈ k.invariants (.symbol name), P (.assert t))
    (hassertAll : k.invariants (.symbol name) ≠ [] → P (.assertAll (k.invariants (.symbol name)))) :
    ∀ c ∈ constantInvariants name k, P c := by
  unfold constantInvariants
  split
  · simp
  · next formula hformula =>
    exact List.forall_mem_singleton.mpr (hassert formula (by simp [hformula]))
  · next hne _ => exact List.forall_mem_singleton.mpr (hassertAll hne)

/-- A symbol is declared, and the invariants of its kind are asserted of it or of its results. -/
theorem forall_mem_symbol {name remark : String} {kinds : List Kind} {cs : List Command}
    (h : symbol name kinds remark = .ok cs)
    (hdeclare : ∀ domain range, P (.declareFun name domain range remark))
    (hconstant : ∀ k, ∀ c ∈ constantInvariants name k, P c)
    (hresult : ∀ arguments k, ∀ c ∈ resultInvariants name arguments k, P c) : ∀ c ∈ cs, P c := by
  unfold symbol at h
  split at h <;> cases h
  refine List.forall_mem_cons.mpr ⟨hdeclare _ _, ?_⟩
  split
  · simp
  split
  · exact hconstant _
  · exact hresult _ _

end Declaration

theorem Scope.forall_mem_definitionCommands {scope : Scope} {a : Assignment} {cs : List Command}
    (h : scope.definitionCommands a = .ok cs)
    (hdefined : ∀ value label?, scope.definition a.operation = .ok (value, label?) →
      ∀ d ∈ Declaration.defined scope.config.capabilities a.node value (label?.getD ""), P d) :
    ∀ c ∈ cs, P c := by
  obtain ⟨⟨value, label?⟩, hdefinition, h⟩ := bind_eq_ok_iff.mp h
  cases h
  exact hdefined value label? hdefinition

/-! ### Tables -/

namespace Initializer

variable {entity : String}

theorem forall_mem_parts {i : Nat} {equations : List Term}
    (h : ∀ j, ∀ q ∈ equations, P (part entity j q)) : ∀ c ∈ parts entity i equations, P c := by
  induction equations generalizing i with
  | nil => simp [parts]
  | cons q qs ih =>
    exact List.forall_mem_cons.mpr ⟨h i q List.mem_cons_self,
      ih fun j p hp => h j p (List.mem_cons_of_mem q hp)⟩

/-- All initializers together are defined under one name. Unless there are none, it is asserted. -/
theorem forall_mem_setup {count : Nat}
    (hdefine : ∀ value, ∀ remark ∈ ["", "no initialization needed"],
      P (.defineFun (name entity) Kind.bool.sort value remark))
    (hassert : P (.assert (.symbol (name entity)))) : ∀ c ∈ setup entity count, P c := by
  unfold setup
  dsimp only
  split
  · exact List.forall_mem_singleton.mpr (hdefine _ _ (by simp))
  all_goals
    exact List.forall_mem_cons.mpr ⟨hdefine _ _ (by simp), List.forall_mem_singleton.mpr hassert⟩

end Initializer

/-! ### Arrays -/

namespace ArraySetup

variable {config : Config} {constants : Constants} {skolems : SkolemMap} {a : ArrayDatum}
  {term : Node → Except Failure Term}

/-- An array with an initial value is defined as a constant function, another one is declared. -/
theorem declaration_cases {c : Command} (h : declaration config constants term a = .ok c) :
    (∃ value, c = .defineFun (arrayName a.id) (SortExpr.array a.domain a.range)
      (.app (.ascribed "const" (SortExpr.array a.domain a.range)) [value]) "") ∨
    c = .declareFun (arrayName a.id) [] (SortExpr.array a.domain a.range) "" := by
  unfold declaration at h
  dsimp only at h
  split at h
  · split at h
    all_goals
      obtain ⟨value, -, h⟩ := bind_eq_ok_iff.mp h
      cases h
      exact .inl ⟨value, rfl⟩
  · split at h <;> cases h
    exact .inr rfl
  · cases h
    exact .inr rfl

/-- The commands of an array are its declaration, the definition of its equation if it is made from
others, and those of its initializers. -/
theorem forall_mem_ofArray {isQuantified : Bool} {s : ArraySetup}
    (h : ofArray config isQuantified constants skolems a = .ok s)
    (hterm : nodeTerm (!isQuantified || (dependencies a.context).all constants.fixes) constants
      skolems = term)
    (hdeclaration : ∀ c, declaration config constants term a = .ok c → P c)
    (hpart : ∀ q, equation? term a = .ok (some q) → P (Initializer.part (arrayName a.id) 0 q))
    (hsetup : ∀ count, ∀ c ∈ Initializer.setup (arrayName a.id) count, P c) :
    ∀ c ∈ s.declarations ++ s.deferred ++ s.setup, P c := by
  subst hterm
  obtain ⟨declared, hdeclared, h⟩ := bind_eq_ok_iff.mp h
  obtain ⟨equation?, hequation, h⟩ := bind_eq_ok_iff.mp h
  have hfirst := hdeclaration declared hdeclared
  cases equation? with
  | none =>
    cases h
    cases isQuantified with
    | true => exact List.forall_mem_singleton.mpr hfirst
    | false => exact List.forall_mem_cons.mpr ⟨hfirst, hsetup 0⟩
  | some q =>
    -- The equation is defined with the declaration or later, but it is among the commands.
    have hall := List.forall_mem_cons.mpr
      ⟨hfirst, List.forall_mem_cons.mpr ⟨hpart q hequation, hsetup 1⟩⟩
    obtain rfl := Except.ok.inj h
    split <;> exact hall

theorem forall_mem_sections {isQuantified : Bool} {arrays : List ArrayDatum}
    {setups : List ArraySetup}
    (h : arrays.mapM (ofArray config isQuantified constants skolems) = .ok setups)
    (hcommands : ∀ a ∈ arrays, ∀ s, ofArray config isQuantified constants skolems a = .ok s →
      ∀ c ∈ s.declarations ++ s.deferred ++ s.setup, P c) :
    (∀ c ∈ setups.flatMap declarations, P c) ∧ (∀ c ∈ setups.flatMap deferred, P c) ∧
      ∀ c ∈ setups.flatMap setup, P c := by
  have hsections : ∀ s ∈ setups, ∀ c ∈ s.declarations ++ s.deferred ++ s.setup, P c := by
    intro s hs
    obtain ⟨a, ha, hs⟩ := exists_of_mem_mapM h hs
    exact hcommands a ha s hs
  simp only [List.forall_mem_append] at hsections
  exact ⟨List.forall_mem_flatMap.mpr fun s hs => (hsections s hs).1.1,
    List.forall_mem_flatMap.mpr fun s hs => (hsections s hs).1.2,
    List.forall_mem_flatMap.mpr fun s hs => (hsections s hs).2⟩

end ArraySetup

/-! ### Sections with a heading of their own -/

namespace Plan

variable {plan : Plan}

theorem forall_mem_trackerCommands {trackers : List Command}
    (h : plan.trackerCommands = .ok trackers)
    (hheading : P (.note "--- optimization tracker variables ---"))
    (hsymbol : ∀ t ∈ plan.problem.trackers, ∀ ds,
      Declaration.symbol t.node.name [t.node.kind] ("tracks " ++ t.userName) = .ok ds →
        ∀ c ∈ ds, P c) : ∀ c ∈ trackers, P c := by
  obtain ⟨declarations, hdeclarations, h⟩ := bind_eq_ok_iff.mp h
  cases h
  refine List.forall_mem_append.mpr ⟨?_, forall_mem_commandsOf hdeclarations hsymbol⟩
  split
  · simp
  · exact List.forall_mem_singleton.mpr hheading

theorem forall_mem_reversalCommands (plan : Plan)
    (hheading : P (.note "--- SBV Function definitions"))
    (hreversal : ∀ r ∈ plan.reversals.foldr placeReversal [], P (.defineReversal r.1 r.2)) :
    ∀ c ∈ plan.reversalCommands, P c := by
  refine List.forall_mem_append.mpr ⟨?_, List.forall_mem_map.mpr hreversal⟩
  split
  · simp
  · exact List.forall_mem_singleton.mpr hheading

end Plan

end SolverScript
