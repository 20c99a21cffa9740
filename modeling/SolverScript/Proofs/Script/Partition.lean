import Mathlib.Data.List.Basic
import SolverScript.Proofs.Script.EntityVocabulary

/-!
# Which set-ups wait

Tables and arrays are set up at once where all that they are about is known from the start. This
file says exactly when a set-up fails, when it waits, and what it consists of.

## Main definitions

* `Kind.isNumeric` - the kinds that have literals for integers
* `TableSetup.IsPartition` - the set-up of a table
* `ArrayDatum.Obstacle` - the reasons for which an array has no set-up
* `ArraySetup.IsPartition` - the set-up of an array

## Main results

* `TableSetup.ofTable_eq_error_iff`, `TableSetup.isPartition_of_ofTable` - tables
* `ArraySetup.ofArray_eq_error_iff`, `ArraySetup.isPartition_of_ofArray` - arrays
* `Constants.partitions` - both together
-/

namespace SolverScript

/-! ### Tables -/

/-- Whether the kind has literals for integers. -/
def Kind.isNumeric : Kind → Bool
  | bool | bounded .. | unbounded | real | rational | float | double => true
  | _ => false

namespace Value

/-- There is a value for an integer at the numeric kinds, and it has a literal. -/
theorem exists_term_of_constant {k : Kind} (hk : k.isNumeric = true) (mode : RoundingMode) (n : Int) :
    ∃ t, (constant k n >>= fun v => v.term mode) = .ok t := by
  have hreal : ofReal n 1 = .ok (real (Rat.divInt n 1)) := if_neg Int.one_ne_zero
  have hrational : ofRational n 1 = .ok (rational n 1 Int.one_ne_zero) := dif_neg Int.one_ne_zero
  cases k <;> try cases hk
  case bounded signed width => cases signed <;> exact ⟨_, rfl⟩
  case real => exact ⟨_, by rw [constant, hreal]; rfl⟩
  case rational => exact ⟨_, by rw [constant, hrational]; rfl⟩
  all_goals exact ⟨_, rfl⟩

theorem constant_of_not_isNumeric {k : Kind} (hk : ¬k.isNumeric = true) (n : Int) :
    constant k n = .error (.constantOfKind k) := by
  cases k <;> first | rfl | exact absurd rfl hk

end Value

namespace TableSetup

variable {config : Config} {skolems : SkolemMap} {universals : List Node} {constants : Constants}
  {table : Table}

/-- With literals for positions, every element is paired with the literal of its position. -/
theorem indexed_eq {index : Nat → Term} (hindex : ∀ i, literal config table i = .ok (index i))
    (i : Nat) (ns : List Node) :
    indexed config table i ns = .ok ((ns.zipIdx i).map fun (n, j) => (index j, n)) := by
  induction ns generalizing i with
  | nil => rfl
  | cons n ns ih =>
    obtain ⟨v, hv, hterm⟩ := bind_eq_ok_iff.mp (hindex i)
    rw [indexed, hv]
    refine bind_eq_ok_iff.mpr ⟨v, rfl, bind_eq_ok_iff.mpr ⟨_, hterm, ?_⟩⟩
    exact bind_eq_ok_iff.mpr ⟨_, ih (i + 1), rfl⟩

/-- The positions of a table's elements, those of known elements first. -/
def positions (constants : Constants) (table : Table) : List (Node × Nat) :=
  table.elements.zipIdx.filter (fun e => constants.fixes e.1) ++
    table.elements.zipIdx.filter fun e => !constants.fixes e.1

/-- What the set-up of a table consists of: one equation for each position. It waits if one of the
elements is not known, and otherwise it is the same for all universal nodes. -/
structure IsPartition (config : Config) (skolems : SkolemMap) (universals : List Node)
    (constants : Constants) (table : Table) (s : TableSetup) : Prop where
  table_eq : s.table = table
  isConstant_iff : s.isConstant = true ↔ ∀ n ∈ table.elements, constants.fixes n = true
  equations : ∃ index : Nat → Term,
    (∀ i < table.elements.length, literal config table i = .ok (index i)) ∧
    s.equations = (positions constants table).map fun (n, i) =>
      equation skolems (s.head universals) (index i) n
  of_constant : s.isConstant = true →
    ∀ universals', ofTable config skolems universals' constants table = .ok s
  mentioned : s.isConstant = true → ∀ q ∈ s.equations, ∀ id, .node id ∈ q.names →
    ∃ n ∈ table.elements, n.id = id

theorem exists_literals (config : Config) (hkind : table.indexKind.isNumeric = true) :
    ∃ index : Nat → Term, ∀ i, literal config table i = .ok (index i) :=
  Classical.axiomOfChoice fun i : Nat =>
    Value.exists_term_of_constant hkind config.roundingMode (i : Int)

/-- A table has no set-up just if it has an element and its index kind has no literal for the
position. -/
theorem ofTable_eq_error_iff {e : Failure} :
    ofTable config skolems universals constants table = .error e ↔
      e = .constantOfKind table.indexKind ∧ table.elements ≠ [] ∧
        table.indexKind.isNumeric = false := by
  by_cases hkind : table.indexKind.isNumeric = true
  · obtain ⟨index, hindex⟩ := exists_literals config hkind
    simp [ofTable, indexed_eq hindex, hkind, bind, Except.bind, pure, Except.pure]
  · have hkind' : table.indexKind.isNumeric = false := by simpa using hkind
    unfold ofTable
    cases helements : table.elements with
    | nil => simp [indexed, bind, Except.bind, pure, Except.pure]
    | cons n ns =>
      rw [indexed, Value.constant_of_not_isNumeric hkind]
      simp [hkind', bind, Except.bind, eq_comm]

/-- Where a table has a set-up, the positions of its elements have literals. -/
theorem exists_literals_of_ofTable {s : TableSetup}
    (h : ofTable config skolems universals constants table = .ok s) :
    ∃ index : Nat → Term, (∀ i < table.elements.length, literal config table i = .ok (index i)) ∧
      indexed config table 0 table.elements =
        .ok (table.elements.zipIdx.map fun (n, i) => (index i, n)) := by
  by_cases hkind : table.indexKind.isNumeric = true
  · obtain ⟨index, hindex⟩ := exists_literals config hkind
    exact ⟨index, fun i _ => hindex i, indexed_eq hindex 0 _⟩
  · have helements : table.elements = [] := by
      by_contra hne
      rw [ofTable_eq_error_iff.mpr ⟨rfl, hne, by simpa using hkind⟩] at h
      cases h
    exact ⟨fun _ => Term.ofBool true, by simp [helements], by simp [helements, indexed]⟩

/-- A table that does not wait is the same for all universal nodes. -/
theorem ofTable_of_isConstant {s : TableSetup}
    (h : ofTable config skolems universals constants table = .ok s) (hconstant : s.isConstant = true)
    (universals' : List Node) : ofTable config skolems universals' constants table = .ok s := by
  cases h' : ofTable config skolems universals' constants table with
  | error e =>
    rw [ofTable_eq_error_iff.mpr (ofTable_eq_error_iff.mp h')] at h
    cases h
  | ok s' =>
    have hconstant' : s'.isConstant = true :=
      (isConstant_iff h').mpr ((isConstant_iff h).mp hconstant)
    -- The universal nodes only show in the head, and only if the table waits.
    obtain ⟨entries, hentries, htable, -, hequations⟩ := exists_entries h
    obtain ⟨entries', hentries', htable', -, hequations'⟩ := exists_entries h'
    obtain rfl := Except.ok.inj (hentries.symm.trans hentries')
    have hhead : s'.head universals' = s.head universals := by
      rw [head, head, htable, htable', hconstant, hconstant', if_pos rfl, if_pos rfl]
    have hequal : s'.equations = s.equations := by rw [hequations', hequations, hhead]
    cases s
    cases s'
    rw [Except.ok.injEq, TableSetup.mk.injEq]
    exact ⟨htable'.trans htable.symm, hconstant'.trans hconstant.symm, hequal⟩

/-- A table that does not wait mentions no nodes but its elements. -/
theorem exists_element_of_mem_names
    (hskolems : ∀ n, constants.fixes n = true → skolems.dependencies? n = none) {s : TableSetup}
    (h : ofTable config skolems universals constants table = .ok s) (hconstant : s.isConstant = true)
    {q : Term} (hq : q ∈ s.equations) {id : Int} (hid : .node id ∈ q.names) :
    ∃ n ∈ table.elements, n.id = id := by
  have hV : Vocabulary fun x => ∀ id, x = .node id → ∃ n ∈ table.elements, n.id = id :=
    ⟨fun x hx id hid => (by subst hid; cases hx), fun _ _ _ => nofun⟩
  refine over_equations hV h nofun (by simp [hconstant]) (fun n hn => ?_) q hq _ hid id rfl
  rw [SkolemMap.nodeTerm, hskolems n ((isConstant_iff h).mp hconstant n hn)]
  exact Term.over_node.mpr fun id hid => ⟨n, hn, Name.node.inj hid⟩

theorem isPartition_of_ofTable
    (hskolems : ∀ n, constants.fixes n = true → skolems.dependencies? n = none) {s : TableSetup}
    (h : ofTable config skolems universals constants table = .ok s) :
    s.IsPartition config skolems universals constants table := by
  obtain ⟨index, hindex, hindexed⟩ := exists_literals_of_ofTable h
  obtain ⟨entries, hentries, htable, -, hequations⟩ := exists_entries h
  obtain rfl := Except.ok.inj (hindexed.symm.trans hentries)
  refine ⟨htable, isConstant_iff h, ⟨index, hindex, ?_⟩, ofTable_of_isConstant h,
    fun hconstant q hq id => exists_element_of_mem_names hskolems h hconstant hq⟩
  rw [hequations, positions, List.filter_map, List.filter_map, ← List.map_append, List.map_map]
  rfl

end TableSetup

/-! ### Arrays -/

/-- The reasons for which an array has no set-up. Under quantifiers it cannot wait for a node that is
not known. Nothing is known about the elements of a free array, so that they cannot be characters.
And the value of an initializer needs a literal. -/
inductive ArrayDatum.Obstacle (config : Config) (isQuantified : Bool) (constants : Constants)
    (a : ArrayDatum) : Failure → Prop
  | waits {n : Node} (hquantified : isQuantified = true)
      (hn : n ∈ ArraySetup.dependencies a.context) (hfixed : constants.fixes n = false) :
      Obstacle config isQuantified constants a .deferredArrayUnderQuantifier
  | characters (hcontext : a.context = .free none) (hrange : a.range.isChar = true) :
      Obstacle config isQuantified constants a .freeArrayOfChars
  | literal {initializer : Node} {v : Value} {e : Failure}
      (hcontext : a.context = .free (some initializer))
      (hvalue : constants.value? initializer = some v)
      (hliteral : v.term config.roundingMode = .error e) :
      Obstacle config isQuantified constants a e

namespace ArraySetup

variable {config : Config} {isQuantified : Bool} {constants : Constants} {skolems : SkolemMap}
  {a : ArrayDatum}

/-- Whether an array has to wait for a node that is not known. -/
theorem areFixed_iff : (dependencies a.context).all constants.fixes = true ↔
    ∀ n ∈ dependencies a.context, constants.fixes n = true :=
  List.all_eq_true

theorem exists_of_not_areFixed (h : ¬(dependencies a.context).all constants.fixes = true) :
    ∃ n ∈ dependencies a.context, constants.fixes n = false := by
  simpa using h

/-- Where nothing has to wait that cannot, a dependency has a term. -/
theorem nodeTerm_of_or (skolems : SkolemMap)
    (h : isQuantified = true → (dependencies a.context).all constants.fixes = true)
    (n : Node) :
    nodeTerm (!isQuantified || (dependencies a.context).all constants.fixes) constants skolems n =
      .ok (skolems.nodeTerm n) := by
  have htop : (!isQuantified || (dependencies a.context).all constants.fixes) = true := by
    cases isQuantified with
    | false => rfl
    | true => exact h rfl
  rw [nodeTerm, htop, Bool.true_or, if_pos rfl]

/-- An array without obstacle has a set-up. -/
theorem exists_ofArray (skolems : SkolemMap) (h : ∀ e, ¬a.Obstacle config isQuantified constants e) :
    ∃ s, ofArray config isQuantified constants skolems a = .ok s := by
  have hfixed : isQuantified = true → (dependencies a.context).all constants.fixes = true := by
    intro hquantified
    by_contra hfixed
    obtain ⟨n, hn, hn'⟩ := exists_of_not_areFixed hfixed
    exact h _ (.waits hquantified hn hn')
  have hterm := nodeTerm_of_or skolems hfixed
  -- What the declaration and the equation can fail for is an obstacle in either case.
  obtain ⟨declared, hdeclared⟩ : ∃ declared, declaration config constants
      (nodeTerm (!isQuantified || (dependencies a.context).all constants.fixes) constants skolems)
      a = .ok declared := by
    unfold declaration
    dsimp only
    split
    · next initializer hcontext =>
      split
      · next v hvalue =>
        cases hliteral : v.term config.roundingMode with
        | error e => exact absurd (.literal hcontext hvalue hliteral) (h e)
        | ok t => exact ⟨_, rfl⟩
      · exact ⟨_, by rw [hterm]; rfl⟩
    · next hcontext =>
      split
      · next hrange => exact absurd (.characters hcontext hrange) (h _)
      · exact ⟨_, rfl⟩
    · exact ⟨_, rfl⟩
  obtain ⟨equation?, hequation⟩ : ∃ q?, equation?
      (nodeTerm (!isQuantified || (dependencies a.context).all constants.fixes) constants skolems)
      a = .ok q? := by
    unfold equation?
    simp only [hterm]
    split <;> exact ⟨_, rfl⟩
  unfold ofArray
  simp only [hdeclared, hequation]
  cases equation? <;> exact ⟨_, rfl⟩

/-- Under quantifiers, a dependency that is not known has no term. -/
theorem nodeTerm_of_not_areFixed {n : Node} (hn : n ∈ dependencies a.context)
    (hfixed : constants.fixes n = false) (m : Node) :
    nodeTerm (!true || (dependencies a.context).all constants.fixes) constants skolems m =
      if constants.fixes m then .ok (skolems.nodeTerm m)
      else .error .deferredArrayUnderQuantifier := by
  have hall : (dependencies a.context).all constants.fixes = false :=
    List.all_eq_false.mpr ⟨n, hn, by simp [hfixed]⟩
  rw [nodeTerm, hall, Bool.not_true, Bool.false_or, Bool.false_or]

theorem value?_of_not_fixes {n : Node} (h : constants.fixes n = false) :
    constants.value? n = none := by
  simp only [Constants.fixes, Bool.or_eq_false_iff, Option.isSome_eq_false_iff,
    Option.isNone_iff_eq_none] at h
  exact h.2

/-- A dependency without term is missed by the declaration of an array or by its equation. -/
theorem declaration_or_equation?_eq_error {term : Node → Except Failure Term} {failure : Failure}
    (hterm : ∀ m, term m = if constants.fixes m then .ok (skolems.nodeTerm m) else .error failure)
    {n : Node} (hn : n ∈ dependencies a.context) (hfixed : constants.fixes n = false) :
    declaration config constants term a = .error failure ∨
      (∃ c, declaration config constants term a = .ok c) ∧ equation? term a = .error failure := by
  have hstuck : term n = .error failure := by simp [hterm, hfixed]
  unfold declaration equation?
  cases hcontext : a.context with
  | free initializer? =>
    obtain rfl : initializer? = some n := by simpa [hcontext, dependencies] using hn
    refine .inl ?_
    simp [value?_of_not_fixes hfixed, hstuck, bind, Except.bind]
  | mutate base index value =>
    refine .inr ⟨⟨_, rfl⟩, ?_⟩
    have hn : n = index ∨ n = value := by simpa [hcontext, dependencies] using hn
    -- The index comes first, so a failure of the value shows only if the index has a term.
    rcases hn with rfl | rfl
    · simp [hstuck, bind, Except.bind]
    · by_cases hindex : constants.fixes index = true <;>
        simp [hterm, hindex, hfixed, bind, Except.bind]
  | merge condition thenArray elseArray =>
    obtain rfl : n = condition := by simpa [hcontext, dependencies] using hn
    refine .inr ⟨⟨_, rfl⟩, ?_⟩
    simp [hstuck, bind, Except.bind]

/-- An array with an obstacle has no set-up. -/
theorem ofArray_of_obstacle {e : Failure} (h : a.Obstacle config isQuantified constants e) :
    ofArray config isQuantified constants skolems a = .error e := by
  have hparts : declaration config constants (nodeTerm
        (!isQuantified || (dependencies a.context).all constants.fixes) constants skolems) a =
        .error e ∨
      (∃ c, declaration config constants (nodeTerm
        (!isQuantified || (dependencies a.context).all constants.fixes) constants skolems) a =
        .ok c) ∧ equation? (nodeTerm
          (!isQuantified || (dependencies a.context).all constants.fixes) constants skolems) a =
          .error e := by
    cases h with
    | characters hcontext hrange => exact .inl (by simp [declaration, hcontext, hrange])
    | literal hcontext hvalue hliteral =>
      exact .inl (by simp [declaration, hcontext, hvalue, hliteral, bind, Except.bind])
    | waits hquantified hn hfixed =>
      subst hquantified
      exact declaration_or_equation?_eq_error (nodeTerm_of_not_areFixed hn hfixed) hn hfixed
  unfold ofArray
  rcases hparts with hdeclared | ⟨⟨c, hdeclared⟩, hequation⟩
  · simp only [hdeclared]
    rfl
  · simp only [hdeclared, hequation]
    rfl

/-- An array has no set-up just if there is an obstacle, and then this is the failure. -/
theorem ofArray_eq_error_iff {e : Failure} :
    ofArray config isQuantified constants skolems a = .error e ↔
      a.Obstacle config isQuantified constants e := by
  refine ⟨fun h => ?_, ofArray_of_obstacle⟩
  by_contra hnone
  have hfree : ∀ e', ¬a.Obstacle config isQuantified constants e' := by
    intro e' he'
    rw [ofArray_of_obstacle he'] at h
    exact hnone (Except.error.inj h ▸ he')
  obtain ⟨s, hs⟩ := exists_ofArray skolems hfree
  rw [hs] at h
  cases h

/-! ### What the set-up of an array consists of -/

/-- The names that the set-up of an array may be written with under quantifiers: those of arrays and
of nodes that are known, and what literals and sorts are written with. -/
inductive IsName (constants : Constants) (a : ArrayDatum) : Name → Prop
  | builtin {x : Name} (h : x.IsBuiltin) : IsName constants a x
  | array (id : Int) (part : EntityPart) :
      IsName constants a (.function (GeneratedSymbol.entity (.array id) part).name)
  | node {n : Node} (h : constants.fixes n = true) : IsName constants a (.node n.id)
  | value {c : Constant} {x : Name} (hc : c ∈ constants) (hx : x ∈ c.value.names) :
      IsName constants a x
  | kind {x : Name} (hx : x ∈ a.domain.names ++ a.range.names) : IsName constants a x
  | position {sort : String} (h : IsName constants a (.sort sort)) :
      IsName constants a (.function (Datatype.indexName sort))

theorem vocabulary_isName : Vocabulary (IsName constants a) :=
  ⟨fun _ h => .builtin h, fun _ h => .position h⟩

/-- Whether all names that a command mentions or declares are those of a set-up. -/
def Admits (constants : Constants) (a : ArrayDatum) (c : Command) : Prop :=
  (∀ x ∈ c.names, IsName constants a x) ∧ ∀ name ∈ c.declares, IsName constants a (.function name)

/-- What the set-up of an array consists of: its declaration, and an initializer with its equation if
the array is made from others, which waits if it is about nodes that are not known. Under quantifiers
nothing waits, and only arrays and known nodes are mentioned. -/
structure IsPartition (isQuantified : Bool) (constants : Constants) (skolems : SkolemMap)
    (a : ArrayDatum) (s : ArraySetup) : Prop where
  of_derived : a.context.sources ≠ [] → ∃ declared q,
    equation? (fun n => .ok (skolems.nodeTerm n)) a = .ok (some q) ∧
    if (dependencies a.context).all constants.fixes then
      s.declarations = [declared, Initializer.part (arrayName a.id) 0 q] ∧ s.deferred = []
    else
      s.declarations = [declared] ∧ s.deferred = [Initializer.part (arrayName a.id) 0 q]
  of_free : a.context.sources = [] → ∃ declared, s.declarations = [declared] ∧ s.deferred = []
  of_quantified : isQuantified = true → s.deferred = [] ∧
    ∀ c ∈ s.declarations ++ s.setup, Admits constants a c

/-- The equation of an array is made from the terms of its dependencies. -/
theorem equation?_of_nodeTerm {isTopLevel : Bool} {q? : Option Term}
    (h : equation? (nodeTerm isTopLevel constants skolems) a = .ok q?) :
    equation? (fun n => .ok (skolems.nodeTerm n)) a = .ok q? := by
  unfold equation? at h ⊢
  cases hcontext : a.context with
  | free => simpa [hcontext] using h
  | mutate base index value =>
    simp only [hcontext] at h
    obtain ⟨i, hi, h⟩ := bind_eq_ok_iff.mp h
    obtain ⟨v, hv, h⟩ := bind_eq_ok_iff.mp h
    cases h
    rw [eq_of_nodeTerm hi, eq_of_nodeTerm hv]
    rfl
  | merge condition thenArray elseArray =>
    simp only [hcontext] at h
    obtain ⟨c, hc, h⟩ := bind_eq_ok_iff.mp h
    cases h
    rw [eq_of_nodeTerm hc]
    rfl

theorem admits_defineFun (part : EntityPart) {sort : SortExpr} {value : Term} {remark : String}
    (hsort : sort.Over (IsName constants a)) (hvalue : value.Over (IsName constants a)) :
    Admits constants a (.defineFun (GeneratedSymbol.entity (.array a.id) part).name sort value
      remark) :=
  ⟨List.forall_mem_append.mpr ⟨hsort, hvalue⟩, List.forall_mem_singleton.mpr (.array a.id part)⟩

/-- The initializers of an array mention each other. -/
theorem admits_setup : ∀ c ∈ Initializer.setup (arrayName a.id) 1, Admits constants a c := by
  have hbool : Kind.bool.sort.Over (IsName constants a) :=
    Kind.over_sort vocabulary_isName Kind.over_bool
  have hpart : (Term.symbol (Initializer.partName (arrayName a.id) 0)).Over
      (IsName constants a) := by
    refine Term.over_symbol.mpr ?_
    rw [show Initializer.partName (arrayName a.id) 0 = _ from
      Initializer.partName_eq (.array a.id) 0]
    exact .array a.id (.numbered 0)
  refine List.forall_mem_cons.mpr ⟨admits_defineFun .initializer hbool hpart,
    List.forall_mem_singleton.mpr ⟨?_, by simp [Command.declares]⟩⟩
  exact Term.over_symbol.mpr (.array a.id .initializer)

/-- A known node is written as it is. -/
theorem over_nodeTerm_of_fixes
    (hskolems : ∀ n, constants.fixes n = true → skolems.dependencies? n = none) {n : Node}
    (hn : constants.fixes n = true) : (skolems.nodeTerm n).Over (IsName constants a) := by
  rw [SkolemMap.nodeTerm, hskolems n hn]
  exact Term.over_node.mpr (.node hn)

theorem admits_declaration
    (hskolems : ∀ n, constants.fixes n = true → skolems.dependencies? n = none)
    (hfixed : ∀ n ∈ dependencies a.context, constants.fixes n = true) {isTopLevel : Bool}
    {c : Command}
    (h : declaration config constants (nodeTerm isTopLevel constants skolems) a = .ok c) :
    Admits constants a c := by
  constructor
  · refine (names_declaration_iff vocabulary_isName (fun x hx => .kind (List.mem_append_left _ hx))
      (fun x hx => .kind (List.mem_append_right _ hx)) (fun d hd x hx => .value hd hx) h).mpr ?_
    intro n hn
    refine over_nodeTerm_of_fixes hskolems (hfixed n ?_)
    unfold ArrayContext.initialNodes at hn
    split at hn
    · next hcontext => simpa [hcontext, dependencies] using (List.mem_filter.mp hn).1
    · cases hn
  · rw [declares_declaration h, arrayName_eq]
    exact List.forall_mem_singleton.mpr (.array a.id .itself)

theorem isPartition_of_ofArray
    (hskolems : ∀ n, constants.fixes n = true → skolems.dependencies? n = none) {s : ArraySetup}
    (h : ofArray config isQuantified constants skolems a = .ok s) :
    s.IsPartition isQuantified constants skolems a := by
  -- Under quantifiers, an array with elements that are not constants is refused.
  have hfixed : isQuantified = true → ∀ n ∈ dependencies a.context, constants.fixes n = true := by
    intro hquantified n hn
    by_contra hnot
    rw [ofArray_of_obstacle (.waits hquantified hn (by simpa using hnot))] at h
    cases h
  by_cases hsources : a.context.sources = []
  · obtain ⟨_, declared, hdeclared, rfl⟩ := exists_of_free hsources h
    refine ⟨fun hne => absurd hsources hne, fun _ => ⟨declared, rfl, rfl⟩,
      fun hquantified => ⟨rfl, ?_⟩⟩
    subst hquantified
    exact List.forall_mem_singleton.mpr (admits_declaration hskolems (hfixed rfl) hdeclared)
  · obtain ⟨_, declared, q, hdeclared, hq, rfl⟩ := exists_of_derived hsources h
    refine ⟨fun _ => ⟨declared, q, equation?_of_nodeTerm hq, ?_⟩, fun hnil => absurd hnil hsources,
      fun hquantified => ?_⟩
    · by_cases hall : (dependencies a.context).all constants.fixes = true <;> simp [hall]
    · have hfixed := hfixed hquantified
      have hall : (dependencies a.context).all constants.fixes = true := areFixed_iff.mpr hfixed
      have hequation : q.Over (IsName constants a) :=
        (over_equation?_iff vocabulary_isName hq).mpr ⟨fun id _ => by
          rw [arrayName_eq]
          exact .array id .itself, fun n hn => over_nodeTerm_of_fixes hskolems (hfixed n hn)⟩
      have hpart : Admits constants a (Initializer.part (arrayName a.id) 0 q) := by
        rw [Initializer.part, show Initializer.partName (arrayName a.id) 0 = _ from
          Initializer.partName_eq (.array a.id) 0]
        exact admits_defineFun _ (Kind.over_sort vocabulary_isName Kind.over_bool) hequation
      simp only [hall, if_true]
      exact ⟨trivial, List.forall_mem_append.mpr ⟨List.forall_mem_cons.mpr
        ⟨admits_declaration hskolems hfixed hdeclared, List.forall_mem_singleton.mpr hpart⟩,
        admits_setup⟩⟩

end ArraySetup

/-! ### Both together -/

namespace Constants

/-- Whatever is known from the start, a table has a set-up unless its index kind has no literals for
the positions of its elements, an array has one unless there is an obstacle, and the set-ups consist
of the equations and initializers that they should. -/
theorem partitions (config : Config) {constants : Constants} {skolems : SkolemMap}
    (hskolems : ∀ n, constants.fixes n = true → skolems.dependencies? n = none) :
    (∀ universals table,
      (∀ e, TableSetup.ofTable config skolems universals constants table = .error e ↔
        e = .constantOfKind table.indexKind ∧ table.elements ≠ [] ∧
          table.indexKind.isNumeric = false) ∧
      ∀ s, TableSetup.ofTable config skolems universals constants table = .ok s →
        s.IsPartition config skolems universals constants table) ∧
    ∀ isQuantified a,
      (∀ e, ArraySetup.ofArray config isQuantified constants skolems a = .error e ↔
        a.Obstacle config isQuantified constants e) ∧
      ∀ s, ArraySetup.ofArray config isQuantified constants skolems a = .ok s →
        s.IsPartition isQuantified constants skolems a :=
  ⟨fun _ _ => ⟨fun _ => TableSetup.ofTable_eq_error_iff,
      fun _ h => TableSetup.isPartition_of_ofTable hskolems h⟩,
    fun _ _ => ⟨fun _ => ArraySetup.ofArray_eq_error_iff,
      fun _ h => ArraySetup.isPartition_of_ofArray hskolems h⟩⟩

/-- One known node, beside the truth values. -/
def oneConstant : Constants := [⟨⟨5, .bool⟩, .bool true⟩]

/-- A node that depends on another one. -/
def oneDependent : SkolemMap := [(⟨3, .bool⟩, [⟨4, .bool⟩])]

/-- A table with an element that is not known before one that is. -/
def mixedTable : Table := ⟨0, .unbounded, .bool, [⟨3, .bool⟩, ⟨5, .bool⟩]⟩

/-- An array that differs from another one at a known index, by a known value. -/
def fixedChange : ArrayDatum := ⟨1, "changed", .bool, .bool, .mutate 0 (Node.ofBool true) ⟨5, .bool⟩⟩

/-- The table waits and starts with the equation of the known element. Under quantifiers the array is
set up at once. -/
theorem partitions_oneConstant :
    (∀ n, oneConstant.fixes n = true → oneDependent.dependencies? n = none) ∧
    (∃ s, TableSetup.ofTable {} oneDependent [⟨4, .bool⟩] oneConstant mixedTable = .ok s ∧
      s.equations.map Term.render = ["(= (table0 s4 1) s5)", "(= (table0 s4 0) (s3 s4))"] ∧
      s.IsPartition {} oneDependent [⟨4, .bool⟩] oneConstant mixedTable) ∧
    ∃ s, ArraySetup.ofArray {} true oneConstant oneDependent fixedChange = .ok s ∧
      s.declarations.length = 2 ∧ s.IsPartition true oneConstant oneDependent fixedChange := by
  have hskolems : ∀ n, oneConstant.fixes n = true → oneDependent.dependencies? n = none := by
    intro n hn
    have hid : n.id = -1 ∨ n.id = -2 ∨ 5 = n.id := by
      simpa [fixes, oneConstant, value?, Node.isTrue, Node.isFalse, Node.same, or_assoc] using hn
    have hother : n.id ≠ 3 := by omega
    simp [SkolemMap.dependencies?, oneDependent, latest?, Node.same, hother]
  obtain ⟨htables, harrays⟩ := partitions {} hskolems
  refine ⟨hskolems, ?_, ?_⟩
  · obtain ⟨s, hs, hequations⟩ : ∃ s,
        TableSetup.ofTable {} oneDependent [⟨4, .bool⟩] oneConstant mixedTable = .ok s ∧
          s.equations.map Term.render = ["(= (table0 s4 1) s5)", "(= (table0 s4 0) (s3 s4))"] :=
      ⟨_, rfl, by decide⟩
    exact ⟨s, hs, hequations, (htables _ _).2 s hs⟩
  · obtain ⟨s, hs, hlength⟩ : ∃ s,
        ArraySetup.ofArray {} true oneConstant oneDependent fixedChange = .ok s ∧
          s.declarations.length = 2 := ⟨_, rfl, rfl⟩
    exact ⟨s, hs, hlength, (harrays _ _).2 s hs⟩

/-- A table with one element whose index kind is that of texts. -/
def tableByText : Table := ⟨0, .string, .bool, [Node.ofBool true]⟩

/-- A constant text of one byte that no character has. -/
def malformedConstant : Constants := [⟨⟨0, .string⟩, .string "\u00ff"⟩]

/-- An array whose elements are all the constant. -/
def filledWithMalformed : ArrayDatum := ⟨0, "filled", .bool, .string, .free (some ⟨0, .string⟩)⟩

/-- There are tables with elements but without equations. And outside of quantifiers arrays may fail
that have an initializer. -/
theorem not_partitions :
    (tableByText.elements.length = 1 ∧
      ∀ s, TableSetup.ofTable {} [] [] malformedConstant tableByText ≠ .ok s) ∧
    filledWithMalformed.context ≠ .free none ∧ filledWithMalformed.range.isChar = false ∧
      ArraySetup.ofArray {} false malformedConstant [] filledWithMalformed =
        .error (.malformedText "\u00ff") := by
  have htable : TableSetup.ofTable {} [] [] malformedConstant tableByText =
      .error (.constantOfKind .string) := rfl
  refine ⟨⟨rfl, fun s => by simp [htable]⟩, nofun, rfl, rfl⟩

end Constants

end SolverScript
