import SolverScript.Proofs.Script.Conclusion
import SolverScript.Proofs.Script.DeclaredSymbols

/-!
# Declaration before use

Without universal nodes, a script introduces the nodes of a problem in the order in which they are
made from each other: inputs and constants first, then tables, arrays, free symbols and reversals,
then the assignments in the order of their creation, and at last the equations and formulas that may
mention any of them. Every symbol is introduced once, and no command mentions a symbol before. Arrays
are an exception, because their initial values may be of any sort.

## Main definitions

* `Problem.IsClosed` - a problem refers to nothing but its own parts
* `Command.IsOfArray` - the commands that set up arrays
* `Problem.IntroducesSymbols` - a script introduces its symbols once, and before it mentions them

## Main results

* `Problem.introducesSymbols` - declaration before use
-/

namespace SolverScript

/-- Whether a command declares an array or one of its initializers, or asserts all of them. -/
def Command.IsOfArray (c : Command) : Prop :=
  (∃ id part, c.declares = [(GeneratedSymbol.entity (.array id) part).name]) ∨
    ∃ id, c = .assert (.symbol (Initializer.name (arrayName id)))

/-- Whether a command is one of those that set up the arrays of a plan. -/
def Plan.SetsUpArray (plan : Plan) (c : Command) : Prop :=
  ∃ s ∈ plan.arrays, c ∈ s.declarations ++ s.deferred ++ s.setup

/-- Tables that take their index only do so whatever else there is. -/
theorem TableMap.head_eq {tables : TableMap}
    (h : ∀ entry ∈ tables, entry.2 = ⟨tableName entry.1, []⟩) (id : Int) :
    tables.head id = ⟨tableName id, []⟩ := by
  unfold TableMap.head
  cases hhead : latest? (· == id) tables with
  | none => rfl
  | some head =>
    obtain ⟨k, hmem, hkey⟩ := exists_of_latest? hhead
    rw [← beq_iff_eq.mp hkey]
    exact h (k, head) hmem

namespace Problem

/-- Whether the tables, arrays and free symbols of an operator are parts of the problem. -/
def Lists (p : Problem) : Operator → Prop
  | .lookup l => ∃ t ∈ p.tables, t.id = l.table
  | .arrayEqual a b => (∃ d ∈ p.arrays, d.id = a) ∧ ∃ d ∈ p.arrays, d.id = b
  | .arrayRead a => ∃ d ∈ p.arrays, d.id = a
  | .uninterpreted name => ∃ f ∈ p.freeSymbols, f.name = name
  | _ => True

/-- Whether a problem refers to nothing but its own parts: named inputs are quantified, and operators
are about tables, arrays and free symbols that are listed. -/
structure IsSelfContained (p : Problem) : Prop where
  inputs : ∀ x ∈ p.inputs, ∃ q ∈ p.quantified, q.node.id = x.node.id
  operators : ∀ a ∈ p.assignments, p.Lists a.operation.operator

/-- Whether moreover inputs depend on inputs and constants only. -/
structure IsClosed (p : Problem) : Prop extends IsSelfContained p where
  dependencies : ∀ d ∈ p.existentials, ∀ m ∈ d.2, p.IsKnownAfter [] m

/-- Whether a script introduces the symbols of a problem before it mentions them, though with arrays
it need not be before. No symbol is introduced twice, and none that is mentioned and no node, table,
array or free symbol is left out. -/
structure IntroducesSymbols (p : Problem) (commands : List Command) : Prop where
  before : ∀ earlier c later, commands = earlier ++ c :: later → ¬c.IsOfArray →
    ∀ x ∈ c.names, Known p.IsSymbol (Script.declared earlier) x
  mentioned : ∀ c ∈ commands, ∀ x ∈ c.names, Known p.IsSymbol (Script.declared commands) x
  once : ∀ s, p.IsSymbol s → (Script.declared commands).count s ≤ 1
  node : ∀ n ∈ p.startingNodes ++ p.assignments.map Assignment.node,
    n.name ∈ Script.declared commands
  table : ∀ t ∈ p.tables, tableName t.id ∈ Script.declared commands
  array : ∀ a ∈ p.arrays, arrayName a.id ∈ Script.declared commands
  freeSymbol : ∀ f ∈ p.freeSymbols, f.name ∈ Script.declared commands

/-- Whether a command sets up an array, or mentions known symbols only. -/
def Admits (p : Problem) (plan : Plan) (known : List String) (c : Command) : Prop :=
  plan.SetsUpArray c ∨ c.Fits (Known p.IsSymbol) known

variable {config : Config} {p : Problem} {plan : Plan} {known : List String} {S : String → Prop}

@[simp] theorem admits_note (text : String) : p.Admits plan known (.note text) :=
  .inr (Command.fits_note text)

/-! ### Nodes that are known -/

namespace HasDistinctSymbols

variable (hsymbols : p.HasDistinctSymbols)

include hsymbols

/-- A node may be mentioned if it is a truth value or has been introduced. -/
theorem known_node {earlier : List Assignment}
    (hknown : ∀ n ∈ p.startingNodes ++ earlier.map Assignment.node, n.name ∈ known) {n : Node}
    (hn : p.IsKnownAfter earlier n) : Known p.IsSymbol known (.node n.id) := by
  rintro _ ⟨⟩ hsymbol
  have hid := hn.resolve_left ((isSymbol_nodeName_iff hsymbols.free (n := n)).mp hsymbol)
  obtain ⟨m, hm, hmn⟩ := List.mem_map.mp hid
  rw [← hmn]
  exact hknown m hm

/-- The term of such a node mentions what has been introduced. -/
theorem over_nodeTerm (hclosed : p.IsClosed) {earlier : List Assignment}
    (hknown : ∀ n ∈ p.startingNodes ++ earlier.map Assignment.node, n.name ∈ known) {n : Node}
    (hn : p.IsKnownAfter earlier n) : (p.skolems.nodeTerm n).Over (Known p.IsSymbol known) := by
  rw [SkolemMap.over_nodeTerm]
  intro m hm
  rcases List.mem_cons.mp hm with rfl | hm
  · exact hsymbols.known_node hknown hn
  · cases hskolem : p.skolems.dependencies? n with
    | none => simp [hskolem] at hm
    | some dependencies =>
      rw [hskolem, Option.getD_some] at hm
      obtain ⟨k, hk, -, -⟩ := exists_of_dependencies? hskolem
      exact hsymbols.known_node hknown (hclosed.dependencies _ hk m hm).mono

end HasDistinctSymbols

/-! ### What is known after each section -/

theorem mem_existentials_of_open (huniversals : p.universals = []) {q : QuantifiedInput}
    (hq : q ∈ p.quantified) : ∃ d ∈ p.existentials, d.1 = q.node := by
  cases q with
  | universal n =>
    have hn : n ∈ p.universals := List.mem_filterMap.mpr ⟨_, hq, rfl⟩
    simp [huniversals] at hn
  | existential n dependencies => exact ⟨_, List.mem_filterMap.mpr ⟨_, hq, rfl⟩, rfl⟩

/-- The inputs and constants are introduced at the start. -/
theorem IsPlan.forall_starting (hplan : p.IsPlan config plan) (huniversals : p.universals = [])
    {constants existentials trackers : List Command}
    (hconstants : commandsOf (Declaration.constant config) p.constants = .ok constants)
    (hexistentials : commandsOf plan.existentialCommands p.existentials = .ok existentials)
    (htrackers : plan.trackerCommands = .ok trackers) :
    ∀ n ∈ p.startingNodes, n.name ∈ Script.declared constants ∨
      n.name ∈ Script.declared existentials ∨ n.name ∈ Script.declared trackers := by
  rw [declared_constants hconstants, declared_existentials hexistentials,
    hplan.declared_trackers htrackers]
  intro n hn
  rcases List.mem_append.mp hn with hn | hn
  · rcases List.mem_append.mp hn with hn | hn
    · obtain ⟨q, hq, rfl⟩ := List.mem_map.mp hn
      obtain ⟨d, hd, hdq⟩ := mem_existentials_of_open huniversals hq
      exact .inr (.inl (List.mem_map.mpr ⟨d, hd, by rw [hdq]⟩))
    · obtain ⟨t, ht, rfl⟩ := List.mem_map.mp hn
      exact .inr (.inr (List.mem_map_of_mem ht))
  · obtain ⟨c, hc, rfl⟩ := List.mem_map.mp hn
    exact .inl (List.mem_map_of_mem hc)

theorem IsPlan.mem_declared_table (hplan : p.IsPlan config plan) {t : Table} (ht : t ∈ p.tables)
    (freeSymbols : List Command) : tableName t.id ∈ Script.declared (plan.middle freeSymbols) := by
  rw [← hplan.tables_eq] at ht
  obtain ⟨s, hs, rfl⟩ := List.mem_map.mp ht
  have hmem : tableName s.table.id ∈
      Script.declared (plan.constantTables.flatMap TableSetup.constantCommands) ∨
      tableName s.table.id ∈ Script.declared (plan.deferredTables.map fun t =>
        TableSetup.deferredDeclaration plan.problem.universals t.table) := by
    cases hconstant : s.isConstant with
    | true =>
      left
      rw [Script.declared_flatMap]
      exact List.mem_flatMap.mpr ⟨s, List.mem_filter.mpr ⟨hs, hconstant⟩, List.mem_cons_self⟩
    | false =>
      right
      rw [Script.declared_map (g := fun t => tableName t.table.id) fun _ _ => rfl]
      exact List.mem_map.mpr ⟨s, List.mem_filter.mpr ⟨hs, by simp [hconstant]⟩, rfl⟩
  rcases hmem with hmem | hmem <;> simp [Plan.middle, hmem]

theorem IsPlan.mem_declared_array (hplan : p.IsPlan config plan) {a : ArrayDatum}
    (ha : a ∈ p.arrays) (freeSymbols : List Command) :
    arrayName a.id ∈ Script.declared (plan.middle freeSymbols) := by
  obtain ⟨s, hs, hofArray⟩ := exists_mem_of_mapM hplan.arrays ha
  have hmem : arrayName a.id ∈ Script.declared (plan.arrays.flatMap ArraySetup.declarations) := by
    rw [Script.declared_flatMap]
    refine List.mem_flatMap.mpr ⟨s, hs, ?_⟩
    by_cases hsources : a.context.sources = []
    · obtain ⟨_, declared, hdeclared, rfl⟩ := ArraySetup.exists_of_free hsources hofArray
      simp [ArraySetup.declares_declaration hdeclared]
    · obtain ⟨_, declared, q, hdeclared, -, rfl⟩ := ArraySetup.exists_of_derived hsources hofArray
      dsimp only
      split <;> simp [ArraySetup.declares_declaration hdeclared]
  simp [Plan.middle, hmem]

theorem mem_declared_freeSymbol {freeSymbols : List Command}
    (h : commandsOf (fun s => Declaration.symbol s.name s.signature "") p.freeSymbols =
      .ok freeSymbols) {f : FreeSymbol} (hf : f ∈ p.freeSymbols) :
    f.name ∈ Script.declared (plan.middle freeSymbols) := by
  have hmem : f.name ∈ Script.declared freeSymbols := by
    rw [declared_freeSymbols h]
    exact List.mem_map_of_mem hf
  simp [Plan.middle, hmem]

theorem mem_declared_reversal {what : Reversible} {name : String} (h : (what, name) ∈ plan.reversals)
    (freeSymbols : List Command) : name ∈ Script.declared (plan.middle freeSymbols) := by
  obtain ⟨i, hi, rfl⟩ := Plan.mem_reversals_iff.mp h
  have hmem : reversalName i ∈ Script.declared plan.reversalCommands := by
    rw [(Plan.declared_reversalCommands plan).mem_iff]
    exact List.mem_map_of_mem (List.mem_range.mpr (List.getElem?_eq_some_iff.mp hi).1)
  simp [Plan.middle, hmem]

theorem HasDistinctSymbols.mem_declared_rational (hsymbols : p.HasDistinctSymbols)
    (hplan : p.IsPlan config plan) {tuples : List Command}
    (htuples : plan.features.tupleCommands = .ok tuples) {f : RationalFunction}
    (hf : p.IsSymbol f.symbol) : f.symbol ∈ Script.declared (plan.opening tuples) := by
  have hrational : plan.features.rationals = true := by
    rw [hplan.rationals_iff]
    generalize hname : f.symbol = text at hf
    cases hf with
    | generated g => exact absurd hname.symm (g.name_ne_rational f)
    | free s hs => exact absurd (.inr (.inr (.inl ⟨f, hname⟩))) (hsymbols.free s hs)
    | rational g h => exact h
  rw [← List.count_pos_iff, hsymbols.separates.count_declared_opening hplan htuples hf,
    if_pos hrational, List.count_pos_iff]
  exact List.mem_map_of_mem f.mem_all

/-- Without universal nodes a table takes its index only. -/
theorem IsPlan.head_of_open (hplan : p.IsPlan config plan) (huniversals : p.universals = [])
    (id : Int) : plan.scope.tables.head id = ⟨tableName id, []⟩ := by
  refine TableMap.head_eq (List.forall_mem_append.mpr ⟨?_, ?_⟩) id
  · exact List.forall_mem_map.mpr fun _ _ => rfl
  · simp [hplan.ofProblem, huniversals]

/-! ### Sections -/

theorem isOfArray_setup (id : Int) (count : Nat) :
    ∀ c ∈ Initializer.setup (arrayName id) count, c.IsOfArray :=
  Initializer.forall_mem_setup (fun _ _ _ => .inl ⟨id, .initializer, rfl⟩) (.inr ⟨id, rfl⟩)

theorem isOfArray_of_ofArray {constants : Constants} {skolems : SkolemMap} {isQuantified : Bool}
    {a : ArrayDatum} {s : ArraySetup}
    (h : ArraySetup.ofArray config isQuantified constants skolems a = .ok s) :
    ∀ c ∈ s.declarations ++ s.deferred ++ s.setup, c.IsOfArray := by
  have hdeclaration : ∀ {term : Node → Except Failure Term} {c : Command},
      ArraySetup.declaration config constants term a = .ok c → c.IsOfArray := by
    intro term c hc
    refine .inl ⟨a.id, .itself, ?_⟩
    rw [ArraySetup.declares_declaration hc, arrayName_eq]
  have hpart : ∀ q, (Initializer.part (arrayName a.id) 0 q).IsOfArray := fun q =>
    .inl ⟨a.id, .numbered 0, congrArg (fun s => [s]) (Initializer.partName_eq (.array a.id) 0)⟩
  exact ArraySetup.forall_mem_ofArray h rfl (fun _ => hdeclaration) (fun q _ => hpart q)
    (isOfArray_setup a.id)

theorem forall_names_part {V : Name → Prop} (hV : Vocabulary V) (entity : String) (i : Nat)
    {equation : Term} (hequation : equation.Over V) :
    ∀ x ∈ (Initializer.part entity i equation).names, V x :=
  List.forall_mem_append.mpr ⟨Kind.over_sort hV Kind.over_bool, hequation⟩

/-- The assertion of all initializers mentions them. -/
theorem forall_names_setup {V : Name → Prop} (hV : Vocabulary V) {entity : String} {count : Nat}
    (hname : V (.function (Initializer.name entity)))
    (hparts : ∀ i < count, V (.function (Initializer.partName entity i))) :
    ∀ c ∈ Initializer.setup entity count, ∀ x ∈ c.names, V x := by
  have hwhole : ∀ {value : Term} {remark : String}, value.Over V → ∀ x ∈ (Command.defineFun
      (Initializer.name entity) Kind.bool.sort value remark).names, V x := fun hvalue =>
    List.forall_mem_append.mpr ⟨Kind.over_sort hV Kind.over_bool, hvalue⟩
  have hrequired : ∀ x ∈ (Command.assert (.symbol (Initializer.name entity))).names, V x :=
    Term.over_symbol.mpr hname
  have hpart : ∀ i < count, (Term.symbol (Initializer.partName entity i)).Over V :=
    fun i hi => Term.over_symbol.mpr (hparts i hi)
  unfold Initializer.setup
  dsimp only
  split
  · exact List.forall_mem_singleton.mpr (hwhole (hV.over_ofBool true))
  · exact List.forall_mem_cons.mpr ⟨hwhole (hpart 0 (by omega)),
      List.forall_mem_singleton.mpr hrequired⟩
  · refine List.forall_mem_cons.mpr ⟨hwhole (Term.over_apply.mpr ⟨by simp [hV.function], ?_⟩),
      List.forall_mem_singleton.mpr hrequired⟩
    exact List.forall_mem_map.mpr fun i hi => hpart i (List.mem_range.mp hi)

/-- The commands of an array mention its symbols, the arrays that it is made from, and the nodes that
decide how. -/
theorem forall_names_of_ofArray {V : Name → Prop} (hV : Vocabulary V) {constants : Constants}
    {skolems : SkolemMap} {a : ArrayDatum} {s : ArraySetup}
    (h : ArraySetup.ofArray config false constants skolems a = .ok s) (hdomain : a.domain.Over V)
    (hrange : a.range.Over V) (hvalues : ∀ c ∈ constants, c.value.Over V)
    (hsymbols : ∀ g ∈ a.symbols, V (.function g.name))
    (hsources : ∀ id ∈ a.context.sources, V (.function (arrayName id)))
    (hnodes : ∀ n ∈ ArraySetup.dependencies a.context, (skolems.nodeTerm n).Over V) :
    ∀ c ∈ s.declarations ++ s.deferred ++ s.setup, ∀ x ∈ c.names, V x := by
  have hname : V (.function (Initializer.name (arrayName a.id))) :=
    hsymbols (.entity (.array a.id) .initializer) (by simp [ArrayDatum.symbols])
  have hinitial : ∀ n ∈ a.context.initialNodes constants, (skolems.nodeTerm n).Over V := by
    intro n hn
    refine hnodes n ?_
    cases hcontext : a.context <;> simp_all [ArrayContext.initialNodes, ArraySetup.dependencies]
  have hdeclaration : ∀ {isTopLevel : Bool} {c : Command}, ArraySetup.declaration config constants
      (ArraySetup.nodeTerm isTopLevel constants skolems) a = .ok c → ∀ x ∈ c.names, V x :=
    fun hc => (ArraySetup.names_declaration_iff hV hdomain hrange hvalues hc).mpr hinitial
  -- Only an array that is made from others has an equation, whose names are those of its sources.
  by_cases hmade : a.context.sources = []
  · obtain ⟨_, declared, hdeclared, rfl⟩ := ArraySetup.exists_of_free hmade h
    exact List.forall_mem_cons.mpr ⟨hdeclaration hdeclared,
      forall_names_setup hV hname fun i hi => absurd hi (Nat.not_lt_zero i)⟩
  · obtain ⟨_, declared, q, hdeclared, hq, rfl⟩ := ArraySetup.exists_of_derived hmade h
    have hdeclared := hdeclaration hdeclared
    have hitself : V (.function (arrayName a.id)) := by
      rw [arrayName_eq]
      exact hsymbols _ List.mem_cons_self
    have hpart := forall_names_part hV (arrayName a.id) 0 ((ArraySetup.over_equation?_iff hV hq).mpr
      ⟨List.forall_mem_cons.mpr ⟨hitself, hsources⟩, hnodes⟩)
    have hsetup : ∀ c ∈ Initializer.setup (arrayName a.id) 1, ∀ x ∈ c.names, V x := by
      refine forall_names_setup hV hname fun i hi => ?_
      obtain rfl : i = 0 := by omega
      rw [show Initializer.partName (arrayName a.id) 0 = _ from
        Initializer.partName_eq (.array a.id) 0]
      exact hsymbols _ (by simp [ArrayDatum.symbols, hmade])
    have hall := List.forall_mem_cons.mpr ⟨hdeclared, List.forall_mem_cons.mpr ⟨hpart, hsetup⟩⟩
    dsimp only
    split <;> exact hall

theorem IsPlan.isOfArray (hplan : p.IsPlan config plan) {c : Command}
    (hc : plan.SetsUpArray c) : c.IsOfArray := by
  obtain ⟨s, hs, hc⟩ := hc
  obtain ⟨a, -, h⟩ := exists_of_mem_mapM hplan.arrays hs
  exact isOfArray_of_ofArray h c hc

theorem along_setsUpArray {f : ArraySetup → List Command}
    (hf : ∀ s, ∀ c ∈ f s, c ∈ s.declarations ++ s.deferred ++ s.setup) :
    Script.Along (p.Admits plan) known (plan.arrays.flatMap f) := by
  refine Script.along_of_forall (List.forall_mem_flatMap.mpr fun s hs c hc _ _ => ?_)
  exact .inl ⟨s, hs, hf s c hc⟩

/-- The names that an operator stands for have been introduced before the definitions. -/
theorem IsPlan.known_operatorNames (hplan : p.IsPlan config plan) (hclosed : p.IsClosed)
    (huniversals : p.universals = []) {freeSymbols : List Command}
    (hfreeSymbols : commandsOf (fun s => Declaration.symbol s.name s.signature "") p.freeSymbols =
      .ok freeSymbols)
    (hknown : Script.declared (plan.middle freeSymbols) ⊆ known) {a : Assignment}
    (ha : a ∈ p.assignments) :
    ∀ x ∈ plan.scope.operatorNames a.operation.operator, Known p.IsSymbol known x := by
  have hfunction : ∀ {text : String}, text ∈ Script.declared (plan.middle freeSymbols) →
      Known p.IsSymbol known (.function text) := fun htext => known_function fun _ => hknown htext
  have harray : ∀ {id : Int}, (∃ d ∈ p.arrays, d.id = id) →
      Known p.IsSymbol known (.function (arrayName id)) := by
    rintro _ ⟨d, hd, rfl⟩
    exact hfunction (hplan.mem_declared_array hd freeSymbols)
  have hkind : ∀ k : Kind, ∀ x ∈ k.names, Known p.IsSymbol known x := fun k => over_kind k
  have hlisted := hclosed.operators a ha
  generalize a.operation.operator = op at hlisted
  -- These operators refer to what a problem declares or to kinds; the others are built in.
  cases op with
  | lookup l =>
    obtain ⟨t, ht, hid⟩ := hlisted
    have htable : Known p.IsSymbol known (.function (tableName l.table)) := by
      rw [← hid]
      exact hfunction (hplan.mem_declared_table ht freeSymbols)
    simpa [Scope.operatorNames, hplan.head_of_open huniversals] using htable
  | arrayEqual a b =>
    simpa [Scope.operatorNames] using ⟨harray hlisted.1, harray hlisted.2⟩
  | arrayRead a => simpa [Scope.operatorNames] using harray hlisted
  | uninterpreted name =>
    obtain ⟨f, hf, rfl⟩ := hlisted
    simpa [Scope.operatorNames] using hfunction (mem_declared_freeSymbol hfreeSymbols hf)
  | reverse what =>
    simp only [Scope.operatorNames, List.forall_mem_map, Option.mem_toList]
    intro name hname
    obtain ⟨k, hmem, -⟩ := exists_of_latest? hname
    obtain ⟨⟨what', name'⟩, hmem, heq⟩ := List.mem_map.mp hmem
    cases heq
    exact hfunction (mem_declared_reversal hmem freeSymbols)
  | eitherConstructor l r | eitherIs l r =>
    exact List.forall_mem_append.mpr ⟨hkind l, hkind r⟩
  | maybeConstructor k | maybeIs k => exact hkind k
  | _ => simp [Scope.operatorNames]

theorem Separates.fits_opening (hS : p.Separates S) (hplan : p.IsPlan config plan)
    {tuples : List Command} (htuples : plan.features.tupleCommands = .ok tuples) :
    ∀ c ∈ plan.opening tuples, c.Fits (Known S) known := by
  obtain ⟨query, hlogic⟩ := hplan.logic
  rw [← hplan.ofConfig] at hlogic
  have hsorts : ∀ s ∈ plan.features.userSorts, Known S known (.sort s.name) ∧
      ∀ cs ∈ s.constructors, ∀ c ∈ cs, Known S known (.function c) := by
    intro s hs
    refine ⟨known_sort s.name, fun cs hcs c hc => known_function fun hsymbol => ?_⟩
    refine absurd hsymbol (hS.constructor c (List.mem_append_left _ ?_))
    rw [hplan.features] at hs
    exact List.mem_flatMap.mpr ⟨s, hs, by simpa [Option.mem_def.mp hcs] using hc⟩
  simp only [Plan.opening, List.forall_mem_append, List.forall_mem_cons, Command.fits_note,
    true_and]
  exact ⟨⟨⟨⟨fun c hc => (Plan.isBare_headCommands hlogic c hc).fits,
    Features.fits_sortCommands hS.scoping hsorts⟩,
    Features.fits_tupleCommands hS.scoping htuples⟩,
    Features.fits_datatypeCommands hS.scoping _⟩, by simp⟩

theorem along_arrayCommands : Script.Along (p.Admits plan) known plan.arrayCommands := by
  simp only [Plan.arrayCommands, Script.along_append, Script.along_cons, admits_note, true_and,
    and_assoc]
  exact ⟨along_setsUpArray (by simp +contextual), along_setsUpArray (by simp +contextual), trivial⟩

namespace HasDistinctSymbols

variable (hsymbols : p.HasDistinctSymbols) (hplan : p.IsPlan config plan)

include hsymbols hplan

theorem along_declarations {tuples constants existentials trackers : List Command}
    (htuples : plan.features.tupleCommands = .ok tuples)
    (hconstants : commandsOf (Declaration.constant config) p.constants = .ok constants)
    (hexistentials : commandsOf plan.existentialCommands p.existentials = .ok existentials)
    (htrackers : plan.trackerCommands = .ok trackers) :
    Script.Along (Command.Fits (Known p.IsSymbol)) known (plan.opening tuples ++ constants ++
      .note "--- skolem constants ---" :: existentials ++ trackers) := by
  have hW := hsymbols.separates.scoping
  have hsymbol : ∀ {n : Node} {known : List String},
      Known p.IsSymbol (known ++ [n.name]) (.function n.name) := known_function fun _ => by simp
  obtain ⟨declarations, hdeclarations, htrackers⟩ := bind_eq_ok_iff.mp htrackers
  cases htrackers
  simp only [Script.along_append, Script.along_cons, Command.fits_note, true_and]
  refine ⟨⟨⟨hW.along_of_fits (hsymbols.separates.fits_opening hplan htuples), ?_⟩, ?_⟩, ?_, ?_⟩
  · refine along_commandsOf hconstants fun c hc ds hds known' _ => ?_
    exact Declaration.along_constant hW hds (over_kind _) (hsymbols.separates.over_constantValue hc)
  · refine along_commandsOf hexistentials fun d _ ds hds known' _ => ?_
    exact Declaration.along_symbol hW hds (fun k _ => over_kind k) hsymbol
  · split <;> simp
  · refine along_commandsOf hdeclarations fun t _ ds hds known' _ => ?_
    exact Declaration.along_symbol hW hds (fun k _ => over_kind k) hsymbol

theorem along_constantTables (hclosed : p.IsClosed)
    (hknown : ∀ n ∈ p.startingNodes, n.name ∈ known) :
    Script.Along (Command.Fits (Known p.IsSymbol)) known
      (plan.constantTables.flatMap TableSetup.constantCommands) := by
  rw [along_flatMap]
  intro earlier s later hsplit
  have hs : s ∈ plan.constantTables := by simp [hsplit]
  obtain ⟨hs, hconstant⟩ := List.mem_filter.mp hs
  obtain ⟨table, -, h⟩ := exists_of_mem_mapM hplan.tables hs
  refine TableSetup.along_constantCommands hsymbols.separates.scoping h hconstant (over_kind _)
    (over_kind _) fun n hn => @over_nodeTerm p _ hsymbols hclosed [] (fun m hm => ?_) n ?_
  · exact List.mem_append_left _ (hknown m (by simpa using hm))
  · exact isKnownAfter_of_fixes ((TableSetup.isConstant_iff h).mp hconstant n hn)

/-- The commands of arrays are left aside. -/
theorem along_middle (hclosed : p.IsClosed) (huniversals : p.universals = [])
    (hknown : ∀ n ∈ p.startingNodes, n.name ∈ known) {freeSymbols : List Command}
    (hfreeSymbols : commandsOf (fun s => Declaration.symbol s.name s.signature "") p.freeSymbols =
      .ok freeSymbols) :
    Script.Along (p.Admits plan) known
      (plan.middle freeSymbols) := by
  have hW := hsymbols.separates.scoping
  have hfits : ∀ {known : List String} {cs : List Command},
      Script.Along (Command.Fits (Known p.IsSymbol)) known cs →
        Script.Along (p.Admits plan) known cs :=
    fun h => h.imp fun _ _ _ => .inr
  have hdeferred : ∀ c ∈ plan.deferredTables.map fun t =>
      TableSetup.deferredDeclaration plan.problem.universals t.table, ∀ known,
        c.Fits (Known p.IsSymbol) known := by
    rw [hplan.ofProblem, huniversals]
    exact List.forall_mem_map.mpr fun t _ known =>
      TableSetup.fits_deferredDeclaration hW (by simp) (over_kind _) (over_kind _)
  simp only [Plan.middle, Script.along_append, Script.along_cons, admits_note, true_and,
    and_assoc]
  refine ⟨hfits (hsymbols.along_constantTables hplan hclosed fun n hn => ?_),
    Script.along_of_forall fun c hc known _ => .inr (hdeferred c hc known),
    along_setsUpArray (by simp +contextual), hfits ?_,
    hfits (hW.along_of_fits (Plan.fits_reversalCommands hW fun _ _ => over_kind _)),
    Script.along_of_forall (List.forall_mem_map.mpr fun q _ _ _ => .inr (Command.fits_postulate q)),
    trivial⟩
  · exact List.mem_append_left _ (hknown n hn)
  · refine along_commandsOf hfreeSymbols fun f _ ds hds known' _ => ?_
    exact Declaration.along_symbol hW hds (fun k _ => over_kind k) (known_function fun _ => by simp)

theorem along_definitions (hclosed : p.IsClosed) (huniversals : p.universals = [])
    {tuples freeSymbols definitions : List Command}
    (htuples : plan.features.tupleCommands = .ok tuples)
    (hfreeSymbols : commandsOf (fun s => Declaration.symbol s.name s.signature "") p.freeSymbols =
      .ok freeSymbols)
    (hdefinitions : commandsOf plan.scope.definitionCommands p.assignments = .ok definitions)
    (hstarting : ∀ n ∈ p.startingNodes, n.name ∈ known)
    (hopening : Script.declared (plan.opening tuples) ⊆ known)
    (hmiddle : Script.declared (plan.middle freeSymbols) ⊆ known) :
    Script.Along (Command.Fits (Known p.IsSymbol)) known definitions := by
  have hordered := ordered_of_checkReferences hplan.references
  refine (along_commandsOf_iff (fun a _ ds hds => Scope.declared_definitionCommands hds)
    hdefinitions).mpr fun earlier a later hsplit ds hds => ?_
  have ha : a ∈ p.assignments := by simp [hsplit]
  refine Scope.along_definitionCommands hsymbols.separates.scoping hds (over_kind _) ?_
  -- The operation refers to inputs, constants and earlier assignments.
  have hknown : ∀ n ∈ p.startingNodes ++ earlier.map Assignment.node,
      n.name ∈ known ++ earlier.flatMap fun a => [a.node.name] := by
    intro n hn
    rcases List.mem_append.mp hn with hn | hn
    · exact List.mem_append_left _ (hstarting n hn)
    · obtain ⟨b, hb, rfl⟩ := List.mem_map.mp hn
      exact List.mem_append_right _ (List.mem_flatMap.mpr ⟨b, hb, by simp⟩)
  refine Scope.resultOver_term (hsymbols.separates.scoping.vocabulary _) (fun n hn => ?_)
    (fun n _ => over_kind _) ?_ fun _ f => known_function fun hf => ?_
  · rw [Scope.nodeTerm, show plan.scope.skolems = p.skolems from hplan.skolems]
    exact hsymbols.over_nodeTerm hclosed hknown
      (isKnownAfter_of_initiallyKnown hclosed.inputs (hordered.reference earlier a later hsplit n hn))
  · exact hplan.known_operatorNames hclosed huniversals hfreeSymbols
      (fun s hs => List.mem_append_left _ (hmiddle hs)) ha
  · exact List.mem_append_left _ (hopening (hsymbols.mem_declared_rational hplan htuples hf))

/-- The last section mentions tables and any nodes. -/
theorem fits_conclusion (hclosed : p.IsClosed) (huniversals : p.universals = [])
    (hknown : ∀ n ∈ p.startingNodes ++ p.assignments.map Assignment.node, n.name ∈ known)
    (htables : ∀ t ∈ p.tables, tableName t.id ∈ known) :
    ∀ c ∈ plan.openCommands (FinalFormula.commands p.skolems
      (FinalFormula.ofProblem p.constraints p.goal p.satisfiability)),
      c.Fits (Known p.IsSymbol) known := by
  have hV := hsymbols.separates.scoping.vocabulary known
  have hrefers := refersToKnown_of_checkReferences hplan.references
  have hnode : ∀ n : Node, n.id ∈ p.initiallyKnown ++ p.assignments.map (·.node.id) →
      (p.skolems.nodeTerm n).Over (Known p.IsSymbol known) := fun n hn =>
    hsymbols.over_nodeTerm hclosed hknown
      (isKnownAfter_of_initiallyKnown hclosed.inputs (List.mem_append.mp hn))
  have hequations : ∀ q ∈ plan.equations, q.Over (Known p.IsSymbol known) := by
    refine List.forall_mem_flatMap.mpr fun s hs => ?_
    obtain ⟨table, htable, h⟩ := exists_of_mem_mapM hplan.tables (List.mem_filter.mp hs).1
    exact TableSetup.over_equations hV h (known_function fun _ => htables table htable)
      (by simp [huniversals]) fun n hn => hnode n (hrefers.element table htable n hn)
  have hliterals : ∀ f ∈ FinalFormula.ofProblem p.constraints p.goal p.satisfiability,
      (p.skolems.nodeTerm f.literal.node).Over (Known p.IsSymbol known) := by
    intro f hf
    -- A final formula is about a constraint, about the goal, or a constant.
    rcases FinalFormula.node_of_mem_ofProblem hf with ⟨c, hc, -, hn⟩ | hn | hn
    · refine hnode _ (hrefers.formula _ ?_)
      rw [hn]
      exact List.mem_append_left _ (List.mem_map_of_mem hc)
    · refine hnode _ (hrefers.formula _ ?_)
      rw [hn]
      exact List.mem_append_right _ (List.mem_singleton_self _)
    · refine hsymbols.over_nodeTerm hclosed hknown (.inl ?_)
      rw [hn]
      exact Node.isReserved_ofBool false
  unfold Plan.openCommands
  simp only [List.forall_mem_append, List.forall_mem_cons, List.forall_mem_map, Command.fits_note,
    Command.fits_assert, true_and, and_assoc]
  exact ⟨by simp, hequations, by simp,
    FinalFormula.fits_commands hV hliterals fun _ _ _ _ => known_keyword _⟩

end HasDistinctSymbols

/-! ### Whole scripts -/

/-- Along a script every command but those of arrays mentions what is known only. -/
theorem HasDistinctSymbols.along_commands (hsymbols : p.HasDistinctSymbols)
    (hplan : p.IsPlan config plan) (hclosed : p.IsClosed) (huniversals : p.universals = [])
    {commands : List Command} (h : plan.commands = .ok commands) :
    Script.Along (p.Admits plan) [] commands := by
  obtain ⟨tuples, constants, existentials, trackers, freeSymbols, definitions, conclusion, htuples,
    hconstants, hexistentials, htrackers, hfreeSymbols, hdefinitions, hconclusion, rfl⟩ :=
    Plan.exists_sections_of_commands h
  rw [hplan.ofProblem] at hconstants hexistentials hfreeSymbols
  rw [hplan.ofConfig] at hconstants
  rw [hplan.early_of_open huniversals] at hdefinitions
  rw [hplan.conclusionCommands_of_open huniversals] at hconclusion
  obtain rfl := Except.ok.inj hconclusion
  have hfits : ∀ {known : List String} {cs : List Command},
      Script.Along (Command.Fits (Known p.IsSymbol)) known cs →
        Script.Along (p.Admits plan) known cs :=
    fun h => h.imp fun _ _ _ => .inr
  set start := plan.opening tuples ++ constants ++ .note "--- skolem constants ---" ::
    existentials ++ trackers with hstart
  have hstarting : ∀ n ∈ p.startingNodes, n.name ∈ Script.declared start := by
    intro n hn
    rcases hplan.forall_starting huniversals hconstants hexistentials htrackers n hn with h | h | h
    all_goals simp [hstart, h]
  have hopening : Script.declared (plan.opening tuples) ⊆ Script.declared start := by
    simp [hstart, List.append_assoc]
  -- Section by section: the names of the starting nodes are known behind the first one.
  rw [Script.along_append, Script.along_append, Script.along_append, Script.along_append,
    List.nil_append]
  refine ⟨⟨⟨⟨?_, ?_⟩, ?_⟩, along_arrayCommands⟩, ?_⟩
  · exact hfits (hsymbols.along_declarations hplan htuples hconstants hexistentials htrackers)
  · exact hsymbols.along_middle hplan hclosed huniversals hstarting hfreeSymbols
  · refine hfits (hsymbols.along_definitions hplan hclosed huniversals htuples hfreeSymbols
      hdefinitions (fun n hn => ?_) ?_ ?_)
    · simp [hstarting n hn]
    · exact fun s hs => by simp [hopening hs]
    · exact fun s hs => by simp [hs]
  · refine hfits (hsymbols.separates.scoping.along_of_fits
      (hsymbols.fits_conclusion hplan hclosed huniversals (fun n hn => ?_) fun t ht => ?_))
    · rcases List.mem_append.mp hn with hn | hn
      · simp [hstarting n hn]
      · obtain ⟨a, ha, rfl⟩ := List.mem_map.mp hn
        have hname : a.node.name ∈ Script.declared definitions := by
          rw [declared_definitions hdefinitions]
          exact List.mem_map_of_mem ha
        simp [hname]
    · simp [hplan.mem_declared_table ht freeSymbols]

namespace IsPlan

variable (hplan : p.IsPlan config plan) (huniversals : p.universals = []) {commands : List Command}
  (h : plan.commands = .ok commands)

include hplan huniversals h

theorem name_mem_declared {n : Node}
    (hn : n ∈ p.startingNodes ++ p.assignments.map Assignment.node) :
    n.name ∈ Script.declared commands := by
  refine hplan.mem_declared_of_symbol huniversals h (g := .node n.id) ?_
  rw [Plan.symbols, hplan.ofProblem]
  simp only [List.mem_append]
  exact .inl (.inl (.inl (List.mem_map_of_mem (f := fun n : Node => GeneratedSymbol.node n.id) hn)))

theorem tableName_mem_declared {t : Table} (ht : t ∈ p.tables) :
    tableName t.id ∈ Script.declared commands := by
  rw [← hplan.tables_eq] at ht
  obtain ⟨s, hs, rfl⟩ := List.mem_map.mp ht
  rw [tableName_eq]
  refine hplan.mem_declared_of_symbol huniversals h ?_
  have hmem : GeneratedSymbol.entity (.table s.table.id) .itself ∈
      plan.tables.flatMap TableSetup.symbols :=
    List.mem_flatMap.mpr ⟨s, hs, List.mem_cons_self⟩
  simp [Plan.symbols, hmem]

theorem arraySymbol_mem_declared {a : ArrayDatum} (ha : a ∈ p.arrays) {g : GeneratedSymbol}
    (hg : g ∈ a.symbols) : g.name ∈ Script.declared commands := by
  refine hplan.mem_declared_of_symbol huniversals h ?_
  have hmem : g ∈ p.arrays.flatMap ArrayDatum.symbols := List.mem_flatMap.mpr ⟨a, ha, hg⟩
  simp [Plan.symbols, hplan.ofProblem, hmem]

theorem arrayName_mem_declared {a : ArrayDatum} (ha : a ∈ p.arrays) :
    arrayName a.id ∈ Script.declared commands := by
  rw [arrayName_eq]
  exact hplan.arraySymbol_mem_declared huniversals h ha List.mem_cons_self

end IsPlan

/-- What a script mentions anywhere is known at its end. -/
theorem HasDistinctSymbols.known_names (hsymbols : p.HasDistinctSymbols)
    (hplan : p.IsPlan config plan) (hclosed : p.IsClosed) (huniversals : p.universals = [])
    {commands : List Command} (h : plan.commands = .ok commands) :
    ∀ c ∈ commands, ∀ x ∈ c.names, Known p.IsSymbol (Script.declared commands) x := by
  have hW := hsymbols.separates.scoping
  have hrefers := refersToKnown_of_checkReferences hplan.references
  have halong := hsymbols.along_commands hplan hclosed huniversals h
  rw [Script.along_iff] at halong
  intro c hc
  obtain ⟨earlier, later, hsplit⟩ := List.append_of_mem hc
  -- A command about an array may name one that comes later; the others name what is known already.
  rcases halong earlier c later hsplit with ⟨s, hs, hcs⟩ | hfits
  · obtain ⟨a, ha, hofArray⟩ := exists_of_mem_mapM hplan.arrays hs
    rw [huniversals] at hofArray
    refine forall_names_of_ofArray (hW.vocabulary _) hofArray (over_kind _) (over_kind _)
      (fun c hc => hsymbols.separates.over_constantValue hc) (fun g hg => ?_) (fun id hid => ?_)
      (fun n hn => ?_) c hcs
    · exact known_function fun _ => hplan.arraySymbol_mem_declared huniversals h ha hg
    · obtain ⟨b, hb, rfl⟩ := List.mem_map.mp (hrefers.source a ha id hid)
      exact known_function fun _ => hplan.arrayName_mem_declared huniversals h hb
    · refine hsymbols.over_nodeTerm hclosed (fun m => hplan.name_mem_declared huniversals h)
        (isKnownAfter_of_initiallyKnown hclosed.inputs (List.mem_append.mp ?_))
      exact hrefers.dependency a ha n hn
  · intro x hx
    refine hW.mono ?_ x (hfits.names x hx)
    rw [hsplit, Script.declared_append, List.nil_append]
    exact List.subset_append_left _ _

/-- A script without universal nodes introduces every symbol once, and before it mentions it. -/
theorem introducesSymbols (hsymbols : p.HasDistinctSymbols) (hclosed : p.IsClosed)
    (huniversals : p.universals = []) {script : CompiledScript}
    (hscript : p.compile config = .ok script) : p.IntroducesSymbols script.commands := by
  obtain ⟨plan, hplan, hcommands⟩ := exists_plan_of_compile hscript
  exact {
    before := by
      intro earlier c later hsplit harray
      have halong := hsymbols.along_commands hplan hclosed huniversals hcommands
      have hadmitted := Script.along_iff.mp halong earlier c later hsplit
      exact (hadmitted.resolve_left fun hc => harray (hplan.isOfArray hc)).names
    mentioned := hsymbols.known_names hplan hclosed huniversals hcommands
    once := fun s => hsymbols.count_declared_le_one hplan huniversals hcommands
    node := fun n => hplan.name_mem_declared huniversals hcommands
    table := fun t => hplan.tableName_mem_declared huniversals hcommands
    array := fun a => hplan.arrayName_mem_declared huniversals hcommands
    freeSymbol := fun f => hplan.mem_declared_of_freeSymbol huniversals hcommands }

/-! ### An input that depends on a node -/

/-- The negations of two inputs, the first of which is a function of a node. -/
def dependentInput (dependency : Node) : Problem where
  kinds := [.bool]
  inputs := [⟨⟨0, .bool⟩, "f"⟩, ⟨⟨1, .bool⟩, "x"⟩]
  quantified := [.existential ⟨0, .bool⟩ [dependency], .existential ⟨1, .bool⟩ []]
  assignments :=
    [⟨⟨2, .bool⟩, ⟨.not, [⟨0, .bool⟩]⟩⟩, ⟨⟨3, .bool⟩, ⟨.not, [⟨1, .bool⟩]⟩⟩]
  goal := ⟨2, .bool⟩

theorem hasDistinctSymbols_dependentInput (dependency : Node) :
    (dependentInput dependency).HasDistinctSymbols where
  nodes := by simp [startingNodes, properConstants, dependentInput, QuantifiedInput.node]
  tables := List.nodup_nil
  arrays := List.nodup_nil
  freeSymbols := List.nodup_nil
  free := by simp [dependentInput]
  constructor := by
    have hnone : (dependentInput dependency).constructors = [] := rfl
    simp [hnone]

theorem isSelfContained_dependentInput (dependency : Node) :
    (dependentInput dependency).IsSelfContained where
  inputs := by simp [dependentInput, QuantifiedInput.node]
  operators := by simp [dependentInput, Lists]

/-- Where the input depends on an input, the negations come after what they are about. -/
theorem introducesSymbols_dependentInput :
    ∃ script, (dependentInput ⟨1, .bool⟩).compile {} = .ok script ∧
      (dependentInput ⟨1, .bool⟩).IntroducesSymbols script.commands := by
  obtain ⟨script, hscript⟩ : ∃ script, (dependentInput ⟨1, .bool⟩).compile {} = .ok script :=
    ⟨_, rfl⟩
  have hclosed : (dependentInput ⟨1, .bool⟩).IsClosed :=
    { isSelfContained_dependentInput _ with
      dependencies := by
        simp [dependentInput, existentials, QuantifiedInput.existential?, IsKnownAfter,
          startingNodes, QuantifiedInput.node] }
  exact ⟨script, hscript,
    introducesSymbols (hasDistinctSymbols_dependentInput _) hclosed rfl hscript⟩

/-- An input of an enumerated sort with a single constructor. -/
def enumeratedInput (constructor : String) : Problem where
  kinds := [.userSort ⟨"Color", some [constructor]⟩]
  quantified := [.existential ⟨0, .userSort ⟨"Color", some [constructor]⟩⟩ []]

theorem hasDistinctParts_enumeratedInput (constructor : String) :
    (enumeratedInput constructor).HasDistinctParts where
  nodes := by simp [startingNodes, properConstants, enumeratedInput]
  tables := List.nodup_nil
  arrays := List.nodup_nil
  freeSymbols := List.nodup_nil
  free := by simp [enumeratedInput]

theorem isClosed_enumeratedInput (constructor : String) :
    (enumeratedInput constructor).IsClosed where
  inputs := by simp [enumeratedInput]
  operators := by simp [enumeratedInput]
  dependencies := by simp [enumeratedInput, existentials, QuantifiedInput.existential?]

/-- Where the input depends on the second negation, the first one mentions it too early. And where a
constructor is called like a node, both of them are declared. -/
theorem not_introducesSymbols_dependentInput :
    ((dependentInput ⟨3, .bool⟩).HasDistinctSymbols ∧
      (dependentInput ⟨3, .bool⟩).IsSelfContained ∧ (dependentInput ⟨3, .bool⟩).universals = [] ∧
      ∃ script, (dependentInput ⟨3, .bool⟩).compile {} = .ok script ∧
        ¬(dependentInput ⟨3, .bool⟩).IntroducesSymbols script.commands) ∧
    (enumeratedInput "s0").HasDistinctParts ∧ (enumeratedInput "s0").IsClosed ∧
      (enumeratedInput "s0").universals = [] ∧
      ∃ script, (enumeratedInput "s0").compile {} = .ok script ∧
        ¬(enumeratedInput "s0").IntroducesSymbols script.commands := by
  refine ⟨⟨hasDistinctSymbols_dependentInput _, isSelfContained_dependentInput _, rfl, ?_⟩,
    hasDistinctParts_enumeratedInput _, isClosed_enumeratedInput _, rfl, ?_⟩
  -- The value applies the input to a node that is not declared before it.
  · obtain ⟨script, hscript, hcommands, hdeclared⟩ : ∃ script,
        (dependentInput ⟨3, .bool⟩).compile {} = .ok script ∧
          script.commands = script.commands.take 15 ++
            .defineFun (nodeName 2) Kind.bool.sort
              (.app (.symbol "not") [.app (.node 0) [.node 3]]) "" :: script.commands.drop 16 ∧
          Script.declared (script.commands.take 15) = ["s0", "s1"] :=
      ⟨_, rfl, rfl, rfl⟩
    refine ⟨script, hscript, fun h => ?_⟩
    have harray : ∀ value, ¬(Command.defineFun (nodeName 2) Kind.bool.sort value "").IsOfArray := by
      rintro value (⟨id, part, hname⟩ | ⟨id, h⟩)
      · cases @GeneratedSymbol.name_injective (.node 2) _ (List.singleton_inj.mp hname)
      · cases h
    have hknown := h.before _ _ _ hcommands (harray _) (.node 3) (by simp [Command.names]) "s3" rfl
      (.generated (.node 3) (by simp [GeneratedSymbol.IsReserved]))
    rw [hdeclared] at hknown
    exact absurd hknown (by decide)
  -- A constructor of the user has the name of the input.
  · obtain ⟨script, hscript, hdeclared⟩ : ∃ script,
        (enumeratedInput "s0").compile {} = .ok script ∧
          (Script.declared script.commands).count "s0" = 2 :=
      ⟨_, rfl, by decide +kernel⟩
    refine ⟨script, hscript, fun h => ?_⟩
    have honce := h.once "s0" (.generated (.node 0) (by simp [GeneratedSymbol.IsReserved]))
    omega

end Problem

end SolverScript
