import Mathlib.Data.List.TakeWhile
import SolverScript.Proofs.Problem.Ground
import SolverScript.Proofs.Script.Occurrence
import SolverScript.Proofs.Script.Plan

/-!
# The scope of universal nodes

Universal nodes are bound in the last command of a script and have no meaning before it. An operand
of an assignment at the top level is numbered before all universal nodes, so that it neither is one
nor is written with one, and the equations of tables and arrays at the top level are about
constants. A table that waits for other nodes takes the universal nodes as arguments, though: an
assignment at the top level that looks it up mentions them outside of their binder. This is the only
way in which they get out, but for a free symbol that the user calls like one of them.

## Main definitions

* `Problem.BindsUniversals` - scripts that mention universal nodes only where they are bound
* `Problem.EarlyLookupsAreKnown` - early assignments look up tables of known values only

## Main results

* `Problem.bindsUniversals_iff` - which scripts bind their universal nodes
-/

namespace SolverScript

namespace Problem

/-- Whether a script ends with the one command that binds the universal nodes, and mentions them
nowhere else. -/
def BindsUniversals (p : Problem) (commands : List Command) : Prop :=
  ∃ before block, commands = before ++ [.assertForAll block] ∧ block.universals = p.universals ∧
    ∀ c ∈ before, c.MentionsOnly p.NotUniversal

/-- Whether the assignments before all universal nodes look up only tables whose elements are known
from the start. -/
def EarlyLookupsAreKnown (p : Problem) : Prop :=
  ∀ a ∈ p.assignments, (∀ u ∈ p.universals, a.node.id < u.id) →
    ∀ l, a.operation.operator = .lookup l → ∀ table ∈ p.tables, table.id = l.table →
      ∀ n ∈ table.elements, p.constants.fixes n = true

variable {p : Problem} {config : Config} {plan : Plan}

/-! ### Nodes that are not universal -/

/-- The term of a node mentions no universal node just if the node is ground. -/
theorem within_nodeTerm_iff {n : Node} :
    (p.skolems.nodeTerm n).Within (.ofNodes p.NotUniversal) ↔ p.IsGround n := by
  unfold IsGround SkolemMap.nodeTerm SkolemMap.mentioned
  cases p.skolems.dependencies? n <;> simp [Node.term]

/-- Names tell identities apart. -/
theorem NotUniversal.of_name {n : Node} (hn : p.NotUniversal n.id) :
    ∀ id, n.name = nodeName id → p.NotUniversal id := by
  intro id hid
  rwa [← nodeName_injective hid]

/-! ### What tables take before their index -/

theorem IsPlan.exists_table (hplan : p.IsPlan config plan) {s : TableSetup} (hs : s ∈ plan.tables) :
    s.table ∈ p.tables ∧
      TableSetup.ofTable config p.skolems p.universals p.constants s.table = .ok s := by
  obtain ⟨table, htable, h⟩ := exists_of_mem_mapM hplan.tables hs
  obtain ⟨-, -, rfl, -⟩ := TableSetup.exists_entries h
  exact ⟨htable, h⟩

/-- A table that waits takes the universal nodes. -/
theorem IsPlan.leading_of_deferred (hplan : p.IsPlan config plan) {s : TableSetup}
    (hs : s ∈ plan.deferredTables) :
    (plan.scope.tables.head s.table.id).leading = p.universals := by
  have hentry : (s.table.id, ⟨tableName s.table.id, plan.problem.universals⟩) ∈
      plan.deferredTables.map fun t =>
        (t.table.id, (⟨tableName t.table.id, plan.problem.universals⟩ : TableHead)) :=
    List.mem_map.mpr ⟨s, hs, rfl⟩
  obtain ⟨head, hhead⟩ := exists_latest?_of_mem (· == s.table.id) hentry (beq_self_eq_true _)
  obtain ⟨k, hmem, -⟩ := exists_of_latest? hhead
  obtain ⟨t, -, ht⟩ := List.mem_map.mp hmem
  cases ht
  rw [TableMap.head, Plan.scope, latest?_append, hhead]
  exact congrArg universals hplan.ofProblem

/-- A table that takes any nodes before its index waits. -/
theorem exists_deferred_of_mem_leading {id : Int} {n : Node}
    (hn : n ∈ (plan.scope.tables.head id).leading) :
    ∃ s ∈ plan.deferredTables, s.table.id = id := by
  unfold TableMap.head at hn
  cases hhead : latest? (· == id) plan.scope.tables with
  | none => simp [hhead] at hn
  | some head =>
    obtain ⟨k, hmem, hkey⟩ := exists_of_latest? hhead
    rw [hhead, Option.getD_some] at hn
    rcases List.mem_append.mp hmem with hmem | hmem
    · obtain ⟨s, -, hs⟩ := List.mem_map.mp hmem
      cases hs
      cases hn
    · obtain ⟨s, hs, hsk⟩ := List.mem_map.mp hmem
      cases hsk
      exact ⟨s, hs, beq_iff_eq.mp hkey⟩

/-- Early look-ups of known values do not mention universal nodes. -/
theorem EarlyLookupsAreKnown.notUniversal_of_mem_leading (hknown : p.EarlyLookupsAreKnown)
    (hplan : p.IsPlan config plan) {a : Assignment} (ha : a ∈ p.assignments)
    (hearly : ∀ u ∈ p.universals, a.node.id < u.id) {l : Lookup}
    (hl : a.operation.operator = .lookup l) {n : Node}
    (hn : n ∈ (plan.scope.tables.head l.table).leading) : p.NotUniversal n.id := by
  obtain ⟨s, hs, hid⟩ := exists_deferred_of_mem_leading hn
  obtain ⟨hs, hdeferred⟩ := List.mem_filter.mp hs
  obtain ⟨htable, h⟩ := hplan.exists_table hs
  have hconstant := (TableSetup.isConstant_iff h).mpr (hknown a ha hearly l hl s.table htable hid)
  simp [hconstant] at hdeferred

/-! ### Assignments at the top level -/

private theorem mem_takeWhile_of_pairwise {β : Type} {q : β → Bool} {bs : List β}
    (h : bs.Pairwise fun a b => q b = true → q a = true) {b : β} (hb : b ∈ bs) (hq : q b = true) :
    b ∈ bs.takeWhile q := by
  induction bs with
  | nil => cases hb
  | cons c bs ih =>
    obtain ⟨hc, hbs⟩ := List.pairwise_cons.mp h
    rcases List.mem_cons.mp hb with rfl | hb
    · simp [hq]
    · rw [List.takeWhile_cons_of_pos (hc b hb hq)]
      exact List.mem_cons_of_mem c (ih hbs hb)

/-- The assignments at the top level are those before all universal nodes. -/
theorem IsPlan.mem_early_iff (hplan : p.IsPlan config plan) {a : Assignment} :
    a ∈ plan.early ↔ a ∈ p.assignments ∧ ∀ u ∈ p.universals, a.node.id < u.id := by
  rw [hplan.early, ← isEarly_iff]
  constructor
  · intro ha
    exact ⟨List.takeWhile_subset _ ha, List.mem_takeWhile_imp ha⟩
  · rintro ⟨ha, hearly⟩
    -- The assignments are in order, so none before an early one is late.
    have hincreasing := (ordered_of_checkReferences hplan.references).increasing
    refine mem_takeWhile_of_pairwise (hincreasing.imp fun hlt hlater => ?_) ha hearly
    rw [isEarly_iff] at hlater ⊢
    exact fun u hu => Int.lt_trans hlt (hlater u hu)

theorem HasDistinctNodes.mentionsOnly_definition (hp : p.HasDistinctNodes)
    (horder : p.InCreationOrder) (hknown : p.EarlyLookupsAreKnown) (hplan : p.IsPlan config plan)
    {a : Assignment} (ha : a ∈ plan.early) {cs : List Command}
    (h : plan.scope.definitionCommands a = .ok cs) : ∀ c ∈ cs, c.MentionsOnly p.NotUniversal := by
  obtain ⟨ha, hearly⟩ := hplan.mem_early_iff.mp ha
  simp only [Command.mentionsOnly_iff_within]
  refine Scope.within_definitionCommands h (Occurrences.allowsTestsFor_ofNodes _ _)
    (hp.notUniversal_of_assignment ha) (fun n hn => ?_) fun l hl n hn => ?_
  · rw [Scope.nodeTerm, show plan.scope.skolems = p.skolems from hplan.skolems]
    exact within_nodeTerm_iff.mpr (horder.isGround_of_reference ha hearly hn)
  · exact hknown.notUniversal_of_mem_leading hplan ha hearly hl hn

/-- An assignment at the top level that mentions no universal node looks up no table that waits. -/
theorem fixes_of_mentionsOnly_definition (hplan : p.IsPlan config plan) {u : Node}
    (hu : u ∈ p.universals) {a : Assignment} {cs : List Command}
    (h : plan.scope.definitionCommands a = .ok cs)
    (hcs : ∀ c ∈ cs, c.MentionsOnly p.NotUniversal) {l : Lookup}
    (hl : a.operation.operator = .lookup l) {table : Table} (htable : table ∈ p.tables)
    (hid : table.id = l.table) : ∀ n ∈ table.elements, p.constants.fixes n = true := by
  obtain ⟨s, hs, hofTable⟩ := exists_mem_of_mapM hplan.tables htable
  rw [← TableSetup.isConstant_iff hofTable]
  by_contra hwaits
  obtain ⟨-, -, rfl, -⟩ := TableSetup.exists_entries hofTable
  -- Otherwise the table waits, and the look-up applies it to the universal node.
  have hdeferred : s ∈ plan.deferredTables := List.mem_filter.mpr ⟨hs, by simpa using hwaits⟩
  obtain ⟨⟨value, label?⟩, hvalue, h⟩ := bind_eq_ok_iff.mp h
  cases h
  have hlookup : plan.scope.lookup l a.operation = .ok value := by
    rw [← Scope.term_of_definition hvalue, Scope.term, hl]
  simp only [Command.mentionsOnly_iff_within] at hcs
  have hleading := Scope.of_within_lookup hlookup (Declaration.of_within_defined hcs)
  rw [← hid, hplan.leading_of_deferred hdeferred] at hleading
  exact hleading u hu u hu rfl

/-! ### The commands before the binder -/

namespace HasDistinctNodes

variable (hp : p.HasDistinctNodes)

include hp

theorem mentionsOnly_constants {cs : List Command}
    (h : commandsOf (Declaration.constant config) p.constants = .ok cs) :
    ∀ c ∈ cs, c.MentionsOnly p.NotUniversal := by
  intro c hc
  obtain ⟨constant, hconstant, ds, hds, hc⟩ := exists_of_mem_commandsOf h hc
  exact Command.mentionsOnly_iff_within.mpr
    (Declaration.within_constant hds (hp.notUniversal_of_constant hconstant) c hc)

theorem mentionsOnly_existentials {cs : List Command}
    (h : commandsOf plan.existentialCommands p.existentials = .ok cs) :
    ∀ c ∈ cs, c.MentionsOnly p.NotUniversal := by
  intro c hc
  obtain ⟨d, hd, ds, hds, hc⟩ := exists_of_mem_commandsOf h hc
  have hfree : d ∈ p.freeInputs := List.mem_append_left _ (List.mem_append_left _ hd)
  exact Declaration.mentionsOnly_symbol hds (hp.notUniversal_of_free hfree).of_name c hc

theorem mentionsOnly_trackers (hplan : p.IsPlan config plan) {cs : List Command}
    (h : plan.trackerCommands = .ok cs) : ∀ c ∈ cs, c.MentionsOnly p.NotUniversal := by
  obtain ⟨declarations, hdeclarations, h⟩ := bind_eq_ok_iff.mp h
  cases h
  rw [hplan.ofProblem] at hdeclarations
  refine List.forall_mem_append.mpr ⟨?_, fun c hc => ?_⟩
  · split <;> simp
  · obtain ⟨t, ht, ds, hds, hc⟩ := exists_of_mem_commandsOf hdeclarations hc
    have hfree : (t.node, []) ∈ p.freeInputs :=
      List.mem_append_left _ (List.mem_append_right _ (List.mem_map_of_mem ht))
    exact Declaration.mentionsOnly_symbol hds (hp.notUniversal_of_free hfree).of_name c hc

theorem mentionsOnly_tables (hplan : p.IsPlan config plan) :
    ∀ c ∈ plan.constantTables.flatMap TableSetup.constantCommands,
      c.MentionsOnly p.NotUniversal := by
  intro c hc
  obtain ⟨s, hs, hc⟩ := List.mem_flatMap.mp hc
  obtain ⟨hs, hconstant⟩ := List.mem_filter.mp hs
  obtain ⟨-, h⟩ := hplan.exists_table hs
  have hknown := (TableSetup.isConstant_iff h).mp hconstant
  exact Command.mentionsOnly_iff_within.mpr (TableSetup.within_constantCommands h hconstant
    (fun n hn => within_nodeTerm_iff.mpr (hp.isGround_of_fixes (hknown n hn))) c hc)

theorem mentionsOnly_arrays (hplan : p.IsPlan config plan) (huniversals : p.universals ≠ [])
    {a : ArraySetup} (ha : a ∈ plan.arrays) :
    ∀ c ∈ a.declarations ++ a.deferred ++ a.setup, c.MentionsOnly p.NotUniversal := by
  obtain ⟨array, -, h⟩ := exists_of_mem_mapM hplan.arrays ha
  have hquantified : (!p.universals.isEmpty) = true := by simpa using huniversals
  simp only [Command.mentionsOnly_iff_within]
  exact ArraySetup.within_ofArray h fun n hn =>
    within_nodeTerm_iff.mpr (hp.isGround_of_fixes (hn hquantified))

/-- Between the declarations of inputs and the first definition, universal nodes are mentioned by
free symbols only. -/
theorem mentionsOnly_middle_iff (hplan : p.IsPlan config plan) (huniversals : p.universals ≠ [])
    {freeSymbols : List Command} :
    (∀ c ∈ plan.middle freeSymbols, c.MentionsOnly p.NotUniversal) ↔
      ∀ c ∈ freeSymbols, c.MentionsOnly p.NotUniversal := by
  simp only [Command.mentionsOnly_iff_within]
  refine Plan.within_middle_iff ?_ fun a ha => ?_
  · simpa only [Command.mentionsOnly_iff_within] using hp.mentionsOnly_tables hplan
  · simpa only [Command.mentionsOnly_iff_within] using
      hp.mentionsOnly_arrays hplan huniversals ha

theorem mentionsOnly_arrayCommands (hplan : p.IsPlan config plan)
    (huniversals : p.universals ≠ []) :
    ∀ c ∈ plan.arrayCommands, c.MentionsOnly p.NotUniversal := by
  simp only [Command.mentionsOnly_iff_within]
  refine Plan.within_arrayCommands fun a ha => ?_
  simpa only [Command.mentionsOnly_iff_within] using hp.mentionsOnly_arrays hplan huniversals ha

end HasDistinctNodes

/-- Among the commands before the binder, only those of free symbols and of assignments can mention
universal nodes. -/
theorem bindsUniversals_append_iff {before : List Command} {block : QuantifiedBlock}
    (hblock : block.universals = p.universals) :
    p.BindsUniversals (before ++ [.assertForAll block]) ↔
      ∀ c ∈ before, c.MentionsOnly p.NotUniversal := by
  constructor
  · rintro ⟨before', block', heq, -, h⟩
    rwa [(List.append_inj' heq rfl).1]
  · intro h
    exact ⟨before, block, rfl, hblock, h⟩

/-- Definitions at the top level mention no universal node just if early assignments look up tables
of known values only. -/
theorem HasDistinctNodes.mentionsOnly_definitions_iff (hp : p.HasDistinctNodes)
    (horder : p.InCreationOrder) (huniversals : p.universals ≠ []) (hplan : p.IsPlan config plan)
    {definitions : List Command}
    (h : commandsOf plan.scope.definitionCommands plan.early = .ok definitions) :
    (∀ c ∈ definitions, c.MentionsOnly p.NotUniversal) ↔ p.EarlyLookupsAreKnown := by
  constructor
  · intro hdefinitions a ha hearly l hl table htable hid
    obtain ⟨u, hu⟩ := List.exists_mem_of_ne_nil _ huniversals
    obtain ⟨cs, hcs, hsubset⟩ :=
      exists_subset_of_commandsOf h (hplan.mem_early_iff.mpr ⟨ha, hearly⟩)
    exact fixes_of_mentionsOnly_definition hplan hu hcs (fun c hc => hdefinitions c (hsubset hc))
      hl htable hid
  · intro hknown c hc
    obtain ⟨a, ha, cs, hcs, hc⟩ := exists_of_mem_commandsOf h hc
    exact hp.mentionsOnly_definition horder hknown hplan ha hcs c hc

/-- The declarations of free symbols mention no universal node just if no symbol is called like one.
-/
theorem mentionsOnly_freeSymbols_iff {freeSymbols : List Command}
    (h : commandsOf (fun s => Declaration.symbol s.name s.signature "") p.freeSymbols =
      .ok freeSymbols) :
    (∀ c ∈ freeSymbols, c.MentionsOnly p.NotUniversal) ↔
      ∀ s ∈ p.freeSymbols, ∀ u ∈ p.universals, s.name ≠ u.name := by
  constructor
  · intro hsymbols s hs u hu hname
    obtain ⟨cs, hcs, hsubset⟩ := exists_subset_of_commandsOf h hs
    obtain ⟨c, hc, hintroduced⟩ := Declaration.exists_introduced_of_symbol hcs
    refine (hsymbols c (hsubset hc)).1 u.id ?_ u hu rfl
    rw [hintroduced, hname]
    rfl
  · intro hnames c hc
    obtain ⟨s, hs, cs, hcs, hc⟩ := exists_of_mem_commandsOf h hc
    refine Declaration.mentionsOnly_symbol hcs (fun id hid u hu hidu => ?_) c hc
    exact hnames s hs u hu (by rw [hid, hidu]; rfl)

/-- The universal nodes of a script are mentioned only where they are bound just if the assignments
before them look up tables of known values only, and the user calls no free symbol like one of them.
-/
theorem bindsUniversals_iff (hp : p.HasDistinctNodes) (horder : p.InCreationOrder)
    (huniversals : p.universals ≠ []) {script : CompiledScript}
    (hscript : p.compile config = .ok script) :
    p.BindsUniversals script.commands ↔ p.EarlyLookupsAreKnown ∧
      ∀ s ∈ p.freeSymbols, ∀ u ∈ p.universals, s.name ≠ u.name := by
  obtain ⟨plan, hplan, hcommands⟩ := exists_plan_of_compile hscript
  obtain ⟨query, hquery⟩ := hplan.logic
  obtain ⟨tuples, constants, existentials, trackers, freeSymbols, definitions, conclusion, htuples,
    hconstants, hexistentials, htrackers, hfreeSymbols, hdefinitions, hconclusion, heq⟩ :=
    Plan.exists_sections_of_commands hcommands
  obtain ⟨block, rfl, hblock⟩ := hplan.exists_block huniversals hconclusion
  rw [hplan.ofProblem] at hconstants hexistentials hfreeSymbols
  have hopening : ∀ c ∈ plan.opening tuples, c.MentionsOnly p.NotUniversal :=
    fun c hc => (Plan.isInert_opening (hplan.ofConfig ▸ hquery) htuples c hc).mentionsOnly
  -- Go through the sections; those of free symbols and of definitions decide.
  rw [heq, bindsUniversals_append_iff hblock]
  simp only [List.forall_mem_append, List.forall_mem_cons, Command.mentionsOnly_note, true_and,
    hp.mentionsOnly_middle_iff hplan huniversals, mentionsOnly_freeSymbols_iff hfreeSymbols,
    hp.mentionsOnly_definitions_iff horder huniversals hplan hdefinitions]
  constructor
  · rintro ⟨⟨⟨-, hnames⟩, hknown⟩, -⟩
    exact ⟨hknown, hnames⟩
  · rintro ⟨hknown, hnames⟩
    refine ⟨⟨⟨⟨⟨⟨hopening, ?_⟩, ?_⟩, ?_⟩, hnames⟩, hknown⟩, ?_⟩
    · exact hp.mentionsOnly_constants hconstants
    · exact hp.mentionsOnly_existentials hexistentials
    · exact hp.mentionsOnly_trackers hplan htrackers
    · exact hp.mentionsOnly_arrayCommands hplan huniversals

/-! ### A table that waits -/

/-- The look-up of a free input in a table that waits, with its place in the order of creation. -/
def waitingTable (universal lookup : Int) : Problem where
  kinds := [.bool]
  quantified :=
    [.existential ⟨0, .bool⟩ [], .existential ⟨1, .bool⟩ [], .universal ⟨universal, .bool⟩]
  tables := [⟨0, .bool, .bool, [⟨0, .bool⟩, ⟨0, .bool⟩]⟩]
  assignments :=
    [⟨⟨lookup, .bool⟩, ⟨.lookup ⟨0, .bool, .bool, 2, ⟨1, .bool⟩, ⟨0, .bool⟩⟩, [⟨1, .bool⟩]⟩⟩]
  goal := ⟨lookup, .bool⟩

theorem hasDistinctNodes_waitingTable {universal lookup : Int} (huniversal : 1 < universal)
    (hlookup : 1 < lookup) (hne : universal ≠ lookup) :
    (waitingTable universal lookup).HasDistinctNodes where
  distinct := by
    simp [nodes, givenNodes, inputNodes, declaredNodes, undeclaredNodes, waitingTable,
      QuantifiedInput.node]
    omega
  input := by
    simp [inputNodes, declaredNodes, undeclaredNodes, waitingTable, QuantifiedInput.node,
      Node.IsReserved]
    omega

theorem inCreationOrder_waitingTable {universal lookup : Int} (hlookup : 1 < lookup) :
    (waitingTable universal lookup).InCreationOrder where
  reference := by
    simp [waitingTable, Operation.references, Operator.hiddenOperands]
    omega
  dependency := by
    intro n dependencies hn m hm
    simp only [waitingTable, existentials, QuantifiedInput.existential?, List.filterMap_cons,
      List.filterMap_nil, List.mem_cons, Prod.mk.injEq, List.not_mem_nil, or_false] at hn
    rcases hn with ⟨-, rfl⟩ | ⟨-, rfl⟩ <;> cases hm

/-- Where the look-up comes after the universal node, it is made under the binder. -/
theorem binds_waitingTable : ∃ script, (waitingTable 2 3).compile {} = .ok script ∧
    (waitingTable 2 3).BindsUniversals script.commands := by
  obtain ⟨script, hscript⟩ : ∃ script, (waitingTable 2 3).compile {} = .ok script := ⟨_, rfl⟩
  have hnodes : (waitingTable 2 3).HasDistinctNodes :=
    hasDistinctNodes_waitingTable (by omega) (by omega) (by omega)
  have horder : (waitingTable 2 3).InCreationOrder := inCreationOrder_waitingTable (by omega)
  have huniversals : (waitingTable 2 3).universals ≠ [] := by
    simp [waitingTable, universals, QuantifiedInput.universal?]
  refine ⟨script, hscript, (bindsUniversals_iff hnodes horder huniversals hscript).mpr ⟨?_, ?_⟩⟩
  · simp [EarlyLookupsAreKnown, waitingTable, universals, QuantifiedInput.universal?]
  · simp [waitingTable]

/-- Where the look-up comes before the universal node, it is defined at the top level, as an
application of the table to the universal node. -/
theorem escapes_waitingTable : (waitingTable 3 2).HasDistinctNodes ∧
    (waitingTable 3 2).InCreationOrder ∧ ((waitingTable 3 2).tables.map Table.id).Nodup ∧
    ∃ script, (waitingTable 3 2).compile {} = .ok script ∧ ∃ c ∈ script.commands,
      (∀ block, c ≠ .assertForAll block) ∧ ¬c.MentionsOnly (waitingTable 3 2).NotUniversal := by
  refine ⟨hasDistinctNodes_waitingTable (by omega) (by omega) (by omega),
    inCreationOrder_waitingTable (by omega), by simp [waitingTable], ?_⟩
  obtain ⟨script, hscript, hdefinition⟩ : ∃ script, (waitingTable 3 2).compile {} = .ok script ∧
      script.commands[16]? = some (.defineFun (nodeName 2) Kind.bool.sort
        (.app (.symbol (tableName 0)) [.node 3, .node 1]) "") := ⟨_, rfl, rfl⟩
  refine ⟨script, hscript, _, List.mem_of_getElem? hdefinition, fun block h => ?_, ?_⟩
  · cases h
  · simp [Command.MentionsOnly, Command.terms, NotUniversal, universals, waitingTable,
      QuantifiedInput.universal?]

end Problem

end SolverScript
