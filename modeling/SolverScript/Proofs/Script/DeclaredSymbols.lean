import Mathlib.Data.List.Perm.Basic
import Mathlib.Data.List.TakeWhile
import SolverScript.Proofs.Script.SectionVocabulary
import SolverScript.Proofs.Script.Symbols

/-!
# What a script declares

Without universal nodes, a script declares the sorts and data types that it needs, the free symbols,
and one symbol for each node, table and array, each initializer and each reversal. The order follows
the sections; here only the number of declarations counts.

## Main definitions

* `Plan.symbols` - the symbols that the script of a plan introduces

## Main results

* `Problem.IsPlan.count_declared` - the declarations of a script
* `Problem.HasDistinctSymbols.nodup_symbols` - no symbol is introduced twice
-/

namespace SolverScript

/-- The symbols of a table: itself, and its initializers unless it waits. -/
def TableSetup.symbols (t : TableSetup) : List GeneratedSymbol :=
  .entity (.table t.table.id) .itself ::
    if t.isConstant then
      ((List.range' 0 t.equations.length).map fun i => .entity (.table t.table.id) (.numbered i)) ++
        [.entity (.table t.table.id) .initializer]
    else []

/-- The symbols of an array: itself and its initializers. -/
def ArrayDatum.symbols (a : ArrayDatum) : List GeneratedSymbol :=
  .entity (.array a.id) .itself ::
    ((if a.context.sources = [] then [] else [.entity (.array a.id) (.numbered 0)]) ++
      [.entity (.array a.id) .initializer])

/-- The symbols that the script of a plan introduces without universal nodes. -/
def Plan.symbols (plan : Plan) : List GeneratedSymbol :=
  ((plan.problem.startingNodes ++ plan.problem.assignments.map Assignment.node).map fun n =>
      .node n.id) ++
    plan.tables.flatMap TableSetup.symbols ++ plan.problem.arrays.flatMap ArrayDatum.symbols ++
    (List.range plan.features.reversals.length).map .reversal

/-! ### Sections -/

namespace Script

theorem declared_flatMap {β : Type} {f : β → List Command} {bs : List β} :
    declared (bs.flatMap f) = bs.flatMap fun b => declared (f b) :=
  List.flatMap_assoc

theorem declared_eq_nil {cs : List Command} (h : ∀ c ∈ cs, c.declares = []) : declared cs = [] :=
  List.flatMap_eq_nil_iff.mpr h

@[simp] theorem declared_postulates (ps : List Postulate) : declared (ps.map .postulate) = [] :=
  declared_eq_nil (by simp [Command.declares])

theorem declared_map {β : Type} {f : β → Command} {g : β → String} {bs : List β}
    (h : ∀ b ∈ bs, (f b).declares = [g b]) : declared (bs.map f) = bs.map g := by
  induction bs with
  | nil => rfl
  | cons b bs ih =>
    obtain ⟨hb, hbs⟩ := List.forall_mem_cons.mp h
    rw [List.map_cons, declared_cons, hb, ih hbs]
    rfl

end Script

namespace TableSetup

/-- The symbols of a table belong to it. -/
theorem exists_of_mem_symbols {t : TableSetup} {g : GeneratedSymbol} (hg : g ∈ t.symbols) :
    ∃ part, g = .entity (.table t.table.id) part := by
  unfold symbols at hg
  split at hg <;> simp only [List.mem_cons, List.mem_append, List.mem_map, List.not_mem_nil,
    or_false] at hg
  · rcases hg with rfl | ⟨i, -, rfl⟩ | rfl <;> exact ⟨_, rfl⟩
  · exact ⟨_, hg⟩

theorem nodup_symbols (t : TableSetup) : t.symbols.Nodup := by
  have hparts : (((List.range' 0 t.equations.length).map fun i =>
      GeneratedSymbol.entity (.table t.table.id) (.numbered i))).Nodup :=
    (List.nodup_range').map fun i j h => by simpa using h
  unfold symbols
  split <;> simp [List.nodup_append, hparts]

theorem declared_constantCommands {t : TableSetup} (ht : t.isConstant = true) :
    Script.declared t.constantCommands = t.symbols.map GeneratedSymbol.name := by
  rw [constantCommands, Script.declared_cons, declared_initializers]
  simp only [symbols, ht, if_true, List.map_cons, List.map_append, List.map_map, List.map_nil]
  refine List.cons_eq_cons.mpr ⟨tableName_eq _, congrArg (· ++ _) ?_⟩
  exact List.map_congr_left fun i _ => Initializer.partName_eq (.table t.table.id) i

end TableSetup

namespace ArraySetup

/-- The commands of an array declare its symbols. -/
theorem declared_commands {config : Config} {constants : Constants} {skolems : SkolemMap}
    {a : ArrayDatum} {s : ArraySetup} (h : ofArray config false constants skolems a = .ok s) :
    Script.declared s.declarations ++ Script.declared s.deferred ++ Script.declared s.setup =
      a.symbols.map GeneratedSymbol.name := by
  have hnames : (GeneratedSymbol.entity (.array a.id) .itself).name = arrayName a.id ∧
      (GeneratedSymbol.entity (.array a.id) (.numbered 0)).name =
        Initializer.partName (arrayName a.id) 0 ∧
      (GeneratedSymbol.entity (.array a.id) .initializer).name =
        Initializer.name (arrayName a.id) :=
    ⟨(arrayName_eq a.id).symm, (Initializer.partName_eq (.array a.id) 0).symm, rfl⟩
  by_cases hsources : a.context.sources = []
  · obtain ⟨isTopLevel, declared, hdeclared, rfl⟩ := exists_of_free hsources h
    simp [ArrayDatum.symbols, hsources, declares_declaration hdeclared, hnames]
  · obtain ⟨isTopLevel, declared, q, hdeclared, -, rfl⟩ := exists_of_derived hsources h
    dsimp only
    split <;> simp [ArrayDatum.symbols, hsources, declares_declaration hdeclared, hnames]

end ArraySetup

/-! ### The whole script -/

namespace Problem

variable {config : Config} {p : Problem} {plan : Plan} {S : String → Prop}

theorem Separates.not_mem_declared_sortCommands (hS : p.Separates S)
    (hplan : p.IsPlan config plan) {s : String} (hs : S s) :
    s ∉ Script.declared plan.features.sortCommands := by
  rw [Features.sortCommands, Script.declared_flatMap, List.mem_flatMap]
  rintro ⟨sort, hsort, hmem⟩
  unfold Declaration.userSort at hmem
  split at hmem
  · simp at hmem
  split at hmem
  · simp [Command.declares] at hmem
  · next constructors hconstructors =>
    simp only [Script.declared_cons, Script.declared_nil, Command.declares, List.append_nil,
      List.mem_append, List.mem_singleton] at hmem
    rcases hmem with hmem | rfl
    · refine hS.constructor s ?_ hs
      rw [hplan.features] at hsort
      exact List.mem_append_left _ (List.mem_flatMap.mpr ⟨sort, hsort, by simpa [hconstructors]⟩)
    · exact hS.position _ hs

theorem Separates.not_mem_declared_tupleCommands (hS : p.Separates S)
    {f : Features} {cs : List Command} (h : f.tupleCommands = .ok cs) {s : String}
    (hs : S s) : s ∉ Script.declared cs := by
  suffices hnone : ∀ c ∈ cs, s ∉ c.declares by simpa [Script.declared] using hnone
  refine Features.forall_mem_tupleCommands h fun arity hmem => hS.builtin ?_ hs
  rcases List.mem_cons.mp hmem with rfl | hmem
  · exact .tuple arity
  · obtain ⟨i, -, rfl⟩ := List.mem_map.mp hmem
    exact .projection (i + 1) arity

/-- Of the data types only the one of rationals declares symbols. -/
theorem Separates.count_declared_datatypeCommands (hS : p.Separates S)
    (f : Features) {s : String} (hs : S s) :
    (Script.declared f.datatypeCommands).count s =
      if f.rationals then (RationalFunction.all.map RationalFunction.symbol).count s else 0 := by
  have hbuiltin : ∀ {texts : List String}, (∀ t ∈ texts, t ∈ builtinFunctions) →
      texts.count s = 0 := by
    intro texts htexts
    refine List.count_eq_zero.mpr fun hmem => ?_
    exact hS.builtin (.function s (htexts s hmem)) hs
  have hsum : Command.declareSum.declares.count s = 0 := hbuiltin (by decide +kernel)
  have hoptional : Command.declareOptional.declares.count s = 0 := hbuiltin (by decide +kernel)
  have hrationals : Command.declareRationals.declares.count s =
      (RationalFunction.all.map RationalFunction.symbol).count s := by
    have haccessors : [RationalFunction.constructor, RationalFunction.numerator,
        RationalFunction.denominator].count s = 0 := hbuiltin (by decide +kernel)
    rw [Command.declares, List.count_append, haccessors, Nat.zero_add]
  have honly : ∀ (condition : Bool) (c : Command),
      (Script.declared (if condition then [c] else [])).count s =
        if condition then c.declares.count s else 0 := by
    intro condition c
    cases condition <;> simp
  rw [Features.datatypeCommands, Script.declared_append, Script.declared_append, List.count_append,
    List.count_append, honly, honly, honly, hsum, hoptional, hrationals]
  simp

theorem IsPlan.rationals_iff (hplan : p.IsPlan config plan) :
    plan.features.rationals = true ↔ .rational ∈ (KindSet.closure p.kinds).toList := by
  have hkind : ∀ k : Kind, k.isRational = true ↔ k = .rational := by
    intro k
    cases k <;> simp [Kind.isRational]
  rw [hplan.features]
  simp [Features.detect, Features.ofKinds, hkind]

/-- Before the first node, a script declares no symbols other than the functions on rationals. -/
theorem Separates.count_declared_opening (hS : p.Separates S)
    (hplan : p.IsPlan config plan) {tuples : List Command}
    (htuples : plan.features.tupleCommands = .ok tuples) {s : String} (hs : S s) :
    (Script.declared (plan.opening tuples)).count s =
      if plan.features.rationals then (RationalFunction.all.map RationalFunction.symbol).count s
      else 0 := by
  obtain ⟨query, hlogic⟩ := hplan.logic
  rw [← hplan.ofConfig] at hlogic
  have hhead : Script.declared plan.headCommands = [] :=
    Script.declared_eq_nil fun c hc => (Plan.isBare_headCommands hlogic c hc).declares
  have hsorts := List.count_eq_zero.mpr (hS.not_mem_declared_sortCommands hplan hs)
  have htuples := List.count_eq_zero.mpr (hS.not_mem_declared_tupleCommands htuples hs)
  simp only [Plan.opening, Script.declared_append, Script.declared_cons, Script.declared_nil, hhead,
    Command.declares_note, List.nil_append, List.append_nil, List.count_append, hsorts, htuples,
    hS.count_declared_datatypeCommands _ hs, Nat.zero_add]

/-! ### The other sections -/

theorem declared_constants {cs : List Command}
    (h : commandsOf (Declaration.constant config) p.constants = .ok cs) :
    Script.declared cs = p.properConstants.map fun c => c.node.name := by
  rw [declared_commandsOf h fun c _ ds hds => Declaration.declared_constant hds, properConstants]
  induction p.constants with
  | nil => rfl
  | cons c cs ih =>
    rw [List.flatMap_cons, ih, List.filter_cons]
    cases hc : c.node.isTrue || c.node.isFalse <;> simp

theorem declared_existentials {cs : List Command}
    (h : commandsOf plan.existentialCommands p.existentials = .ok cs) :
    Script.declared cs = p.existentials.map fun d => d.1.name := by
  rw [declared_commandsOf h fun d _ ds hds => Declaration.declared_symbol hds]
  exact List.flatMap_pure_eq_map _ _

theorem declared_freeSymbols {cs : List Command}
    (h : commandsOf (fun s => Declaration.symbol s.name s.signature "") p.freeSymbols = .ok cs) :
    Script.declared cs = p.freeSymbols.map FreeSymbol.name := by
  rw [declared_commandsOf h fun s _ ds hds => Declaration.declared_symbol hds]
  exact List.flatMap_pure_eq_map _ _

theorem declared_definitions {scope : Scope} {assignments : List Assignment} {cs : List Command}
    (h : commandsOf scope.definitionCommands assignments = .ok cs) :
    Script.declared cs = assignments.map fun a => a.node.name := by
  rw [declared_commandsOf h fun a _ ds hds => Scope.declared_definitionCommands hds]
  exact List.flatMap_pure_eq_map _ _

theorem IsPlan.declared_trackers (hplan : p.IsPlan config plan) {cs : List Command}
    (h : plan.trackerCommands = .ok cs) :
    Script.declared cs = p.trackers.map fun t => t.node.name := by
  obtain ⟨declarations, hdeclarations, h⟩ := bind_eq_ok_iff.mp h
  cases h
  rw [hplan.ofProblem] at hdeclarations
  have hnote : Script.declared
      (if plan.problem.trackers.isEmpty then []
        else [.note "--- optimization tracker variables ---"]) = [] := by
    split <;> rfl
  rw [Script.declared_append, hnote, List.nil_append,
    declared_commandsOf hdeclarations fun t _ ds hds => Declaration.declared_symbol hds]
  exact List.flatMap_pure_eq_map _ _

theorem count_declared_tables (tables : List TableSetup) (s : String) :
    (Script.declared ((tables.filter fun t => t.isConstant).flatMap
        TableSetup.constantCommands)).count s +
      (Script.declared ((tables.filter fun t => !t.isConstant).map fun t =>
        TableSetup.deferredDeclaration [] t.table)).count s =
      ((tables.flatMap TableSetup.symbols).map GeneratedSymbol.name).count s := by
  rw [Script.declared_map (g := fun t => tableName t.table.id) fun _ _ => rfl]
  induction tables with
  | nil => rfl
  | cons t ts ih =>
    rw [List.flatMap_cons, List.map_append, List.count_append, ← ih]
    cases ht : t.isConstant with
    | true =>
      simp [ht, TableSetup.declared_constantCommands]
      omega
    | false =>
      have hsymbols : t.symbols.map GeneratedSymbol.name = [tableName t.table.id] := by
        simp [TableSetup.symbols, ht, tableName_eq]
      simp [ht, hsymbols, List.count_cons]
      omega

theorem count_declared_arrays {config : Config} {constants : Constants} {skolems : SkolemMap}
    {arrays : List ArrayDatum} {setups : List ArraySetup}
    (h : arrays.mapM (ArraySetup.ofArray config false constants skolems) = .ok setups) (s : String) :
    (Script.declared (setups.flatMap ArraySetup.declarations)).count s +
      (Script.declared (setups.flatMap ArraySetup.deferred)).count s +
      (Script.declared (setups.flatMap ArraySetup.setup)).count s =
      ((arrays.flatMap ArrayDatum.symbols).map GeneratedSymbol.name).count s := by
  have hsetups := mapM_eq_ok_iff.mp h
  clear h
  induction hsetups with
  | nil => rfl
  | @cons a setup arrays setups ha _ ih =>
    have hcommands := congrArg (List.count s) (ArraySetup.declared_commands ha)
    simp only [List.count_append] at hcommands
    simp only [List.flatMap_cons, Script.declared_append, List.map_append, List.count_append]
    omega

theorem IsPlan.early_of_open (hplan : p.IsPlan config plan) (huniversals : p.universals = []) :
    plan.early = p.assignments := by
  rw [hplan.early, List.takeWhile_eq_self_iff]
  intro a _
  rw [isEarly_iff]
  simp [huniversals]

/-- Nothing is declared at the end of a script. -/
theorem declared_openCommands (skolems : SkolemMap) (formulas : List FinalFormula) :
    Script.declared (plan.openCommands (FinalFormula.commands skolems formulas)) = [] := by
  refine Script.declared_eq_nil ?_
  unfold Plan.openCommands FinalFormula.commands
  simp only [List.forall_mem_append, List.forall_mem_map, List.forall_mem_cons]
  exact ⟨⟨⟨⟨rfl, rfl, by simp⟩, fun _ _ => rfl⟩, rfl, by simp⟩, fun _ _ => rfl, fun _ _ => rfl⟩

/-- The functions that a script declares, section by section. -/
theorem IsPlan.count_declared (hplan : p.IsPlan config plan) (huniversals : p.universals = [])
    {commands : List Command} (h : plan.commands = .ok commands) :
    ∃ tuples, plan.features.tupleCommands = .ok tuples ∧
      ∀ s, (Script.declared commands).count s =
        (Script.declared (plan.opening tuples)).count s +
          (p.freeSymbols.map FreeSymbol.name).count s +
          (plan.symbols.map GeneratedSymbol.name).count s := by
  obtain ⟨tuples, constants, existentials, trackers, freeSymbols, definitions, conclusion, htuples,
    hconstants, hexistentials, htrackers, hfreeSymbols, hdefinitions, hconclusion, rfl⟩ :=
    Plan.exists_sections_of_commands h
  refine ⟨tuples, htuples, fun s => ?_⟩
  rw [hplan.ofProblem] at hconstants hexistentials hfreeSymbols
  rw [hplan.early_of_open huniversals] at hdefinitions
  rw [hplan.conclusionCommands_of_open huniversals] at hconclusion
  obtain rfl := Except.ok.inj hconclusion
  have htables := count_declared_tables plan.tables s
  have harrays := hplan.arrays
  rw [huniversals] at harrays
  have harrays := count_declared_arrays harrays s
  have hreversals := (Plan.declared_reversalCommands plan).count_eq s
  -- The inputs are declared in the order of the existential ones, which are all of them.
  have hinputs : (p.quantified.map fun q => q.node.name).count s =
      (p.existentials.map fun d => d.1.name).count s := by
    have hperm := (perm_quantified p.quantified).map Node.name
    rw [show p.quantified.filterMap QuantifiedInput.universal? = [] from huniversals] at hperm
    simpa [Problem.existentials, Function.comp_def] using hperm.count_eq s
  simp only [Plan.middle, Plan.arrayCommands, Plan.constantTables, Plan.deferredTables,
    hplan.ofProblem, huniversals, Script.declared_append, Script.declared_cons,
    Script.declared_nil, Command.declares_note, List.nil_append, List.append_nil, List.count_append,
    declared_openCommands, Script.declared_postulates, declared_constants hconstants,
    declared_existentials hexistentials, hplan.declared_trackers htrackers,
    declared_freeSymbols hfreeSymbols, declared_definitions hdefinitions, Plan.symbols, startingNodes, List.map_append, List.map_map,
    Function.comp_def, GeneratedSymbol.name, ← hreversals]
  simp only [Node.name] at hinputs ⊢
  omega

/-! ### No symbol twice -/

/-- The tables of a plan are those of the problem. -/
theorem IsPlan.tables_eq (hplan : p.IsPlan config plan) :
    plan.tables.map TableSetup.table = p.tables := by
  have htables := mapM_eq_ok_iff.mp hplan.tables
  generalize p.tables = tables at htables
  generalize plan.tables = setups at htables
  induction htables with
  | nil => rfl
  | cons h _ ih =>
    obtain ⟨-, -, htable, -⟩ := TableSetup.exists_entries h
    rw [List.map_cons, htable, ih]

theorem nodup_arraySymbols (a : ArrayDatum) : a.symbols.Nodup := by
  unfold ArrayDatum.symbols
  split <;> simp

theorem exists_of_mem_arraySymbols {a : ArrayDatum} {g : GeneratedSymbol} (hg : g ∈ a.symbols) :
    ∃ part, g = .entity (.array a.id) part := by
  unfold ArrayDatum.symbols at hg
  split at hg <;> simp only [List.mem_cons, List.mem_append, List.not_mem_nil, or_false,
    false_or] at hg
  · rcases hg with rfl | rfl <;> exact ⟨_, rfl⟩
  · rcases hg with rfl | rfl | rfl <;> exact ⟨_, rfl⟩

/-- No symbol is introduced twice. -/
theorem HasDistinctSymbols.nodup_symbols (hsymbols : p.HasDistinctSymbols)
    (hplan : p.IsPlan config plan) : plan.symbols.Nodup := by
  have hnodes : ((p.startingNodes ++ p.assignments.map Assignment.node).map fun n =>
      GeneratedSymbol.node n.id).Nodup := by
    have hids := hsymbols.nodes.map (f := GeneratedSymbol.node) fun i j h => by simpa using h
    rwa [List.map_map] at hids
  have htables : (plan.tables.flatMap TableSetup.symbols).Nodup := by
    have hids := hsymbols.tables
    rw [← hplan.tables_eq, List.map_map] at hids
    refine List.nodup_flatMap.mpr ⟨fun t _ => t.nodup_symbols, ?_⟩
    refine (List.pairwise_map.mp hids).imp fun hne g hg hg' => ?_
    obtain ⟨part, rfl⟩ := TableSetup.exists_of_mem_symbols hg
    obtain ⟨part', h⟩ := TableSetup.exists_of_mem_symbols hg'
    simp_all
  have harrays : (p.arrays.flatMap ArrayDatum.symbols).Nodup := by
    refine List.nodup_flatMap.mpr ⟨fun a _ => nodup_arraySymbols a, ?_⟩
    refine (List.pairwise_map.mp hsymbols.arrays).imp fun hne g hg hg' => ?_
    obtain ⟨part, rfl⟩ := exists_of_mem_arraySymbols hg
    obtain ⟨part', h⟩ := exists_of_mem_arraySymbols hg'
    simp_all
  have hreversals : ((List.range plan.features.reversals.length).map
      GeneratedSymbol.reversal).Nodup :=
    List.nodup_range.map fun i j h => by simpa using h
  have hnode : ∀ g ∈ (p.startingNodes ++ p.assignments.map Assignment.node).map fun n =>
      GeneratedSymbol.node n.id, ∃ id, g = .node id :=
    List.forall_mem_map.mpr fun n _ => ⟨n.id, rfl⟩
  have htable : ∀ g ∈ plan.tables.flatMap TableSetup.symbols, ∃ id part,
      g = .entity (.table id) part := by
    refine List.forall_mem_flatMap.mpr fun t _ g hg => ?_
    exact ⟨_, TableSetup.exists_of_mem_symbols hg⟩
  have harray : ∀ g ∈ p.arrays.flatMap ArrayDatum.symbols, ∃ id part,
      g = .entity (.array id) part :=
    List.forall_mem_flatMap.mpr fun a _ g hg => ⟨a.id, exists_of_mem_arraySymbols hg⟩
  -- Symbols of different sorts differ.
  rw [Plan.symbols, hplan.ofProblem]
  refine List.nodup_append.mpr ⟨List.nodup_append.mpr ⟨List.nodup_append.mpr ⟨hnodes, htables, ?_⟩,
    harrays, ?_⟩, hreversals, ?_⟩
  · rintro _ hg _ hg' rfl
    obtain ⟨id, rfl⟩ := hnode _ hg
    obtain ⟨_, _, h⟩ := htable _ hg'
    cases h
  · rintro _ hg _ hg' rfl
    obtain ⟨id, part, rfl⟩ := harray _ hg'
    rcases List.mem_append.mp hg with hg | hg
    · obtain ⟨_, h⟩ := hnode _ hg
      cases h
    · obtain ⟨_, _, h⟩ := htable _ hg
      cases h
  · rintro _ hg _ hg' rfl
    obtain ⟨i, -, rfl⟩ := List.mem_map.mp hg'
    rcases List.mem_append.mp hg with hg | hg
    · rcases List.mem_append.mp hg with hg | hg
      · obtain ⟨_, h⟩ := hnode _ hg
        cases h
      · obtain ⟨_, _, h⟩ := htable _ hg
        cases h
    · obtain ⟨_, _, h⟩ := harray _ hg
      cases h

/-- A script introduces every symbol at most once. -/
theorem HasDistinctSymbols.count_declared_le_one (hsymbols : p.HasDistinctSymbols)
    (hplan : p.IsPlan config plan) (huniversals : p.universals = []) {commands : List Command}
    (h : plan.commands = .ok commands) {s : String} (hs : p.IsSymbol s) :
    (Script.declared commands).count s ≤ 1 := by
  obtain ⟨tuples, htuples, hcount⟩ := hplan.count_declared huniversals h
  rw [hcount s, hsymbols.separates.count_declared_opening hplan htuples hs]
  have hgenerated : (plan.symbols.map GeneratedSymbol.name).Nodup :=
    (hsymbols.nodup_symbols hplan).map GeneratedSymbol.name_injective
  have hrationals : (RationalFunction.all.map RationalFunction.symbol).Nodup := by decide
  have hone := List.nodup_iff_count_le_one.mp hgenerated s
  have htwo := List.nodup_iff_count_le_one.mp hsymbols.freeSymbols s
  have hthree := List.nodup_iff_count_le_one.mp hrationals s
  -- The three sorts of symbols have different names, so only one of the numbers is not zero.
  have hfree : s ∈ p.freeSymbols.map FreeSymbol.name → ¬IsGenerated s := by
    intro hs
    obtain ⟨f, hf, rfl⟩ := List.mem_map.mp hs
    exact hsymbols.free f hf
  have hsymbol : s ∈ plan.symbols.map GeneratedSymbol.name →
      s ∉ RationalFunction.all.map RationalFunction.symbol := by
    intro hs hs'
    obtain ⟨g, -, rfl⟩ := List.mem_map.mp hs
    obtain ⟨f, -, hf⟩ := List.mem_map.mp hs'
    exact g.name_ne_rational f hf.symm
  have hcases : (p.freeSymbols.map FreeSymbol.name).count s = 0 ∨
      (plan.symbols.map GeneratedSymbol.name).count s = 0 ∧
        (RationalFunction.all.map RationalFunction.symbol).count s = 0 := by
    by_cases hmem : s ∈ p.freeSymbols.map FreeSymbol.name
    · refine .inr ⟨List.count_eq_zero.mpr fun hs => hfree hmem ?_,
        List.count_eq_zero.mpr fun hs => hfree hmem ?_⟩
      · obtain ⟨g, -, hg⟩ := List.mem_map.mp hs
        exact .inr (.inl ⟨g, hg⟩)
      · obtain ⟨f, -, hf⟩ := List.mem_map.mp hs
        exact .inr (.inr (.inl ⟨f, hf⟩))
    · exact .inl (List.count_eq_zero.mpr hmem)
  have hcases' : (plan.symbols.map GeneratedSymbol.name).count s = 0 ∨
      (RationalFunction.all.map RationalFunction.symbol).count s = 0 := by
    by_cases hmem : s ∈ plan.symbols.map GeneratedSymbol.name
    · exact .inr (List.count_eq_zero.mpr (hsymbol hmem))
    · exact .inl (List.count_eq_zero.mpr hmem)
  split <;> omega

/-- Every symbol of a plan is introduced. -/
theorem IsPlan.mem_declared_of_symbol (hplan : p.IsPlan config plan)
    (huniversals : p.universals = []) {commands : List Command} (h : plan.commands = .ok commands)
    {g : GeneratedSymbol} (hg : g ∈ plan.symbols) : g.name ∈ Script.declared commands := by
  obtain ⟨tuples, -, hcount⟩ := hplan.count_declared huniversals h
  have hpos := List.count_pos_iff.mpr (List.mem_map_of_mem (f := GeneratedSymbol.name) hg)
  refine List.count_pos_iff.mp ?_
  rw [hcount]
  omega

theorem IsPlan.mem_declared_of_freeSymbol (hplan : p.IsPlan config plan)
    (huniversals : p.universals = []) {commands : List Command} (h : plan.commands = .ok commands)
    {f : FreeSymbol} (hf : f ∈ p.freeSymbols) : f.name ∈ Script.declared commands := by
  obtain ⟨tuples, -, hcount⟩ := hplan.count_declared huniversals h
  have hpos := List.count_pos_iff.mpr (List.mem_map_of_mem (f := FreeSymbol.name) hf)
  refine List.count_pos_iff.mp ?_
  rw [hcount]
  omega

end Problem

end SolverScript
