import SolverScript.Proofs.Script.Plan
import SolverScript.Proofs.Script.TableEquations
import SolverScript.Proofs.Script.WholeCommands

/-!
# Steps with proper names and texts

What the user has chosen in a step of a session: names of sorts, constructors, free symbols and
attributes, the texts of settings and comments, and lines that are added as they stand. If the names
have no special characters, the comments no line breaks, and the lines are complete, then every
section of the script consists of whole commands. String constants and values of attributes may be
any texts.

## Main definitions

* `Problem.IsProper`, `Increment.IsProper`, `Config.IsProper` - what the names and texts of the user
  should be

## Main results

* `Setting.isComplete_render`, `LogicQuery.isWhole_choose` - settings and the logic
* `Scope.isWhole_definitions` - definitions of nodes
* `Problem.IsProper.isWhole_opening` and its neighbours - the sections of the script of a problem
-/

namespace SolverScript

/-! ### What the user has chosen -/

/-- The names of a user sort: its own and those of its constructors. -/
def UserSort.names (s : UserSort) : List Name :=
  .sort s.name :: (s.constructors.getD []).map .function

/-- The names of the user sorts that occur in some kinds. -/
def sortNames (kinds : List Kind) : List Name :=
  ((KindSet.closure kinds).toList.filterMap Kind.userSort?).flatMap UserSort.names

/-- The names that the user has chosen and an operator is written with. -/
def Operator.names : Operator → List Name
  | uninterpreted symbol => [.function symbol]
  | reverse what => what.kind.names
  | eitherConstructor l r _ | eitherIs l r _ => l.names ++ r.names
  | maybeConstructor k _ | maybeIs k _ => k.names
  | _ => []

/-- The names that the user has chosen for an assignment. -/
def Assignment.names (a : Assignment) : List Name :=
  a.node.kind.names ++ a.operation.operands.flatMap (fun n => n.kind.names) ++
    a.operation.operator.names

/-- The names that the user has chosen for an input. -/
def QuantifiedInput.names : QuantifiedInput → List Name
  | universal n => n.kind.names
  | existential n dependencies => n.kind.names ++ dependencies.flatMap fun m => m.kind.names

/-- The names that the user has chosen for a constant. -/
def Constant.names (c : Constant) : List Name := c.node.kind.names ++ c.value.names

/-- The names that the user has chosen for a table. -/
def Table.names (t : Table) : List Name := t.indexKind.names ++ t.resultKind.names

/-- The names that the user has chosen for an array. -/
def ArrayDatum.names (a : ArrayDatum) : List Name := a.domain.names ++ a.range.names

/-- The names that the user has chosen for a free symbol. -/
def FreeSymbol.names (s : FreeSymbol) : List Name :=
  .function s.name :: s.signature.flatMap Kind.names

/-- The names that the user has chosen for a constraint. -/
def Constraint.names (c : Constraint) : List Name := c.attributes.map fun a => .keyword a.1

/-- The text of the label that an assignment is written with. -/
def Assignment.label? (a : Assignment) : Option String :=
  (Scope.labelled? a.operation).map Prod.fst

/-- The texts that the user has chosen in a setting. -/
def Setting.texts : Setting → List String
  | diagnosticOutput channel => [channel]
  | option keyword arguments | info keyword arguments => keyword :: arguments
  | logic l => [l.name]
  | _ => []

/-- Whether the names that the user has chosen in a problem are plain, comments are single lines, and
the lines of the user are complete. -/
structure Problem.IsProper (p : Problem) : Prop where
  sorts : ∀ x ∈ sortNames p.kinds, x.IsPlain
  inputs : ∀ q ∈ p.quantified, ∀ x ∈ q.names, x.IsPlain
  trackers : ∀ t ∈ p.trackers, t.node.kind.Over Name.IsPlain
  constants : ∀ c ∈ p.constants, ∀ x ∈ c.names, x.IsPlain
  tables : ∀ t ∈ p.tables, ∀ x ∈ t.names, x.IsPlain
  arrays : ∀ a ∈ p.arrays, ∀ x ∈ a.names, x.IsPlain
  freeSymbols : ∀ s ∈ p.freeSymbols, ∀ x ∈ s.names, x.IsPlain
  assignments : ∀ a ∈ p.assignments, ∀ x ∈ a.names, x.IsPlain
  constraints : ∀ c ∈ p.constraints, ∀ x ∈ c.names, x.IsPlain
  comments : ∀ text ∈ p.comments, IsSingleLine text
  userNames : ∀ d ∈ p.existentials, ∀ text ∈ p.userName? d.1, IsSingleLine text
  trackerNames : ∀ t ∈ p.trackers, IsSingleLine t.userName
  labels : ∀ a ∈ p.assignments, ∀ text ∈ a.label?, IsSingleLine text
  postulates : ∀ q ∈ p.postulates, q.IsComplete

/-- Whether the names that the user has chosen in an increment are plain, and labels are single lines.
-/
structure Increment.IsProper (i : Increment) : Prop where
  sorts : ∀ x ∈ sortNames i.kinds, x.IsPlain
  inputs : ∀ input ∈ i.inputs, input.node.kind.Over Name.IsPlain
  knownConstants : ∀ c ∈ i.knownConstants, ∀ x ∈ c.names, x.IsPlain
  constants : ∀ c ∈ i.constants, ∀ x ∈ c.names, x.IsPlain
  tables : ∀ t ∈ i.tables, ∀ x ∈ t.names, x.IsPlain
  arrays : ∀ a ∈ i.arrays, ∀ x ∈ a.names, x.IsPlain
  freeSymbols : ∀ s ∈ i.freeSymbols, ∀ x ∈ s.names, x.IsPlain
  assignments : ∀ a ∈ i.assignments, ∀ x ∈ a.names, x.IsPlain
  constraints : ∀ c ∈ i.constraints, ∀ x ∈ c.names, x.IsPlain
  labels : ∀ a ∈ i.assignments, ∀ text ∈ a.label?, IsSingleLine text

/-- Whether the texts of a configuration are what they should be. -/
structure Config.IsProper (c : Config) : Prop where
  settings : ∀ s ∈ c.settings, ∀ text ∈ s.texts, IsPlainText text
  flattening : ∀ line ∈ c.capabilities.flattenedModelSettings, IsComplete line

/-! ### Settings -/

theorem IsComplete.of_reads {text : String} (h : Reads text 0 0) : IsComplete text :=
  isComplete_iff_reads.mpr (h.append (by decide))

theorem Setting.isComplete_render {s : Setting} (h : ∀ text ∈ s.texts, IsPlainText text) :
    IsComplete s.render := by
  have hcommand : ∀ {name keyword : String} {arguments : List String}, IsPlainText name →
      IsPlainText keyword → (∀ a ∈ arguments, Reads a 0 0) →
        IsComplete (command name keyword arguments) := fun hname hkeyword harguments =>
    .of_reads (Reads.parenthesized (reads_joined (by decide) (List.forall_mem_cons.mpr
      ⟨reads_of_plain hname, List.forall_mem_cons.mpr ⟨reads_of_plain hkeyword, harguments⟩⟩)))
  cases s with
  | diagnosticOutput channel =>
    have hchannel := h channel (List.mem_singleton_self _)
    -- The channel stands in a string literal, which a plain text does not end.
    have hquoted : Reader.run ⟨.string, 0⟩ channel = some ⟨.string, 0⟩ := by
      refine Reader.run_of_forall_step fun c hc => ?_
      have hc : c ≠ '"' := by
        rintro rfl
        exact absurd (hchannel _ hc) (by decide)
      simp [Reader.step, hc]
    exact hcommand (by decide) (by decide) (List.forall_mem_singleton.mpr
      (reads_inside (by decide) hquoted (by decide)))
  | produce product value =>
    refine hcommand (by decide) ?_ (List.forall_mem_singleton.mpr ?_)
    · cases product <;> decide +kernel
    · cases value <;> decide +kernel
  | limit quantity value =>
    refine hcommand (by decide) ?_ (List.forall_mem_singleton.mpr
      (reads_of_plain (Numeral.isPlainText_decimal value)))
    cases quantity <;> decide +kernel
  | option keyword arguments | info keyword arguments =>
    obtain ⟨hkeyword, harguments⟩ := List.forall_mem_cons.mp h
    exact hcommand (by decide) hkeyword fun a ha => reads_of_plain (harguments a ha)
  | logic l =>
    have hname := reads_of_plain (h l.name (List.mem_singleton_self _))
    rw [render]
    split
    · exact isComplete_iff_reads.mpr (by decide)
    · exact .of_reads (.append (.append (by decide) (hname.within 1)) (by decide))

theorem Config.mem_of_mem_headSettings {s : Setting} {settings : List Setting}
    (h : s ∈ headSettings settings) : s ∈ settings := by
  induction settings with
  | nil => exact h
  | cons t later ih =>
    unfold headSettings at h
    split at h
    · exact List.mem_cons_of_mem t (ih h)
    · rcases List.mem_cons.mp h with rfl | h
      · exact List.mem_cons_self
      · exact List.mem_cons_of_mem t (ih h)

theorem Features.isWhole_flattenCommands {c : Capabilities}
    (h : ∀ line ∈ c.flattenedModelSettings, IsComplete line) (f : Features) :
    ∀ d ∈ f.flattenCommands c, d.IsWhole := by
  unfold flattenCommands
  split
  · exact List.forall_mem_map.mpr fun line hline => Command.isWhole_setting (h line hline)
  · simp

/-- The reasons for a catch-all logic are fixed texts, whichever of them apply. -/
theorem isSingleLine_of_catchAllReason? {f : Features} {reason : String}
    (h : catchAllReason? f = some reason) : IsSingleLine reason := by
  obtain ⟨r, hr, rfl⟩ := Option.map_eq_some_iff.mp h
  have hall : ∀ r ∈ catchAllReasons f, IsSingleLine r.2 := by
    simp only [catchAllReasons, List.forall_mem_cons, List.not_mem_nil, false_implies,
      implies_true, and_true]
    and_intros <;> decide +kernel
  exact hall r (List.mem_of_find?_eq_some hr)

/-- A logic is set by its name, with a remark on why. -/
theorem LogicQuery.isWhole_choose {query : LogicQuery} {config : Config} {choice : LogicChoice}
    (h : query.choose config = .ok choice)
    (hconfig : ∀ s ∈ config.settings, ∀ text ∈ s.texts, IsPlainText text) :
    choice.command.IsWhole := by
  unfold choose at h
  split at h
  · next l hl =>
    have hmem : l ∈ config.requestedLogics := by simp [hl]
    obtain ⟨s, hs, hsl⟩ := List.mem_filterMap.mp hmem
    have hname : IsPlainText l.name := by
      cases s <;> cases hsl
      exact hconfig _ hs _ (List.mem_singleton_self _)
    rw [← Except.ok.inj h, userChoice]
    split
    · exact Command.isWhole_note (by decide)
    · exact Command.isWhole_setLogic hname (by decide)
  · split at h
    · have hempty : IsSingleLine "" := by decide
      rw [← Except.ok.inj h, bestChoice]
      split
      · next reason hreason =>
        exact Command.isWhole_setLogic (by decide) (isSingleLine_append.mpr
          ⟨isSingleLine_of_catchAllReason? hreason, by decide⟩)
      split
      · refine Command.isWhole_setLogic ?_ hempty
        unfold floatLogic
        split
        · decide
        · split <;> decide
      split
      · exact Command.isWhole_setLogic (by decide) (by decide)
      split
      · refine Command.isWhole_setLogic ?_ hempty
        unfold bitVectorLogic
        simp only [isPlainText_append]
        refine ⟨⟨⟨?_, ?_⟩, ?_⟩, by decide⟩ <;> split <;> decide
      · exact Command.isWhole_setLogic (by decide) hempty
    · cases h
  · cases h

/-! ### Parts that problems and increments have in common -/

theorem Features.isWhole_sortCommands {kinds : List Kind} {assignments : List Assignment}
    {arrays : List ArrayDatum} (h : ∀ x ∈ sortNames kinds, x.IsPlain) :
    ∀ c ∈ (detect (KindSet.closure kinds) assignments arrays).sortCommands, c.IsWhole := by
  refine List.forall_mem_flatMap.mpr fun s hs => ?_
  have hs := List.forall_mem_flatMap.mp h s hs
  obtain ⟨hname, hconstructors⟩ := List.forall_mem_cons.mp hs
  refine Declaration.isWhole_userSort hname fun cs hcs c hc => ?_
  exact hconstructors (.function c) (List.mem_map_of_mem (by simpa [Option.mem_def.mp hcs] using hc))

theorem isWhole_constants {config : Config} {constants : Constants} {cs : List Command}
    (h : commandsOf (Declaration.constant config) constants = .ok cs)
    (hnames : ∀ c ∈ constants, ∀ x ∈ c.names, x.IsPlain) : ∀ c ∈ cs, c.IsWhole := by
  refine forall_mem_commandsOf h fun c hc ds hds => ?_
  obtain ⟨hkind, hvalue⟩ := List.forall_mem_append.mp (hnames c hc)
  exact Declaration.isWhole_constant hds hkind hvalue

theorem isWhole_freeSymbols {freeSymbols : List FreeSymbol} {cs : List Command}
    (h : commandsOf (fun s => Declaration.symbol s.name s.signature "") freeSymbols = .ok cs)
    (hnames : ∀ s ∈ freeSymbols, ∀ x ∈ s.names, x.IsPlain) : ∀ c ∈ cs, c.IsWhole := by
  refine forall_mem_commandsOf h fun s hs ds hds => ?_
  obtain ⟨hname, hsignature⟩ := List.forall_mem_cons.mp (hnames s hs)
  exact Declaration.isWhole_symbol hds hname (List.forall_mem_flatMap.mp hsignature) (by decide)

/-- The commands of arrays, in any of the three groups. -/
theorem isWhole_arrays {config : Config} {isQuantified : Bool} {constants : Constants}
    {skolems : SkolemMap} {arrays : List ArrayDatum} {setups : List ArraySetup}
    (h : arrays.mapM (ArraySetup.ofArray config isQuantified constants skolems) = .ok setups)
    (hnames : ∀ a ∈ arrays, ∀ x ∈ a.names, x.IsPlain)
    (hconstants : ∀ c ∈ constants, ∀ x ∈ c.names, x.IsPlain) :
    ∀ s ∈ setups, ∀ c ∈ s.declarations ++ s.deferred ++ s.setup, c.IsWhole := by
  intro s hs
  obtain ⟨a, ha, hofArray⟩ := exists_of_mem_mapM h hs
  obtain ⟨hdomain, hrange⟩ := List.forall_mem_append.mp (hnames a ha)
  exact ArraySetup.isWhole_of_ofArray hofArray hdomain hrange fun c hc =>
    (List.forall_mem_append.mp (hconstants c hc)).2

namespace Scope

/-- Whether the symbols that a scope has for tables and reversals are plain. -/
structure IsPlain (scope : Scope) : Prop where
  tables : ∀ entry ∈ scope.tables, IsPlainText entry.2.symbol
  reversals : ∀ entry ∈ scope.reversals, IsPlainText entry.2

variable {scope : Scope} {a : Assignment}

theorem IsPlain.operatorNames (hscope : scope.IsPlain) {op : Operator}
    (hop : ∀ x ∈ op.names, x.IsPlain) : ∀ x ∈ scope.operatorNames op, x.IsPlain := by
  have harray : ∀ id, (Name.function (arrayName id)).IsPlain := fun id => by
    rw [arrayName_eq]
    exact GeneratedSymbol.isPlainText_name _
  cases op with
  | lookup l =>
    refine List.forall_mem_cons.mpr ⟨?_, List.forall_mem_map.mpr fun _ _ => trivial⟩
    unfold TableMap.head
    cases hhead : latest? (· == l.table) scope.tables with
    | none =>
      rw [Option.getD_none, tableName_eq]
      exact GeneratedSymbol.isPlainText_name _
    | some head =>
      obtain ⟨k, hmem, -⟩ := exists_of_latest? hhead
      exact hscope.tables _ hmem
  | arrayEqual a b =>
    exact List.forall_mem_cons.mpr ⟨harray a, List.forall_mem_singleton.mpr (harray b)⟩
  | arrayRead a => exact List.forall_mem_singleton.mpr (harray a)
  | reverse what =>
    refine List.forall_mem_map.mpr fun name hname => ?_
    obtain ⟨k, hmem, -⟩ := exists_of_latest? (Option.mem_toList.mp hname)
    exact hscope.reversals _ hmem
  | uninterpreted | eitherConstructor | eitherIs | maybeConstructor | maybeIs => exact hop
  | _ => simp [Scope.operatorNames]

theorem IsPlain.resultOver_term (hscope : scope.IsPlain) (ha : ∀ x ∈ a.names, x.IsPlain) :
    ResultOver Name.IsPlain (scope.term a.operation) := by
  obtain ⟨hkinds, hop⟩ := List.forall_mem_append.mp ha
  obtain ⟨-, hoperands⟩ := List.forall_mem_append.mp hkinds
  exact Scope.resultOver_term vocabulary_isPlain (fun n _ => scope.skolems.over_nodeTerm_isPlain n)
    (List.forall_mem_flatMap.mp hoperands) (hscope.operatorNames hop) fun _ f =>
      f.isPlain_symbol

/-- A definition is written with plain names, and its remark is the label of the assignment. -/
theorem IsPlain.of_definition (hscope : scope.IsPlain) (ha : ∀ x ∈ a.names, x.IsPlain)
    {value : Term} {remark? : Option String}
    (h : scope.definition a.operation = .ok (value, remark?)) :
    value.Over Name.IsPlain ∧ remark? = a.label? := by
  refine ⟨hscope.resultOver_term ha value (term_of_definition h), ?_⟩
  unfold definition at h
  unfold Assignment.label?
  split at h
  · next hlabel =>
    cases h
    rw [hlabel]
    rfl
  · next hlabel =>
    obtain ⟨t, -, h⟩ := bind_eq_ok_iff.mp h
    cases h
    rw [hlabel]
    rfl

theorem isWhole_definitions {assignments : List Assignment} {cs : List Command}
    (hscope : scope.IsPlain) (h : commandsOf scope.definitionCommands assignments = .ok cs)
    (hnames : ∀ a ∈ assignments, ∀ x ∈ a.names, x.IsPlain)
    (hremarks : ∀ a ∈ assignments, ∀ text ∈ a.label?, IsSingleLine text) :
    ∀ c ∈ cs, c.IsWhole := by
  refine forall_mem_commandsOf h fun a ha ds hds => ?_
  obtain ⟨⟨value, remark?⟩, hdefinition, hds⟩ := bind_eq_ok_iff.mp hds
  cases hds
  obtain ⟨hvalue, rfl⟩ := hscope.of_definition (hnames a ha) hdefinition
  refine Declaration.isWhole_defined (List.forall_mem_append.mp
    (List.forall_mem_append.mp (hnames a ha)).1).1 hvalue ?_
  cases hlabel : a.label? with
  | none => decide
  | some text => exact hremarks a ha text hlabel

theorem forall_localDefinitions {assignments : List Assignment} {definitions : List LocalDefinition}
    (hscope : scope.IsPlain) (h : assignments.mapM scope.localDefinition = .ok definitions)
    (hnames : ∀ a ∈ assignments, ∀ x ∈ a.names, x.IsPlain)
    (hremarks : ∀ a ∈ assignments, ∀ text ∈ a.label?, IsSingleLine text) :
    ∀ d ∈ definitions, d.value.Over Name.IsPlain ∧ ∀ text ∈ d.remark, IsSingleLine text := by
  intro d hd
  obtain ⟨a, ha, hlocal⟩ := exists_of_mem_mapM h hd
  obtain ⟨⟨value, remark?⟩, hdefinition, hvalue⟩ := bind_eq_ok_iff.mp hlocal
  cases hvalue
  obtain ⟨hvalue, rfl⟩ := hscope.of_definition (hnames a ha) hdefinition
  exact ⟨hvalue, hremarks a ha⟩

end Scope

/-! ### The script of a problem -/

namespace Problem

variable {config : Config} {p : Problem} {plan : Plan}

theorem IsPlan.isPlain_scope (plan : Plan) : plan.scope.IsPlain where
  tables := by
    have htable : ∀ t : TableSetup, IsPlainText (tableName t.table.id) := fun t => by
      rw [tableName_eq]
      exact GeneratedSymbol.isPlainText_name _
    exact List.forall_mem_append.mpr
      ⟨List.forall_mem_map.mpr fun t _ => htable t, List.forall_mem_map.mpr fun t _ => htable t⟩
  reversals := by
    refine List.forall_mem_map.mpr fun r hr => ?_
    obtain ⟨i, -, hname⟩ := Plan.mem_reversals_iff.mp (show (r.1, r.2) ∈ plan.reversals from hr)
    exact (hname ▸ GeneratedSymbol.isPlainText_name (.reversal i) : IsPlainText r.2)

/-- What is reversed is named by an operator. -/
theorem exists_of_mem_reversalsOf {operators : List Operator} {what : Reversible}
    (h : what ∈ Features.reversalsOf operators) : .reverse what ∈ operators := by
  have hfold : ∀ (ws found : List Reversible), what ∈ ws.foldl Features.appendNew found →
      what ∈ found ∨ what ∈ ws := by
    intro ws
    induction ws with
    | nil => exact fun _ h => .inl h
    | cons w ws ih =>
      intro found h
      rcases ih _ h with h | h
      · unfold Features.appendNew at h
        split at h
        · exact .inl h
        · rcases List.mem_append.mp h with h | h
          · exact .inl h
          · exact .inr (List.mem_cons.mpr (.inl (List.mem_singleton.mp h)))
      · exact .inr (List.mem_cons_of_mem w h)
  have hmem := (hfold _ _ h).resolve_left (List.not_mem_nil)
  obtain ⟨op, hop, hwhat⟩ := List.mem_filterMap.mp hmem
  unfold Features.reversal? at hwhat
  split at hwhat <;> cases hwhat
  exact hop

namespace IsProper

theorem forall_universals (hproper : p.IsProper) : ∀ n ∈ p.universals, n.kind.Over Name.IsPlain := by
  intro n hn
  obtain ⟨q, hq, hqn⟩ := List.mem_filterMap.mp hn
  have hnames := hproper.inputs q hq
  cases q <;> cases hqn
  exact hnames

variable (hproper : p.IsProper) (hplan : p.IsPlan config plan)

include hproper hplan

theorem isWhole_opening (hconfig : config.IsProper) {tuples : List Command}
    (htuples : plan.features.tupleCommands = .ok tuples) :
    ∀ c ∈ plan.opening tuples, c.IsWhole := by
  obtain ⟨query, hlogic⟩ := hplan.logic
  have hnote : ∀ {text : String}, IsSingleLine text → (Command.note text).IsWhole :=
    Command.isWhole_note
  have hsorts : ∀ c ∈ plan.features.sortCommands, c.IsWhole := by
    rw [hplan.features]
    exact Features.isWhole_sortCommands hproper.sorts
  have hhead : ∀ c ∈ plan.headCommands, c.IsWhole := by
    unfold Plan.headCommands
    rw [hplan.ofProblem, hplan.ofConfig]
    simp only [List.forall_mem_append, List.forall_mem_map, List.forall_mem_singleton]
    exact ⟨⟨⟨⟨fun text htext => hnote (hproper.comments text htext),
      fun s hs => Command.isWhole_setting (Setting.isComplete_render
        (hconfig.settings s (Config.mem_of_mem_headSettings hs)))⟩,
      Command.isWhole_setting (isComplete_iff_reads.mpr (by decide))⟩,
      Features.isWhole_flattenCommands hconfig.flattening _⟩,
      LogicQuery.isWhole_choose hlogic hconfig.settings⟩
  simp only [Plan.opening, List.forall_mem_append, List.forall_mem_cons, List.not_mem_nil,
    false_imp_iff, implies_true, and_true]
  exact ⟨⟨⟨⟨hhead, hnote (by decide), hsorts⟩, hnote (by decide),
    Features.isWhole_tupleCommands htuples⟩, hnote (by decide),
    Features.isWhole_datatypeCommands _⟩, hnote (by decide)⟩

theorem isWhole_existentials {existentials : List Command}
    (h : commandsOf plan.existentialCommands p.existentials = .ok existentials) :
    ∀ c ∈ existentials, c.IsWhole := by
  refine forall_mem_commandsOf h fun d hd ds hds => ?_
  obtain ⟨q, hq, hqd⟩ := List.mem_filterMap.mp hd
  have hnames := hproper.inputs q hq
  cases q <;> cases hqd
  next n dependencies =>
  obtain ⟨hkind, hdependencies⟩ := List.forall_mem_append.mp hnames
  refine Declaration.isWhole_symbol hds (isPlainText_nodeName n.id) ?_ ?_
  · rw [List.forall_mem_append, List.forall_mem_map]
    exact ⟨List.forall_mem_flatMap.mp hdependencies, List.forall_mem_singleton.mpr hkind⟩
  · unfold Plan.inputRemark
    rw [hplan.ofProblem]
    split
    · next name hname =>
      split
      · decide
      · have hname := hproper.userNames _ hd name hname
        exact isSingleLine_append.mpr ⟨isSingleLine_append.mpr ⟨by decide, hname⟩, by decide⟩
    · decide

theorem isWhole_trackers {trackers : List Command} (h : plan.trackerCommands = .ok trackers) :
    ∀ c ∈ trackers, c.IsWhole := by
  obtain ⟨declarations, hdeclarations, h⟩ := bind_eq_ok_iff.mp h
  cases h
  rw [hplan.ofProblem] at hdeclarations ⊢
  refine List.forall_mem_append.mpr ⟨?_, forall_mem_commandsOf hdeclarations fun t ht ds hds => ?_⟩
  · split
    · simp
    · exact List.forall_mem_singleton.mpr (Command.isWhole_note (by decide))
  · exact Declaration.isWhole_symbol hds (isPlainText_nodeName t.node.id)
      (List.forall_mem_singleton.mpr (hproper.trackers t ht))
      (isSingleLine_append.mpr ⟨by decide, hproper.trackerNames t ht⟩)

theorem forall_tables : ∀ s ∈ plan.tables, (∀ c ∈ s.constantCommands, c.IsWhole) ∧
    (TableSetup.deferredDeclaration p.universals s.table).IsWhole ∧
      ∀ q ∈ s.equations, q.Over Name.IsPlain := by
  intro s hs
  obtain ⟨t, ht, h⟩ := exists_of_mem_mapM hplan.tables hs
  obtain ⟨hindex, hresult⟩ := List.forall_mem_append.mp (hproper.tables t ht)
  obtain ⟨-, -, rfl, -⟩ := TableSetup.exists_entries h
  exact ⟨List.forall_mem_cons.mpr
    ⟨TableSetup.isWhole_declaration hindex hresult, TableSetup.isWhole_initializers h⟩,
    TableSetup.isWhole_deferredDeclaration (hproper.forall_universals) hindex hresult,
    TableSetup.over_equations_isPlain h⟩

theorem forall_equations : ∀ q ∈ plan.equations, q.Over Name.IsPlain :=
  List.forall_mem_flatMap.mpr fun s hs =>
    (hproper.forall_tables hplan s (List.mem_filter.mp hs).1).2.2

theorem isWhole_middle {freeSymbols : List Command}
    (h : commandsOf (fun s => Declaration.symbol s.name s.signature "") p.freeSymbols =
      .ok freeSymbols) : ∀ c ∈ plan.middle freeSymbols, c.IsWhole := by
  have hnote : ∀ {text : String}, IsSingleLine text → (Command.note text).IsWhole :=
    Command.isWhole_note
  have htables := hproper.forall_tables hplan
  have harrays := isWhole_arrays hplan.arrays hproper.arrays hproper.constants
  have hkinds : ∀ what ∈ plan.features.reversals, what.kind.Over Name.IsPlain := by
    rw [hplan.features]
    intro what hwhat
    obtain ⟨a, ha, hop⟩ := List.mem_map.mp (exists_of_mem_reversalsOf hwhat)
    have hnames := (List.forall_mem_append.mp (hproper.assignments a ha)).2
    rwa [hop] at hnames
  simp only [Plan.middle, hplan.ofProblem, List.forall_mem_append, List.forall_mem_cons,
    List.forall_mem_flatMap, List.forall_mem_map, List.not_mem_nil, false_imp_iff, implies_true,
    and_true]
  refine ⟨⟨⟨⟨⟨⟨⟨hnote (by decide), fun s hs => ?_⟩, hnote (by decide), fun s hs => ?_⟩,
    hnote (by decide), fun s hs c hc => ?_⟩, hnote (by decide),
    isWhole_freeSymbols h hproper.freeSymbols⟩, Plan.isWhole_reversalCommands hkinds⟩,
    hnote (by decide), fun q hq => Command.isWhole_postulate (hproper.postulates q hq)⟩,
    hnote (by decide)⟩
  · exact (htables s (List.mem_filter.mp hs).1).1
  · exact (htables s (List.mem_filter.mp hs).1).2.1
  · exact harrays s hs c (List.mem_append_left _ (List.mem_append_left _ hc))

theorem isWhole_arrayCommands : ∀ c ∈ plan.arrayCommands, c.IsWhole := by
  have hnote : ∀ {text : String}, IsSingleLine text → (Command.note text).IsWhole :=
    Command.isWhole_note
  have harrays := isWhole_arrays hplan.arrays hproper.arrays hproper.constants
  simp only [Plan.arrayCommands, List.forall_mem_append, List.forall_mem_cons,
    List.forall_mem_flatMap, List.not_mem_nil, false_imp_iff, implies_true, and_true]
  refine ⟨⟨⟨hnote (by decide), fun s hs c hc => ?_⟩, hnote (by decide), fun s hs c hc => ?_⟩,
    hnote (by decide)⟩
  · exact harrays s hs c (List.mem_append_left _ (List.mem_append_right _ hc))
  · exact harrays s hs c (List.mem_append_right _ hc)

end IsProper

end Problem

end SolverScript
