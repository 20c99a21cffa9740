import SolverScript.Proofs.Script.ElementaryCommands
import SolverScript.Proofs.Script.Remarks

/-!
# Comments do not influence commands

Problems that differ only in texts that show in comments have scripts with the same commands, as data
and for a reader who drops comments. The reader has to find the comments: no text may have a line
break, since a comment ends there, and nothing before a comment may be open that hides its start.

## Main definitions

* `Command.HasSingleLineRemarks` - commands whose comments end with their lines
* `SameCommands` - what the scripts of such problems have in common

## Main results

* `Problem.sameCommands` - the scripts of problems that differ in their texts
-/

namespace SolverScript

/-! ### Remarks without line breaks -/

/-- Whether the texts of a command that only show in comments have no line breaks. -/
def Command.HasSingleLineRemarks (c : Command) : Prop := ∀ text ∈ c.remarks, IsSingleLine text

namespace Command

theorem HasSingleLineRemarks.of_nil {c : Command} (h : c.remarks = []) :
    c.HasSingleLineRemarks := by
  rw [HasSingleLineRemarks, h]
  exact fun _ h => nomatch h

theorem HasSingleLineRemarks.note {text : String} (h : IsSingleLine text) :
    (Command.note text).HasSingleLineRemarks :=
  List.forall_mem_singleton.mpr h

theorem HasCompleteTexts.hasSingleLineRemarks {c : Command} (h : c.HasCompleteTexts) :
    c.HasSingleLineRemarks := by
  cases c with
  | note text => exact List.forall_mem_singleton.mpr h
  | setLogic name remark => exact List.forall_mem_singleton.mpr h.2
  | declareFun name domain range remark => exact List.forall_mem_singleton.mpr h
  | defineFun name sort value remark => exact List.forall_mem_singleton.mpr h
  | postulate p => exact List.forall_mem_singleton.mpr h.name
  | assertForAll block =>
    intro text htext
    obtain ⟨d, hd, hremark⟩ := List.mem_filterMap.mp htext
    exact h.1 d hd text hremark
  | _ => exact .of_nil rfl

end Command

theorem isSingleLine_empty : IsSingleLine "" := by decide

namespace Declaration

theorem hasSingleLineRemarks_defined {c : Capabilities} {n : Node} {value : Term} {remark : String}
    (hremark : IsSingleLine remark) : ∀ d ∈ defined c n value remark, d.HasSingleLineRemarks :=
  forall_mem_defined (List.forall_mem_singleton.mpr hremark)
    (List.forall_mem_singleton.mpr hremark) (.of_nil rfl)

theorem hasSingleLineRemarks_constant {config : Config} {c : Constant} {cs : List Command}
    (h : constant config c = .ok cs) : ∀ d ∈ cs, d.HasSingleLineRemarks :=
  forall_mem_constant h fun _ _ => hasSingleLineRemarks_defined isSingleLine_empty

theorem hasSingleLineRemarks_symbol {name remark : String} {kinds : List Kind} {cs : List Command}
    (h : symbol name kinds remark = .ok cs) (hremark : IsSingleLine remark) :
    ∀ c ∈ cs, c.HasSingleLineRemarks :=
  forall_mem_symbol h (fun _ _ => List.forall_mem_singleton.mpr hremark)
    (fun _ => forall_mem_constantInvariants (fun _ _ => .of_nil rfl) fun _ => .of_nil rfl)
    fun _ _ => List.forall_mem_singleton.mpr (.of_nil rfl)

end Declaration

namespace Initializer

theorem hasSingleLineRemarks_part (entity : String) (i : Nat) (equation : Term) :
    (part entity i equation).HasSingleLineRemarks :=
  List.forall_mem_singleton.mpr isSingleLine_empty

theorem hasSingleLineRemarks_parts (entity : String) (i : Nat) (equations : List Term) :
    ∀ c ∈ parts entity i equations, c.HasSingleLineRemarks :=
  forall_mem_parts fun j q _ => hasSingleLineRemarks_part entity j q

theorem hasSingleLineRemarks_setup (entity : String) (count : Nat) :
    ∀ c ∈ setup entity count, c.HasSingleLineRemarks := by
  have hremarks : ∀ remark ∈ ["", "no initialization needed"], IsSingleLine remark := by decide
  exact forall_mem_setup (fun _ remark hremark => List.forall_mem_singleton.mpr
    (hremarks remark hremark)) (.of_nil rfl)

end Initializer

theorem TableSetup.hasSingleLineRemarks_constantCommands (t : TableSetup) :
    ∀ c ∈ t.constantCommands, c.HasSingleLineRemarks :=
  List.forall_mem_cons.mpr ⟨List.forall_mem_singleton.mpr isSingleLine_empty,
    List.forall_mem_append.mpr ⟨Initializer.hasSingleLineRemarks_parts _ _ _,
      Initializer.hasSingleLineRemarks_setup _ _⟩⟩

theorem ArraySetup.hasSingleLineRemarks_sections {config : Config} {isQuantified : Bool}
    {constants : Constants} {skolems : SkolemMap} {arrays : List ArrayDatum}
    {setups : List ArraySetup}
    (h : arrays.mapM (ofArray config isQuantified constants skolems) = .ok setups) :
    (∀ c ∈ setups.flatMap declarations, c.HasSingleLineRemarks) ∧
      (∀ c ∈ setups.flatMap deferred, c.HasSingleLineRemarks) ∧
      ∀ c ∈ setups.flatMap setup, c.HasSingleLineRemarks :=
  forall_mem_sections h fun _ _ _ hs => forall_mem_ofArray hs rfl
    (fun _ hc => (texts_declaration hc).hasSingleLineRemarks)
    (fun q _ => Initializer.hasSingleLineRemarks_part _ 0 q)
    (Initializer.hasSingleLineRemarks_setup _)

theorem LogicQuery.hasSingleLineRemarks_choose {query : LogicQuery} {config : Config}
    {choice : LogicChoice} (h : query.choose config = .ok choice) :
    choice.command.HasSingleLineRemarks := by
  have hempty := isSingleLine_empty
  unfold choose at h
  split at h
  · rw [← Except.ok.inj h, userChoice]
    split <;> exact List.forall_mem_singleton.mpr (by decide)
  · split at h <;> cases h
    unfold bestChoice
    split
    · next reason hreason =>
      exact List.forall_mem_singleton.mpr (isSingleLine_append.mpr
        ⟨isSingleLine_of_catchAllReason? hreason, by decide⟩)
    split
    · exact List.forall_mem_singleton.mpr hempty
    split
    · exact List.forall_mem_singleton.mpr (by decide)
    split <;> exact List.forall_mem_singleton.mpr hempty
  · cases h

namespace Problem.HasSingleLineTexts

variable {config : Config} {p : Problem} {plan : Plan}

/-- The label of an assignment is the remark on its definition. -/
theorem isSingleLine_label (h : p.HasSingleLineTexts) {scope : Scope} {a : Assignment}
    (ha : a ∈ p.assignments) {value : Term} {label? : Option String}
    (hdefinition : scope.definition a.operation = .ok (value, label?)) :
    ∀ text ∈ label?, IsSingleLine text := by
  intro text htext
  refine h.labels a ha text ?_
  obtain rfl : label? = some text := htext
  unfold Scope.definition at hdefinition
  unfold Assignment.label?
  split at hdefinition
  · next text' n hlabel =>
    cases hdefinition
    rw [hlabel]
    rfl
  · obtain ⟨t, -, hdefinition⟩ := bind_eq_ok_iff.mp hdefinition
    cases hdefinition

theorem existentials (h : p.HasSingleLineTexts) (hplan : p.IsPlan config plan) {cs : List Command}
    (hcs : commandsOf plan.existentialCommands p.existentials = .ok cs) :
    ∀ c ∈ cs, c.HasSingleLineRemarks := by
  refine forall_mem_commandsOf hcs fun d hd ds hds =>
    Declaration.hasSingleLineRemarks_symbol hds ?_
  unfold Plan.inputRemark
  rw [hplan.ofProblem]
  split
  · next name hname =>
    split
    · exact isSingleLine_empty
    · have hname := h.userNames d hd name hname
      exact isSingleLine_append.mpr ⟨isSingleLine_append.mpr ⟨by decide, hname⟩, by decide⟩
  · exact isSingleLine_empty

theorem trackerCommands (h : p.HasSingleLineTexts) (hplan : p.IsPlan config plan)
    {cs : List Command} (hcs : plan.trackerCommands = .ok cs) :
    ∀ c ∈ cs, c.HasSingleLineRemarks := by
  refine Plan.forall_mem_trackerCommands hcs (.note (by decide)) fun t ht ds hds =>
    Declaration.hasSingleLineRemarks_symbol hds (isSingleLine_append.mpr ⟨by decide, ?_⟩)
  rw [hplan.ofProblem] at ht
  exact h.trackers t ht

theorem opening (h : p.HasSingleLineTexts) (hplan : p.IsPlan config plan) {tuples : List Command}
    (htuples : plan.features.tupleCommands = .ok tuples) :
    ∀ c ∈ plan.opening tuples, c.HasSingleLineRemarks := by
  obtain ⟨query, hlogic⟩ := hplan.logic
  have hcomments : ∀ c ∈ p.comments.map .note, Command.HasSingleLineRemarks c :=
    List.forall_mem_map.mpr fun text htext => .note (h.comments text htext)
  have hflatten : ∀ c ∈ plan.features.flattenCommands plan.config.capabilities,
      c.HasSingleLineRemarks := by
    unfold Features.flattenCommands
    split
    · exact List.forall_mem_map.mpr fun _ _ => .of_nil rfl
    · simp
  have hhead : ∀ c ∈ plan.headCommands, c.HasSingleLineRemarks := by
    unfold Plan.headCommands
    rw [hplan.ofProblem]
    simp only [List.forall_mem_append, List.forall_mem_singleton]
    exact ⟨⟨⟨⟨hcomments, List.forall_mem_map.mpr fun _ _ => .of_nil rfl⟩, .of_nil rfl⟩, hflatten⟩,
      LogicQuery.hasSingleLineRemarks_choose hlogic⟩
  have hsorts : ∀ c ∈ plan.features.sortCommands, c.HasSingleLineRemarks :=
    List.forall_mem_flatMap.mpr fun s _ =>
      Declaration.forall_mem_userSort (.of_nil rfl) fun _ _ => ⟨.of_nil rfl, .of_nil rfl⟩
  simp only [Plan.opening, List.forall_mem_append, List.forall_mem_cons]
  exact ⟨⟨⟨⟨hhead, .note (by decide), hsorts⟩, .note (by decide), fun c hc =>
    (Features.isWhole_tupleCommands htuples c hc).texts.hasSingleLineRemarks⟩, .note (by decide),
    fun c hc => (Features.isWhole_datatypeCommands _ c hc).texts.hasSingleLineRemarks⟩,
    .note (by decide), by simp⟩

theorem middle (h : p.HasSingleLineTexts) (hplan : p.IsPlan config plan) {freeSymbols : List Command}
    (hfreeSymbols : commandsOf (fun s => Declaration.symbol s.name s.signature "") p.freeSymbols =
      .ok freeSymbols) : ∀ c ∈ plan.middle freeSymbols, c.HasSingleLineRemarks := by
  have hreversals : ∀ c ∈ plan.reversalCommands, c.HasSingleLineRemarks :=
    plan.forall_mem_reversalCommands (.note (by decide)) fun _ _ => .of_nil rfl
  have hsymbols := forall_mem_commandsOf hfreeSymbols fun s _ ds hds =>
    Declaration.hasSingleLineRemarks_symbol hds isSingleLine_empty
  obtain ⟨harrays, -, -⟩ := ArraySetup.hasSingleLineRemarks_sections hplan.arrays
  simp only [Plan.middle, hplan.ofProblem, List.forall_mem_append, List.forall_mem_cons,
    List.forall_mem_map]
  exact ⟨⟨⟨⟨⟨⟨⟨.note (by decide), List.forall_mem_flatMap.mpr fun t _ =>
      t.hasSingleLineRemarks_constantCommands⟩,
    .note (by decide), fun t _ => List.forall_mem_singleton.mpr isSingleLine_empty⟩,
    .note (by decide), harrays⟩, .note (by decide), hsymbols⟩, hreversals⟩,
    .note (by decide), fun q hq => List.forall_mem_singleton.mpr (h.postulates q hq)⟩,
    .note (by decide), by simp⟩

theorem arrayCommands (hplan : p.IsPlan config plan) :
    ∀ c ∈ plan.arrayCommands, c.HasSingleLineRemarks := by
  obtain ⟨-, hdeferred, hsetup⟩ := ArraySetup.hasSingleLineRemarks_sections hplan.arrays
  simp only [Plan.arrayCommands, List.forall_mem_append, List.forall_mem_cons]
  exact ⟨⟨⟨.note (by decide), hdeferred⟩, .note (by decide), hsetup⟩, .note (by decide), by simp⟩

theorem conclusionCommands (h : p.HasSingleLineTexts) (hplan : p.IsPlan config plan)
    {conclusion : List Command} (hconclusion : plan.conclusionCommands = .ok conclusion) :
    ∀ c ∈ conclusion, c.HasSingleLineRemarks := by
  by_cases huniversals : p.universals = []
  · rw [hplan.conclusionCommands_of_open huniversals] at hconclusion
    cases hconclusion
    unfold Plan.openCommands FinalFormula.commands
    simp only [List.forall_mem_append, List.forall_mem_cons, List.forall_mem_map]
    exact ⟨⟨⟨⟨.note (by decide), .note (by decide), by simp⟩, fun _ _ => .of_nil rfl⟩,
      .note (by decide), by simp⟩, fun _ _ => .of_nil rfl, fun _ _ => .of_nil rfl⟩
  · rw [Plan.conclusionCommands, (hplan.conclusion_of_quantified huniversals).2] at hconclusion
    obtain ⟨definitions, hdefinitions, hconclusion⟩ := bind_eq_ok_iff.mp hconclusion
    cases hconclusion
    refine List.forall_mem_singleton.mpr fun text htext => ?_
    obtain ⟨d, hd, hremark⟩ := List.mem_filterMap.mp htext
    obtain ⟨a, ha, hlocal⟩ := exists_of_mem_mapM hdefinitions hd
    obtain ⟨⟨value, label?⟩, hdefinition, hlocal⟩ := bind_eq_ok_iff.mp hlocal
    cases hlocal
    rw [hplan.late] at ha
    exact h.isSingleLine_label (List.dropWhile_subset _ ha) hdefinition text hremark

/-- No remark in the script has a line break. -/
theorem remarks (h : p.HasSingleLineTexts) {script : CompiledScript}
    (hscript : p.compile config = .ok script) :
    ∀ c ∈ script.commands, c.HasSingleLineRemarks := by
  obtain ⟨plan, hplan, hcommands⟩ := exists_plan_of_compile hscript
  obtain ⟨tuples, constants, existentials, trackers, freeSymbols, definitions, conclusion, htuples,
    hconstants, hexistentials, htrackers, hfreeSymbols, hdefinitions, hconclusion, hsections⟩ :=
    Plan.exists_sections_of_commands hcommands
  rw [hplan.ofProblem] at hconstants hexistentials hfreeSymbols
  have hdefined : ∀ c ∈ definitions, c.HasSingleLineRemarks := by
    refine forall_mem_commandsOf hdefinitions fun a ha ds hds => ?_
    obtain ⟨⟨value, label?⟩, hdefinition, hds⟩ := bind_eq_ok_iff.mp hds
    cases hds
    rw [hplan.early] at ha
    refine Declaration.hasSingleLineRemarks_defined ?_
    have hlabel := h.isSingleLine_label (List.takeWhile_subset _ ha) hdefinition
    -- A definition without a label has the empty remark.
    cases label? with
    | none => exact isSingleLine_empty
    | some text => exact hlabel text rfl
  rw [hsections]
  simp only [List.forall_mem_append, List.forall_mem_cons]
  exact ⟨⟨⟨⟨⟨⟨⟨h.opening hplan htuples, forall_mem_commandsOf hconstants fun c _ ds hds =>
    Declaration.hasSingleLineRemarks_constant hds⟩, List.forall_mem_singleton.mpr (by decide),
    h.existentials hplan hexistentials⟩, h.trackerCommands hplan htrackers⟩,
    h.middle hplan hfreeSymbols⟩, hdefined⟩, arrayCommands hplan⟩,
    h.conclusionCommands hplan hconclusion⟩

end Problem.HasSingleLineTexts

/-! ### Scripts with the same commands -/

/-- What the scripts of two problems have in common whose texts differ. A reader who drops comments
finds the same commands, if comments end with their lines, and neither the names in the script nor
the lines that are passed on hide the start of a comment. -/
structure SameCommands (p q : Problem) (s t : CompiledScript) : Prop where
  content : Script.content s.commands = Script.content t.commands
  lexemes : p.HasSingleLineTexts → q.HasSingleLineTexts →
    (∀ c ∈ Script.content s.commands, c.IsClosed) →
      lexemes (joined "\n" s.lines) = lexemes (joined "\n" t.lines)

namespace Problem

variable {config : Config} {p q : Problem}

/-- The script of a problem says the same without its texts. -/
theorem sameOutcome_withoutTexts (config : Config) (p : Problem) :
    SameOutcome (fun s t => SameContent s.commands t.commands) (p.compile config)
      (p.withoutTexts.compile config) := by
  unfold compile
  rw [plan_withoutTexts]
  cases p.plan config with
  | error e => exact .error e e
  | ok plan => exact plan.sameOutcome_commands.bind fun cs ds h => .ok h

/-- Comments, the names that the user knows inputs and trackers by, the texts of labels, and the
names of postulates and arrays do not influence whether there is a script, nor its commands. -/
theorem sameCommands (config : Config) (h : p.withoutTexts = q.withoutTexts) :
    SameOutcome (SameCommands p q) (p.compile config) (q.compile config) := by
  -- Both scripts are compared with the one of the problem without texts.
  have hp := p.sameOutcome_withoutTexts config
  have hq := q.sameOutcome_withoutTexts config
  rw [← h] at hq
  generalize p.withoutTexts.compile config = common at hp hq
  cases hs : p.compile config with
  | error e =>
    rw [hs] at hp
    cases hp
    generalize q.compile config = other at hq
    cases hq
    exact .error _ _
  | ok s =>
    rw [hs] at hp
    cases hp with
    | ok hps =>
      cases ht : q.compile config with
      | error e =>
        rw [ht] at hq
        cases hq
      | ok t =>
        rw [ht] at hq
        cases hq with
        | ok hqt =>
          have hcontent : Script.content s.commands = Script.content t.commands := hps.trans hqt.symm
          refine .ok ⟨hcontent, fun hp hq hclosed => ?_⟩
          calc lexemes (joined "\n" s.lines)
              = lexemes (joined "\n" (Script.lines (Script.content s.commands))) :=
                Script.lexemes_content hclosed (hp.remarks hs)
            _ = lexemes (joined "\n" (Script.lines (Script.content t.commands))) := by
                rw [hcontent]
            _ = lexemes (joined "\n" t.lines) :=
                (Script.lexemes_content (hcontent ▸ hclosed) (hq.remarks ht)).symm

/-- A problem with the same text in all places that only show in comments. -/
def annotated (text : String) : Problem where
  comments := [text]
  kinds := [.bool]
  inputs := [⟨⟨0, .bool⟩, text⟩]
  trackers := [⟨⟨1, .bool⟩, text⟩]
  quantified := [.existential ⟨0, .bool⟩ []]
  arrays := [⟨0, text, .bool, .bool, .free none⟩]
  postulates := [⟨false, text, ["(assert true)"]⟩]
  assignments := [⟨⟨2, .bool⟩, ⟨.label text, [⟨0, .bool⟩]⟩⟩]
  goal := ⟨2, .bool⟩

theorem hasSingleLineTexts_annotated {text : String} (h : IsSingleLine text) :
    (annotated text).HasSingleLineTexts where
  comments := List.forall_mem_singleton.mpr h
  userNames := List.forall_mem_singleton.mpr fun name hname => by
    obtain rfl : text = name := Option.some.inj hname
    exact h
  trackers := List.forall_mem_singleton.mpr h
  labels := List.forall_mem_singleton.mpr fun label hlabel => by
    obtain rfl : text = label := Option.some.inj hlabel
    exact h
  postulates := List.forall_mem_singleton.mpr h

theorem isClosed_annotated {t : CompiledScript} (ht : (annotated "x").compile {} = .ok t) :
    ∀ c ∈ Script.content t.commands, c.IsClosed := by
  obtain rfl := Except.ok.inj ht
  decide +kernel

theorem sameCommands_annotated :
    (annotated "x").withoutTexts = (annotated "; not closed: (\"").withoutTexts ∧
      ∃ s t, (annotated "x").compile {} = .ok s ∧
        (annotated "; not closed: (\"").compile {} = .ok t ∧
          Script.content s.commands = Script.content t.commands ∧
            lexemes (joined "\n" s.lines) = lexemes (joined "\n" t.lines) := by
  have h : (annotated "x").withoutTexts = (annotated "; not closed: (\"").withoutTexts := rfl
  have hsame := sameCommands {} h
  obtain ⟨s, hs⟩ : ∃ s, (annotated "x").compile {} = .ok s := ⟨_, rfl⟩
  obtain ⟨t, ht⟩ : ∃ t, (annotated "; not closed: (\"").compile {} = .ok t := ⟨_, rfl⟩
  rw [hs, ht] at hsame
  cases hsame with
  | ok hst =>
    exact ⟨h, s, t, hs, ht, hst.content, hst.lexemes (hasSingleLineTexts_annotated (by decide))
      (hasSingleLineTexts_annotated (by decide)) (isClosed_annotated hs)⟩

/-- A problem with nothing but a comment. -/
def commented (text : String) : Problem where
  comments := [text]

/-- A comment that goes on behind a line break is read as a command there. -/
theorem not_sameCommands :
    ¬∀ (config : Config) (p q : Problem), p.withoutTexts = q.withoutTexts →
      SameOutcome (fun s t => lexemes (joined "\n" s.lines) = lexemes (joined "\n" t.lines))
        (p.compile config) (q.compile config) := by
  intro h
  have hsame := h {} (commented "x") (commented "x\n(assert false)") rfl
  obtain ⟨s, hs⟩ : ∃ s, (commented "x").compile {} = .ok s := ⟨_, rfl⟩
  obtain ⟨t, ht⟩ : ∃ t, (commented "x\n(assert false)").compile {} = .ok t := ⟨_, rfl⟩
  rw [hs, ht] at hsame
  -- The scripts differ in their first comment, whose second line is a command in one of them.
  have hlines : s.lines.take 2 = ["; x", "(set-option :produce-models true)"] ∧
      t.lines.take 2 = ["; x\n(assert false)", "(set-option :produce-models true)"] ∧
        s.lines.drop 2 = t.lines.drop 2 := by
    obtain rfl := Except.ok.inj hs
    obtain rfl := Except.ok.inj ht
    decide +kernel
  obtain ⟨hsfirst, htfirst, hrest⟩ := hlines
  have hslines := (List.take_append_drop 2 s.lines).symm
  have htlines := (List.take_append_drop 2 t.lines).symm
  rw [hsfirst] at hslines
  rw [htfirst, ← hrest] at htlines
  have hcomment : Lexer.between.read ("; x" ++ "\n").toList = ([], .between) := by decide
  have hassert : Lexer.between.read ("; x\n(assert false)" ++ "\n").toList =
      ([.opening, .word "assert".toList, .word "false".toList, .closing], .between) := by decide
  cases hsame with
  | ok hst =>
    rw [hslines, htlines, List.cons_append, List.cons_append, List.cons_append, List.cons_append,
      joined, joined, lexemes_append hcomment, lexemes_append hassert] at hst
    have hlength := congrArg List.length hst
    rw [List.length_append, List.length_append, Nat.add_right_cancel_iff] at hlength
    cases hlength

end Problem

end SolverScript
