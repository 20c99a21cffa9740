import SolverScript.Proofs.Script.ClosedTexts
import SolverScript.Proofs.Script.DirectCommands

/-!
# What scripts say besides their comments

Notes, remarks and the names of what the user postulates only show in comments. A reader who drops
comments finds the rest of a script, if each comment ends with its line and starts outside of string
literals and quoted symbols.

## Main definitions

* `Command.content?` - a command without the texts that only show in comments
* `Command.remarks` - those texts
* `Command.IsClosed` - commands whose names and lines leave nothing open
* `Script.content` - what a script says besides its comments

## Main results

* `Script.lexemes_content` - a script has the lexemes of its content
-/

namespace SolverScript

/-- A local definition without its remark. -/
def LocalDefinition.withoutRemark (d : LocalDefinition) : LocalDefinition :=
  { d with remark := none }

/-- A block without remarks. -/
def QuantifiedBlock.withoutRemarks (b : QuantifiedBlock) : QuantifiedBlock :=
  { b with definitions := b.definitions.map LocalDefinition.withoutRemark }

/-- What a user postulates, without its name. -/
def Postulate.withoutName (p : Postulate) : Postulate := { p with name := "" }

namespace Command

/-- A command without the texts that only show in comments. There is nothing else to a note. -/
def content? : Command → Option Command
  | note _ => none
  | setLogic name _ => some (setLogic name "")
  | postulate p => some (postulate p.withoutName)
  | assertForAll block => some (assertForAll block.withoutRemarks)
  | c => some c.withoutRemark

/-- The texts of a command that only show in comments. -/
def remarks : Command → List String
  | note text => [text]
  | setLogic _ remark | declareFun _ _ _ remark | defineFun _ _ _ remark => [remark]
  | postulate p => [p.name]
  | assertForAll block => block.definitions.filterMap LocalDefinition.remark
  | _ => []

/-- Whether the lines that a command passes on as they stand leave nothing open together. -/
def PassesOnClosed : Command → Prop
  | setting line => SolverScript.IsClosed line
  | setLogic name _ => SolverScript.IsClosed name
  | postulate p => SolverScript.IsClosed (terminated p.lines)
  | _ => True

/-- Whether the names in a command, and the lines that it passes on as they stand, leave no string
literal, quoted symbol or comment open. -/
structure IsClosed (c : Command) : Prop where
  names : ∀ x ∈ c.names, x.IsClosed
  declares : ∀ name ∈ c.declares, SolverScript.IsClosed name
  passedOn : c.PassesOnClosed

instance : DecidablePred PassesOnClosed
  | setting line => inferInstanceAs (Decidable (SolverScript.IsClosed line))
  | setLogic name _ => inferInstanceAs (Decidable (SolverScript.IsClosed name))
  | postulate p => inferInstanceAs (Decidable (SolverScript.IsClosed (terminated p.lines)))
  | note _ | declareSort _ | declareEnumeration .. | defineConstructorIndex .. | declareTuple _
  | declareSum | declareOptional | declareRationals | declareFun .. | defineFun ..
  | defineReversal .. | assert _ | assertSoft _ | assertAll _ | assertResults ..
  | assertForAll _ => isTrue trivial

instance : DecidablePred Command.IsClosed := fun c =>
  decidable_of_iff ((∀ x ∈ c.names, x.IsClosed) ∧
      (∀ name ∈ c.declares, SolverScript.IsClosed name) ∧ c.PassesOnClosed)
    ⟨fun h => ⟨h.1, h.2.1, h.2.2⟩, fun h => ⟨h.names, h.declares, h.passedOn⟩⟩

end Command

/-! ### Lines without remarks -/

section Lines

variable {ls : List String}

theorem readAlike_lines (h : ∀ l ∈ ls, IsClosed l) :
    ReadAlike (terminated ls) (terminated ls) :=
  .of_isClosed (.terminated h)

theorem readAlike_line {l : String} (hl : IsClosed l) : ReadAlike (terminated [l]) (terminated [l]) :=
  readAlike_lines (List.forall_mem_singleton.mpr hl)

/-- A remark behind a line, unless it is empty. -/
theorem readAlike_remarkText {l remark : String} (hl : IsClosed l) (hremark : IsSingleLine remark) :
    ReadAlike (terminated [l ++ remarkText remark]) (terminated [l ++ remarkText ""]) := by
  have hempty : l ++ remarkText "" = l := by simp [remarkText]
  rw [hempty]
  unfold remarkText
  split
  · rw [String.append_empty]
    exact readAlike_line hl
  · exact (ReadAlike.remark hl hremark).append ⟨[], rfl, rfl⟩

/-- A line that is a comment. -/
theorem readAlike_comment {opening text : String}
    (hopening : Lexer.between.read opening.toList = ([], .comment)) (htext : IsSingleLine text) :
    ReadAlike (terminated [opening ++ text]) (terminated []) := by
  simpa [terminated] using ReadAlike.comment hopening htext

end Lines

namespace QuantifiedBlock

theorem isClosed_closingLine (nesting : Nesting) {formula : Term}
    (h : formula.Over Name.IsClosed) : IsClosed (nesting.closingLine formula) := by
  have hparens : IsClosed (String.ofList (List.replicate nesting.closingParens.toNat ')')) := by
    refine ReaderMode.run_of_forall_step fun c hc => ?_
    rw [String.toList_ofList] at hc
    rw [List.eq_of_mem_replicate hc]
    rfl
  have hindent : IsClosed (if nesting.hasEquations then blanks 5 else "") := by
    split <;> decide
  exact .append (.append (.append hindent (isClosed_blanks 12)) (Term.isClosed_render h)) hparens

/-- A local definition is read as without its remark. -/
theorem readAlike_definition {d : LocalDefinition} (hvalue : d.value.Over Name.IsClosed)
    (hremark : ∀ text ∈ d.remark, IsSingleLine text) :
    ReadAlike (terminated [blanks 12 ++ d.line])
      (terminated [blanks 12 ++ d.withoutRemark.line]) := by
  have hbinding : IsClosed (blanks 12 ++
      ("(let ((" ++ d.node.name ++ " " ++ d.value.render ++ "))")) :=
    .append (isClosed_blanks 12) (isCompositional_isClosed.binding_text hvalue)
  unfold LocalDefinition.line LocalDefinition.withoutRemark
  dsimp only
  rw [← String.append_assoc, ← String.append_assoc, String.append_empty]
  cases hremark? : d.remark with
  | none =>
    rw [String.append_empty]
    exact readAlike_line hbinding
  | some text => exact (ReadAlike.remark hbinding (hremark text hremark?)).append ⟨[], rfl, rfl⟩

theorem readAlike_definitions {ds : List LocalDefinition}
    (h : ∀ d ∈ ds, d.value.Over Name.IsClosed ∧ ∀ text ∈ d.remark, IsSingleLine text) :
    ReadAlike (terminated (ds.map fun d => blanks 12 ++ d.line))
      (terminated (ds.map fun d => blanks 12 ++ d.withoutRemark.line)) := by
  induction ds with
  | nil => exact ⟨[], rfl, rfl⟩
  | cons d ds ih =>
    obtain ⟨⟨hvalue, hremark⟩, hds⟩ := List.forall_mem_cons.mp h
    exact (readAlike_definition hvalue hremark).terminated_append (ih hds)

theorem names_term_withoutRemarks (b : QuantifiedBlock) :
    b.withoutRemarks.term.names = b.term.names := by
  have hnested : ∀ (ds : List LocalDefinition) (body : Term),
      withDefinitions (ds.map LocalDefinition.withoutRemark) body = withDefinitions ds body := by
    intro ds body
    induction ds with
    | nil => rfl
    | cons d ds ih => exact congrArg (Term.bind [d.node.name] [d.value]) ih
  have hterm : b.withoutRemarks.term = b.term := by
    unfold term
    exact congrArg _ (hnested b.definitions b.conclusion)
  rw [hterm]

/-- A quantified part is read as without its remarks. -/
theorem readAlike_lines {b : QuantifiedBlock} (h : b.term.Over Name.IsClosed)
    (hremarks : ∀ d ∈ b.definitions, ∀ text ∈ d.remark, IsSingleLine text) :
    ReadAlike (terminated b.lines) (terminated b.withoutRemarks.lines) := by
  obtain ⟨huniversals, hdefinitions, hequations, hformula⟩ := (over_term vocabulary_isClosed).mp h
  have hopening := readAlike_line
    (isCompositional_isClosed.opening_block fun n hn => (huniversals n hn).2)
  have hdefinitions := readAlike_definitions
    fun d hd => ⟨(hdefinitions d hd).2, hremarks d hd⟩
  have hequations := SolverScript.readAlike_lines
    (isCompositional_isClosed.equationLines hequations).isClosed
  have hclosing := readAlike_line (isClosed_closingLine b.nesting hformula)
  have hheading : ∀ {text : String}, Lexer.between.read (terminated [text]).toList = ([], .between) →
      ReadAlike (terminated [text]) (terminated [text]) := fun h => ⟨[], h, h⟩
  -- Remarks do not count for the parentheses at the end.
  have hnesting : b.withoutRemarks.nesting = b.nesting := by
    simp [nesting, withoutRemarks]
  have hmap : b.withoutRemarks.definitions.map (fun d => blanks 12 ++ d.line) =
      b.definitions.map fun d => blanks 12 ++ d.withoutRemark.line := by
    rw [withoutRemarks, List.map_map]
    rfl
  unfold lines
  rw [hnesting, hmap]
  exact ((((hopening.terminated_append (hheading (by decide))).terminated_append
    hdefinitions).terminated_append (hheading (by decide))).terminated_append
      hequations).terminated_append
        ((hheading (by decide)).terminated_append hclosing)

end QuantifiedBlock

/-! ### Commands without remarks -/

namespace Command

/-- The comment behind the declaration of a sort is a fixed one. -/
theorem readAlike_declareSort {name : String} (hname : SolverScript.IsClosed name) :
    ReadAlike (terminated (declareSort name).lines) (terminated (declareSort name).lines) := by
  have hcomment : " 0)  ; N.B. Uninterpreted sort." =
      " 0) " ++ (" ; " ++ "N.B. Uninterpreted sort.") := by decide
  have hclosed : SolverScript.IsClosed ("(declare-sort " ++ name ++ " 0) ") :=
    .append (.append (by decide) hname) (by decide)
  obtain ⟨found, hread, -⟩ := ReadAlike.remark hclosed
    (show IsSingleLine "N.B. Uninterpreted sort." by decide)
  refine ReadAlike.append ?_ ⟨[], rfl, rfl⟩
  rw [hcomment, ← String.append_assoc]
  exact ⟨found, hread, hread⟩

theorem isClosed_conjunctionLines {indent first : String} {formulas : List Term}
    (hindent : SolverScript.IsClosed indent) (hfirst : SolverScript.IsClosed first)
    (h : ∀ f ∈ formulas, f.Over Name.IsClosed) :
    ∀ l ∈ conjunctionLines indent first formulas, SolverScript.IsClosed l :=
  (isCompositional_isClosed.conjunctionLines (a := 0) (b := 0) hindent
    (hfirst.append (by decide)) (fun _ => rfl) h).isClosed

/-- The heading of what the user postulates is a comment. -/
theorem readAlike_heading (isDefinition : Bool) {name : String} (hname : IsSingleLine name) :
    ReadAlike (terminated [";; -- user given " ++ (if isDefinition then "definition" else "axiom") ++
      ": " ++ name]) (terminated []) := by
  have hopening : ";; -- user given " = ";" ++ "; -- user given " := by decide
  have hkind : IsSingleLine (if isDefinition then "definition" else "axiom") := by
    cases isDefinition <;> decide
  rw [hopening, String.append_assoc, String.append_assoc, String.append_assoc]
  refine readAlike_comment (by decide) ?_
  simp only [isSingleLine_append]
  exact ⟨by decide, hkind, by decide, hname⟩

theorem readAlike_postulate {p : Postulate} (hname : IsSingleLine p.name)
    (hlines : SolverScript.IsClosed (terminated p.lines)) :
    ReadAlike (terminated (postulate p).lines) (terminated (postulate p.withoutName).lines) := by
  -- Both headings are read as nothing, so they are read alike.
  obtain ⟨found, hread, hnil⟩ := readAlike_heading p.isDefinition hname
  obtain ⟨found', hread', hnil'⟩ :=
    readAlike_heading p.isDefinition (show IsSingleLine "" by decide)
  obtain rfl : [] = found := congrArg Prod.fst hnil
  obtain rfl : [] = found' := congrArg Prod.fst hnil'
  have hheadings := ReadAlike.terminated_append ⟨[], hread, hread'⟩ (.of_isClosed hlines)
  exact hheadings

/-- A command is read as without its remarks. -/
theorem readAlike {c d : Command} (hcontent : c.content? = some d) (hclosed : d.IsClosed)
    (hremarks : ∀ text ∈ c.remarks, IsSingleLine text) :
    ReadAlike (terminated c.lines) (terminated d.lines) := by
  have hlist : ∀ {text : String} {P : String → Prop}, (∀ t ∈ [text], P t) → P text :=
    fun h => List.forall_mem_singleton.mp h
  -- A note is the one command without content. The others keep their lines but for remarks, so that
  -- the lines without remarks only have to leave nothing open.
  cases c with
  | note text => cases hcontent
  | setting line =>
    cases hcontent
    exact readAlike_line hclosed.passedOn
  | setLogic name remark =>
    cases hcontent
    exact readAlike_remarkText (.append (.append (by decide) hclosed.passedOn) (by decide))
      (hlist hremarks)
  | declareSort name =>
    cases hcontent
    exact readAlike_declareSort (hclosed.names (.sort name) (List.mem_singleton_self _))
  | declareEnumeration name constructors =>
    cases hcontent
    exact readAlike_line (isCompositional_isClosed.enumeration
      (hclosed.names (.sort name) (List.mem_singleton_self _)) hclosed.declares)
  | defineConstructorIndex name constructors =>
    cases hcontent
    exact readAlike_lines (FunctionDefinition.isClosed_lines
      (List.forall_mem_singleton.mp hclosed.declares) hclosed.names)
  | declareTuple arity =>
    cases hcontent
    exact .of_isClosed (isClosed_of_reads (Datatype.readsLines_tuple arity))
  | declareSum =>
    cases hcontent
    exact .of_isClosed (isClosed_of_reads Datatype.readsLines_sum)
  | declareOptional =>
    cases hcontent
    exact .of_isClosed (isClosed_of_reads Datatype.readsLines_optional)
  | declareRationals =>
    cases hcontent
    exact .of_isClosed (isClosed_of_reads Datatype.readsLines_rationals)
  | declareFun name domain range remark =>
    cases hcontent
    obtain ⟨hdomain, hrange⟩ := List.forall_mem_append.mp hclosed.names
    exact readAlike_remarkText (isCompositional_isClosed.declareFun_text
      (List.forall_mem_singleton.mp hclosed.declares)
      (SortExpr.forall_mem_flatMap_names.mp hdomain) hrange) (hlist hremarks)
  | defineFun name sort value remark =>
    cases hcontent
    obtain ⟨hsort, hvalue⟩ := List.forall_mem_append.mp hclosed.names
    exact readAlike_remarkText (isCompositional_isClosed.defineFun_text
      (List.forall_mem_singleton.mp hclosed.declares) hsort hvalue) (hlist hremarks)
  | defineReversal what name =>
    cases hcontent
    have hname : (what.definition name).name = name := by cases what <;> rfl
    refine readAlike_lines (FunctionDefinition.isClosed_recursiveLines ?_ hclosed.names)
    rw [hname]
    exact List.forall_mem_singleton.mp hclosed.declares
  | assert formula =>
    cases hcontent
    exact readAlike_line (.append (.append (by decide) (Term.isClosed_render hclosed.names))
      (by decide))
  | assertSoft formula =>
    cases hcontent
    exact readAlike_line (.append (.append (by decide) (Term.isClosed_render hclosed.names))
      (by decide))
  | assertAll formulas =>
    cases hcontent
    have hformulas := Term.forall_mem_namesAll.mp hclosed.names
    exact readAlike_lines (List.forall_mem_append.mpr
      ⟨isClosed_conjunctionLines (isClosed_blanks 13) (by decide) hformulas,
        List.forall_mem_singleton.mpr (by decide)⟩)
  | assertResults name arguments formulas =>
    cases hcontent
    exact readAlike_lines (isCompositional_isClosed.assertResults_lines hclosed.names).isClosed
  | postulate p =>
    cases hcontent
    exact readAlike_postulate (hlist hremarks) hclosed.passedOn
  | assertForAll block =>
    cases hcontent
    have hnames := hclosed.names
    change ∀ x ∈ block.withoutRemarks.term.names, x.IsClosed at hnames
    rw [block.names_term_withoutRemarks] at hnames
    exact QuantifiedBlock.readAlike_lines hnames fun d hd text htext =>
      hremarks text (List.mem_filterMap.mpr ⟨d, hd, htext⟩)

end Command

/-! ### Scripts without remarks -/

namespace Script

/-- What a script says besides its comments. -/
def content (cs : List Command) : List Command := cs.filterMap Command.content?

@[simp] theorem content_append (cs ds : List Command) :
    content (cs ++ ds) = content cs ++ content ds :=
  List.filterMap_append

theorem readAlike_content {cs : List Command} (hclosed : ∀ c ∈ content cs, c.IsClosed)
    (hremarks : ∀ c ∈ cs, ∀ text ∈ c.remarks, IsSingleLine text) :
    ReadAlike (terminated (lines cs)) (terminated (lines (content cs))) := by
  induction cs with
  | nil => exact ⟨[], rfl, rfl⟩
  | cons c cs ih =>
    obtain ⟨hc, hcs⟩ := List.forall_mem_cons.mp hremarks
    cases hcontent : c.content? with
    | none =>
      -- Only notes have no content, and their lines are comments.
      obtain ⟨text, rfl⟩ : ∃ text, c = .note text := by
        cases c <;> first | exact ⟨_, rfl⟩ | cases hcontent
      have hnote : ReadAlike (terminated ["; " ++ text]) (terminated []) :=
        readAlike_comment (by decide) (List.forall_mem_singleton.mp hc)
      have hcontent : content (.note text :: cs) = content cs := rfl
      rw [hcontent] at hclosed ⊢
      exact hnote.terminated_append (ih hclosed hcs)
    | some d =>
      have hcons : content (c :: cs) = d :: content cs := List.filterMap_cons_some hcontent
      rw [hcons] at hclosed ⊢
      obtain ⟨hd, hrest⟩ := List.forall_mem_cons.mp hclosed
      exact (Command.readAlike hcontent hd hc).terminated_append (ih hrest hcs)

/-- A script has the lexemes of its content. -/
theorem lexemes_content {cs : List Command} (hclosed : ∀ c ∈ content cs, c.IsClosed)
    (hremarks : ∀ c ∈ cs, ∀ text ∈ c.remarks, IsSingleLine text) :
    lexemes (joined "\n" (lines cs)) = lexemes (joined "\n" (lines (content cs))) :=
  lexemes_eq_of_readAlike (readAlike_content hclosed hremarks)

end Script

end SolverScript
