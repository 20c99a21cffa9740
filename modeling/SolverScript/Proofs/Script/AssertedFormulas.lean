import SolverScript.Proofs.Script.Content
import SolverScript.Proofs.Semantics.Expressions

/-!
# The formulas that commands assert

A command that asserts formulas has a layout of its own: one formula on a line, a conjunction with
its members below each other, or a quantifier and a local definition around either. In each layout a
solver reads one assertion of one formula, because it reads the same lexemes.

## Main definitions

* `Command.formula?` - the formula that a command asserts as a whole

## Main results

* `Command.lexemes_lines` - the lines of an assertion are read like its formula on a single line
-/

namespace SolverScript

/-! ### Texts behind each other -/

/-- Whether a character starts a new lexeme or separates two. A quote may go on with the one before.
-/
def startsLexeme (c : Char) : Bool := c == '(' || c == ')' || isSeparator c

namespace Lexer

/-- What was read of a lexeme is all of it, and the next character is read as if nothing was before.
-/
theorem step_of_startsLexeme {s : Lexer} (hs : s.mode = .plain) {c : Char}
    (hc : startsLexeme c = true) :
    s.step c = (s.completed ++ (between.step c).1, (between.step c).2) := by
  have hbreak : isBreak c = true := by
    simp only [startsLexeme, isBreak, isSpecial, Bool.or_eq_true] at hc ⊢
    tauto
  have hquote : c ≠ '"' := by
    rintro rfl
    exact absurd hc (by decide)
  cases s with
  | between => rfl
  | word w => exact if_pos hbreak
  | behindQuote w => exact if_neg hquote
  | literal | quotedSymbol | comment => cases hs

/-- The same of all that follows. -/
theorem read_of_startsLexeme {s : Lexer} (hs : s.mode = .plain) {cs : List Char}
    (hcs : cs.head?.all startsLexeme = true) :
    (s.read cs).1 ++ (s.read cs).2.completed =
      s.completed ++ ((between.read cs).1 ++ (between.read cs).2.completed) := by
  cases cs with
  | nil => simp [read, completed]
  | cons c cs =>
    rw [read, read, step_of_startsLexeme hs hcs]
    simp only [List.append_assoc]

end Lexer

/-- What leaves nothing open behind a text that does not either. -/
theorem IsClosed.of_append {s t : String} (hs : IsClosed s) (h : IsClosed (s ++ t)) :
    IsClosed t := by
  rwa [IsClosed, ReaderMode.run_append, hs] at h

/-- Behind a text that leaves nothing open, a parenthesis or a separator starts a new lexeme. -/
theorem IsClosed.lexemes_append {s t : String} (hs : IsClosed s)
    (ht : t.toList.head?.all startsLexeme = true) :
    lexemes (s ++ t) = lexemes s ++ lexemes t := by
  have hmode : (Lexer.between.read s.toList).2.mode = .plain :=
    (Lexer.mode_read .between s).trans hs
  unfold lexemes
  rw [String.toList_append, Lexer.read_append, List.append_assoc, List.append_assoc,
    Lexer.read_of_startsLexeme hmode ht]

/-- Nor does a separator belong to anything. -/
theorem IsClosed.lexemes_append_separator {s separator : String} (hs : IsClosed s)
    (hseparator : separator = " " ∨ separator = "\n") (t : String) :
    lexemes (s ++ separator ++ t) = lexemes s ++ lexemes t := by
  have hstart : (separator ++ t).toList.head?.all startsLexeme = true := by
    rw [String.toList_append]
    rcases hseparator with rfl | rfl
    · rfl
    · rfl
  have hnothing : lexemes (separator ++ t) = lexemes t := by
    rcases hseparator with rfl | rfl
    · exact leads_blank t
    · exact leads_lineBreak t
  rw [String.append_assoc, hs.lexemes_append hstart, hnothing]

/-- Closed texts with separators between them are read one after the other. -/
theorem lexemes_joined_of_isClosed {separator : String}
    (hseparator : separator = " " ∨ separator = "\n") {texts : List String}
    (h : ∀ t ∈ texts, IsClosed t) : lexemes (joined separator texts) = texts.flatMap lexemes := by
  fun_induction joined separator texts with
  | case1 => rfl
  | case2 text => rw [List.flatMap_singleton]
  | case3 text next rest ih =>
    obtain ⟨htext, hrest⟩ := List.forall_mem_cons.mp h
    rw [htext.lexemes_append_separator hseparator, ih hrest]
    rfl

theorem Term.renderAll_eq_map (ts : List Term) : renderAll ts = ts.map render := by
  induction ts with
  | nil => rfl
  | cons t ts ih => rw [renderAll, ih, List.map_cons]

namespace Command

/-- The formula that a command asserts as a whole. -/
def formula? : Command → Option Term
  | assert formula => some formula
  | assertAll (f :: fs) => some (.app (.symbol "and") (f :: fs))
  | assertResults name arguments formulas =>
    let names := (List.range arguments.length).map argumentName
    let call := Term.app (.symbol name) (names.map .symbol)
    some (.forAll (names.zip arguments) (.bind [resultName] [call] (Kind.conjunction formulas)))
  | _ => none

/-- Formulas below each other, behind what opens their conjunction. -/
theorem flatMap_lexemes_conjunctionLines {n : Nat} {first : String} {found : List Lexeme}
    (hfirst : Leads (first ++ "(and ") found) (f : Term) (fs : List Term) :
    (conjunctionLines (blanks n) first (f :: fs)).flatMap lexemes =
      found ++ ((f :: fs).map Term.render).flatMap lexemes := by
  have hrest : (fs.map fun f => blanks n ++ f.render).flatMap lexemes =
      (fs.map Term.render).flatMap lexemes := by
    rw [List.flatMap_map, List.flatMap_map]
    exact List.flatMap_congr fun f _ => leads_blanks n f.render
  rw [conjunctionLines, List.flatMap_cons, hfirst, hrest, List.map_cons, List.flatMap_cons,
    List.append_assoc]

/-- A conjunction on a single line. -/
theorem lexemes_render_conjunction {fs : List Term} (hfs : ∀ f ∈ fs, f.Over Name.IsClosed) :
    lexemes (Term.app (.symbol "and") fs).render = .opening :: .word "and".toList ::
      ((fs.map Term.render).flatMap lexemes ++ [.closing]) := by
  have hparts : ∀ t ∈ "and" :: Term.renderAll fs, SolverScript.IsClosed t :=
    List.forall_mem_cons.mpr ⟨by decide, Term.isClosed_renderAll hfs⟩
  have hjoined := lexemes_joined_of_isClosed (.inl rfl) hparts
  have hclosing : lexemes ")" = [.closing] := by decide
  rw [Term.render, Term.render, String.append_assoc, leads_opening,
    (IsClosed.joined (by decide) hparts).lexemes_append (by decide), hjoined, hclosing,
    Term.renderAll_eq_map]
  rfl

/-- The formulas about a result are read like their conjunction on a single line. -/
theorem flatMap_lexemes_resultLines {fs : List Term} (hfs : ∀ f ∈ fs, f.Over Name.IsClosed) :
    (resultLines fs).flatMap lexemes = lexemes (Kind.conjunction fs).render := by
  match fs with
  | [] => rfl
  | [f] => exact (List.flatMap_singleton ..).trans (leads_blanks 21 f.render)
  | f :: g :: rest =>
    have hfirst : Leads (blanks 21 ++ "(and ") [.opening, .word "and".toList] :=
      leads_of_read (by decide)
    have hclosing : [blanks 21 ++ ")"].flatMap lexemes = [.closing] := by decide
    rw [resultLines, List.flatMap_append, flatMap_lexemes_conjunctionLines hfirst, hclosing,
      Kind.conjunction, lexemes_render_conjunction hfs]
    rfl
    all_goals simp

/-- What is said about the results of a function is read like one formula, whatever the function is
called. -/
theorem lexemes_lines_assertResults {name : String} {arguments : List SortExpr}
    {formulas : List Term} {f : Term}
    (h : (assertResults name arguments formulas).formula? = some f)
    (hnames : ∀ x ∈ (assertResults name arguments formulas).names, x.IsClosed) :
    lexemes (joined "\n" (assertResults name arguments formulas).lines) =
      lexemes ("(assert " ++ f.render ++ ")") := by
  have hlines := (isCompositional_isClosed.assertResults_lines hnames).isClosed
  have hformulas : ∀ f ∈ formulas, f.Over Name.IsClosed :=
    Term.forall_mem_namesAll.mp fun x hx => hnames x (List.mem_append_right _ hx)
  obtain rfl := Option.some.inj h
  rw [lexemes_joined_of_isClosed (.inr rfl) hlines, lines, List.flatMap_append, List.flatMap_append,
    flatMap_lexemes_resultLines hformulas]
  set names := (List.range arguments.length).map argumentName
  set call := (Term.app (.symbol name) (names.map .symbol)).render
  have hbody : SolverScript.IsClosed (Kind.conjunction formulas).render :=
    Term.isClosed_render (Kind.over_conjunction vocabulary_isClosed hformulas)
  set body := (Kind.conjunction formulas).render
  set opening := "(assert (forall (" ++
    joined " " ((names.zip arguments).map Term.renderBinder) ++ ")" with hopening
  set definition := "(let ((" ++ resultName ++ " " ++ call ++ "))" with hdefinition
  -- The second line is indented, and what it is indented by has no lexemes.
  have hline : blanks 16 ++ "(let ((" ++ resultName ++ " " ++ call ++ "))" =
      blanks 16 ++ definition := by simp only [hdefinition, String.append_assoc]
  have hclosedOpening : SolverScript.IsClosed opening := hlines _ List.mem_cons_self
  have hclosedDefinition : SolverScript.IsClosed definition := by
    refine .of_append (isClosed_blanks 16) (hline ▸ hlines _ ?_)
    exact List.mem_cons_of_mem _ List.mem_cons_self
  have htext : "(assert " ++ (Term.forAll (names.zip arguments) (.bind [resultName]
      [.app (.symbol name) (names.map .symbol)] (Kind.conjunction formulas))).render ++ ")" =
      opening ++ " " ++ (definition ++ " " ++ (body ++ ")))")) := by
    rw [← String.toList_inj]
    simp [Term.render, Term.renderAll, Term.renderBindings, joined, hopening, hdefinition, call,
      body]
  rw [htext, hclosedOpening.lexemes_append_separator (.inl rfl),
    hclosedDefinition.lexemes_append_separator (.inl rfl), hbody.lexemes_append (by decide)]
  simp [hline, leads_blanks 16 definition, leads_blanks 16 ")))"]

/-- Formulas below each other are read like their conjunction on a single line. -/
theorem lexemes_lines_assertAll {g : Term} {gs : List Term}
    (hformulas : ∀ f ∈ g :: gs, f.Over Name.IsClosed) :
    lexemes (joined "\n" (assertAll (g :: gs)).lines) =
      lexemes ("(assert " ++ (Term.app (.symbol "and") (g :: gs)).render ++ ")") := by
  have hlines : ∀ l ∈ (assertAll (g :: gs)).lines, SolverScript.IsClosed l :=
    List.forall_mem_append.mpr
      ⟨isClosed_conjunctionLines (isClosed_blanks 13) (by decide) hformulas,
        List.forall_mem_singleton.mpr (by decide)⟩
  have hfirst : Leads ("(assert " ++ "(and ")
      [.opening, .word "assert".toList, .opening, .word "and".toList] := leads_of_read (by decide)
  have hopening : Leads "(assert " [.opening, .word "assert".toList] := leads_of_read (by decide)
  have hclosing : ["        ))"].flatMap lexemes = [.closing, .closing] := by decide
  have hconjunction : SolverScript.IsClosed (Term.app (.symbol "and") (g :: gs)).render :=
    Term.isClosed_render (Term.over_app.mpr
      ⟨Term.over_symbol.mpr (show SolverScript.IsClosed "and" by decide), hformulas⟩)
  have hend : lexemes ")" = [.closing] := by decide
  rw [lexemes_joined_of_isClosed (.inr rfl) hlines, lines, List.flatMap_append,
    flatMap_lexemes_conjunctionLines hfirst, hclosing, String.append_assoc, hopening,
    hconjunction.lexemes_append (by decide), lexemes_render_conjunction hformulas, hend]
  simp

/-- The lines of an assertion are read like its formula on a single line. -/
theorem lexemes_lines {c : Command} {f : Term} (h : c.formula? = some f)
    (hnames : ∀ x ∈ c.names, x.IsClosed) :
    lexemes (joined "\n" c.lines) = lexemes ("(assert " ++ f.render ++ ")") := by
  cases c with
  | assert formula =>
    obtain rfl := Option.some.inj h
    rfl
  | assertAll formulas =>
    cases formulas with
    | nil => cases h
    | cons g gs =>
      obtain rfl := Option.some.inj h
      exact lexemes_lines_assertAll (Term.forall_mem_namesAll.mp hnames)
  | assertResults name arguments formulas => exact lexemes_lines_assertResults h hnames
  | _ => cases h

end Command

end SolverScript
