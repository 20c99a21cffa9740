import SolverScript.Proofs.Script.Rendering
import SolverScript.Proofs.Semantics.Expressions

/-!
# The expressions of terms and definitions

A term that is made of words and applications is written as expressions, whatever its layout: line
breaks and the blanks that align its parts have no lexemes. So is the definition of a function with
such a body, between parentheses and behind its keyword, its name and its parameters.

## Main definitions

* `Term.isSpelled`, `Term.expressions` - terms of words and applications, and how they are written
* `SpellsEach` - the lexemes of lines
* `FunctionDefinition.expression` - how a definition is written

## Main results

* `Term.spells_render` - the text of a term
* `Layout.spellsEach_lines` - the lines of a layout
* `FunctionDefinition.spellsEach_lines` - the lines of a definition
-/

namespace SolverScript

/-! ### Lines -/

/-- Whether lines spell some lexemes, one line after the other. -/
inductive SpellsEach : List String → List Lexeme → Prop
  | nil : SpellsEach [] []
  | cons {line : String} {lines : List String} {first rest : List Lexeme} (h : Spells line first)
    (hrest : SpellsEach lines rest) : SpellsEach (line :: lines) (first ++ rest)

namespace SpellsEach

variable {ls ms : List String} {found more : List Lexeme}

theorem singleton {line : String} (h : Spells line found) : SpellsEach [line] found := by
  simpa using cons h nil

theorem append (hls : SpellsEach ls found) (hms : SpellsEach ms more) :
    SpellsEach (ls ++ ms) (found ++ more) := by
  induction hls with
  | nil => exact hms
  | cons h _ ih =>
    rw [List.cons_append, List.append_assoc]
    exact .cons h ih

theorem indented {indent : String} (hindent : Leads indent []) (h : SpellsEach ls found) :
    SpellsEach (ls.map (indent ++ ·)) found := by
  induction h with
  | nil => exact .nil
  | cons h _ ih => exact .cons (hindent.append_spells h) ih

/-- The lines of several expressions, one after the other. -/
theorem flatMap {β : Type} {lines : β → List String} {expression : β → Expression}
    (h : ∀ b, SpellsEach (lines b) (expression b).lexemes) (bs : List β) :
    SpellsEach (bs.flatMap lines) (Expression.lexemesAll (bs.map expression)) := by
  induction bs with
  | nil => exact .nil
  | cons b bs ih => exact (h b).append ih

/-- Lines or operands with something between them that does not continue words. -/
theorem joined {separator : String} (hseparator : Leads separator []) {c : Char} {cs : List Char}
    (hstart : separator.toList = c :: cs) (hc : isBreak c = true) (h : SpellsEach ls found) :
    Spells (joined separator ls) found := by
  induction h with
  | nil => exact spells_empty
  | @cons line lines first rest hline hlines ih =>
    cases hlines with
    | nil => simpa [SolverScript.joined] using hline
    | cons hnext hrest =>
      have hleads := hline.append_leads hseparator hstart hc
      rw [List.append_nil] at hleads
      exact hleads.append_spells ih

theorem joined_blank (h : SpellsEach ls found) : Spells (SolverScript.joined " " ls) found :=
  h.joined leads_blank rfl rfl

theorem joined_lineBreak (h : SpellsEach ls found) : Spells (SolverScript.joined "\n" ls) found :=
  h.joined leads_lineBreak rfl rfl

end SpellsEach

/-- A text in parentheses. -/
theorem Spells.inParentheses {t : String} {found : List Lexeme} (h : Spells t found) :
    Leads ("(" ++ t ++ ")") (.opening :: (found ++ [.closing])) :=
  (leads_opening.append_spells h).append_closing

/-! ### Terms and sorts -/

namespace Numeral

theorem isBreak_digitChar {d : Nat} (h : d < 16) : isBreak (Nat.digitChar d) = false := by
  have hdigits : ∀ d < 16, isBreak (Nat.digitChar d) = false := by decide
  exact hdigits d h

theorem isWord_decimal {value : Int} (h : 0 ≤ value) : isWord (decimal value).toList = true := by
  obtain ⟨n, rfl⟩ := Int.eq_ofNat_of_zero_le h
  have hdecimal : (decimal n).toList = Nat.toDigits 10 n := Nat.toList_repr
  have hne : Nat.toDigits 10 n ≠ [] := Nat.toDigits_ne_nil
  simp only [hdecimal, isWord, Bool.and_eq_true, Bool.not_eq_true', List.all_eq_true,
    List.isEmpty_eq_false_iff]
  refine ⟨hne, fun c hc => ?_⟩
  obtain ⟨d, hd, rfl⟩ := exists_digit_of_mem_toDigits (by decide) hc
  exact isBreak_digitChar (by omega)

/-- The digits of a padded number belong to one word, together with what marks their base. -/
theorem isWord_padded {b : Nat} (hb : 1 < b) (hb' : b ≤ 16) {marker : Char}
    (hmarker : isBreak marker = false) (k n : Nat) :
    isWord ('#' :: marker :: (padded b k n).toList) = true := by
  have hdigits : ∀ c ∈ (padded b k n).toList, isBreak c = false := by
    intro c hc
    rw [padded, String.toList_ofList, List.mem_append] at hc
    rcases hc with hc | hc
    · rw [List.eq_of_mem_replicate hc]
      decide
    · obtain ⟨d, hd, rfl⟩ := exists_digit_of_mem_toDigits hb hc
      exact isBreak_digitChar (by omega)
  have hmark : isBreak '#' = false := by decide
  simpa [isWord, hmark, hmarker] using hdigits

end Numeral

namespace Term

mutual

/-- Whether a term is made of words and applications. -/
def isSpelled : Term → Bool
  | symbol text => isWord text.toList
  | numeral value => decide (0 ≤ value)
  | binary _ _ => true
  | hexadecimal _ _ => true
  | app head operands => isSpelled head && areSpelled operands
  | adjacent ts => areSpelled ts
  | _ => false

/-- Whether several terms are made of words and applications. -/
def areSpelled : List Term → Bool
  | [] => true
  | t :: ts => isSpelled t && areSpelled ts

end

mutual

/-- How a term of words and applications is written. -/
def expressions : Term → List Expression
  | symbol text => [.word text.toList]
  | numeral value => [.word (Numeral.decimal value).toList]
  | binary bits value => [.word ('#' :: 'b' :: (Numeral.padded 2 bits value).toList)]
  | hexadecimal digits value => [.word ('#' :: 'x' :: (Numeral.padded 16 digits value).toList)]
  | app head operands => [.list (expressions head ++ expressionsAll operands)]
  | adjacent ts => expressionsAll ts
  | _ => []

/-- How several terms are written after each other. -/
def expressionsAll : List Term → List Expression
  | [] => []
  | t :: ts => expressions t ++ expressionsAll ts

end

/-- An application spells what its parts spell, in parentheses. -/
theorem spells_app {head : Term} {operands : List Term} {found : List Lexeme}
    (h : SpellsEach (head.render :: renderAll operands) found) :
    Spells (app head operands).render (.opening :: (found ++ [.closing])) :=
  h.joined_blank.inParentheses.spells

mutual

/-- The text of a term of words and applications. -/
theorem spells_render {t : Term} (h : t.isSpelled = true) :
    Spells t.render (Expression.lexemesAll t.expressions) := by
  cases t with
  | symbol text =>
    rw [expressions, Expression.lexemesAll, Expression.lexemes]
    exact spells_word h
  | numeral value =>
    rw [expressions, Expression.lexemesAll, Expression.lexemes]
    exact spells_word (Numeral.isWord_decimal (of_decide_eq_true h))
  | binary bits value =>
    rw [expressions, Expression.lexemesAll, Expression.lexemes]
    exact spells_of_toList_eq (by simp [render])
      (Numeral.isWord_padded (by decide) (by decide) (by decide) bits value)
  | hexadecimal digits value =>
    rw [expressions, Expression.lexemesAll, Expression.lexemes]
    exact spells_of_toList_eq (by simp [render])
      (Numeral.isWord_padded (by decide) (by decide) (by decide) digits value)
  | app head operands =>
    obtain ⟨hhead, hoperands⟩ := Bool.and_eq_true_iff.mp h
    have happ := spells_app (.cons (spells_render hhead) (spells_renderAll hoperands))
    rw [← Expression.lexemesAll_append] at happ
    rw [expressions, Expression.lexemesAll, Expression.lexemes, Expression.lexemesAll,
      List.append_nil]
    exact happ
  | adjacent ts => exact (spells_renderAll h).joined_blank
  | _ => cases h

theorem spells_renderAll {ts : List Term} (h : areSpelled ts = true) :
    SpellsEach (renderAll ts) (Expression.lexemesAll (expressionsAll ts)) := by
  cases ts with
  | nil => exact .nil
  | cons t ts =>
    obtain ⟨ht, hts⟩ := Bool.and_eq_true_iff.mp h
    rw [expressionsAll, Expression.lexemesAll_append]
    exact .cons (spells_render ht) (spells_renderAll hts)

end

end Term

/-- Whether a sort is a word. -/
def SortExpr.isSpelled : SortExpr → Bool
  | named name => isWord name.toList
  | _ => false

/-- How a sort is written that is a word. -/
def SortExpr.expression : SortExpr → Expression
  | named name => .word name.toList
  | _ => .list []

theorem SortExpr.spells_render {s : SortExpr} (h : s.isSpelled = true) :
    Spells s.render s.expression.lexemes := by
  cases s with
  | named name => exact spells_word h
  | indexed | applied => cases h

/-! ### Terms on several lines -/

namespace Layout

variable {ls : List String} {found more : List Lexeme}

theorem spellsEach_aligned {opening : String} (hopening : Leads opening found)
    (h : SpellsEach ls more) : SpellsEach (aligned opening ls) (found ++ more) := by
  cases h with
  | nil =>
    rw [List.append_nil]
    exact .singleton hopening.spells
  | cons hfirst hrest =>
    rw [← List.append_assoc]
    exact .cons (hopening.append_spells hfirst) (hrest.indented (leads_blanks _))

theorem spellsEach_closed (hne : ls ≠ []) (h : SpellsEach ls found) :
    SpellsEach (closed ")" ls) (found ++ [.closing]) := by
  induction h with
  | nil => exact absurd rfl hne
  | cons hline hlines ih =>
    cases hlines with
    | nil =>
      rw [List.append_nil]
      exact .singleton hline.append_closing.spells
    | cons hnext hrest =>
      rw [List.append_assoc]
      exact .cons hline (ih (List.cons_ne_nil _ _))

mutual

/-- The lines of a layout spell the term that it shows. -/
theorem spellsEach_lines {l : Layout} (h : l.term.isSpelled = true) :
    SpellsEach l.lines (Expression.lexemesAll l.term.expressions) := by
  cases l with
  | flat t => exact .singleton (Term.spells_render h)
  | stacked function further operands =>
    obtain ⟨hfunction, hoperands⟩ := Bool.and_eq_true_iff.mp h
    have hopening : Leads ("(" ++ function ++ " " ++ blanks further)
        [.opening, .word function.toList] :=
      (leads_opening.append_spells (spells_word hfunction)).append_blank.append
        (leads_blanks further)
    have hlines := spellsEach_closed (aligned_ne_nil _ _)
      (spellsEach_aligned hopening (spellsEach_stackedLines hoperands))
    simpa [term, lines, Term.expressions, Expression.lexemesAll, Expression.lexemes] using hlines

theorem spellsEach_stackedLines {ls : List Layout} (h : Term.areSpelled (terms ls) = true) :
    SpellsEach (stackedLines ls) (Expression.lexemesAll (Term.expressionsAll (terms ls))) := by
  cases ls with
  | nil => exact .nil
  | cons l ls =>
    obtain ⟨hl, hls⟩ := Bool.and_eq_true_iff.mp h
    rw [terms, Term.expressionsAll, Expression.lexemesAll_append]
    exact (spellsEach_lines hl).append (spellsEach_stackedLines hls)

end

end Layout

/-! ### Definitions of functions -/

namespace FunctionDefinition

/-- Whether a definition is made of words and applications. -/
def isSpelled (f : FunctionDefinition) : Bool :=
  isWord f.name.toList && f.parameters.all (fun b => isWord b.1.toList && b.2.isSpelled) &&
    f.result.isSpelled && f.body.term.isSpelled

/-- How a definition is written up to the body. -/
def header (keyword : String) (f : FunctionDefinition) : List Expression :=
  [.word keyword.toList, .word f.name.toList,
    .list (f.parameters.map fun b => .list [.word b.1.toList, b.2.expression]),
    f.result.expression]

/-- How a definition is written. -/
def expression (f : FunctionDefinition) : Expression :=
  .list (f.header "define-fun" ++ f.body.term.expressions)

theorem spells_renderBinder_of_spells {b : String × SortExpr} {name sort : List Lexeme}
    (hname : Spells b.1 name) (hsort : Spells b.2.render sort) :
    Spells (Term.renderBinder b) (.opening :: (name ++ sort ++ [.closing])) := by
  have hinside := hname.append_blank.append_spells hsort
  simpa [Term.renderBinder, String.append_assoc] using hinside.inParentheses.spells

theorem spells_renderBinder {b : String × SortExpr} (hname : isWord b.1.toList = true)
    (hsort : b.2.isSpelled = true) :
    Spells (Term.renderBinder b) (Expression.list [.word b.1.toList, b.2.expression]).lexemes := by
  have hbinder := spells_renderBinder_of_spells (spells_word hname) (SortExpr.spells_render hsort)
  simpa [Expression.lexemes, Expression.lexemesAll] using hbinder

theorem spellsEach_renderBinder {parameters : List (String × SortExpr)}
    (h : parameters.all (fun b => isWord b.1.toList && b.2.isSpelled) = true) :
    SpellsEach (parameters.map Term.renderBinder) (Expression.lexemesAll
      (parameters.map fun b => .list [.word b.1.toList, b.2.expression])) := by
  induction parameters with
  | nil => exact .nil
  | cons b parameters ih =>
    obtain ⟨hb, hrest⟩ := Bool.and_eq_true_iff.mp (by simpa only [List.all_cons] using h)
    obtain ⟨hname, hsort⟩ := Bool.and_eq_true_iff.mp hb
    exact .cons (spells_renderBinder hname hsort) (ih hrest)

/-- A definition up to the body starts a list with what its parts spell. -/
theorem spells_opening_of_spells {keyword : String} (hkeyword : isWord keyword.toList = true)
    {f : FunctionDefinition} {name binders result : List Lexeme} (hname : Spells f.name name)
    (hbinders : SpellsEach (f.parameters.map Term.renderBinder) binders)
    (hresult : Spells f.result.render result) :
    Spells (f.opening keyword) (.opening :: .word keyword.toList ::
      (name ++ .opening :: (binders ++ .closing :: result))) := by
  have hnames : Leads ("(" ++ keyword ++ " " ++ f.name ++ " ")
      (.opening :: .word keyword.toList :: name) :=
    ((leads_opening.append_spells (spells_word hkeyword)).append_blank.append_spells
      hname).append_blank
  have hopening := ((hnames.append hbinders.joined_blank.inParentheses).append
    leads_blank).append_spells hresult
  have hgap (t : String) : " (" ++ t = " " ++ ("(" ++ t) := by
    rw [← String.append_assoc]
    rfl
  simpa [opening, hgap, String.append_assoc] using hopening

/-- A definition up to the body opens a list and starts it. -/
theorem spells_opening {keyword : String} (hkeyword : isWord keyword.toList = true)
    {f : FunctionDefinition} (hname : isWord f.name.toList = true)
    (hparameters : f.parameters.all (fun b => isWord b.1.toList && b.2.isSpelled) = true)
    (hresult : f.result.isSpelled = true) :
    Spells (f.opening keyword) (.opening :: Expression.lexemesAll (f.header keyword)) := by
  have hopening := spells_opening_of_spells hkeyword (spells_word hname)
    (spellsEach_renderBinder hparameters) (SortExpr.spells_render hresult)
  simpa [header, Expression.lexemesAll, Expression.lexemes] using hopening

/-- The lines of a definition spell it. -/
theorem spellsEach_lines {f : FunctionDefinition} (h : f.isSpelled = true) :
    SpellsEach f.lines f.expression.lexemes := by
  simp only [isSpelled, Bool.and_eq_true] at h
  obtain ⟨⟨⟨hname, hparameters⟩, hresult⟩, hbody⟩ := h
  have hkeyword : isWord "define-fun".toList = true := by decide
  have hbody' := (Layout.spellsEach_lines hbody).indented (leads_blanks 3)
  have hlines := SpellsEach.cons (spells_opening hkeyword hname hparameters hresult)
    (hbody'.append (.singleton leads_closing.spells))
  simpa [lines, expression, Expression.lexemes, Expression.lexemesAll_append] using hlines

end FunctionDefinition

end SolverScript
