import SolverScript.Proofs.Semantics.Digits
import SolverScript.Proofs.Semantics.Lexemes
import SolverScript.Script.FunctionDefinition

/-!
# The expressions of a text

A text is read as lists of expressions in parentheses, and an expression as a term: a word is a
literal or a symbol, and a list is the application of its first part to the others. This is the part
of the target language that constants and the definitions of functions are written in; string
literals, quoted symbols and the special forms have no terms here.

## Main definitions

* `Expression`, `Expression.readAll?` - expressions, and those that a text consists of
* `Expression.term?`, `readTerm?` - the term of an expression, and of a text
* `Expression.definition?`, `readDefinitions` - the definitions of functions in a text
* `Leads`, `Spells` - which lexemes a text contributes to what it is followed by

## Main results

* `spells_word`, `Leads.append`, `Leads.append_spells`, `Spells.append_leads` - how texts are put
  together
* `readAll?_of_spells` - a text that spells expressions consists of them
-/

namespace SolverScript

/-- A word, a literal, a symbol between bars, or a list of expressions in parentheses. -/
inductive Expression where
  | word (characters : List Char)
  | literal (characters : List Char)
  | quotedSymbol (characters : List Char)
  | list (parts : List Expression)

namespace Expression

/-- Reads lexemes behind some parts of a list, the last part first. The lists around it that are
still open are `enclosing`. -/
def readFrom? (enclosing : List (List Expression)) (parts : List Expression) :
    List Lexeme → Option (List Expression)
  | [] => if enclosing.isEmpty then some parts.reverse else none
  | .opening :: rest => readFrom? (parts :: enclosing) [] rest
  | .closing :: rest =>
    match enclosing with
    | [] => none
    | outer :: enclosing => readFrom? enclosing (.list parts.reverse :: outer) rest
  | .word cs :: rest => readFrom? enclosing (.word cs :: parts) rest
  | .literal cs :: rest => readFrom? enclosing (.literal cs :: parts) rest
  | .quotedSymbol cs :: rest => readFrom? enclosing (.quotedSymbol cs :: parts) rest

/-- The expressions that a text consists of; `none` if its parentheses do not match. -/
def readAll? (text : String) : Option (List Expression) := readFrom? [] [] (lexemes text)

end Expression

/-- The term of a word: a literal, if it has the form of one, and a symbol otherwise. -/
def Term.ofWord (cs : List Char) : Term :=
  match cs with
  | '#' :: 'b' :: ds => (digitsValue? 2 ds).elim (.symbol (.ofList cs)) (.binary ds.length)
  | '#' :: 'x' :: ds => (digitsValue? 16 ds).elim (.symbol (.ofList cs)) (.hexadecimal ds.length)
  | ds => (digitsValue? 10 ds).elim (.symbol (.ofList cs)) fun n => .numeral n

namespace Expression

mutual

/-- The term of an expression. -/
def term? : Expression → Option Term
  | word cs => some (Term.ofWord cs)
  | list (head :: operand :: operands) => do
    return .app (← term? head) (← terms? (operand :: operands))
  | _ => none

/-- The terms of several expressions. -/
def terms? : List Expression → Option (List Term)
  | [] => some []
  | e :: es => do return (← term? e) :: (← terms? es)

end

/-- The text of a word. -/
def text? : Expression → Option String
  | word cs => some (String.ofList cs)
  | _ => none

/-- A variable with its sort, which has to be a word as well. -/
def binder? : Expression → Option (String × SortExpr)
  | list [name, sort] => do return (← text? name, .named (← text? sort))
  | _ => none

/-- The definition of a function. Where its line breaks were is not kept. -/
def definition? : Expression → Option FunctionDefinition
  | list [keyword, name, list parameters, result, body] =>
    if text? keyword = some "define-fun" then do
      return {
        name := ← text? name
        parameters := ← parameters.mapM binder?
        result := .named (← text? result)
        body := .flat (← term? body) }
    else none
  | _ => none

end Expression

/-- The term of a text, if it consists of a single expression. -/
def readTerm? (text : String) : Option Term :=
  match Expression.readAll? text with
  | some [e] => e.term?
  | _ => none

/-- The definitions of functions in a text, in their order. -/
def readDefinitions (text : String) : List FunctionDefinition :=
  ((Expression.readAll? text).getD []).filterMap Expression.definition?

/-! ### The lexemes of expressions -/

namespace Expression

mutual

/-- The lexemes of an expression. -/
def lexemes : Expression → List Lexeme
  | word cs => [.word cs]
  | literal cs => [.literal cs]
  | quotedSymbol cs => [.quotedSymbol cs]
  | list parts => .opening :: (lexemesAll parts ++ [.closing])

/-- The lexemes of several expressions. -/
def lexemesAll : List Expression → List Lexeme
  | [] => []
  | e :: es => lexemes e ++ lexemesAll es

end

theorem lexemesAll_append (es fs : List Expression) :
    lexemesAll (es ++ fs) = lexemesAll es ++ lexemesAll fs := by
  induction es with
  | nil => rfl
  | cons e es ih => rw [List.cons_append, lexemesAll, ih, lexemesAll, List.append_assoc]

mutual

/-- The lexemes of an expression are read as the next part of the list that they stand in. -/
theorem readFrom?_lexemes (enclosing : List (List Expression)) (parts : List Expression)
    (e : Expression) (rest : List Lexeme) :
    readFrom? enclosing parts (e.lexemes ++ rest) = readFrom? enclosing (e :: parts) rest := by
  cases e with
  | list es =>
    rw [lexemes, List.cons_append, List.append_assoc, readFrom?,
      readFrom?_lexemesAll (parts :: enclosing) [] es]
    simp [readFrom?]
  | _ => rfl

theorem readFrom?_lexemesAll (enclosing : List (List Expression)) (parts es : List Expression)
    (rest : List Lexeme) :
    readFrom? enclosing parts (lexemesAll es ++ rest) =
      readFrom? enclosing (es.reverse ++ parts) rest := by
  cases es with
  | nil => rfl
  | cons e es =>
    rw [lexemesAll, List.append_assoc, readFrom?_lexemes enclosing parts e,
      readFrom?_lexemesAll enclosing (e :: parts) es]
    simp

end

end Expression

/-! ### Texts and their lexemes -/

/-- Whether a character can follow a word without belonging to it. -/
def isBreak (c : Char) : Bool := isSpecial c || isSeparator c

/-- Whether characters belong together as one word. -/
def isWord (cs : List Char) : Bool := !cs.isEmpty && cs.all fun c => !isBreak c

/-- Whether a text starts with some lexemes, and nothing that follows belongs to the last one. -/
def Leads (text : String) (found : List Lexeme) : Prop :=
  ∀ rest, lexemes (text ++ rest) = found ++ lexemes rest

/-- Whether a text starts with some lexemes, if what follows does not continue a word. -/
def Spells (text : String) (found : List Lexeme) : Prop :=
  ∀ rest, (∀ c ∈ rest.toList.head?, isBreak c = true) →
    lexemes (text ++ rest) = found ++ lexemes rest

variable {s t : String} {found more : List Lexeme}

theorem leads_of_read (h : Lexer.between.read t.toList = (found, .between)) : Leads t found :=
  fun _ => lexemes_append h

theorem leads_blank : Leads " " [] := leads_of_read rfl

theorem leads_lineBreak : Leads "\n" [] := leads_of_read rfl

theorem leads_opening : Leads "(" [.opening] := leads_of_read rfl

theorem leads_closing : Leads ")" [.closing] := leads_of_read rfl

theorem Leads.spells (h : Leads t found) : Spells t found := fun rest _ => h rest

theorem Leads.append (hs : Leads s found) (ht : Leads t more) : Leads (s ++ t) (found ++ more) := by
  intro rest
  rw [String.append_assoc, hs, ht, List.append_assoc]

theorem Leads.append_spells (hs : Leads s found) (ht : Spells t more) :
    Spells (s ++ t) (found ++ more) := by
  intro rest hrest
  rw [String.append_assoc, hs, ht rest hrest, List.append_assoc]

/-- A text may be followed by one that does not continue a word. -/
theorem Spells.append_leads (hs : Spells s found) (ht : Leads t more) {c : Char} {cs : List Char}
    (hstart : t.toList = c :: cs) (hc : isBreak c = true) : Leads (s ++ t) (found ++ more) := by
  intro rest
  have hbreak : ∀ d ∈ (t ++ rest).toList.head?, isBreak d = true := by
    rw [String.toList_append, hstart]
    rintro d ⟨⟩
    exact hc
  rw [String.append_assoc, hs _ hbreak, ht, List.append_assoc]

theorem Spells.append_blank (hs : Spells s found) : Leads (s ++ " ") found := by
  simpa using hs.append_leads leads_blank rfl rfl

theorem Spells.append_closing (hs : Spells s found) : Leads (s ++ ")") (found ++ [.closing]) :=
  hs.append_leads leads_closing rfl rfl

theorem spells_empty : Spells "" [] := fun _ _ => by simp

theorem leads_blanks (n : Nat) : Leads (blanks n) [] := by
  refine leads_of_read ?_
  rw [blanks, String.toList_ofList]
  induction n with
  | zero => rfl
  | succ n ih =>
    have hstep : Lexer.between.step ' ' = ([], .between) := rfl
    rw [List.replicate_succ, Lexer.read, hstep, ih]
    rfl

/-- The lexemes of a text on its own. -/
theorem Spells.lexemes_eq (h : Spells t found) : lexemes t = found := by
  simpa [SolverScript.lexemes, Lexer.read, Lexer.completed] using h "" (by simp)

/-- A text that spells expressions consists of them. -/
theorem readAll?_of_spells {es : List Expression} (h : Spells t (Expression.lexemesAll es)) :
    Expression.readAll? t = some es := by
  have hread := Expression.readFrom?_lexemesAll [] [] es []
  rw [List.append_nil] at hread
  rw [Expression.readAll?, h.lexemes_eq, hread]
  simp [Expression.readFrom?]

theorem readTerm?_of_spells {e : Expression} (h : Spells t e.lexemes) :
    readTerm? t = e.term? := by
  have hspells : Spells t (Expression.lexemesAll [e]) := by simpa [Expression.lexemesAll] using h
  rw [readTerm?, readAll?_of_spells hspells]

/-! ### Words -/

namespace Lexer

theorem start_of_not_isBreak {c : Char} (h : isBreak c = false) : start c = ([], word [c]) := by
  obtain ⟨hspecial, hseparator⟩ := Bool.or_eq_false_iff.mp h
  simp only [isSpecial, Bool.or_eq_false_iff, beq_eq_false_iff_ne] at hspecial
  simp [start, hspecial, hseparator]

/-- Behind a word, further characters of a word belong to it. -/
theorem read_word {cs : List Char} (h : ∀ c ∈ cs, isBreak c = false) (before : List Char) :
    (word before).read cs = ([], word (before ++ cs)) := by
  induction cs generalizing before with
  | nil => simp [read]
  | cons c cs ih =>
    obtain ⟨hc, hcs⟩ := List.forall_mem_cons.mp h
    have hstep : (word before).step c = ([], word (before ++ [c])) :=
      if_neg (by simpa [isBreak] using hc)
    rw [read, hstep, ih hcs, List.append_assoc]
    rfl

/-- A word is complete when a character follows that does not continue it, or none. -/
theorem read_behind_word {w cs : List Char} (h : ∀ c ∈ cs.head?, isBreak c = true) :
    ((word w).read cs).1 ++ ((word w).read cs).2.completed =
      .word w :: ((between.read cs).1 ++ (between.read cs).2.completed) := by
  cases cs with
  | nil => rfl
  | cons c cs =>
    have hstep : (word w).step c = (.word w :: (between.step c).1, (between.step c).2) :=
      if_pos (h c rfl)
    rw [read, read, hstep]
    rfl

end Lexer

/-- A word is a lexeme of its own, unless it is continued. -/
theorem spells_word (h : isWord t.toList = true) : Spells t [.word t.toList] := by
  simp only [isWord, Bool.and_eq_true, Bool.not_eq_true', List.all_eq_true] at h
  obtain ⟨hne, hcs⟩ := h
  obtain ⟨c, cs, hword⟩ := List.exists_cons_of_ne_nil (List.isEmpty_eq_false_iff.mp hne)
  have hread : Lexer.between.read t.toList = ([], .word t.toList) := by
    rw [hword] at hcs ⊢
    obtain ⟨hc, hcs⟩ := List.forall_mem_cons.mp hcs
    have hstep : Lexer.between.step c = ([], .word [c]) := Lexer.start_of_not_isBreak hc
    rw [Lexer.read, hstep, Lexer.read_word hcs]
    rfl
  intro rest hrest
  rw [lexemes, String.toList_append, Lexer.read_append, hread]
  exact Lexer.read_behind_word hrest

theorem spells_of_toList_eq {w : List Char} (ht : t.toList = w) (h : isWord w = true) :
    Spells t [.word w] := by
  subst ht
  exact spells_word h

end SolverScript
