import Mathlib.Tactic.MkIffOfInductiveProp
import SolverScript.Proofs.Script.RationalDefinitions

/-!
# Enumerations and functions in a text

A script declares an enumeration by its constructors, and users choose their names. A name that is
not a word stands between bars, which do not belong to it: `c` and `|c|` are the same symbol. The
declarations and definitions of a text are read back here as names, so that the meaning of a text
does not depend on how its symbols are written. The name of the function that numbers constructors
is put together from the text of a name, and is no symbol if that text ends with a bar.

## Main definitions

* `Expression.symbol?`, `Expression.formula?` - symbols and terms, with symbols between bars
* `readEnumerations`, `readFunctions` - the enumerations and functions that a text contains
* `Enumeration.HoldsIn` - the constructors are the elements of the sort, each of them once
* `Theory.Satisfies` - what a text declares and defines holds
* `symbolExpression?`, `symbolName?` - how a text is read as a symbol

## Main results

* `spells_of_symbolExpression?` - the text of a symbol
* `Datatype.readAll?_declaration` - how the declaration of an enumeration is written
* `Datatype.satisfies_declaration_iff` - what the declaration of an enumeration says
-/

namespace SolverScript

namespace Expression

/-- The name of a symbol. A word that has the form of a literal is none. -/
def symbol? : Expression → Option String
  | word cs =>
    match Term.ofWord cs with
    | .symbol name => some name
    | _ => none
  | quotedSymbol cs => some (String.ofList cs)
  | _ => none

mutual

/-- The term of an expression in which symbols may stand between bars. -/
def formula? : Expression → Option Term
  | word cs => some (Term.ofWord cs)
  | quotedSymbol cs => some (.symbol (String.ofList cs))
  | list (head :: operand :: operands) => do
    return .app (← formula? head) (← formulas? (operand :: operands))
  | _ => none

/-- The terms of several expressions in which symbols may stand between bars. -/
def formulas? : List Expression → Option (List Term)
  | [] => some []
  | e :: es => do return (← formula? e) :: (← formulas? es)

end

/-- A variable with its sort. -/
def parameter? : Expression → Option (String × SortExpr)
  | list [name, sort] => do return (← symbol? name, .named (← symbol? sort))
  | _ => none

/-- The definition of a function the names of which may stand between bars. -/
def function? : Expression → Option FunctionDefinition
  | list [keyword, name, list parameters, result, body] =>
    if text? keyword = some "define-fun" then do
      return {
        name := ← symbol? name
        parameters := ← parameters.mapM parameter?
        result := .named (← symbol? result)
        body := .flat (← formula? body) }
    else none
  | _ => none

/-- A symbol on its own is a term. -/
theorem formula?_of_symbol? {e : Expression} {name : String} (h : e.symbol? = some name) :
    e.formula? = some (.symbol name) := by
  cases e with
  | word cs =>
    rw [symbol?] at h
    split at h
    · next hword =>
      obtain rfl := Option.some.inj h
      rw [formula?, hword]
    · cases h
  | quotedSymbol cs =>
    obtain rfl := Option.some.inj h
    rfl
  | literal | list => cases h

end Expression

/-- A sort that is given by its constructors, which take no arguments. -/
structure Enumeration where
  name : String
  constructors : List String
  deriving DecidableEq, Repr

namespace Expression

/-- A constructor without arguments. -/
def constructor? : Expression → Option String
  | list [name] => symbol? name
  | _ => none

/-- The declaration of a single data type without parameters, if it is an enumeration. -/
def enumeration? : Expression → Option Enumeration
  | list [keyword, list [list [name, arity]], list [list constructors]] =>
    if text? keyword = some "declare-datatypes" ∧ text? arity = some "0" then do
      return { name := ← symbol? name, constructors := ← constructors.mapM constructor? }
    else none
  | _ => none

end Expression

/-- The enumerations that a text declares, in their order. -/
def readEnumerations (text : String) : List Enumeration :=
  ((Expression.readAll? text).getD []).filterMap Expression.enumeration?

/-- The functions that a text defines, in their order. -/
def readFunctions (text : String) : List FunctionDefinition :=
  ((Expression.readAll? text).getD []).filterMap Expression.function?

variable {α : Type}

/-- Whether some constructors stand for different elements, which are those of the sort. -/
def Enumeration.HoldsIn (T : Theory α) (J : Interpretation α) (d : Enumeration) : Prop :=
  ∃ values, List.Forall₂ (fun c e => T.apply J (.symbol c) [] = some e) d.constructors values ∧
    values.Nodup ∧ ∀ e, T.Contains (.named d.name) e ↔ e ∈ values

/-- Whether the enumerations that a text declares and the functions that it defines are as the text
says. -/
@[mk_iff]
structure Theory.Satisfies (T : Theory α) (J : Interpretation α) (text : String) : Prop where
  enumerations : ∀ d ∈ readEnumerations text, d.HoldsIn T J
  functions : ∀ f ∈ readFunctions text, f.HoldsIn T J

/-! ### Texts of symbols -/

/-- How a text is read, if it is a word or a symbol between bars. -/
def symbolExpression? (text : String) : Option Expression :=
  match text.toList with
  | '|' :: cs =>
    if cs.getLast? = some '|' ∧ '|' ∉ cs.dropLast then some (.quotedSymbol cs.dropLast) else none
  | cs => if isWord cs then some (.word cs) else none

/-- The name of the symbol that a text is. -/
def symbolName? (text : String) : Option String := do (← symbolExpression? text).symbol?

/-- Behind the opening bar, everything up to the next one belongs to the symbol. -/
theorem Lexer.read_quotedSymbol {cs : List Char} (h : '|' ∉ cs) (before : List Char) :
    (quotedSymbol before).read (cs ++ ['|']) = ([.quotedSymbol (before ++ cs)], between) := by
  induction cs generalizing before with
  | nil => simp [read, step]
  | cons c cs ih =>
    obtain ⟨hc, hcs⟩ := List.ne_and_not_mem_of_not_mem_cons h
    have hstep : (quotedSymbol before).step c = ([], quotedSymbol (before ++ [c])) :=
      if_neg hc.symm
    rw [List.cons_append, read, hstep, ih hcs, List.append_assoc]
    rfl

/-- A text that is read as a symbol is a word, or what is read with a bar on both sides. -/
theorem symbolExpression?_cases {t : String} {e : Expression} (h : symbolExpression? t = some e) :
    (isWord t.toList = true ∧ e = .word t.toList) ∨
      ∃ cs, '|' ∉ cs ∧ t.toList = '|' :: (cs ++ ['|']) ∧ e = .quotedSymbol cs := by
  unfold symbolExpression? at h
  split at h
  · next cs htext =>
    split at h
    · next hbars =>
      obtain ⟨hlast, hinside⟩ := hbars
      obtain rfl := Option.some.inj h
      obtain ⟨init, rfl⟩ := List.getLast?_eq_some_iff.mp hlast
      rw [List.dropLast_concat] at hinside ⊢
      exact .inr ⟨init, hinside, htext, rfl⟩
    · cases h
  · next cs hplain =>
    split at h
    · next hword => exact .inl ⟨hword, (Option.some.inj h).symm⟩
    · cases h

theorem leads_quotedSymbol {t : String} {cs : List Char} (hcs : '|' ∉ cs)
    (ht : t.toList = '|' :: (cs ++ ['|'])) : Leads t [.quotedSymbol cs] := by
  refine leads_of_read ?_
  have hstart : Lexer.between.step '|' = ([], .quotedSymbol []) := rfl
  rw [ht, Lexer.read, hstart, Lexer.read_quotedSymbol hcs]
  rfl

/-- A text is spelled as the symbol that it is read as. -/
theorem spells_of_symbolExpression? {t : String} {e : Expression}
    (h : symbolExpression? t = some e) : Spells t e.lexemes := by
  rcases symbolExpression?_cases h with ⟨hword, rfl⟩ | ⟨cs, hcs, ht, rfl⟩
  · exact spells_word hword
  · exact (leads_quotedSymbol hcs ht).spells

theorem digitsValueFrom?_eq_none {b : Nat} {c : Char} (hc : digitValue? b c = none)
    {cs : List Char} (h : c ∈ cs) (n : Nat) : digitsValueFrom? b n cs = none := by
  induction cs generalizing n with
  | nil => cases h
  | cons d ds ih =>
    rw [digitsValueFrom?]
    rcases List.mem_cons.mp h with rfl | hds
    · rw [hc]
      rfl
    · cases digitValue? b d with
      | none => rfl
      | some v => exact ih hds _

theorem digitsValue?_eq_none {b : Nat} {c : Char} (hc : digitValue? b c = none)
    {cs : List Char} (h : c ∈ cs) : digitsValue? b cs = none := by
  rw [digitsValue?, digitsValueFrom?_eq_none hc h, ite_self]

/-- An underscore is no digit, so that a word with one is a symbol. -/
theorem Term.ofWord_of_underscore {cs : List Char} (h : '_' ∈ cs) :
    Term.ofWord cs = .symbol (String.ofList cs) := by
  unfold Term.ofWord
  split
  · rw [digitsValue?_eq_none (c := '_') (by decide) (by simpa using h)]
    rfl
  · rw [digitsValue?_eq_none (c := '_') (by decide) (by simpa using h)]
    rfl
  · rw [digitsValue?_eq_none (c := '_') (by decide) h]
    rfl

/-- A word that is a symbol is called what is written. -/
theorem Term.eq_ofList_of_ofWord {cs : List Char} {name : String}
    (h : Term.ofWord cs = .symbol name) : name = String.ofList cs := by
  have hvalue {v : Option Nat} {f : Nat → Term} (hf : ∀ n, f n ≠ .symbol name)
      (hv : v.elim (.symbol (String.ofList cs)) f = .symbol name) : name = String.ofList cs := by
    cases v with
    | none => exact (Term.symbol.inj hv).symm
    | some n => exact absurd hv (hf n)
  unfold Term.ofWord at h
  split at h <;> exact hvalue (fun n => by simp) h

/-- The digits of a number are read as its numeral. -/
theorem Term.ofWord_decimal (n : Nat) : Term.ofWord (Numeral.decimal n).toList = .numeral n := by
  have hdigits : (Numeral.decimal n).toList = Nat.toDigits 10 n := Nat.toList_repr
  have hmarker : '#' ∉ Nat.toDigits 10 n := fun hmem =>
    absurd (Nat.isDigit_of_mem_toDigits (by decide) (by decide) hmem) (by decide)
  rw [hdigits]
  unfold Term.ofWord
  split
  · next hstart => exact absurd (hstart ▸ List.mem_cons_self) hmarker
  · next hstart => exact absurd (hstart ▸ List.mem_cons_self) hmarker
  · rw [digitsValue?_toDigits (by decide) (by decide)]
    rfl

/-! ### The text of a declaration -/

namespace Datatype

/-- How the declaration of an enumeration is written. -/
def enumerationExpression (sort : Expression) (constructors : List Expression) : Expression :=
  .list [.word "declare-datatypes".toList, .list [.list [sort, .word "0".toList]],
    .list [.list (constructors.map fun c => .list [c])]]

/-- How the position of `x` among some constructors is written that are numbered from `n` on. -/
def positionExpression (n : Nat) (c : Expression) : List Expression → Expression
  | [] => .word (Numeral.decimal n).toList
  | next :: rest =>
    .list [.word "ite".toList, .list [.word "=".toList, .word "x".toList, c],
      .word (Numeral.decimal n).toList, positionExpression (n + 1) next rest]

/-- How the name of the function is written that numbers constructors. Behind a bar, a new word
starts. -/
def indexNameExpressions : Expression → List Expression
  | .word cs => [.word (cs ++ "_constrIndex".toList)]
  | e => [e, .word "_constrIndex".toList]

/-- How the definition of the function is written that numbers constructors. -/
def constructorIndexExpression (sort c : Expression) (cs : List Expression) : Expression :=
  .list (.word "define-fun".toList :: (indexNameExpressions sort ++
    [.list [.list [.word "x".toList, sort]], .word "Int".toList, positionExpression 0 c cs]))

variable {sort c : String} {cs : List String} {s e : Expression} {es : List Expression}

theorem spells_enumeration (hsort : symbolExpression? sort = some s)
    (hcs : List.Forall₂ (fun c e => symbolExpression? c = some e) cs es) :
    Spells (enumeration sort cs) (enumerationExpression s es).lexemes := by
  have hconstructors : SpellsEach (cs.map fun c => "(" ++ c ++ ")")
      (Expression.lexemesAll (es.map fun c => .list [c])) := by
    induction hcs with
    | nil => exact .nil
    | cons hc _ ih =>
      have hconstructor := (spells_of_symbolExpression? hc).inParentheses.spells
      simpa [Expression.lexemesAll, Expression.lexemes] using
        SpellsEach.cons hconstructor ih
  have hopening : Leads ("(" ++ "declare-datatypes" ++ " ((")
      [.opening, .word "declare-datatypes".toList, .opening, .opening] :=
    (leads_opening.append_spells (spells_word (by decide))).append_leads (t := " ((")
      (leads_of_read rfl) rfl rfl
  have harity : Leads (" " ++ "0" ++ ")) ((")
      [.word "0".toList, .closing, .closing, .opening, .opening] :=
    (leads_blank.append_spells (spells_word (by decide))).append_leads (t := ")) ((")
      (leads_of_read rfl) rfl rfl
  have hclosing : Leads ")))" [.closing, .closing, .closing] := leads_of_read rfl
  have hname := (hopening.append_spells (spells_of_symbolExpression? hsort)).append_leads harity
    rfl rfl
  have hall := (hname.append_spells hconstructors.joined_blank).append_leads hclosing rfl rfl
  have hfound : (enumerationExpression s es).lexemes =
      [.opening, .word "declare-datatypes".toList, .opening, .opening] ++ s.lexemes ++
        [.word "0".toList, .closing, .closing, .opening, .opening] ++
        Expression.lexemesAll (es.map fun c => .list [c]) ++ [.closing, .closing, .closing] := by
    simp only [enumerationExpression, Expression.lexemes, Expression.lexemesAll, List.append_assoc,
      List.cons_append, List.nil_append, List.append_nil]
  rw [hfound]
  exact hall.spells

theorem spells_numeral (n : Nat) :
    Spells (Term.numeral n).render (Expression.word (Numeral.decimal n).toList).lexemes :=
  spells_word (Numeral.isWord_decimal (Int.natCast_nonneg n))

theorem spells_positionOf (hc : symbolExpression? c = some e)
    (hcs : List.Forall₂ (fun c e => symbolExpression? c = some e) cs es) (n : Nat) :
    Spells (positionOf n (c :: cs)).render (positionExpression n e es).lexemes := by
  -- Along the constructors: each test stands around the position among those behind it.
  induction hcs generalizing n c e with
  | nil => exact spells_numeral n
  | cons hnext _ ih =>
    have hequation : Spells (Term.app (.symbol "=") [.symbol "x", .symbol c]).render
        (Expression.list [.word "=".toList, .word "x".toList, e]).lexemes :=
      Term.spells_app (.cons (spells_word (by decide)) (.cons (spells_word (by decide))
        (.cons (spells_of_symbolExpression? hc) .nil)))
    exact Term.spells_app (.cons (spells_word (by decide)) (.cons hequation
      (.cons (spells_numeral n) (.cons (ih hnext (n + 1)) .nil))))

theorem spells_indexName (hsort : symbolExpression? sort = some s) :
    Spells (indexName sort) (Expression.lexemesAll (indexNameExpressions s)) := by
  have hsuffix : isWord "_constrIndex".toList = true := by decide
  rcases symbolExpression?_cases hsort with ⟨hword, rfl⟩ | ⟨inside, hinside, htext, rfl⟩
  · -- A word goes on with the suffix, while a closing bar ends its symbol.
    refine spells_of_toList_eq (by simp [indexName]) ?_
    simp only [isWord, Bool.and_eq_true, List.all_append, Bool.not_eq_true'] at hword hsuffix ⊢
    exact ⟨by simp, hword.2, hsuffix.2⟩
  · exact (leads_quotedSymbol hinside htext).append_spells (spells_word hsuffix)

theorem spellsEach_constructorIndex (hsort : symbolExpression? sort = some s)
    (hc : symbolExpression? c = some e)
    (hcs : List.Forall₂ (fun c e => symbolExpression? c = some e) cs es) :
    SpellsEach (constructorIndex sort (c :: cs)).lines
      (constructorIndexExpression s e es).lexemes := by
  have hkeyword : isWord "define-fun".toList = true := by decide
  have hvariable : isWord "x".toList = true := by decide
  have hresult : Spells Kind.unbounded.sort.render (Expression.word "Int".toList).lexemes :=
    spells_word (by decide)
  have hbinder := FunctionDefinition.spells_renderBinder_of_spells (b := ("x", .named sort))
    (spells_word hvariable) (spells_of_symbolExpression? hsort)
  have hopening := FunctionDefinition.spells_opening_of_spells hkeyword
    (f := constructorIndex sort (c :: cs)) (spells_indexName hsort) (.singleton hbinder) hresult
  have hbody := (SpellsEach.singleton (spells_positionOf hc hcs 0)).indented (leads_blanks 3)
  have hlines := SpellsEach.cons hopening (hbody.append (.singleton leads_closing.spells))
  simpa [FunctionDefinition.lines, constructorIndexExpression, Expression.lexemes,
    Expression.lexemesAll, Expression.lexemesAll_append, constructorIndex, Layout.lines]
    using hlines

/-! ### Reading the declaration back -/

variable {name first : String} {names : List String}

theorem formula?_positionExpression (he : e.symbol? = some first)
    (hes : List.Forall₂ (fun e name => e.symbol? = some name) es names) (n : Nat) :
    (positionExpression n e es).formula? = some (positionOf n (first :: names)) := by
  induction hes generalizing n e first with
  | nil =>
    rw [positionExpression, Expression.formula?, Term.ofWord_decimal]
    rfl
  | cons hnext _ ih =>
    rw [positionExpression]
    simp only [Expression.formula?, Expression.formulas?, Expression.formula?_of_symbol? he,
      Term.ofWord_decimal, ih hnext (n + 1)]
    rfl

theorem enumeration?_enumerationExpression (hs : s.symbol? = some name)
    (hes : List.Forall₂ (fun e name => e.symbol? = some name) es names) :
    (enumerationExpression s es).enumeration? = some ⟨name, names⟩ := by
  have hconstructors : (es.map fun c => .list [c]).mapM Expression.constructor? = some names := by
    induction hes with
    | nil => rfl
    | cons he _ ih => simp [ih, Expression.constructor?, he]
  have hkeyword : Expression.text? (.word "declare-datatypes".toList) = some "declare-datatypes" :=
    congrArg some (String.ofList_toList)
  have harity : Expression.text? (.word "0".toList) = some "0" :=
    congrArg some (String.ofList_toList)
  rw [enumerationExpression, Expression.enumeration?, if_pos ⟨hkeyword, harity⟩, hs, hconstructors]
  rfl

/-- A sort whose name is a word has a function that numbers its constructors. -/
theorem function?_of_word {cs : List Char} (hs : Term.ofWord cs = .symbol (String.ofList cs))
    (he : e.symbol? = some first)
    (hes : List.Forall₂ (fun e name => e.symbol? = some name) es names) :
    (constructorIndexExpression (.word cs) e es).function? =
      some (constructorIndex (String.ofList cs) (first :: names)) := by
  have hkeyword : Expression.text? (.word "define-fun".toList) = some "define-fun" :=
    congrArg some (String.ofList_toList)
  have hname : (Expression.word (cs ++ "_constrIndex".toList)).symbol? =
      some (indexName (String.ofList cs)) := by
    rw [Expression.symbol?, Term.ofWord_of_underscore (by simp)]
    simp [indexName]
  have hsort : (Expression.word cs).symbol? = some (String.ofList cs) := by
    rw [Expression.symbol?, hs]
  have hparameter : Expression.parameter? (.list [.word "x".toList, .word cs]) =
      some ("x", .named (String.ofList cs)) := by
    rw [Expression.parameter?, hsort]
    rfl
  have hresult : (Expression.word "Int".toList).symbol? = some "Int" := rfl
  simp only [constructorIndexExpression, indexNameExpressions, List.cons_append, List.nil_append,
    Expression.function?, hkeyword, if_true, hname, List.mapM_cons, List.mapM_nil, hparameter,
    hresult, formula?_positionExpression he hes]
  rfl

/-- A sort whose name stands between bars has none: behind them, the name of the function is not a
part of the symbol. -/
theorem function?_of_quotedSymbol {cs : List Char} :
    (constructorIndexExpression (.quotedSymbol cs) e es).function? = none := rfl

/-- The expressions that the declaration of an enumeration is written as. -/
theorem readAll?_declaration (hsort : symbolExpression? sort = some s)
    (hc : symbolExpression? c = some e)
    (hcs : List.Forall₂ (fun c e => symbolExpression? c = some e) cs es) :
    Expression.readAll? (joined "\n" (enumeration sort (c :: cs) ::
      (constructorIndex sort (c :: cs)).lines)) =
        some [enumerationExpression s (e :: es), constructorIndexExpression s e es] := by
  have hlines := SpellsEach.cons (spells_enumeration hsort (.cons hc hcs))
    (spellsEach_constructorIndex hsort hc hcs)
  exact readAll?_of_spells (by simpa [Expression.lexemesAll] using hlines.joined_lineBreak)

/-- What the declaration of an enumeration says. Only a sort whose name is a word has a function
that numbers the constructors. -/
theorem satisfies_declaration_iff {α : Type} {T : Theory α} {J : Interpretation α}
    (hsort : symbolExpression? sort = some s) (hs : s.symbol? = some name)
    (hc : symbolExpression? c = some e) (he : e.symbol? = some first)
    (hcs : List.Forall₂ (fun c e => symbolExpression? c = some e) cs es)
    (hes : List.Forall₂ (fun e name => e.symbol? = some name) es names) :
    T.Satisfies J (joined "\n" (enumeration sort (c :: cs) ::
        (constructorIndex sort (c :: cs)).lines)) ↔
      Enumeration.HoldsIn T J ⟨name, first :: names⟩ ∧
        (sort = name → (constructorIndex name (first :: names)).HoldsIn T J) := by
  have hread := readAll?_declaration hsort hc hcs
  have henumeration := enumeration?_enumerationExpression hs (.cons he hes)
  have hnofunction : (enumerationExpression s (e :: es)).function? = none := rfl
  rw [Theory.satisfies_iff, readEnumerations, readFunctions, hread, Option.getD_some,
    List.filterMap_cons_some henumeration, List.filterMap_cons_none hnofunction]
  -- The text of the sort's name tells whether the definition can be read as one.
  rcases symbolExpression?_cases hsort with ⟨-, rfl⟩ | ⟨inside, hinside, htext, rfl⟩
  · have hname : Term.ofWord sort.toList = .symbol sort ∧ name = sort := by
      rw [Expression.symbol?] at hs
      split at hs
      · next hword =>
        obtain rfl := Option.some.inj hs
        obtain rfl := (Term.eq_ofList_of_ofWord hword).trans String.ofList_toList
        exact ⟨hword, rfl⟩
      · cases hs
    obtain ⟨hword, rfl⟩ := hname
    have hfunction := function?_of_word (hword.trans (by rw [String.ofList_toList])) he hes
    rw [String.ofList_toList] at hfunction
    have hnoenumeration :
        (constructorIndexExpression (.word name.toList) e es).enumeration? = none := rfl
    rw [List.filterMap_cons_some hfunction, List.filterMap_cons_none hnoenumeration]
    simp
  · have hname : sort ≠ name := by
      rintro rfl
      obtain rfl := Option.some.inj hs
      rw [String.toList_ofList] at htext
      exact hinside (htext ▸ List.mem_cons_self)
    have hnoenumeration :
        (constructorIndexExpression (.quotedSymbol inside) e es).enumeration? = none := rfl
    rw [List.filterMap_cons_none function?_of_quotedSymbol, List.filterMap_cons_none hnoenumeration]
    simp [hname]

end Datatype

end SolverScript
