import Mathlib.Data.List.Forall2
import Mathlib.Logic.Function.Basic
import SolverScript.Graph.RegExp
import SolverScript.Proofs.Results
import SolverScript.Proofs.Semantics.Spelling
import SolverScript.Proofs.Value.QuotedText

/-!
# Reading regular expressions

The text of a regular expression is read back here: first as expressions in parentheses, with
literals between quotes, and then as a regular expression. What comes out is the normal form of the
expression that was written. A concatenation or union of no expressions or of a single one does not
appear in a text, since it is written as something else; everything else can be told apart.

The reader is given a way to read literals. The one of the target language knows the characters up
to 2FFFF. The inverse of the quoting knows all characters, and with it texts tell normal forms apart
whatever characters there are.

## Main definitions

* `RegExp.normal` - the normal form of an expression
* `RegExp.IsWritable` - literals that are valid, and ranges between code points
* `Expression.regExp?`, `readRegExp?` - the regular expression of an expression, and of a text

## Main results

* `RegExp.term_normal` - a normal form has the term of the expression
* `RegExp.exists_term_iff` - an expression has a term exactly if everything in it can be written
* `RegExp.isReadAs_term` - the term of an expression is read as its normal form
* `RegExp.render_eq_iff` - texts tell normal forms apart
-/

namespace SolverScript

/-! ### Normal forms -/

namespace RegExp

/-- A concatenation that is one: nothing is the empty word, and one expression is itself. -/
def concatNormal : List RegExp → RegExp
  | [] => literal ""
  | [r] => r
  | rs => concat rs

/-- A union that is one: there is nothing in the empty one, and one expression is itself. -/
def unionNormal : List RegExp → RegExp
  | [] => none
  | [r] => r
  | rs => union rs

mutual

/-- The normal form of an expression. -/
def normal : RegExp → RegExp
  | literal text => literal text
  | all => all
  | allChar => allChar
  | none => none
  | range low high => range low high
  | concat parts => concatNormal (normals parts)
  | star inner => star (normal inner)
  | plus inner => plus (normal inner)
  | opt inner => opt (normal inner)
  | complement inner => complement (normal inner)
  | diff l r => diff (normal l) (normal r)
  | loop low high inner => loop low high (normal inner)
  | power count inner => power count (normal inner)
  | union parts => unionNormal (normals parts)
  | inter l r => inter (normal l) (normal r)

/-- The normal forms of several expressions. -/
def normals : List RegExp → List RegExp
  | [] => []
  | r :: rs => normal r :: normals rs

end

mutual

/-- A normal form has the term of the expression, or fails like it. -/
theorem term_normal (r : RegExp) : r.normal.term = r.term := by
  cases r with
  | concat parts =>
    have hparts := terms_normals parts
    match parts, hparts with
    | [], _ => rfl
    | [r], _ =>
      -- A single part stands for itself, in the term as in the normal form.
      rw [normal, normals, normals, concatNormal, term_normal r, term, terms, terms]
      cases r.term <;> rfl
    | r :: s :: rs, hparts =>
      rw [normal, term, ← hparts]
      rfl
  | union parts =>
    have hparts := terms_normals parts
    match parts, hparts with
    | [], _ => rfl
    | [r], _ =>
      rw [normal, normals, normals, unionNormal, term_normal r, term, terms, terms]
      cases r.term <;> rfl
    | r :: s :: rs, hparts =>
      rw [normal, term, ← hparts]
      rfl
  | star r | plus r | opt r | complement r | loop _ _ r | power _ r =>
    rw [normal, term, term, term_normal r]
  | diff l r | inter l r => rw [normal, term, term, term_normal l, term_normal r]
  | _ => rfl

theorem terms_normals (rs : List RegExp) : terms (normals rs) = terms rs := by
  cases rs with
  | nil => rfl
  | cons r rs => rw [normals, terms, terms, term_normal r, terms_normals rs]

end

/-! ### Expressions that cannot be written -/

mutual

/-- An expression and everything inside of it. -/
def subexpressions : RegExp → List RegExp
  | concat parts => concat parts :: subexpressionsAll parts
  | star inner => star inner :: subexpressions inner
  | plus inner => plus inner :: subexpressions inner
  | opt inner => opt inner :: subexpressions inner
  | complement inner => complement inner :: subexpressions inner
  | diff l r => diff l r :: (subexpressions l ++ subexpressions r)
  | loop low high inner => loop low high inner :: subexpressions inner
  | power count inner => power count inner :: subexpressions inner
  | union parts => union parts :: subexpressionsAll parts
  | inter l r => inter l r :: (subexpressions l ++ subexpressions r)
  | r => [r]

/-- Several expressions and everything inside of them. -/
def subexpressionsAll : List RegExp → List RegExp
  | [] => []
  | r :: rs => subexpressions r ++ subexpressionsAll rs

end

/-- Whether an expression itself can be written: a literal has to be valid, and a range has to be
one between code points. -/
def IsWritable : RegExp → Prop
  | literal text => ∃ characters, Utf8.Encodes text characters
  | range low high => low.isValidChar ∧ high.isValidChar
  | _ => True

theorem boundTerm_of_isValidChar {n : Nat} (h : n.isValidChar) :
    boundTerm n = .ok (.quoted [Char.ofNatAux n h]) := by
  rw [boundTerm, Value.ofCodePoint, dif_pos h]
  rfl

theorem boundTerm_of_not_isValidChar {n : Nat} (h : ¬n.isValidChar) :
    boundTerm n = .error (.codePoint n) := by
  rw [boundTerm, Value.ofCodePoint, dif_neg h]
  rfl

theorem boundTerm_eq_ok_iff {n : Nat} {t : Term} :
    boundTerm n = .ok t ↔ ∃ c : Char, c.toNat = n ∧ t = .quoted [c] := by
  constructor
  · intro ht
    by_cases h : n.isValidChar
    · rw [boundTerm_of_isValidChar h] at ht
      exact ⟨_, rfl, (Except.ok.inj ht).symm⟩
    · rw [boundTerm_of_not_isValidChar h] at ht
      cases ht
  · rintro ⟨c, rfl, rfl⟩
    have hc : Char.ofNatAux c.toNat c.valid = c := Char.toNat_inj.mp rfl
    have hterm := boundTerm_of_isValidChar (n := c.toNat) c.valid
    rwa [hc] at hterm

theorem exists_boundTerm_iff {n : Nat} : (∃ t, boundTerm n = .ok t) ↔ n.isValidChar := by
  refine ⟨fun ⟨t, ht⟩ => ?_, fun h => ⟨_, boundTerm_of_isValidChar h⟩⟩
  obtain ⟨c, rfl, -⟩ := boundTerm_eq_ok_iff.mp ht
  exact c.valid

theorem exists_quotedText_iff {text : String} :
    (∃ t, quotedText text = .ok t) ↔ (literal text).IsWritable := by
  simp [quotedText_eq_ok_iff, IsWritable]

/-- An expression that can be written itself is added to others. -/
theorem forall_isWritable_cons_iff {r : RegExp} (h : r.IsWritable) {rs : List RegExp} :
    (∀ s ∈ r :: rs, s.IsWritable) ↔ ∀ s ∈ rs, s.IsWritable := by
  rw [List.forall_mem_cons, and_iff_right h]

mutual

/-- An expression has a term exactly if everything in it can be written. -/
theorem exists_term_iff (r : RegExp) :
    (∃ t, r.term = .ok t) ↔ ∀ s ∈ r.subexpressions, s.IsWritable := by
  cases r with
  | literal text =>
    exact exists_bind_ok_iff.trans (exists_quotedText_iff.trans List.forall_mem_singleton.symm)
  | range low high =>
    have hself : (∀ s ∈ [range low high], s.IsWritable) ↔ (range low high).IsWritable :=
      List.forall_mem_singleton
    have hbounds := and_congr (exists_boundTerm_iff (n := low)) (exists_boundTerm_iff (n := high))
    exact exists_bind₂_ok_iff.trans (hbounds.trans hself.symm)
  | all | allChar | none => exact iff_of_true ⟨_, rfl⟩ (List.forall_mem_singleton.mpr trivial)
  | concat rs | union rs =>
    refine exists_bind_ok_iff.trans ((exists_terms_iff rs).trans (Iff.symm ?_))
    exact forall_isWritable_cons_iff (by trivial)
  | star r | plus r | opt r | complement r | loop _ _ r | power _ r =>
    refine exists_bind_ok_iff.trans ((exists_term_iff r).trans (Iff.symm ?_))
    exact forall_isWritable_cons_iff (by trivial)
  | diff l r | inter l r =>
    have hparts := (and_congr (exists_term_iff l) (exists_term_iff r)).trans
      List.forall_mem_append.symm
    refine exists_bind₂_ok_iff.trans (hparts.trans (Iff.symm ?_))
    exact forall_isWritable_cons_iff (by trivial)

theorem exists_terms_iff (rs : List RegExp) :
    (∃ ts, terms rs = .ok ts) ↔ ∀ s ∈ subexpressionsAll rs, s.IsWritable := by
  cases rs with
  | nil => exact iff_of_true ⟨_, rfl⟩ (List.forall_mem_nil _)
  | cons r rs =>
    exact exists_bind₂_ok_iff.trans
      ((and_congr (exists_term_iff r) (exists_terms_iff rs)).trans List.forall_mem_append.symm)

end

theorem findsMistakes_quotedText (text : String) : FindsMistakes (quotedText text) := by
  intro f hf
  obtain ⟨rfl, -⟩ := quotedText_eq_error_iff.mp hf
  rfl

theorem findsMistakes_boundTerm (n : Nat) : FindsMistakes (boundTerm n) := by
  by_cases h : n.isValidChar
  · rw [boundTerm_of_isValidChar h]
    exact .ok _
  · rw [boundTerm_of_not_isValidChar h]
    exact .error rfl

mutual

/-- An expression without a term is a mistake in the input. -/
theorem findsMistakes_term (r : RegExp) : FindsMistakes r.term := by
  cases r with
  | literal text => exact (findsMistakes_quotedText text).map _
  | range low high =>
    exact (findsMistakes_boundTerm low).bind fun _ => (findsMistakes_boundTerm high).map _
  | all | allChar | none => exact .ok _
  | concat rs | union rs => exact (findsMistakes_terms rs).map _
  | star r | plus r | opt r | complement r | loop _ _ r | power _ r =>
    exact (findsMistakes_term r).map _
  | diff l r | inter l r =>
    exact (findsMistakes_term l).bind fun _ => (findsMistakes_term r).map _

theorem findsMistakes_terms (rs : List RegExp) : FindsMistakes (terms rs) := by
  cases rs with
  | nil => exact .ok []
  | cons r rs => exact (findsMistakes_term r).bind fun _ => (findsMistakes_terms rs).map _

end

end RegExp

/-! ### The lexemes of literals and indices -/

theorem leads_quote_blank (characters : List Char) :
    Leads (Term.quote characters ++ " ") [.literal (characters.flatMap escapedChar)] := by
  refine leads_of_read ?_
  rw [String.toList_append, Lexer.read_append, Lexer.read_quote]
  rfl

theorem leads_quote_closing (characters : List Char) :
    Leads (Term.quote characters ++ ")")
      [.literal (characters.flatMap escapedChar), .closing] := by
  refine leads_of_read ?_
  rw [String.toList_append, Lexer.read_append, Lexer.read_quote]
  rfl

/-- How a name with indices is written. -/
def Expression.indexed (name : String) (indices : List Nat) : Expression :=
  .list (.word ['_'] :: .word name.toList ::
    indices.map fun i : Nat => .word (Numeral.decimal i).toList)

theorem spells_indexed {name : String} (hname : isWord name.toList = true) (indices : List Nat) :
    Spells (Term.indexed name (indices.map Int.ofNat)).render
      (Expression.indexed name indices).lexemes := by
  have hindices : SpellsEach ((indices.map Int.ofNat).map Numeral.decimal)
      (Expression.lexemesAll
        (indices.map fun i : Nat => .word (Numeral.decimal i).toList)) := by
    induction indices with
    | nil => exact .nil
    | cons i indices ih =>
      exact .cons (spells_word (Numeral.isWord_decimal (Int.natCast_nonneg i))) ih
  have hmark : Spells "_" [.word ['_']] := spells_word (by decide)
  have hinside := ((hmark.append_blank.append_spells (spells_word hname)).append_blank.append_spells
    hindices.joined_blank).inParentheses
  have hopening (t : String) : "(_ " ++ t = "(" ++ ("_" ++ " " ++ t) := by
    rw [← String.append_assoc]
    rfl
  simpa [Term.render, Expression.indexed, Expression.lexemes, Expression.lexemesAll, hopening,
    String.append_assoc] using hinside.spells

/-! ### Reading -/

/-- The bytes of several characters as a text. -/
def Utf8.encodeAll (characters : List Char) : String :=
  .ofList (characters.flatMap fun c => (bytes c).map Char.ofNat)

theorem Utf8.Encodes.encodeAll_eq {text : String} {characters : List Char}
    (h : Encodes text characters) : encodeAll characters = text := by
  rw [encodes_iff] at h
  have hbytes := congrArg (List.map Char.ofNat) h
  rw [List.map_map, List.map_flatMap] at hbytes
  have hid : Char.ofNat ∘ Char.toNat = id := funext Char.ofNat_toNat
  rw [hid, List.map_id] at hbytes
  rw [encodeAll, ← hbytes, String.ofList_toList]

namespace RegExp

/-- The expressions that are written as a word. -/
def ofWord? : String → Option RegExp
  | "re.all" => some all
  | "re.allchar" => some allChar
  | "re.nostr" => some none
  | _ => Option.none

/-- The expressions that a function makes of texts. -/
def ofTexts? : String → List (List Char) → Option RegExp
  | "str.to_re", [characters] => some (literal (Utf8.encodeAll characters))
  | "re.range", [[low], [high]] => some (range low.toNat high.toNat)
  | _, _ => Option.none

/-- The expressions that a function makes of others. -/
def ofParts? : String → List RegExp → Option RegExp
  | "re.++", r :: s :: rs => some (concat (r :: s :: rs))
  | "re.*", [r] => some (star r)
  | "re.+", [r] => some (plus r)
  | "re.opt", [r] => some (opt r)
  | "re.comp", [r] => some (complement r)
  | "re.diff", [r, s] => some (diff r s)
  | "re.union", r :: s :: rs => some (union (r :: s :: rs))
  | "re.inter", [r, s] => some (inter r s)
  | _, _ => Option.none

/-- The expressions that a function with indices makes of another one. -/
def ofIndexed? : String → List Nat → RegExp → Option RegExp
  | "re.loop", [low, high], r => some (loop low high r)
  | "re.^", [count], r => some (power count r)
  | _, _, _ => Option.none

end RegExp

namespace Expression

/-- The number that a word of decimal digits stands for. -/
def index? : Expression → Option Nat
  | word cs => digitsValue? 10 cs
  | _ => none

/-- The characters of a literal. -/
def characters? (decode : List Char → Option (List Char)) : Expression → Option (List Char)
  | literal cs => decode cs
  | _ => none

/-- The regular expression that a head makes of others. -/
def regExpOfParts? (parts : List RegExp) : Expression → Option RegExp
  | word cs => RegExp.ofParts? (.ofList cs) parts
  | list (word ['_'] :: word cs :: indices) =>
    match parts with
    | [r] => do RegExp.ofIndexed? (.ofList cs) (← indices.mapM index?) r
    | _ => none
  | _ => none

/-- The regular expression that a head makes of texts. -/
def regExpOfTexts? (texts : List (List Char)) : Expression → Option RegExp
  | word cs => RegExp.ofTexts? (.ofList cs) texts
  | _ => none

mutual

/-- The regular expression of an expression, given how literals are read. -/
def regExp? (decode : List Char → Option (List Char)) : Expression → Option RegExp
  | word cs => RegExp.ofWord? (.ofList cs)
  | list (head :: operands) =>
    ((regExps? decode operands).bind fun parts => head.regExpOfParts? parts).or
      ((operands.mapM (characters? decode)).bind fun texts => head.regExpOfTexts? texts)
  | _ => none

/-- The regular expressions of several expressions. -/
def regExps? (decode : List Char → Option (List Char)) : List Expression → Option (List RegExp)
  | [] => some []
  | e :: es => do return (← regExp? decode e) :: (← regExps? decode es)

end

end Expression

/-- The regular expression of a text, if it consists of a single one. -/
def readRegExpWith? (decode : List Char → Option (List Char)) (text : String) : Option RegExp :=
  match Expression.readAll? text with
  | some [e] => e.regExp? decode
  | _ => none

/-- A code point of the target language as a character; surrogates are none. -/
def CodePoint.char? (p : CodePoint) : Option Char :=
  if h : p.val.isValidChar then some (Char.ofNatAux p.val h) else none

/-- The characters that the target language reads between the quotes of a literal. -/
def targetCharacters? (cs : List Char) : Option (List Char) := do
  (← unescaped? 0 cs).mapM CodePoint.char?

/-- The regular expression that a text of the target language stands for. -/
def readRegExp? (text : String) : Option RegExp := readRegExpWith? targetCharacters? text

/-! ### What the term of an expression is read as -/

/-- Whether the text of a term is read as a regular expression, wherever it stands. -/
def Term.IsReadAs (decode : List Char → Option (List Char)) (t : Term) (r : RegExp) : Prop :=
  ∃ e : Expression, Spells t.render e.lexemes ∧ e.regExp? decode = some r

namespace Term.IsReadAs

variable {decode : List Char → Option (List Char)} {t : Term} {r : RegExp}

theorem readRegExpWith?_eq (h : t.IsReadAs decode r) :
    readRegExpWith? decode t.render = some r := by
  obtain ⟨e, hspells, hread⟩ := h
  have hall : Spells t.render (Expression.lexemesAll [e]) := by
    simpa [Expression.lexemesAll] using hspells
  rw [readRegExpWith?, readAll?_of_spells hall]
  exact hread

theorem word {name : String} (hname : isWord name.toList = true)
    (h : RegExp.ofWord? name = some r) : (Term.symbol name).IsReadAs decode r := by
  refine ⟨.word name.toList, spells_word hname, ?_⟩
  rw [Expression.regExp?, String.ofList_toList]
  exact h

/-- Several terms are read one after the other. -/
theorem exists_expressions {ts : List Term} {rs : List RegExp}
    (h : List.Forall₂ (IsReadAs decode) ts rs) :
    ∃ es, SpellsEach (renderAll ts) (Expression.lexemesAll es) ∧
      Expression.regExps? decode es = some rs := by
  induction h with
  | nil => exact ⟨[], .nil, rfl⟩
  | cons hhead _ ih =>
    obtain ⟨e, hspells, hread⟩ := hhead
    obtain ⟨es, hspellsEach, hreadEach⟩ := ih
    refine ⟨e :: es, .cons hspells hspellsEach, ?_⟩
    rw [Expression.regExps?, hread, hreadEach]
    rfl

/-- An application of a function to expressions. -/
theorem app {head : Term} {e : Expression} (hhead : Spells head.render e.lexemes) {ts : List Term}
    {rs : List RegExp} (hts : List.Forall₂ (IsReadAs decode) ts rs)
    (h : e.regExpOfParts? rs = some r) : (Term.app head ts).IsReadAs decode r := by
  obtain ⟨es, hspells, hread⟩ := exists_expressions hts
  refine ⟨.list (e :: es), spells_app (.cons hhead hspells), ?_⟩
  rw [Expression.regExp?, hread, Option.bind_some, h, Option.some_or]

theorem parts {name : String} (hname : isWord name.toList = true) {ts : List Term}
    {rs : List RegExp} (hts : List.Forall₂ (IsReadAs decode) ts rs)
    (h : RegExp.ofParts? name rs = some r) : (Term.app (.symbol name) ts).IsReadAs decode r := by
  have hhead : Spells (Term.symbol name).render (Expression.word name.toList).lexemes :=
    spells_word hname
  refine app hhead hts ?_
  rw [Expression.regExpOfParts?, String.ofList_toList]
  exact h

theorem mapM_index? (indices : List Nat) :
    (indices.map fun i : Nat => Expression.word (Numeral.decimal i).toList).mapM Expression.index? =
      some indices := by
  induction indices with
  | nil => rfl
  | cons i indices ih =>
    have hdigits : (Numeral.decimal i).toList = Nat.toDigits 10 i := Nat.toList_repr
    have hindex : Expression.index? (.word (Numeral.decimal i).toList) = some i := by
      rw [hdigits]
      exact digitsValue?_toDigits (by decide) (by decide) i
    rw [List.map_cons, List.mapM_cons, hindex, ih]
    rfl

theorem indexed {name : String} (hname : isWord name.toList = true) (indices : List Nat) {s : RegExp}
    (ht : t.IsReadAs decode s) (h : RegExp.ofIndexed? name indices s = some r) :
    (Term.app (.indexed name (indices.map Int.ofNat)) [t]).IsReadAs decode r := by
  refine app (spells_indexed hname indices) (.cons ht .nil) ?_
  rw [Expression.indexed, Expression.regExpOfParts?, mapM_index?, String.ofList_toList]
  exact h

/-- An application of a function to a text. -/
theorem text {name : String} (hname : isWord name.toList = true) {characters decoded : List Char}
    (hdecode : decode (characters.flatMap escapedChar) = some decoded)
    (h : RegExp.ofTexts? name [decoded] = some r) :
    (Term.app (.symbol name) [.quoted characters]).IsReadAs decode r := by
  have hinside := (leads_opening.append_spells (spells_word hname)).append_blank.append
    (leads_quote_closing characters)
  refine ⟨.list [.word name.toList, .literal (characters.flatMap escapedChar)], ?_, ?_⟩
  · simpa [render, renderAll, joined, Expression.lexemes, Expression.lexemesAll,
      String.append_assoc] using hinside.spells
  · simpa [Expression.regExp?, Expression.regExps?, Expression.characters?, hdecode,
      Expression.regExpOfTexts?] using h

/-- An application of a function to two texts. -/
theorem twoTexts {name : String} (hname : isWord name.toList = true) {cs ds : List Char}
    (hcs : decode (cs.flatMap escapedChar) = some cs)
    (hds : decode (ds.flatMap escapedChar) = some ds)
    (h : RegExp.ofTexts? name [cs, ds] = some r) :
    (Term.app (.symbol name) [.quoted cs, .quoted ds]).IsReadAs decode r := by
  have hinside := ((leads_opening.append_spells (spells_word hname)).append_blank.append
    (leads_quote_blank cs)).append (leads_quote_closing ds)
  refine ⟨.list [.word name.toList, .literal (cs.flatMap escapedChar),
    .literal (ds.flatMap escapedChar)], ?_, ?_⟩
  · simpa [render, renderAll, joined, Expression.lexemes, Expression.lexemesAll,
      String.append_assoc] using hinside.spells
  · simpa [Expression.regExp?, Expression.regExps?, Expression.characters?, hcs, hds,
      Expression.regExpOfTexts?] using h

end Term.IsReadAs

namespace RegExp

variable {decode : List Char → Option (List Char)}

/-- Whether the characters of an expression itself are read as what they are. -/
def IsReadable (decode : List Char → Option (List Char)) : RegExp → Prop
  | literal text => ∀ characters, Utf8.Encodes text characters →
      decode (characters.flatMap escapedChar) = some characters
  | range low high => ∀ c : Char, c.toNat = low ∨ c.toNat = high →
      decode (escapedChar c) = some [c]
  | _ => True

theorem isReadAs_literal {text : String} (h : (literal text).IsReadable decode) {t : Term}
    (ht : (literal text).term = .ok t) : t.IsReadAs decode (literal text) := by
  obtain ⟨u, hu, hrest⟩ := bind_eq_ok_iff.mp ht
  obtain ⟨characters, hcharacters, rfl⟩ := quotedText_eq_ok_iff.mp hu
  obtain rfl := Except.ok.inj hrest
  refine .text (by decide) (h characters hcharacters) ?_
  rw [ofTexts?, hcharacters.encodeAll_eq]

theorem isReadAs_range {low high : Nat} (h : (range low high).IsReadable decode) {t : Term}
    (ht : (range low high).term = .ok t) : t.IsReadAs decode (range low high) := by
  obtain ⟨u, hu, hrest⟩ := bind_eq_ok_iff.mp ht
  obtain ⟨v, hv, hend⟩ := bind_eq_ok_iff.mp hrest
  obtain ⟨c, rfl, rfl⟩ := boundTerm_eq_ok_iff.mp hu
  obtain ⟨d, rfl, rfl⟩ := boundTerm_eq_ok_iff.mp hv
  obtain rfl := Except.ok.inj hend
  refine .twoTexts (by decide) ?_ ?_ rfl
  · simpa using h c (.inl rfl)
  · simpa using h d (.inr rfl)

theorem isReadAs_concatTerm (hdecode : decode [] = some []) {ts : List Term} {rs : List RegExp}
    (h : List.Forall₂ (Term.IsReadAs decode) ts rs) :
    (concatTerm ts).IsReadAs decode (concatNormal rs) := by
  rcases h with _ | ⟨hhead, _ | ⟨hnext, hrest⟩⟩
  · exact .text (by decide) hdecode rfl
  · exact hhead
  · exact .parts (by decide) (.cons hhead (.cons hnext hrest)) rfl

theorem isReadAs_unionTerm {ts : List Term} {rs : List RegExp}
    (h : List.Forall₂ (Term.IsReadAs decode) ts rs) :
    (unionTerm ts).IsReadAs decode (unionNormal rs) := by
  rcases h with _ | ⟨hhead, _ | ⟨hnext, hrest⟩⟩
  · exact .word (by decide) rfl
  · exact hhead
  · exact .parts (by decide) (.cons hhead (.cons hnext hrest)) rfl

mutual

/-- The term of an expression is read as its normal form. -/
theorem isReadAs_term (hdecode : decode [] = some []) {r : RegExp}
    (h : ∀ s ∈ r.subexpressions, s.IsReadable decode) {t : Term} (ht : r.term = .ok t) :
    t.IsReadAs decode r.normal := by
  cases r with
  | literal text => exact isReadAs_literal (h _ (List.mem_singleton_self _)) ht
  | range low high => exact isReadAs_range (h _ (List.mem_singleton_self _)) ht
  | all | allChar | none =>
    obtain rfl := Except.ok.inj ht
    exact .word (by decide) rfl
  | concat rs =>
    obtain ⟨ts, hts, hrest⟩ := bind_eq_ok_iff.mp ht
    obtain rfl := Except.ok.inj hrest
    exact isReadAs_concatTerm hdecode
      (isReadAs_terms hdecode (fun s hs => h s (List.mem_cons_of_mem _ hs)) hts)
  | union rs =>
    obtain ⟨ts, hts, hrest⟩ := bind_eq_ok_iff.mp ht
    obtain rfl := Except.ok.inj hrest
    exact isReadAs_unionTerm
      (isReadAs_terms hdecode (fun s hs => h s (List.mem_cons_of_mem _ hs)) hts)
  | star r | plus r | opt r | complement r =>
    obtain ⟨u, hu, hrest⟩ := bind_eq_ok_iff.mp ht
    obtain rfl := Except.ok.inj hrest
    have hread := isReadAs_term hdecode (fun s hs => h s (List.mem_cons_of_mem _ hs)) hu
    exact .parts (by decide) (.cons hread .nil) rfl
  | loop low high r =>
    obtain ⟨u, hu, hrest⟩ := bind_eq_ok_iff.mp ht
    obtain rfl := Except.ok.inj hrest
    have hread := isReadAs_term hdecode (fun s hs => h s (List.mem_cons_of_mem _ hs)) hu
    exact .indexed (by decide) [low, high] hread rfl
  | power count r =>
    obtain ⟨u, hu, hrest⟩ := bind_eq_ok_iff.mp ht
    obtain rfl := Except.ok.inj hrest
    have hread := isReadAs_term hdecode (fun s hs => h s (List.mem_cons_of_mem _ hs)) hu
    exact .indexed (by decide) [count] hread rfl
  | diff l r | inter l r =>
    obtain ⟨u, hu, hrest⟩ := bind_eq_ok_iff.mp ht
    obtain ⟨v, hv, hend⟩ := bind_eq_ok_iff.mp hrest
    obtain rfl := Except.ok.inj hend
    obtain ⟨hl, hr⟩ := List.forall_mem_append.mp (List.forall_mem_cons.mp h).2
    have hleft := isReadAs_term hdecode hl hu
    have hright := isReadAs_term hdecode hr hv
    exact .parts (by decide) (.cons hleft (.cons hright .nil)) rfl

theorem isReadAs_terms (hdecode : decode [] = some []) {rs : List RegExp}
    (h : ∀ s ∈ subexpressionsAll rs, s.IsReadable decode) {ts : List Term}
    (hts : terms rs = .ok ts) : List.Forall₂ (Term.IsReadAs decode) ts (normals rs) := by
  cases rs with
  | nil =>
    obtain rfl := Except.ok.inj hts
    exact .nil
  | cons r rs =>
    obtain ⟨hr, hrs⟩ := List.forall_mem_append.mp h
    obtain ⟨t, ht, hrest⟩ := bind_eq_ok_iff.mp hts
    obtain ⟨us, hus, hend⟩ := bind_eq_ok_iff.mp hrest
    obtain rfl := Except.ok.inj hend
    exact .cons (isReadAs_term hdecode hr ht) (isReadAs_terms hdecode hrs hus)

end

/-! ### Characters of the target language -/

/-- Whether the target language has all characters of an expression itself. -/
def HasCodePoints : RegExp → Prop
  | literal text => ∀ characters, Utf8.Encodes text characters → ∀ c ∈ characters, c.toNat < 0x30000
  | range low high => low < 0x30000 ∧ high < 0x30000
  | _ => True

theorem targetCharacters?_escapedChar {characters : List Char}
    (h : ∀ c ∈ characters, c.toNat < 0x30000) :
    targetCharacters? (characters.flatMap escapedChar) = some characters := by
  unfold targetCharacters?
  induction characters with
  | nil => rfl
  | cons c cs ih =>
    obtain ⟨hc, hcs⟩ := List.forall_mem_cons.mp h
    have hchar : CodePoint.char? ⟨c.toNat, hc⟩ = some c :=
      (dif_pos c.valid).trans (congrArg some (Char.toNat_inj.mp rfl))
    rw [List.flatMap_cons, unescaped?_escapedChar hc]
    have ih := ih hcs
    rw [Option.bind_eq_bind, Option.bind_eq_some_iff] at ih ⊢
    obtain ⟨ps, hps, hcharacters⟩ := ih
    exact ⟨_, congrArg (Option.map _) hps, by simp [hchar, hcharacters]⟩

theorem HasCodePoints.isReadable {r : RegExp} (h : r.HasCodePoints) :
    r.IsReadable targetCharacters? := by
  cases r with
  | literal text => exact fun characters hcs => targetCharacters?_escapedChar (h characters hcs)
  | range low high =>
    intro c hc
    have hlt : c.toNat < 0x30000 := by
      rcases hc with rfl | rfl
      · exact h.1
      · exact h.2
    simpa using targetCharacters?_escapedChar (List.forall_mem_singleton.mpr hlt)
  | _ => trivial

/-- The text of an expression is read as its normal form, if the target language has all
characters. -/
theorem readRegExp?_render {r : RegExp} (h : ∀ s ∈ r.subexpressions, s.HasCodePoints) {t : Term}
    (ht : r.term = .ok t) : readRegExp? t.render = some r.normal := by
  have hempty : targetCharacters? [] = some [] := rfl
  exact (isReadAs_term hempty (fun s hs => (h s hs).isReadable) ht).readRegExpWith?_eq

/-! ### Texts tell normal forms apart -/

/-- Two quotes for one. -/
def requoted (c : Char) : List Char := if c = '"' then ['"', '"'] else [c]

theorem flatMap_requoted_escapedChar (c : Char) :
    (escapedChar c).flatMap requoted = (Term.quoteChar c).toList := by
  by_cases hc : c = '"'
  · subst hc
    rfl
  · have hquoted : (Term.quoteChar c).toList = escapedChar c := (if_neg hc).symm
    have hsingle : ∀ d ∈ escapedChar c, requoted d = [d] := by
      intro d hd
      refine if_neg ?_
      rintro rfl
      exact not_mem_escapedChar hc hd
    rw [hquoted, List.flatMap_congr hsingle, List.flatMap_singleton']

/-- Different characters are escaped to different texts. -/
theorem escapedChar_flatMap_injective :
    Function.Injective fun characters : List Char => characters.flatMap escapedChar := by
  intro cs ds h
  have hrequoted := congrArg (List.flatMap requoted) h
  simp only [List.flatMap_assoc, flatMap_requoted_escapedChar] at hrequoted
  have hquote : (Term.quote cs).toList = (Term.quote ds).toList := by
    rw [toList_quote, toList_quote, hrequoted]
  have hread := readPoints?_quote cs
  rw [hquote, readPoints?_quote ds] at hread
  exact ((List.map_inj_right fun _ _ => Char.toNat_inj.mp).mp (Option.some.inj hread)).symm

/-- The characters that a literal was written for, whether the target language has them or not. -/
noncomputable def writtenCharacters? : List Char → Option (List Char) :=
  Function.partialInv fun characters => characters.flatMap escapedChar

theorem writtenCharacters?_escapedChar (characters : List Char) :
    writtenCharacters? (characters.flatMap escapedChar) = some characters :=
  Function.partialInv_left escapedChar_flatMap_injective characters

theorem isReadable_writtenCharacters? (r : RegExp) : r.IsReadable writtenCharacters? := by
  cases r with
  | literal text => exact fun characters _ => writtenCharacters?_escapedChar characters
  | range low high => exact fun c _ => by simpa using writtenCharacters?_escapedChar [c]
  | _ => trivial

/-- Two expressions have the same text exactly if they have the same normal form. -/
theorem render_eq_iff {r q : RegExp} {t u : Term} (ht : r.term = .ok t) (hu : q.term = .ok u) :
    t.render = u.render ↔ r.normal = q.normal := by
  have hempty : writtenCharacters? [] = some [] := writtenCharacters?_escapedChar []
  constructor
  · intro h
    have hr := isReadAs_term hempty (fun s _ => s.isReadable_writtenCharacters?) ht
    have hq := isReadAs_term hempty (fun s _ => s.isReadable_writtenCharacters?) hu
    have hread := hr.readRegExpWith?_eq
    rw [h, hq.readRegExpWith?_eq] at hread
    exact (Option.some.inj hread).symm
  · intro h
    rw [← term_normal, h, term_normal, hu] at ht
    rw [Except.ok.inj ht]

end RegExp

end SolverScript
