import SolverScript.Proofs.Script.Vocabulary
import SolverScript.Proofs.Semantics.DataTheory
import SolverScript.Proofs.Semantics.Spelling
import SolverScript.Script.Datatype

/-!
# Functions on rationals

A script defines the functions that compute with rationals in a text. The text is read back here, so
that the blanks and line breaks that align it play no part in what the functions compute. Where the
definitions hold, each function takes pairs of integers to the result that its body gives, whatever
the signs of the denominators.

## Main definitions

* `FunctionDefinition.HoldsIn` - a name stands for the function that a definition gives it
* `RationalFunction.formula` - the body of a function, as it is read
* `RationalFunction.onPairs?` - what a function computes from pairs of integers

## Main results

* `readDefinitions_rationals` - the definitions that the text of a script contains
* `RationalFunction.eval_formula` - what the body of a function denotes
* `RationalFunction.holdsIn_iff_computes` - a definition holds if its name computes the function
-/

namespace SolverScript

/-- Whether the name of a definition stands for the function that it defines. The arguments are
elements of the sorts of the parameters. -/
def FunctionDefinition.HoldsIn {α : Type} (T : Theory α) (J : Interpretation α)
    (f : FunctionDefinition) : Prop :=
  ∀ es, List.Forall₂ T.Contains (f.parameters.map Prod.snd) es →
    T.apply J (.symbol f.name) es =
      f.body.term.eval T (J.bindAll (f.parameters.map Prod.fst) es)

namespace RationalFunction

/-! ### The text -/

/-- The numerators of both parameters over a common denominator. -/
def crossed : List Term :=
  [product (numeratorOf "x") (denominatorOf "y"), product (denominatorOf "x") (numeratorOf "y")]

/-- The body of a function, without the blanks that align it. -/
def formula : RationalFunction → Term
  | eq => .app (.symbol "=") crossed
  | notEq => Term.negation (.app (.symbol eq.symbol) [.symbol "x", .symbol "y"])
  | lt => .app (.symbol "<") crossed
  | leq => .app (.symbol "<=") crossed
  | plus =>
    .app (.symbol constructor)
      [.app (.symbol "+") crossed, product (denominatorOf "x") (denominatorOf "y")]
  | minus =>
    .app (.symbol constructor)
      [.app (.symbol "-") crossed, product (denominatorOf "x") (denominatorOf "y")]
  | times =>
    .app (.symbol constructor)
      [product (numeratorOf "x") (numeratorOf "y"), product (denominatorOf "x") (denominatorOf "y")]
  | uneg =>
    .app (.symbol constructor) [product (Term.int (-1)) (numeratorOf "x"), denominatorOf "x"]
  | abs =>
    .app (.symbol constructor) [.app (.symbol "abs") [numeratorOf "x"], denominatorOf "x"]

/-- The definition of a function, as it is read. -/
def readDefinition (f : RationalFunction) : FunctionDefinition :=
  { f.definition with body := .flat f.formula }

theorem isSpelled_definition (f : RationalFunction) : f.definition.isSpelled = true := by
  cases f <;> decide +kernel

theorem definition?_expression (f : RationalFunction) :
    f.definition.expression.definition? = some f.readDefinition := by
  cases f <;> rfl

end RationalFunction

namespace Datatype

/-- The declaration of the data type of rationals, in the form of a term. -/
def rationalsDeclaration : Term :=
  .app (.symbol "declare-datatype")
    [.symbol "SBVRational",
      .app (.app (.symbol RationalFunction.constructor)
        [.app (.symbol RationalFunction.numerator) [.symbol "Int"],
          .app (.symbol RationalFunction.denominator) [.symbol "Int"]]) []]

theorem render_rationalsDeclaration :
    rationalsDeclaration.render = "(declare-datatype SBVRational ((" ++
      RationalFunction.constructor ++ " (" ++ RationalFunction.numerator ++ " Int) (" ++
        RationalFunction.denominator ++ " Int))))" := by
  rfl

/-- The text that declares rationals spells their data type and the definitions of the functions. -/
theorem spellsEach_rationals :
    SpellsEach rationals (Expression.lexemesAll (rationalsDeclaration.expressions ++
      RationalFunction.all.map (·.definition.expression))) := by
  have hfunction (f : RationalFunction) : SpellsEach ("" :: f.definition.lines)
      f.definition.expression.lexemes :=
    .cons spells_empty (FunctionDefinition.spellsEach_lines f.isSpelled_definition)
  have hdeclaration : rationalsDeclaration.isSpelled = true := rfl
  have hline := Term.spells_render hdeclaration
  rw [render_rationalsDeclaration] at hline
  rw [Expression.lexemesAll_append]
  exact .cons hline (SpellsEach.flatMap hfunction RationalFunction.all)

end Datatype

/-- The definitions that the text of the rationals contains. -/
theorem readDefinitions_rationals :
    readDefinitions (joined "\n" Datatype.rationals) =
      RationalFunction.all.map RationalFunction.readDefinition := by
  rw [readDefinitions, readAll?_of_spells Datatype.spellsEach_rationals.joined_lineBreak]
  have hdatatype :
      Datatype.rationalsDeclaration.expressions.filterMap Expression.definition? = [] := rfl
  rw [Option.getD_some, List.filterMap_append, hdatatype, List.nil_append, List.filterMap_map]
  have hdefinition : Expression.definition? ∘ (·.definition.expression) =
      some ∘ RationalFunction.readDefinition :=
    funext RationalFunction.definition?_expression
  rw [hdefinition, List.filterMap_eq_map]

/-! ### What the functions compute -/

namespace RationalFunction

variable {C : SortExpr → Type}

/-- A pair of integers as an element. -/
def ofPair (p : Int × Int) : Element (Datum C) := .other ⟨.rational, p⟩

/-- What a function computes from the pairs that are its arguments. -/
def onPairs? : RationalFunction → List (Int × Int) → Option (Datum C)
  | eq, [p, q] => some (.ofBool (decide (p.1 * q.2 = p.2 * q.1)))
  | notEq, [p, q] => some (.ofBool !decide (p.1 * q.2 = p.2 * q.1))
  | lt, [p, q] => some (.ofBool (decide (p.1 * q.2 < p.2 * q.1)))
  | leq, [p, q] => some (.ofBool (decide (p.1 * q.2 ≤ p.2 * q.1)))
  | plus, [p, q] => some ⟨.rational, (p.1 * q.2 + p.2 * q.1, p.2 * q.2)⟩
  | minus, [p, q] => some ⟨.rational, (p.1 * q.2 - p.2 * q.1, p.2 * q.2)⟩
  | times, [p, q] => some ⟨.rational, (p.1 * q.1, p.2 * q.2)⟩
  | uneg, [p] => some ⟨.rational, (-1 * p.1, p.2)⟩
  | abs, [p] => some ⟨.rational, (p.1.natAbs, p.2)⟩
  | _, _ => none

/-- A function computes something from as many pairs as it has parameters. -/
theorem length_of_onPairs? {f : RationalFunction} {ps : List (Int × Int)} {a : Datum C}
    (h : f.onPairs? ps = some a) : ps.length = f.parameters.length := by
  unfold onPairs? at h
  split at h <;> first | rfl | cases h

theorem exists_onPairs? {f : RationalFunction} {ps : List (Int × Int)}
    (h : ps.length = f.parameters.length) : ∃ a : Datum C, f.onPairs? ps = some a := by
  cases f with
  | uneg | abs =>
    obtain ⟨p, rfl⟩ := List.length_eq_one_iff.mp h
    exact ⟨_, rfl⟩
  | _ =>
    obtain ⟨p, q, rfl⟩ := List.length_eq_two.mp h
    exact ⟨_, rfl⟩

end RationalFunction

namespace Term.Denotes

open RationalFunction

variable {S : OpenSorts} {P : Interpretation (Datum S.Carrier) → Prop} {t u : Term} {m n : Int}
  {p q : Int × Int}

theorem numerator (ht : Denotes S P t ⟨.rational, p⟩) :
    Denotes S P (.app (.symbol RationalFunction.numerator) [t]) ⟨.int, p.1⟩ :=
  symbol rfl rfl (.cons ht .nil) rfl

theorem fraction (ht : Denotes S P t ⟨.int, m⟩) (hu : Denotes S P u ⟨.int, n⟩) :
    Denotes S P (.app (.symbol constructor) [t, u]) ⟨.rational, (m, n)⟩ :=
  symbol rfl rfl (.cons ht (.cons hu .nil)) rfl

theorem product (ht : Denotes S P t ⟨.int, m⟩) (hu : Denotes S P u ⟨.int, n⟩) :
    Denotes S P (RationalFunction.product t u) ⟨.int, m * n⟩ :=
  standard rfl (.cons ht (.cons hu .nil)) rfl

theorem crossed (hx : Denotes S P (.symbol "x") ⟨.rational, p⟩)
    (hy : Denotes S P (.symbol "y") ⟨.rational, q⟩) :
    List.Forall₂ (Denotes S P) crossed [⟨.int, p.1 * q.2⟩, ⟨.int, p.2 * q.1⟩] :=
  .cons (hx.numerator.product hy.denominator) (.cons (hx.denominator.product hy.numerator) .nil)

/-- The body of a function of one parameter. -/
theorem formula_of_one {f : RationalFunction} {a : Datum S.Carrier}
    (hx : Denotes S P (.symbol "x") ⟨.rational, p⟩) (h : f.onPairs? [p] = some a) :
    Denotes S P f.formula a := by
  cases f with
  | uneg =>
    cases h
    have hnegative : Denotes S P (Term.int (-1)) ⟨.int, Int.negSucc 0⟩ :=
      standard rfl (.cons (numeral 1) .nil) rfl
    exact (hnegative.product hx.numerator).fraction hx.denominator
  | abs =>
    cases h
    have hmagnitude : Denotes S P (.app (.symbol "abs") [numeratorOf "x"])
        ⟨.int, Int.ofNat p.1.natAbs⟩ := standard rfl (.cons hx.numerator .nil) rfl
    exact hmagnitude.fraction hx.denominator
  | _ => cases h

/-- The body of a function of two parameters. One of them calls another function. -/
theorem formula_of_two {f : RationalFunction} {a : Datum S.Carrier}
    (hx : Denotes S P (.symbol "x") ⟨.rational, p⟩) (hy : Denotes S P (.symbol "y") ⟨.rational, q⟩)
    (heq : f = notEq → Denotes S P (.app (.symbol eq.symbol) [.symbol "x", .symbol "y"])
      (.ofBool (decide (p.1 * q.2 = p.2 * q.1))))
    (h : f.onPairs? [p, q] = some a) : Denotes S P f.formula a := by
  have hcrossed := crossed hx hy
  have hdenominator := hx.denominator.product hy.denominator
  cases f with
  | uneg | abs => cases h
  | eq =>
    cases h
    refine standard rfl hcrossed ((relation_equal rfl).trans ?_)
    simp [Datum.element, Datum.ofBool]
  | notEq =>
    cases h
    exact standard rfl (.cons (heq rfl) .nil) rfl
  | lt | leq =>
    cases h
    exact standard rfl hcrossed rfl
  | plus | minus =>
    cases h
    exact fraction (standard rfl hcrossed rfl) hdenominator
  | times =>
    cases h
    exact (hx.numerator.product hy.numerator).fraction hdenominator

end Term.Denotes

namespace RationalFunction

variable {S : OpenSorts} {J : Interpretation (Datum S.Carrier)} {f : RationalFunction}
  {ps : List (Int × Int)} {C : SortExpr → Type}

/-- Whether a name computes the function that it is the symbol of. -/
def Computes (J : Interpretation (Datum S.Carrier)) (f : RationalFunction) : Prop :=
  ∀ ps a, f.onPairs? ps = some a →
    S.theory.apply J (.symbol f.symbol) (ps.map ofPair) = some a.element

/-- The elements of the sort of rationals are the pairs of integers. -/
theorem forall₂_contains_iff {names : List String} {es : List (Element (Datum S.Carrier))} :
    List.Forall₂ S.theory.Contains (names.map fun _ => Kind.rational.sort) es ↔
      ∃ ps : List (Int × Int), ps.length = names.length ∧ es = ps.map ofPair := by
  induction names generalizing es with
  | nil => simp
  | cons name names ih =>
    rw [List.map_cons, List.forall₂_cons_left_iff]
    constructor
    · rintro ⟨e, rest, he, hrest, rfl⟩
      obtain ⟨p, rfl⟩ := S.hasDomains_theory.contains_iff.mp he
      obtain ⟨ps, hlength, rfl⟩ := ih.mp hrest
      exact ⟨p :: ps, congrArg Nat.succ hlength, rfl⟩
    · rintro ⟨_ | ⟨p, ps⟩, hlength, rfl⟩
      · cases hlength
      · exact ⟨ofPair p, ps.map ofPair, S.hasDomains_theory.contains_iff.mpr ⟨p, rfl⟩,
          ih.mpr ⟨ps, Nat.succ.inj hlength, rfl⟩, rfl⟩

theorem parameters_eq (f : RationalFunction) : f.parameters = ["x"] ∨ f.parameters = ["x", "y"] := by
  cases f <;> decide

theorem parameters_subset (f : RationalFunction) : f.parameters ⊆ ["x", "y"] := by
  cases f <;> simp [parameters]

/-- What the body of a function denotes where its parameters are bound to pairs. -/
theorem eval_formula
    (hopen : ∀ x ∈ f.parameters, S.theory.function (.symbol x) [] = none)
    (heq : f = notEq → Computes J eq) {a : Datum S.Carrier} (h : f.onPairs? ps = some a) :
    f.formula.eval S.theory (J.bindAll f.parameters (ps.map ofPair)) = some a.element := by
  have hlength := length_of_onPairs? h
  have hnames : f.parameters.Nodup := by cases f <;> decide
  have hvalues : Term.evalAll S.theory (J.bindAll f.parameters (ps.map ofPair))
      (f.parameters.map .symbol) = some (ps.map ofPair) :=
    Term.evalAll_symbols_bindAll hnames (by rw [List.length_map, hlength]) hopen
  have hdenote := Term.evalAll_eq_some_iff.mp hvalues
  rcases f.parameters_eq with hparameters | hparameters
  · rw [hparameters] at hlength hdenote ⊢
    obtain ⟨p, rfl⟩ := List.length_eq_one_iff.mp hlength
    obtain ⟨hx, -⟩ := List.forall₂_cons.mp hdenote
    refine Term.Denotes.formula_of_one (P := (· = J.bindAll ["x"] [ofPair p])) ?_ h _ rfl
    rintro _ rfl
    exact hx
  · rw [hparameters] at hlength hvalues hdenote ⊢
    obtain ⟨p, q, rfl⟩ := List.length_eq_two.mp hlength
    obtain ⟨hx, hrest⟩ := List.forall₂_cons.mp hdenote
    obtain ⟨hy, -⟩ := List.forall₂_cons.mp hrest
    refine Term.Denotes.formula_of_two (P := (· = J.bindAll ["x", "y"] [ofPair p, ofPair q]))
      ?_ ?_ (fun hf => ?_) h _ rfl
    · rintro _ rfl
      exact hx
    · rintro _ rfl
      exact hy
    · rintro _ rfl
      -- Only inequality calls another function, whose name is not one of the parameters.
      have hother : eq.symbol ∉ ["x", "y"] := by decide
      have hcall := heq hf [p, q] _ rfl
      refine (Term.eval_app_of_evalAll hvalues).trans ?_
      simpa only [Theory.apply, Term.name?, J.bindAll_of_not_mem _ hother] using hcall

/-- A definition holds if its name computes the function. -/
theorem holdsIn_iff_computes
    (hopen : ∀ x ∈ f.parameters, S.theory.function (.symbol x) [] = none)
    (heq : f = notEq → Computes J eq) :
    f.readDefinition.HoldsIn S.theory J ↔ Computes J f := by
  have hnames : f.readDefinition.parameters.map Prod.fst = f.parameters := by
    simp [readDefinition, definition, Function.comp_def]
  have hsorts : f.readDefinition.parameters.map Prod.snd =
      f.parameters.map fun _ => Kind.rational.sort := by
    simp [readDefinition, definition, Function.comp_def]
  rw [FunctionDefinition.HoldsIn, hnames, hsorts]
  constructor
  · intro hholds ps a ha
    have hvalue := hholds _ (forall₂_contains_iff.mpr ⟨ps, length_of_onPairs? ha, rfl⟩)
    exact hvalue.trans (eval_formula hopen heq ha)
  · intro hcomputes es hes
    obtain ⟨ps, hlength, rfl⟩ := forall₂_contains_iff.mp hes
    obtain ⟨a, ha⟩ := exists_onPairs? (C := S.Carrier) hlength
    exact (hcomputes ps a ha).trans (eval_formula hopen heq ha).symm

/-- Where the definitions hold that a script contains, all names compute their functions. -/
theorem computes_of_definitions
    (hopen : ∀ f : RationalFunction, ∀ x ∈ f.parameters, S.theory.function (.symbol x) [] = none)
    (hdefinitions : ∀ d ∈ readDefinitions (joined "\n" Datatype.rationals), d.HoldsIn S.theory J)
    (f : RationalFunction) : Computes J f := by
  rw [readDefinitions_rationals, List.forall_mem_map] at hdefinitions
  have hholds (g : RationalFunction) : g.readDefinition.HoldsIn S.theory J :=
    hdefinitions g g.mem_all
  have heq : Computes J eq := (holdsIn_iff_computes (hopen eq) (nomatch ·)).mp (hholds eq)
  exact (holdsIn_iff_computes (hopen f) fun _ => heq).mp (hholds f)

/-! ### A model of the definitions -/

/-- The pair of integers that an element is. -/
def pair? : Element (Datum C) → Option (Int × Int)
  | .other ⟨.rational, p⟩ => some p
  | _ => none

theorem mapM_pair? (ps : List (Int × Int)) :
    (ps.map (ofPair (C := C))).mapM pair? = some ps := by
  induction ps with
  | nil => rfl
  | cons p ps ih => simp [ih, ofPair, pair?]

/-- The interpretation in which the symbols of the functions stand for what they compute. -/
def model (I : Interpretation (Datum C)) : Interpretation (Datum C) := fun name es =>
  match all.find? (·.symbol == name) with
  | some f => (es.mapM pair?).bind fun ps => (f.onPairs? ps).map Datum.element
  | none => I name es

theorem find?_symbol (f : RationalFunction) : all.find? (·.symbol == f.symbol) = some f := by
  cases f <;> rfl

theorem computes_model (hfree : ∀ es, S.theory.function (.symbol f.symbol) es = none)
    (I : Interpretation (Datum S.Carrier)) : Computes (model I) f := by
  intro ps a ha
  have hvalue : model I f.symbol (ps.map ofPair) = some a.element := by
    simp only [model, find?_symbol, mapM_pair?, Option.bind_some, ha, Option.map_some]
  simp only [Theory.apply, Term.name?, hfree, Option.none_or, hvalue]

theorem lookup_symbol (f : RationalFunction) :
    (Theory.symbols (α := Datum C)).lookup f.symbol = none := by
  cases f <;> rfl

/-- The functions are not among those on data. -/
theorem not_isDataHead (f : RationalFunction) : ¬S.IsDataHead (.symbol f.symbol) := by
  have hhead : f.symbol.toList.head? = some 's' := by cases f <;> simp [symbol]
  refine OpenSorts.not_isDataHead_symbol
    (OpenSorts.not_isDataName ?_ (by simp [hhead]) (by simp [hhead]))
  rw [OpenSorts.keys_symbols]
  cases f <;> simp [symbol, constructor, numerator, denominator, Composite.maybeAccessor,
    Composite.sideAccessor]

/-- The definitions of a script hold in the model. -/
theorem holdsIn_model
    (hopen : ∀ f : RationalFunction, ∀ x ∈ f.parameters, S.theory.function (.symbol x) [] = none)
    (hfree : ∀ (f : RationalFunction) es, S.theory.function (.symbol f.symbol) es = none)
    (I : Interpretation (Datum S.Carrier)) :
    ∀ d ∈ readDefinitions (joined "\n" Datatype.rationals), d.HoldsIn S.theory (model I) := by
  rw [readDefinitions_rationals, List.forall_mem_map]
  exact fun f _ => (holdsIn_iff_computes (hopen f) fun _ => computes_model (hfree eq) I).mpr
    (computes_model (hfree f) I)

end RationalFunction

end SolverScript
