import SolverScript.Proofs.Script.Invariants
import SolverScript.Proofs.Script.OrdinaryCommands

/-!
# Well-formed values

The sorts of characters and rationals have values that the kinds do not have, so a script asserts
the invariants of what it declares without a definition. They hold in every model of the script: of
inputs, of the results of functions, of trackers and of free symbols. Nothing is asserted about the
elements of arrays and the values of universal nodes. An array of characters is rejected, but not
one of values with characters inside, nor one of rationals.

## Main definitions

* `Script.IsModel` - the interpretations that satisfy a script
* `Kind.Admits` - whether what a term denotes has the invariants of a kind
* `OpenSymbol`, `Problem.openSymbols` - the symbols that a problem declares without a definition
* `Problem.ConstrainsValues` - whether a script restricts all such values to well-formed ones

## Main results

* `Problem.isWellFormed_symbol` - all symbols have well-formed values in every model of a script
* `Problem.constrainsValues` - the values are restricted, apart from those of some free arrays and
  of universal nodes
-/

namespace SolverScript

variable {α : Type} {T : Theory α} {J : Interpretation α}

/-! ### Models of a script -/

/-- What a command asks of an interpretation. -/
def Command.HoldsIn (T : Theory α) (J : Interpretation α) : Command → Prop
  | declareFun name domain range _ => T.IsFunction domain range (J name)
  | defineFun name sort value _ =>
    ∃ e, value.eval T J = some e ∧ T.Contains sort e ∧ J name = e.constant
  | c => ∀ t ∈ c.required, t.eval T J = some (.bool true)

/-- The interpretations that satisfy a script: what it declares has its sort, what it defines has
its value, and what it asserts holds. -/
def Script.IsModel (T : Theory α) (commands : List Command) (J : Interpretation α) : Prop :=
  ∀ c ∈ commands, c.HoldsIn T J

theorem Command.HoldsIn.of_required {c : Command} (h : c.HoldsIn T J) :
    ∀ t ∈ c.required, t.eval T J = some (.bool true) := by
  cases c with
  | declareFun | defineFun => simp [required]
  | _ => exact h

/-- A model is one of the declarations and definitions, and of the assertions. -/
theorem Script.isModel_iff {commands : List Command} : IsModel T commands J ↔
    (∀ c ∈ commands.filter fun c => c.introduced?.isSome, c.HoldsIn T J) ∧
      ∀ t ∈ commands.flatMap Command.required, t.eval T J = some (.bool true) := by
  constructor
  · intro h
    refine ⟨fun c hc => h c (List.mem_filter.mp hc).1, ?_⟩
    exact List.forall_mem_flatMap.mpr fun c hc => (h c hc).of_required
  · rintro ⟨hintroduced, hrequired⟩ c hc
    rw [List.forall_mem_flatMap] at hrequired
    have hfilter := hintroduced c
    rw [List.mem_filter] at hfilter
    cases c with
    | declareFun | defineFun => exact hfilter ⟨hc, rfl⟩
    | _ => exact hrequired _ hc

/-! ### What invariants say -/

namespace Kind

/-- Whether what a term denotes has the invariants of a kind. -/
def Admits (k : Kind) (T : Theory α) (J : Interpretation α) (t : Term) : Prop :=
  ∀ f ∈ k.invariants t, f.eval T J = some (.bool true)

theorem admits_of_not_contains {k : Kind} (h : k.containsCharOrRational = false) (T : Theory α)
    (J : Interpretation α) (t : Term) : k.Admits T J t := by
  simp [Admits, invariants_eq_nil h]

end Kind

/-! ### Values that a script leaves open -/

/-- A symbol that is declared without a definition; without arguments it is a constant. -/
structure OpenSymbol where
  name : String
  arguments : List Kind
  result : Kind

namespace OpenSymbol

/-- The symbol with a given signature, the last kind of which is the one of its results. -/
def ofSignature? (name : String) (kinds : List Kind) : Option OpenSymbol :=
  (Declaration.splitSignature? kinds).map fun (arguments, result) => ⟨name, arguments, result⟩

end OpenSymbol

/-- Whether all values of a function have the invariants of a kind. -/
def Kind.AdmitsAll (k : Kind) (T : Theory α) (J : Interpretation α) (sorts : List SortExpr)
    (f : Element.Function α) : Prop :=
  ∀ es, List.Forall₂ T.Contains sorts es → ∀ e, f es = some e →
    k.Admits T ((J.bindAll ((List.range sorts.length).map argumentName) es).bind resultName
      e.constant) (.symbol resultName)

/-- Whether a symbol has well-formed values only: itself, or its results at all arguments. -/
def OpenSymbol.IsWellFormed (s : OpenSymbol) (T : Theory α) (J : Interpretation α) : Prop :=
  if s.arguments = [] then s.result.Admits T J (.symbol s.name)
  else s.result.AdmitsAll T J (s.arguments.map Kind.sort) (T.apply J (.symbol s.name))

/-- Whether an array has well-formed elements only. -/
def ArrayDatum.IsWellFormed (a : ArrayDatum) (T : Theory α) (J : Interpretation α) : Prop :=
  ∀ array, J (arrayName a.id) [] = some array →
    a.range.AdmitsAll T J [a.domain.sort] fun es => T.apply J (.symbol "select") (array :: es)

/-- Whether an assertion about all values of some nodes is only about the well-formed ones: it holds
as soon as it does for those. -/
def QuantifiedBlock.IsAboutWellFormed (b : QuantifiedBlock) (T : Theory α) (J : Interpretation α) :
    Prop :=
  (∀ es, List.Forall₂ T.Contains (b.universals.map fun n => n.kind.sort) es →
      (∀ n ∈ b.universals, n.kind.Admits T (J.bindAll (b.universals.map Node.name) es)
        (.symbol n.name)) →
      (QuantifiedBlock.withDefinitions b.definitions b.conclusion).eval T
        (J.bindAll (b.universals.map Node.name) es) = some (.bool true)) →
    b.term.eval T J = some (.bool true)

/-! ### What is asserted about symbols -/

theorem argumentName_injective : Function.Injective argumentName := by
  intro i j h
  exact Nat.succ.inj (Numeral.repr_injective (by simpa [argumentName] using h))

/-- Whether a theory leaves the names of arguments to what binds them. -/
def Theory.LeavesArguments (T : Theory α) : Prop :=
  ∀ i es, T.function (.symbol (argumentName i)) es = none

theorem Kind.admitsAll_of_not_contains {k : Kind} (h : k.containsCharOrRational = false)
    (sorts : List SortExpr) (f : Element.Function α) : k.AdmitsAll T J sorts f :=
  fun _ _ _ _ => k.admits_of_not_contains h _ _ _

/-- The formulas about the results of a function say that all of them are well formed. -/
theorem Kind.admitsAll_of_required (hT : T.LeavesArguments) {k : Kind} {name : String}
    {sorts : List SortExpr} (hsorts : sorts ≠ [])
    (h : ∀ t ∈ (Command.assertResults name sorts (k.invariants (.symbol resultName))).required,
      t.eval T J = some (.bool true)) :
    k.AdmitsAll T J sorts (T.apply J (.symbol name)) := by
  intro es hes e he f hf
  set names := (List.range sorts.length).map argumentName with hnames
  have hlength : names.length = es.length := by simp [hnames, hes.length_eq]
  have hnodup : names.Nodup := List.nodup_range.map argumentName_injective
  have hopen : ∀ name ∈ names, ∀ es, T.function (.symbol name) es = none := by
    intro name hname
    obtain ⟨i, -, rfl⟩ := List.mem_map.mp hname
    exact hT i
  have hnonempty : es ≠ [] := by
    rintro rfl
    exact hsorts (List.forall₂_nil_right_iff.mp hes)
  -- The formula names the arguments itself, so its call is read where those names are bound.
  have hcall : Term.eval T (J.bindAll names es) (.app (.symbol name) (names.map .symbol)) =
      if name ∈ names then none else T.apply J (.symbol name) es :=
    Term.eval_call_bindAll hnodup hlength hnonempty hopen
  have hbody := Term.eval_forAll_iff.mp (List.forall_mem_map.mp h f hf) es
  rw [List.map_fst_zip (by simp), List.map_snd_zip (by simp), ← hnames] at hbody
  have hbody := hbody hes
  split at hcall
  · -- An argument hides a symbol that is called like it, so the formula is not well formed.
    rw [Term.eval, Term.evalAll, hcall] at hbody
    cases hbody
  · rwa [Term.eval_bind_of_eval (hcall.trans he)] at hbody

theorem Declaration.required_constantInvariants (name : String) (k : Kind) :
    (constantInvariants name k).flatMap Command.required = k.invariants (.symbol name) := by
  unfold constantInvariants
  split
  · next h => rw [h]; rfl
  · next h => rw [h]; rfl
  · simp [Command.required]

namespace OpenSymbol

/-- What is asserted with the declaration of a symbol says that its values are well formed. -/
theorem isWellFormed_of_required {name remark : String} {kinds : List Kind} {cs : List Command}
    {s : OpenSymbol} (hT : T.LeavesArguments) (hs : ofSignature? name kinds = some s)
    (h : Declaration.symbol name kinds remark = .ok cs)
    (hrequired : ∀ t ∈ cs.flatMap Command.required, t.eval T J = some (.bool true)) :
    s.IsWellFormed T J := by
  unfold ofSignature? at hs
  unfold Declaration.symbol at h
  split at h
  · next hsplit =>
    rw [hsplit] at hs
    cases hs
  · next arguments result hsplit =>
    rw [hsplit] at hs
    obtain rfl := Option.some.inj hs
    obtain rfl := Except.ok.inj h
    rw [List.flatMap_cons] at hrequired
    obtain ⟨-, hrequired⟩ := List.forall_mem_append.mp hrequired
    unfold IsWellFormed
    cases hcontains : result.containsCharOrRational with
    | false =>
      split
      · exact result.admits_of_not_contains hcontains _ _ _
      · exact Kind.admitsAll_of_not_contains hcontains _ _
    | true =>
      simp only [hcontains, Bool.not_true, Bool.false_eq_true, if_false,
        List.isEmpty_iff] at hrequired
      split
      · next harguments =>
        rw [if_pos harguments, Declaration.required_constantInvariants] at hrequired
        exact hrequired
      · next harguments =>
        rw [if_neg harguments] at hrequired
        refine Kind.admitsAll_of_required hT (by simpa using harguments) ?_
        simpa [Declaration.resultInvariants] using hrequired

end OpenSymbol

namespace Problem

variable {config : Config} {p : Problem}

/-- The symbols that a problem declares without a definition: inputs, which may be functions of
others, trackers and free symbols. -/
def openSymbols (p : Problem) : List OpenSymbol :=
  (p.existentials.map (fun input => (input.1.name, input.2.map Node.kind ++ [input.1.kind])) ++
      p.trackers.map (fun t => (t.node.name, [t.node.kind])) ++
      p.freeSymbols.map fun s => (s.name, s.signature)).filterMap fun s =>
    OpenSymbol.ofSignature? s.1 s.2

/-- Whether a script restricts everything that it leaves open to well-formed values: the symbols
that it declares without a definition, the free arrays without an initial value, and the universal
nodes that it binds. -/
structure ConstrainsValues (p : Problem) (commands : List Command) : Prop where
  symbols : ∀ s ∈ p.openSymbols, ∀ {α : Type} {T : Theory α} {J : Interpretation α},
    T.LeavesArguments → Script.IsModel T commands J → s.IsWellFormed T J
  arrays : ∀ a ∈ p.arrays, a.context = .free none →
    ∀ {α : Type} {T : Theory α} {J : Interpretation α},
      Script.IsModel T commands J → a.IsWellFormed T J
  universals : ∀ block, .assertForAll block ∈ commands →
    ∀ {α : Type} {T : Theory α} {J : Interpretation α}, block.IsAboutWellFormed T J

namespace IsPlan

variable {plan : Plan} (hplan : p.IsPlan config plan)

include hplan

/-- The declaration of an open symbol is part of the script. -/
theorem exists_declaration {commands : List Command} (h : plan.commands = .ok commands)
    {s : OpenSymbol} (hs : s ∈ p.openSymbols) :
    ∃ name kinds remark ds, OpenSymbol.ofSignature? name kinds = some s ∧
      Declaration.symbol name kinds remark = .ok ds ∧ ds ⊆ commands := by
  obtain ⟨tuples, constants, existentials, trackers, freeSymbols, definitions, conclusion, -, -,
    hexistentials, htrackers, hfreeSymbols, -, -, rfl⟩ := Plan.exists_sections_of_commands h
  rw [hplan.ofProblem] at hexistentials hfreeSymbols
  obtain ⟨declarations, hdeclarations, htrackers⟩ := bind_eq_ok_iff.mp htrackers
  obtain rfl := Except.ok.inj htrackers
  rw [hplan.ofProblem] at hdeclarations
  obtain ⟨⟨name, kinds⟩, hmem, hs⟩ := List.mem_filterMap.mp hs
  simp only [List.mem_append, List.mem_map, Prod.mk.injEq] at hmem
  rcases hmem with (⟨⟨n, dependencies⟩, hinput, rfl, rfl⟩ | ⟨t, ht, rfl, rfl⟩) | ⟨f, hf, rfl, rfl⟩
  · obtain ⟨ds, hds, hsubset⟩ := exists_subset_of_commandsOf hexistentials hinput
    refine ⟨_, _, _, ds, hs, hds, fun c hc => ?_⟩
    simp [hsubset hc]
  · obtain ⟨ds, hds, hsubset⟩ := exists_subset_of_commandsOf hdeclarations ht
    refine ⟨_, _, _, ds, hs, hds, fun c hc => ?_⟩
    simp [hsubset hc]
  · obtain ⟨ds, hds, hsubset⟩ := exists_subset_of_commandsOf hfreeSymbols hf
    refine ⟨_, _, _, ds, hs, hds, fun c hc => ?_⟩
    simp [Plan.middle, hsubset hc]

/-- An array of characters without initial elements is not planned. -/
theorem isChar_eq_false {a : ArrayDatum} (ha : a ∈ p.arrays) (hfree : a.context = .free none) :
    a.range.isChar = false := by
  obtain ⟨s, -, hs⟩ := exists_mem_of_mapM hplan.arrays ha
  obtain ⟨declared, hdeclared, -⟩ := bind_eq_ok_iff.mp hs
  unfold ArraySetup.declaration at hdeclared
  simp only [hfree] at hdeclared
  split at hdeclared
  · cases hdeclared
  · next hchar => simpa using hchar

end IsPlan

variable {script : CompiledScript}

/-- Every symbol is declared in one way, which asserts what its kind asks for. -/
theorem isWellFormed_symbol (h : p.compile config = .ok script) {s : OpenSymbol}
    (hs : s ∈ p.openSymbols) (hT : T.LeavesArguments)
    (hmodel : Script.IsModel T script.commands J) : s.IsWellFormed T J := by
  obtain ⟨plan, hplan, hcommands⟩ := exists_plan_of_compile h
  obtain ⟨name, kinds, remark, ds, hsymbol, hds, hsubset⟩ := hplan.exists_declaration hcommands hs
  refine OpenSymbol.isWellFormed_of_required hT hsymbol hds ?_
  exact List.forall_mem_flatMap.mpr fun c hc => (hmodel c (hsubset hc)).of_required

/-- Nothing is asserted about the elements of arrays, so there has to be nothing to assert. -/
theorem isWellFormed_array (h : p.compile config = .ok script) {a : ArrayDatum}
    (ha : a ∈ p.arrays) (hfree : a.context = .free none)
    (hrange : a.range.containsCharOrRational = true → a.range.isChar = true) :
    a.IsWellFormed T J := by
  obtain ⟨plan, hplan, -⟩ := exists_plan_of_compile h
  refine fun _ _ => Kind.admitsAll_of_not_contains ?_ _ _
  by_contra hcontains
  have hchar := hrange (by simpa using hcontains)
  rw [hplan.isChar_eq_false ha hfree] at hchar
  cases hchar

/-- Nothing is assumed of universal nodes, so there has to be nothing to assume. -/
theorem isAboutWellFormed_block (h : p.compile config = .ok script)
    (huniversals : ∀ n ∈ p.universals, n.kind.containsCharOrRational = false)
    {block : QuantifiedBlock} (hblock : .assertForAll block ∈ script.commands) :
    block.IsAboutWellFormed T J := by
  obtain ⟨plan, hplan, hcommands⟩ := exists_plan_of_compile h
  intro hwellFormed
  rw [QuantifiedBlock.eval_term_iff]
  intro es hes
  refine hwellFormed es hes fun n hn => n.kind.admits_of_not_contains ?_ _ _ _
  rw [hplan.universals_of_mem hcommands hblock] at hn
  exact huniversals n hn

/-- Everything that a script leaves open is restricted to well-formed values, if no universal node
has characters or rationals inside, and no free array except for those of characters themselves,
which are rejected. -/
theorem constrainsValues
    (harrays : ∀ a ∈ p.arrays, a.context = .free none →
      a.range.containsCharOrRational = true → a.range.isChar = true)
    (huniversals : ∀ n ∈ p.universals, n.kind.containsCharOrRational = false)
    (h : p.compile config = .ok script) : p.ConstrainsValues script.commands where
  symbols := fun _ hs _ _ _ hT hmodel => isWellFormed_symbol h hs hT hmodel
  arrays := fun a ha hfree _ _ _ _ => isWellFormed_array h ha hfree (harrays a ha hfree)
  universals := fun _ hblock _ _ _ => isAboutWellFormed_block h huniversals hblock

/-- A word that depends on a truth value, a rational to be optimized, a free function to characters
and a free array of truth values. -/
def letters : Problem where
  kinds := [.bool, .char, .rational, .list .char]
  inputs := [⟨⟨0, .bool⟩, "b"⟩, ⟨⟨1, .list .char⟩, "word"⟩]
  quantified := [.universal ⟨0, .bool⟩, .existential ⟨1, .list .char⟩ [⟨0, .bool⟩]]
  trackers := [⟨⟨2, .rational⟩, "cost"⟩]
  freeSymbols := [⟨"letter", [.bool, .char]⟩]
  arrays := [⟨0, "a", .bool, .bool, .free none⟩]
  goal := ⟨0, .bool⟩

theorem constrainsValues_letters :
    letters.openSymbols =
        [⟨"s1", [.bool], .list .char⟩, ⟨"s2", [], .rational⟩, ⟨"letter", [.bool], .char⟩] ∧
      ∃ script, letters.compile {} = .ok script ∧ letters.ConstrainsValues script.commands := by
  obtain ⟨script, hscript⟩ : ∃ script, letters.compile {} = .ok script := ⟨_, rfl⟩
  refine ⟨rfl, script, hscript, constrainsValues ?_ ?_ hscript⟩
  · simp only [letters, List.forall_mem_singleton]
    exact fun _ h => absurd h (by decide)
  · have huniversals : letters.universals = [⟨0, .bool⟩] := rfl
    rw [huniversals, List.forall_mem_singleton]
    rfl

end Problem

/-! ### Values that are not well formed -/

/-- Texts, optional texts, and functions from truth values to those. -/
inductive TextValue where
  | text (s : String)
  | optional (s : Option String)
  | array (elements : Bool → Option String)

namespace TextValue

/-- The sorts of texts, of optional texts and of arrays of those. -/
def carrier (sort : SortExpr) : TextValue → Prop
  | text _ => sort = Kind.char.sort
  | optional _ => sort = (Kind.maybe .char).sort
  | array _ => sort = .array .bool (.maybe .char)

/-- The functions on texts, optional texts and arrays. -/
def function (head : Term) : Element.Function TextValue := fun es =>
  match head, es with
  | .symbol "str.len", [.other (text s)] => some (.int s.length)
  | .symbol "select", [.other (array elements), .bool b] => some (.other (optional (elements b)))
  | .symbol "get_just_SBVMaybe", [.other (optional (some s))] => some (.other (text s))
  | .tester "just_SBVMaybe" _, [.other (optional s)] => some (.bool s.isSome)
  | _, _ => none

/-- The standard theory with texts, optional texts and arrays. -/
noncomputable def theory : Theory TextValue where
  carrier := carrier
  function head es := ((Theory.standard carrier).function head es).or (function head es)

variable {J : Interpretation TextValue}

theorem exists_text {e : Element TextValue} (h : theory.Contains Kind.char.sort e) :
    ∃ s, e = .other (text s) := by
  have hchar : Kind.char.sort = .named "String" := rfl
  generalize hsort : Kind.char.sort = sort at h
  rw [hchar] at hsort
  cases h with
  | bool | int | bits => simp at hsort
  | @other sort value _ hcarrier =>
    cases value with
    | text s => exact ⟨s, rfl⟩
    | optional | array => cases hsort.trans hcarrier

theorem eval_standard {name : String} {f : Element.Function TextValue} {ts : List Term}
    {es : List (Element TextValue)} {e : Element TextValue}
    (hname : Theory.symbols.lookup name = some f) (hes : Term.evalAll theory J ts = some es)
    (he : f es = some e) : Term.eval theory J (.app (.symbol name) ts) = some e := by
  rw [Term.eval_app_of_evalAll hes]
  simp [Theory.apply, Term.name?, theory, Theory.standard, hname, he]

theorem eval_length {t : Term} {s : String} (ht : t.eval theory J = some (.other (text s))) :
    Term.eval theory J (.app (.symbol "str.len") [t]) = some (.int s.length) := by
  rw [Term.eval_app_of_evalAll (Term.evalAll_eq_some_iff.mpr (.cons ht .nil))]
  rfl

open Classical in
theorem eval_equal_ints {t u : Term} {m n : Int} (ht : t.eval theory J = some (.int m))
    (hu : u.eval theory J = some (.int n)) :
    Term.eval theory J (.app (.symbol "=") [t, u]) = some (.bool (decide (m = n))) := by
  rw [eval_standard rfl (Term.evalAll_eq_some_iff.mpr (.cons ht (.cons hu .nil)))
    (Term.relation_equal rfl)]
  simp

theorem eval_implication {premise conclusion : Term} {b c : Bool}
    (hpremise : premise.eval theory J = some (.bool b))
    (hconclusion : conclusion.eval theory J = some (.bool c)) :
    (Kind.implication premise conclusion).eval theory J = some (.bool (!b || c)) := by
  have hvalues : Term.evalAll theory J [premise, conclusion] = some ([b, c].map .bool) :=
    Term.evalAll_eq_some_iff.mpr (.cons hpremise (.cons hconclusion .nil))
  rw [Kind.implication, eval_standard rfl hvalues (Element.Function.connective_bools le_rfl)]
  simp

theorem admits_char_iff {t : Term} {s : String}
    (ht : t.eval theory J = some (.other (text s))) :
    Kind.char.Admits theory J t ↔ s.length = 1 := by
  have hone : Term.eval theory J (.numeral 1) = some (.int 1) := rfl
  have hinvariants : Kind.char.invariants t =
      [.app (.symbol "=") [.numeral 1, .app (.symbol "str.len") [t]]] := rfl
  rw [Kind.Admits, hinvariants, List.forall_mem_singleton, eval_equal_ints hone (eval_length ht)]
  simp only [Option.some.injEq, Element.bool.injEq, decide_eq_true_eq]
  omega

/-- An optional text is not admitted if it is the empty one. -/
theorem not_admits_empty {t : Term} (ht : t.eval theory J = some (.other (optional (some "")))) :
    ¬(Kind.maybe .char).Admits theory J t := by
  have hone : Term.eval theory J (.numeral 1) = some (.int 1) := rfl
  have htext : Term.eval theory J (.app (.symbol "get_just_SBVMaybe") [t]) =
      some (.other (text "")) := by
    rw [Term.eval_app_of_evalAll (Term.evalAll_eq_some_iff.mpr (.cons ht .nil))]
    rfl
  have htest : Term.eval theory J (.app (.tester "just_SBVMaybe"
      (some ([Kind.char.sort], (Kind.maybe .char).sort))) [t]) = some (.bool true) := by
    rw [Term.eval_app_of_evalAll (Term.evalAll_eq_some_iff.mpr (.cons ht .nil))]
    rfl
  intro h
  have hfalse := eval_implication htest (eval_equal_ints hone (eval_length htext))
  have himplication := hfalse.symm.trans (h _ List.mem_cons_self)
  simp at himplication

end TextValue

namespace Problem

/-- A free array of optional characters. -/
def freeOptionals : Problem where
  kinds := [.bool, .maybe .char]
  arrays := [⟨0, "a", .bool, .maybe .char, .free none⟩]

/-- The claim that every character has length one. -/
def charLength : Problem where
  kinds := [.bool, .unbounded, .char]
  inputs := [⟨⟨0, .char⟩, "c"⟩]
  quantified := [.universal ⟨0, .char⟩]
  constants := [⟨⟨2, .unbounded⟩, .unbounded 1⟩]
  assignments := [⟨⟨1, .unbounded⟩, ⟨.string .length, [⟨0, .char⟩]⟩⟩,
    ⟨⟨3, .bool⟩, ⟨.equal, [⟨1, .unbounded⟩, ⟨2, .unbounded⟩]⟩⟩]
  goal := ⟨3, .bool⟩

/-- What is asserted of all characters. -/
def charLengthBlock : QuantifiedBlock where
  universals := [⟨0, .char⟩]
  definitions := [⟨⟨1, .unbounded⟩, .app (.symbol "str.len") [.node 0], none⟩,
    ⟨⟨3, .bool⟩, .app (.symbol "=") [.node 1, .node 2], none⟩]
  equations := []
  formula := .node 3

/-- The array of empty texts is an interpretation of an array of optional characters. -/
theorem not_constrainsValues_freeOptionals {script : CompiledScript}
    (h : freeOptionals.compile {} = .ok script) :
    ¬freeOptionals.ConstrainsValues script.commands := by
  obtain ⟨_, hscript, hintroduced, hrequired⟩ : ∃ script,
      freeOptionals.compile {} = .ok script ∧
        (script.commands.filter fun c => c.introduced?.isSome) =
          [.declareFun "array_0" [] (.array .bool (.maybe .char)) "",
            .defineFun "array_0_initializer" Kind.bool.sort (Term.ofBool true)
              "no initialization needed"] ∧
        script.commands.flatMap Command.required = [] := ⟨_, rfl, rfl, rfl⟩
  rw [h] at hscript
  cases hscript
  -- The declaration and an initializer that says nothing are all there is to satisfy.
  let emptyTexts : TextValue := .array fun _ => some ""
  let J : Interpretation TextValue := fun name =>
    if name = arrayName 0 then (Element.other emptyTexts).constant else (Element.bool true).constant
  have hmodel : Script.IsModel TextValue.theory script.commands J := by
    rw [Script.isModel_iff, hintroduced, hrequired, List.forall_mem_cons, List.forall_mem_singleton]
    refine ⟨⟨?_, ?_⟩, by simp⟩
    · have hsort : TextValue.theory.carrier (.array .bool (.maybe .char)) emptyTexts := rfl
      exact Theory.isFunction_nil_iff.mpr ⟨_, .other rfl hsort, rfl⟩
    · exact ⟨.bool true, rfl, .bool true, rfl⟩
  intro hconstrains
  have helement := hconstrains.arrays _ List.mem_cons_self rfl hmodel (.other emptyTexts) rfl
    [.bool true] (.cons (.bool true) .nil) (.other (.optional (some ""))) rfl
  exact TextValue.not_admits_empty rfl helement

/-- Every text has length one if every character has. -/
theorem not_isAboutWellFormed_charLengthBlock :
    ¬charLengthBlock.IsAboutWellFormed TextValue.theory fun _ => (Element.int 1).constant := by
  set J : Interpretation TextValue := fun _ => (Element.int 1).constant
  have hbody : ∀ s : String,
      (QuantifiedBlock.withDefinitions charLengthBlock.definitions charLengthBlock.conclusion).eval
        TextValue.theory (J.bindAll (charLengthBlock.universals.map Node.name) [.other (.text s)]) =
          some (.bool (decide ((s.length : Int) = 1))) := by
    intro s
    have hlength := TextValue.eval_length (J := J.bindAll [nodeName 0] [.other (.text s)])
      (t := .node 0) (s := s) rfl
    exact (Term.eval_bind_of_eval hlength).trans
      (Term.eval_bind_of_eval (TextValue.eval_equal_ints rfl rfl))
  intro h
  have htrue := QuantifiedBlock.eval_term_iff.mp (h fun es hes hwellFormed => ?_)
    [.other (.text "")] (.cons (.other rfl rfl) .nil)
  · rw [hbody] at htrue
    simp at htrue
  · obtain ⟨e, _, he, hnil, rfl⟩ := List.forall₂_cons_left_iff.mp hes
    obtain rfl := List.forall₂_nil_left_iff.mp hnil
    obtain ⟨s, rfl⟩ := TextValue.exists_text he
    have hlength := (TextValue.admits_char_iff rfl).mp (hwellFormed _ List.mem_cons_self)
    rw [hbody, hlength]
    simp

/-- A free array may have elements that are not optional characters, and a claim about all
characters is made of all texts. -/
theorem not_constrainsValues :
    (∃ script, freeOptionals.compile {} = .ok script ∧
      ¬freeOptionals.ConstrainsValues script.commands) ∧
    ∃ script, charLength.compile {} = .ok script ∧
      ¬charLength.ConstrainsValues script.commands := by
  obtain ⟨script, hscript, hblock⟩ : ∃ script, charLength.compile {} = .ok script ∧
      script.commands[17]? = some (.assertForAll charLengthBlock) := ⟨_, rfl, rfl⟩
  refine ⟨⟨_, rfl, not_constrainsValues_freeOptionals rfl⟩, script, hscript, fun h => ?_⟩
  exact not_isAboutWellFormed_charLengthBlock (h.universals _ (List.mem_of_getElem? hblock))

end Problem

end SolverScript
