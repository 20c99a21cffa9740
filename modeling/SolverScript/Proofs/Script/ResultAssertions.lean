import SolverScript.Proofs.Script.AssertedFormulas
import SolverScript.Proofs.Script.Declarations
import SolverScript.Proofs.Script.QuotedSymbols
import SolverScript.Proofs.Script.ReachableValues

/-!
# What is asserted about a declared symbol

With the declaration of a symbol whose result has characters or rationals inside, a script asserts
that its values are well formed. The formula gives names of its own to the arguments of the symbol
and to the positions in its values. If the symbol is called like none of them, then it is a closed
formula of the target language about the symbol alone, and it holds just if all characters and
rationals inside of all values are well formed. Otherwise the name is captured, and no formula is
left. The bars around a quoted symbol make no difference.

## Main definitions

* `Sorting.IsFree` - names that are not called like functions
* `OpenSymbol.formula` - what is asserted about a symbol
* `OpenSymbol.boundNames` - the names that are bound where the formula uses the symbol
* `OpenSymbol.IsAssertedBy` - formulas that say that the values of a symbol are well formed

## Main results

* `OpenSymbol.sortWith?_formula_iff` - whether the formula is one
* `OpenSymbol.eval_formula_iff` - what it says
* `Declaration.symbol_asserts_iff` - for which symbols their declaration asserts it
-/

namespace SolverScript

/-! ### Names that are left to scripts -/

/-- Whether a theory leaves a name to what declares or binds it. -/
def Theory.Leaves {α : Type} (T : Theory α) (name : String) : Prop :=
  ∀ es, T.function (.symbol name) es = none

/-- The name of an argument is none of several names if those that start with the same letter go on
with other ones. -/
theorem argumentName_not_mem {names : List String}
    (h : ∀ name ∈ names, name.toList.head? = some 'a' →
      name.toList.tail.all Numeral.isDecimalChar = false) (i : Nat) :
    argumentName i ∉ names := by
  intro hmem
  have hlist : (argumentName i).toList = 'a' :: (Nat.repr (i + 1)).toList := by simp [argumentName]
  have hletter := h _ hmem (by rw [hlist, List.head?_cons])
  have hdigits : (Nat.repr (i + 1)).toList.all Numeral.isDecimalChar = true :=
    List.all_eq_true.mpr fun _ => Numeral.isDecimalChar_of_mem_repr
  rw [hlist, List.tail_cons, hdigits] at hletter
  cases hletter

/-- The theory of decimals has no further functions with names. -/
theorem OpenSorts.leaves_decimals {name : String}
    (hstandard : name ∉ (Theory.symbols (α := Datum decimals.Carrier)).map Prod.fst)
    (hdata : ¬decimals.IsDataName name) : decimals.theory.Leaves name := fun es =>
  function_of_open (not_isDataHead_symbol hdata)
    (Theory.standard_symbol_of_not_mem decimals.theory.carrier hstandard es)

theorem OpenSorts.leavesArguments_decimals : decimals.theory.LeavesArguments := by
  intro i
  refine leaves_decimals (argumentName_not_mem ?_ i) ?_
  · simp [Theory.symbols, Theory.core, Theory.integers, Theory.bitVectors, Numeral.isDecimalChar]
  · refine not_isDataName (argumentName_not_mem (by rw [keys_symbols]; decide) i) ?_ ?_
    · simp [argumentName]
    · simp [argumentName]

namespace Sorting

/-- Whether a name is free to be declared: no function that formulas are made with is called like
it, and no projection. -/
structure IsFree (name : String) : Prop where
  function : functions.lookup name = none
  projection : ∀ position arity, name ≠ Composite.projection position arity

theorem IsFree.result?_eq_none {name : String} (h : IsFree name) (ss : List SortExpr) :
    result? name ss = none := by
  rw [result?, h.function]
  change component? name ss = none
  unfold component?
  split
  · next tuple ss =>
    have hfind : ((List.range ss.length).find? fun i =>
        name == Composite.projection (i + 1) ss.length) = none :=
      List.find?_eq_none.mpr fun i _ => by simpa using h.projection (i + 1) ss.length
    rw [hfind, Option.bind_none, ite_self]
  · rfl

/-- No function is called like an argument. -/
theorem lookup_argumentName (i : Nat) : functions.lookup (argumentName i) = none :=
  lookup_of_not_mem_keys (argumentName_not_mem (by decide) i)

variable {Γ : Sorting}

/-- Other names keep their sorts inside of a quantifier. -/
theorem bindAll_of_not_mem {binders : List (String × SortExpr)} {name : String}
    (h : name ∉ binders.map Prod.fst) : Γ.bindAll binders name = Γ name := by
  induction binders generalizing Γ with
  | nil => rfl
  | cons b binders ih =>
    obtain ⟨hne, hrest⟩ := List.ne_and_not_mem_of_not_mem_cons h
    exact (ih hrest).trans (bind_of_ne _ _ hne)

/-- Different variables have the sorts that they are bound with. -/
theorem bindAll_of_mem {binders : List (String × SortExpr)} (hnodup : (binders.map Prod.fst).Nodup)
    {name : String} {s : SortExpr} (h : (name, s) ∈ binders) :
    Γ.bindAll binders name = some s := by
  induction binders generalizing Γ with
  | nil => cases h
  | cons b binders ih =>
    obtain ⟨hb, hrest⟩ := List.nodup_cons.mp hnodup
    rcases List.mem_cons.mp h with rfl | h
    · exact (bindAll_of_not_mem hb).trans (bind_self _ _ _)
    · exact ih hrest h

end Sorting

/-! ### The formula -/

namespace OpenSymbol

variable (s : OpenSymbol)

/-- The names of the arguments in the formula about results. -/
def argumentNames : List String := (List.range s.arguments.length).map argumentName

/-- The arguments in that formula with their sorts. -/
def parameters : List (String × SortExpr) := s.argumentNames.zip (s.arguments.map Kind.sort)

/-- The formula that is asserted about the values of a symbol. -/
def formula : Term :=
  if s.arguments = [] then Kind.conjunction (s.result.invariants (.symbol s.name))
  else .forAll s.parameters
    (.bind [resultName] [.app (.symbol s.name) (s.argumentNames.map .symbol)]
      (Kind.conjunction (s.result.invariants (.symbol resultName))))

/-- The names that are bound where the formula uses the symbol: arguments where it applies a
function, and positions in lists and members of sets where it looks at a constant. -/
def boundNames : List String := if s.arguments = [] then s.result.binders 0 else s.argumentNames

/-- The symbol as the only declared function. -/
def functions : Signatures :=
  if s.arguments = [] then fun _ => none
  else .single s.name (s.arguments.map Kind.sort) s.result.sort

/-- The symbol as the only declared constant. -/
def constants : Sorting :=
  if s.arguments = [] then Sorting.bind (fun _ => none) s.name s.result.sort else fun _ => none

/-- The symbol without the bars around it. -/
def unquoted : OpenSymbol := { s with name := unquotedName s.name }

/-- Whether all characters and rationals inside of all values of a symbol are well formed. -/
def HasWellFormedValues (S : OpenSorts) (J : Interpretation (Datum S.Carrier)) : Prop :=
  ∀ es, List.Forall₂ S.theory.Contains (s.arguments.map Kind.sort) es →
    ∀ x : s.result.domain.Model S.Carrier,
      J s.name es = some (Datum.element ⟨s.result.domain, x⟩) →
        ∀ leaf ∈ s.result.reachable x, leaf.IsWellFormed

/-- Whether a formula says that the values of a symbol are well formed: it is well-sorted where
nothing but the symbol is declared, and the functions with the sort of the symbol that satisfy it
are those with well-formed values, in all theories that leave the names in it alone. -/
structure IsAssertedBy (formula : Term) : Prop where
  sorted : formula.sortWith? s.functions s.constants = some Kind.bool.sort
  holds_iff : ∀ (S : OpenSorts) (J : Interpretation (Datum S.Carrier)),
    S.theory.Leaves s.name → S.theory.Leaves resultName → S.theory.LeavesArguments →
    S.theory.IsFunction (s.arguments.map Kind.sort) s.result.sort (J s.name) →
      (formula.eval S.theory J = some (.bool true) ↔ s.HasWellFormedValues S J)

variable {s}

theorem nodup_argumentNames : s.argumentNames.Nodup :=
  List.nodup_range.map argumentName_injective

theorem length_argumentNames : s.argumentNames.length = (s.arguments.map Kind.sort).length := by
  simp [argumentNames]

theorem map_fst_parameters : s.parameters.map Prod.fst = s.argumentNames :=
  List.map_fst_zip length_argumentNames.le

theorem map_snd_parameters : s.parameters.map Prod.snd = s.arguments.map Kind.sort :=
  List.map_snd_zip length_argumentNames.ge

/-- Where the arguments are bound, they have their sorts. -/
theorem bindAll_parameters {name : String} {sort : SortExpr} (h : (name, sort) ∈ s.parameters)
    (Γ : Sorting) : Γ.bindAll s.parameters name = some sort :=
  Sorting.bindAll_of_mem (map_fst_parameters ▸ nodup_argumentNames) h

/-! ### Sorts -/

theorem sortsWith?_argumentNames (Δ : Signatures) (Γ : Sorting) :
    Term.sortsWith? Δ (Γ.bindAll s.parameters) (s.argumentNames.map .symbol) =
      some (s.arguments.map Kind.sort) := by
  refine Term.sortsWith?_of_sorts? (Term.sorts?_eq_some_iff.mpr ?_)
  rw [List.forall₂_map_left_iff, List.forall₂_iff_zip]
  refine ⟨length_argumentNames, fun {name sort} h => ?_⟩
  obtain ⟨i, -, hi⟩ := List.mem_map.mp (List.of_mem_zip h).1
  rw [Term.sort?_of_name? rfl (hi ▸ Sorting.lookup_argumentName i), bindAll_parameters h]

/-- A function that is called like an argument cannot be applied where the arguments are bound. -/
theorem sortWith?_call (hfree : Sorting.IsFree s.name) :
    Term.sortWith? (.single s.name (s.arguments.map Kind.sort) s.result.sort)
      (Sorting.bindAll (fun _ => none) s.parameters)
      (.app (.symbol s.name) (s.argumentNames.map .symbol)) =
        if s.name ∈ s.argumentNames then none else some s.result.sort := by
  rw [Term.sortWith?, sortsWith?_argumentNames, Option.bind_eq_bind, Option.bind_some,
    hfree.result?_eq_none, Option.none_or, ← map_fst_parameters]
  split
  · next hname =>
    -- A variable of that name has a sort, and is no function.
    obtain ⟨⟨name, sort⟩, hmem, hname⟩ := List.mem_map.mp hname
    refine Signatures.result?_of_hidden ?_ _ _
    rw [← hname, bindAll_parameters hmem]
    exact Option.some_ne_none _
  · next hname => exact Signatures.result?_single (Sorting.bindAll_of_not_mem hname) _ _

/-- What is said about the result of a function is a formula. -/
theorem sort?_result (hplain : s.result.HasPlainSets) {Γ : Sorting}
    (hΓ : Γ resultName = some s.result.sort) :
    (Kind.conjunction (s.result.invariants (.symbol resultName))).sort? Γ =
      some Kind.bool.sort := by
  have hvisible : resultName ∉ s.result.binders 0 := fun h =>
    absurd (Kind.isBoundName_of_mem_binders h).head?_eq (by decide)
  exact Term.sort?_conjunction_iff.mpr
    ((Kind.accepts_invariants_iff rfl (by decide) hΓ).mpr ⟨hplain, hvisible⟩)

/-- What is asserted about a symbol is a formula just if no variable around the symbol is called
like it. -/
theorem sortWith?_formula_iff (hplain : s.result.HasPlainSets) (hfree : Sorting.IsFree s.name) :
    s.formula.sortWith? s.functions s.constants = some Kind.bool.sort ↔
      s.name ∉ s.boundNames := by
  unfold formula functions constants boundNames
  split
  · -- A constant is looked at inside of the quantifiers over positions and members.
    rw [Term.sortWith?_of_definesNothing (Kind.definesNothing_conjunction_invariants rfl),
      Term.sort?_conjunction_iff]
    refine (Kind.accepts_invariants_iff rfl hfree.function (Sorting.bind_self _ _ _)).trans ?_
    exact and_iff_right hplain
  · -- A function is applied inside of the quantifier over its arguments, and nowhere else.
    rw [Term.sortWith?_forAll_iff, Term.sortWith?_bind_iff, sortWith?_call hfree]
    constructor
    · rintro ⟨r, hr, -⟩ hname
      rw [if_pos hname] at hr
      cases hr
    · intro hname
      have hresult := sort?_result hplain
        (Sorting.bind_self (Sorting.bindAll (fun _ => none) s.parameters) resultName s.result.sort)
      exact ⟨_, if_neg hname, Term.sortWith?_of_sort? hresult⟩

/-! ### Values -/

variable {S : OpenSorts} {J : Interpretation (Datum S.Carrier)}

/-- What is said about a result holds if all characters and rationals inside of it are well formed.
-/
theorem eval_result_iff (hplain : s.result.HasPlainSets) (hresult : S.theory.Leaves resultName)
    {e : Element (Datum S.Carrier)} (he : S.theory.Contains s.result.sort e)
    (hJ : J resultName [] = some e) :
    (Kind.conjunction (s.result.invariants (.symbol resultName))).eval S.theory J =
        some (.bool true) ↔
      ∀ x : s.result.domain.Model S.Carrier, e = Datum.element ⟨s.result.domain, x⟩ →
        ∀ leaf ∈ s.result.reachable x, leaf.IsWellFormed := by
  obtain ⟨x, rfl⟩ := S.hasDomains_theory.contains_iff.mp he
  have hvalue : (Term.symbol resultName).eval S.theory J =
      some (Datum.element ⟨s.result.domain, x⟩) :=
    (congrArg (Option.or · _) (hresult [])).trans hJ
  have hnames : ∀ name, .function name ∈ (Term.symbol resultName).names →
      ¬IsBoundName 0 name := by
    intro name hname hbound
    obtain rfl : name = resultName := by simpa using hname
    exact absurd hbound.head?_eq (by decide)
  obtain ⟨b, hb, htrue⟩ := (Kind.invariants_exact hplain hnames).1 hvalue
  rw [hb, Option.some.injEq, Element.bool.injEq, htrue]
  constructor
  · intro h y hy
    obtain rfl : x = y := by simpa using Datum.element_injective hy
    exact h
  · exact fun h => h x rfl

/-- If no variable around a symbol is called like it, then what is asserted about it holds of the
functions with well-formed values. -/
theorem eval_formula_iff (hplain : s.result.HasPlainSets) (hvisible : s.name ∉ s.boundNames)
    (hname : S.theory.Leaves s.name) (hresult : S.theory.Leaves resultName)
    (harguments : S.theory.LeavesArguments)
    (hfunction : S.theory.IsFunction (s.arguments.map Kind.sort) s.result.sort (J s.name)) :
    s.formula.eval S.theory J = some (.bool true) ↔ s.HasWellFormedValues S J := by
  unfold formula HasWellFormedValues
  unfold boundNames at hvisible
  split
  · next hnil =>
    -- A constant is looked at like the result of a function that is applied to nothing.
    rw [if_pos hnil] at hvisible
    rw [Kind.eval_conjunction_invariants hname hresult hvisible]
    obtain ⟨e, he, hcontains⟩ := (hfunction []).1 (by simp [hnil])
    rw [eval_result_iff hplain hresult hcontains ((congrFun (J.bind_self _ _) []).trans he)]
    simp only [hnil, List.map_nil, List.forall₂_nil_left_iff, forall_eq, he, Option.some.injEq]
  · next hne =>
    -- The function is applied to what its arguments are bound to, which do not hide it.
    rw [if_neg hne] at hvisible
    rw [Term.eval_forAll_iff, map_fst_parameters, map_snd_parameters]
    refine forall₂_congr fun es hes => ?_
    obtain ⟨e, he, hcontains⟩ := (hfunction es).1 hes
    have hcall : Term.eval S.theory (J.bindAll s.argumentNames es)
        (.app (.symbol s.name) (s.argumentNames.map .symbol)) = some e := by
      have happly : S.theory.apply J (.symbol s.name) es = some e :=
        (congrArg (Option.or · _) (hname es)).trans he
      have hnonempty : es ≠ [] := by
        rintro rfl
        exact hne (List.map_eq_nil_iff.mp (List.forall₂_nil_right_iff.mp hes))
      have hopen : ∀ name ∈ s.argumentNames, S.theory.Leaves name := by
        intro name hmem
        obtain ⟨i, -, rfl⟩ := List.mem_map.mp hmem
        exact harguments i
      rw [Term.eval_call_bindAll nodup_argumentNames (length_argumentNames.trans hes.length_eq)
        hnonempty hopen, if_neg hvisible, happly]
    rw [Term.eval_bind_of_eval hcall, eval_result_iff hplain hresult hcontains
      (congrFun (Interpretation.bind_self _ _ _) []), he]
    simp only [Option.some.injEq]

/-! ### The assertion -/

/-- The commands that assert the invariants of a symbol. -/
def invariantCommands (s : OpenSymbol) : List Command :=
  if s.arguments.isEmpty then Declaration.constantInvariants s.name s.result
  else Declaration.resultInvariants s.name s.arguments s.result

/-- They stand behind the declaration of the symbol. -/
theorem symbol_eq (hcontains : s.result.containsCharOrRational = true) (remark : String) :
    Declaration.symbol s.name (s.arguments ++ [s.result]) remark =
      .ok (.declareFun s.name (s.arguments.map Kind.sort) s.result.sort remark ::
        s.invariantCommands) := by
  simp [Declaration.symbol, Declaration.splitSignature?_append, hcontains, invariantCommands]

/-- One command asserts everything, and its formula is the one about the symbol. -/
theorem exists_assertion (hcontains : s.result.containsCharOrRational = true) :
    ∃ assertion, s.invariantCommands = [assertion] ∧ assertion.formula? = some s.formula := by
  unfold invariantCommands formula
  by_cases harguments : s.arguments = []
  · have hne : s.result.invariants (.symbol s.name) ≠ [] := by
      intro hnil
      rw [Kind.invariants_eq_nil_iff.mp hnil] at hcontains
      cases hcontains
    rw [if_pos harguments, if_pos (List.isEmpty_iff.mpr harguments)]
    unfold Declaration.constantInvariants
    -- A single formula has a layout of its own.
    match hformulas : s.result.invariants (.symbol s.name) with
    | [] => exact absurd hformulas hne
    | [f] => exact ⟨_, rfl, rfl⟩
    | f :: g :: rest => exact ⟨_, rfl, rfl⟩
  · rw [if_neg harguments, if_neg (List.isEmpty_iff.not.mpr harguments)]
    refine ⟨_, rfl, ?_⟩
    rw [Command.formula?, List.length_map]
    rfl

/-- If neither the symbol nor the sorts in its signature leave anything open, then the assertion
does not. -/
theorem isClosed_names (hname : IsClosed s.name)
    (hkinds : ∀ k ∈ s.arguments ++ [s.result], k.Over Name.IsClosed) :
    ∀ c ∈ s.invariantCommands, ∀ x ∈ c.names, x.IsClosed := by
  obtain ⟨harguments, hresult⟩ := List.forall_mem_append.mp hkinds
  have hinvariants {text : String} (htext : IsClosed text) :
      ∀ f ∈ s.result.invariants (.symbol text), f.Over Name.IsClosed :=
    Kind.over_invariants vocabulary_isClosed (List.forall_mem_singleton.mp hresult)
      (Term.over_symbol.mpr htext)
  have hfits : ∀ c ∈ s.invariantCommands, c.Fits (fun _ => Name.IsClosed) [] := by
    unfold invariantCommands
    split
    · exact Declaration.fits_constantInvariants (hinvariants hname)
    · exact Declaration.fits_resultInvariants vocabulary_isClosed hname harguments
        (hinvariants (by decide))
  exact fun c hc => (hfits c hc).names

/-- The formula about a symbol says that its values are well formed just if it is one. -/
theorem isAssertedBy_formula_iff (hplain : s.result.HasPlainSets)
    (hfree : Sorting.IsFree s.name) : s.IsAssertedBy s.formula ↔ s.name ∉ s.boundNames := by
  constructor
  · exact fun h => (sortWith?_formula_iff hplain hfree).mp h.sorted
  · exact fun hvisible => {
      sorted := (sortWith?_formula_iff hplain hfree).mpr hvisible
      holds_iff := fun _ _ hname hresult harguments hfunction =>
        eval_formula_iff hplain hvisible hname hresult harguments hfunction }

/-- The formula without the bars around symbols is about the symbol without the bars around it. -/
theorem unquoted_formula : s.formula.unquoted = s.unquoted.formula := by
  unfold formula
  change _ = if s.arguments = [] then _ else _
  split
  · exact Kind.unquoted_conjunction_invariants s.result (.symbol s.name)
  · have hargument : ∀ name ∈ s.argumentNames, unquotedName name = name := by
      intro name hname
      obtain ⟨i, -, rfl⟩ := List.mem_map.mp hname
      exact unquotedName_of_isBuiltin (.argument i)
    have hparameters : s.parameters.map (Prod.map unquotedName id) = s.parameters := by
      refine (List.map_congr_left fun b hb => ?_).trans (List.map_id _)
      exact Prod.ext (hargument _ (List.of_mem_zip hb).1) rfl
    have hoperands : (s.argumentNames.map Term.symbol).map Term.unquoted =
        s.argumentNames.map Term.symbol := by
      rw [List.map_map]
      exact List.map_congr_left fun name hname => congrArg Term.symbol (hargument name hname)
    have hresult : unquotedName resultName = resultName := by decide
    have hbody := Kind.unquoted_conjunction_invariants s.result (.symbol resultName)
    rw [Term.unquoted, hresult] at hbody
    rw [Term.unquoted, Term.unquoted, Term.unquotedAll, Term.unquoted, Term.unquotedAll,
      Term.unquotedAll_eq_map, Term.unquoted, hparameters, hoperands, hbody, List.map_singleton,
      hresult]
    rfl

end OpenSymbol

/-- With the declaration of a symbol whose result has characters or rationals inside, one formula is
asserted, whatever the layout of it is. The formula says that the values of the symbol are well
formed just if the symbol is not called like one of the variables around it. -/
theorem Declaration.symbol_asserts_iff {name remark : String} {arguments : List Kind}
    {result : Kind} (hcontains : result.containsCharOrRational = true)
    (hplain : result.HasPlainSets) (hfree : Sorting.IsFree (unquotedName name)) :
    ∃ (assertion : Command) (formula : Term),
      symbol name (arguments ++ [result]) remark =
        .ok [.declareFun name (arguments.map Kind.sort) result.sort remark, assertion] ∧
      assertion.formula? = some formula ∧
      (IsClosed name → (∀ k ∈ arguments ++ [result], k.Over Name.IsClosed) →
        lexemes (joined "\n" assertion.lines) = lexemes ("(assert " ++ formula.render ++ ")")) ∧
      (OpenSymbol.IsAssertedBy ⟨unquotedName name, arguments, result⟩ formula.unquoted ↔
        unquotedName name ∉ OpenSymbol.boundNames ⟨unquotedName name, arguments, result⟩) := by
  let s : OpenSymbol := ⟨name, arguments, result⟩
  obtain ⟨assertion, hassertion, hformula⟩ := s.exists_assertion hcontains
  refine ⟨assertion, s.formula, ?_, hformula, fun hname hkinds => ?_, ?_⟩
  · exact hassertion ▸ s.symbol_eq hcontains remark
  · have hmem : assertion ∈ s.invariantCommands := hassertion ▸ List.mem_singleton_self _
    exact Command.lexemes_lines hformula (s.isClosed_names hname hkinds assertion hmem)
  · rw [OpenSymbol.unquoted_formula]
    exact s.unquoted.isAssertedBy_formula_iff hplain hfree

/-- A symbol between bars that has to be, for functions from integers to texts. There is a theory
that leaves all names in the formula alone. -/
theorem Declaration.symbol_asserts_iff_letters :
    (∃ (assertion : Command) (formula : Term),
      symbol "|letters in|" [.unbounded, .list .char] "" =
        .ok [.declareFun "|letters in|" [Kind.unbounded.sort] (Kind.list .char).sort "",
          assertion] ∧
      assertion.formula? = some formula ∧
      OpenSymbol.IsAssertedBy ⟨"letters in", [.unbounded], .list .char⟩ formula.unquoted) ∧
    OpenSorts.decimals.theory.Leaves "letters in" ∧ OpenSorts.decimals.theory.Leaves resultName ∧
      OpenSorts.decimals.theory.LeavesArguments := by
  have hplain : (Kind.list .char).HasPlainSets := by simp [Kind.HasPlainSets, Kind.subkinds]
  have hfree : Sorting.IsFree "letters in" := by
    refine ⟨by decide, fun position arity hname => ?_⟩
    have hhead := congrArg (fun name => name.toList.head?) hname
    simp [Composite.projection] at hhead
  obtain ⟨assertion, formula, hsymbol, hformula, -, hasserted⟩ :=
    @symbol_asserts_iff "|letters in|" "" [.unbounded] (.list .char) rfl hplain hfree
  have hletters : ¬OpenSorts.decimals.IsDataName "letters in" :=
    OpenSorts.not_isDataName (by rw [OpenSorts.keys_symbols]; decide) (by decide) (by decide)
  have hresult : ¬OpenSorts.decimals.IsDataName resultName :=
    OpenSorts.not_isDataName (by rw [OpenSorts.keys_symbols]; decide) (by decide) (by decide)
  refine ⟨⟨assertion, formula, hsymbol, hformula, hasserted.mpr (by decide)⟩,
    OpenSorts.leaves_decimals (fun h => (Theory.head?_of_mem_symbols h).2 rfl) hletters,
    OpenSorts.leaves_decimals ?_ hresult, OpenSorts.leavesArguments_decimals⟩
  simp [Theory.symbols, Theory.core, Theory.integers, Theory.bitVectors, resultName]

/-- The argument of a function that is called like it is not the function, and the position in a
list that is called like it is not the list. -/
theorem Declaration.not_symbol_asserts :
    (∃ (assertion : Command) (formula : Term),
      symbol "a1" [.unbounded, .char] "" =
        .ok [.declareFun "a1" [Kind.unbounded.sort] Kind.char.sort "", assertion] ∧
      assertion.formula? = some formula ∧
      ¬OpenSymbol.IsAssertedBy ⟨"a1", [.unbounded], .char⟩ formula) ∧
    ∃ (assertion : Command) (formula : Term),
      symbol "seq0" [.list .char] "" =
        .ok [.declareFun "seq0" [] (Kind.list .char).sort "", assertion] ∧
      assertion.formula? = some formula ∧
      ¬OpenSymbol.IsAssertedBy ⟨"seq0", [], .list .char⟩ formula := by
  refine ⟨⟨_, _, rfl, rfl, fun h => ?_⟩, _, _, rfl, rfl, fun h => ?_⟩
  · exact absurd h.sorted (by decide)
  · exact absurd h.sorted (by decide)

end SolverScript
