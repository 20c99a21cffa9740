import Mathlib.Data.List.Nodup
import SolverScript.Encoding.Operation
import SolverScript.Proofs.Script.Enumerations
import SolverScript.Proofs.Semantics.Constants
import SolverScript.Script.Declaration

/-!
# The order of constructors

An enumeration comes with a function that numbers its constructors, and comparisons compare these
numbers. The body of the function asks for one constructor after the other, so that each gets its
position. Its variable is called `x`, and a constructor of this name cannot be seen behind it: the
question whether the variable is `x` is answered yes, whatever the variable stands for. Only the
last constructor is not asked for.

## Main definitions

* `Datatype.hidden` - what the constructors denote behind the variable of the function
* `UserSort.IsEnumeration` - user sorts that are enumerations with legal names
* `Kind.DeclaredIn` - the interpretations that are as the declaration of a kind says
* `UserSort.OrdersConstructors` - the function and the comparisons give the order of constructors

## Main results

* `Datatype.eval_positionOf` - the number that the body of the function denotes
* `UserSort.IsEnumeration.declaredIn_iff` - what the declaration of an enumeration says
* `UserSort.IsEnumeration.ordersConstructors_iff` - when constructors are ordered by their positions
-/

namespace SolverScript

/-- The elements of a sort that is not built in. -/
theorem Theory.Contains.exists_other {α : Type} {T : Theory α} {s : SortExpr} {e : Element α}
    (h : T.Contains s e) (hs : s.isBuiltIn = false) : ∃ a, e = .other a ∧ T.carrier s a := by
  cases h with
  | other _ ha => exact ⟨_, rfl, ha⟩
  | bool | int | bits => cases hs

/-! ### What a definition says -/

namespace Datatype

variable {α : Type} {carrier : SortExpr → α → Prop} {J K : Interpretation α} {x : Element α}
  {values ds : List (Element α)} {names : List String} {name : String}

open Classical in
/-- The position of an element among those that constructors denote. The last constructor is not
compared. -/
theorem eval_positionOf (hne : names ≠ [])
    (hx : (Term.symbol "x").eval (.standard carrier) K = some x)
    (hds : List.Forall₂ (fun name d => (Term.symbol name).eval (.standard carrier) K = some d)
      names ds) (hsort : ∀ d ∈ ds, x.sameSort d = true) (n : Nat) :
    (positionOf n names).eval (.standard carrier) K =
      some (.int (n + ds.dropLast.idxOf x : Nat)) := by
  induction hds generalizing n with
  | nil => exact absurd rfl hne
  | @cons name d names ds hd hrest ih =>
    obtain ⟨hdsort, hsort⟩ := List.forall_mem_cons.mp hsort
    cases hrest with
    | nil => exact Term.eval_numeral n
    | cons hnext hrest =>
      have hequation := Term.eval_equation hx hd hdsort
      have hlater := ih (List.cons_ne_nil _ _) hsort (n + 1)
      refine Term.eval_app_symbol rfl (Term.evalAll_eq_some_iff.mpr
        (.cons hequation (.cons (Term.eval_numeral n) (.cons hlater .nil)))) ?_
      -- If the test fails, the position counts from behind this constructor.
      rw [List.dropLast_cons_cons]
      by_cases hsame : d = x
      · rw [hsame, List.idxOf_cons_self, decide_eq_true rfl]
        rfl
      · rw [List.idxOf_cons_ne _ hsame, decide_eq_false (Ne.symm hsame), Nat.add_right_comm]
        rfl

open Classical in
/-- What constructors denote where `x` is bound to an element: the one of this name is hidden. -/
noncomputable def hidden (names : List String) (values : List (Element α)) (x : Element α) :
    List (Element α) :=
  List.zipWith (fun name v => if name = "x" then x else v) names values

theorem eval_variable :
    (Term.symbol "x").eval (.standard carrier) (J.bind "x" x.constant) = some x := by
  have hopen : (Theory.symbols (α := α)).lookup "x" = none := rfl
  simp [Term.eval, Theory.apply, Term.name?, Theory.standard, hopen, Element.constant]

theorem forall₂_hidden
    (hvalues : List.Forall₂ (fun c v => (Theory.standard carrier).apply J (.symbol c) [] = some v)
      names values) :
    List.Forall₂ (fun c d => (Term.symbol c).eval (.standard carrier) (J.bind "x" x.constant) =
      some d) names (hidden names values x) := by
  induction hvalues with
  | nil => exact .nil
  | @cons name v names values hv _ ih =>
    refine .cons ?_ ih
    by_cases hname : name = "x"
    · subst hname
      exact eval_variable
    · simpa [hname, Term.eval, Theory.apply, Term.name?, J.bind_of_ne _ hname] using hv

theorem mem_hidden {d : Element α} (h : d ∈ hidden names values x) : d = x ∨ d ∈ values := by
  obtain ⟨i, hi, rfl⟩ := List.getElem_of_mem h
  rw [hidden, List.length_zipWith] at hi
  simp only [hidden, List.getElem_zipWith]
  split
  · exact .inl rfl
  · exact .inr (List.getElem_mem _)

open Classical in
/-- Where the constructors denote the elements of a sort, the definition holds if its name gives
each element its position among what the constructors denote behind the binder. -/
theorem holdsIn_constructorIndex_iff {sort : String}
    (hbuiltin : (SortExpr.named sort).isBuiltIn = false) (hne : names ≠ [])
    (hvalues : List.Forall₂ (fun c v => (Theory.standard carrier).apply J (.symbol c) [] = some v)
      names values)
    (hcontains : ∀ e, (Theory.standard carrier).Contains (.named sort) e ↔ e ∈ values) :
    (constructorIndex sort names).HoldsIn (.standard carrier) J ↔
      ∀ x ∈ values, (Theory.standard carrier).apply J (.symbol (indexName sort)) [x] =
        some (.int ((hidden names values x).dropLast.idxOf x : Nat)) := by
  have hbody (x : Element α) (hx : x ∈ values) :
      (positionOf 0 names).eval (.standard carrier) (J.bind "x" x.constant) =
        some (.int ((hidden names values x).dropLast.idxOf x : Nat)) := by
    have hother (d : Element α) (hd : d ∈ values) : ∃ a, d = .other a := by
      obtain ⟨a, ha, -⟩ := ((hcontains d).mpr hd).exists_other hbuiltin
      exact ⟨a, ha⟩
    -- The variable stands for an element of the sort, so it may be seen in place of a constructor.
    have hsort : ∀ d ∈ hidden names values x, x.sameSort d = true := by
      intro d hd
      obtain ⟨a, rfl⟩ := hother x hx
      obtain ⟨b, rfl⟩ : ∃ b, d = .other b := by
        rcases mem_hidden hd with rfl | hd
        · exact ⟨a, rfl⟩
        · exact hother d hd
      rfl
    have hposition := eval_positionOf hne eval_variable (forall₂_hidden hvalues) hsort 0
    rwa [Nat.zero_add] at hposition
  constructor
  · intro hholds x hx
    exact (hholds [x] (.cons ((hcontains x).mpr hx) .nil)).trans (hbody x hx)
  · intro hindex es hes
    obtain ⟨x, rest, hx, hrest, rfl⟩ := List.forall₂_cons_left_iff.mp hes
    cases hrest
    have hx := (hcontains x).mp hx
    exact (hindex x hx).trans (hbody x hx).symm

/-! ### Positions of constructors -/

/-- Where no constructor is hidden that is compared, nothing changes behind the binder. -/
theorem dropLast_hidden (hlength : names.length = values.length) (hx : "x" ∉ names.dropLast) :
    (hidden names values x).dropLast = values.dropLast := by
  refine List.ext_getElem (by simp [hidden, hlength]) fun i hi _ => ?_
  simp only [hidden, List.length_dropLast, List.length_zipWith] at hi
  have hname : names[i] ≠ "x" := by
    intro hname
    have hi' : i < names.dropLast.length := by rw [List.length_dropLast]; omega
    refine hx (hname ▸ ?_)
    rw [← List.getElem_dropLast hi']
    exact List.getElem_mem hi'
  simp [hidden, hname]

open Classical in
/-- The last element need not be looked for: what is nowhere before it is in the last position. -/
theorem idxOf_dropLast (hnodup : values.Nodup) {i : Nat} (hi : i < values.length) :
    values.dropLast.idxOf values[i] = i := by
  by_cases hlast : i < values.dropLast.length
  · rw [← List.getElem_dropLast hlast]
    exact (hnodup.sublist (List.dropLast_sublist values)).idxOf_getElem i hlast
  · have hlength : values.dropLast.length = values.length - 1 := List.length_dropLast
    have hnew : values[i] ∉ values.dropLast := by
      intro hmem
      obtain ⟨j, hj, hsame⟩ := List.getElem_of_mem hmem
      rw [List.getElem_dropLast] at hsame
      have hij := (List.Nodup.getElem_inj_iff hnodup).mp hsame
      omega
    rw [List.idxOf_of_notMem hnew]
    omega

open Classical in
/-- A hidden constructor is taken for every element, so that no later position is given. -/
theorem idxOf_hidden_le {p : Nat} (hlength : names.length = values.length)
    (hp : p < names.dropLast.length) (hx : names.dropLast[p] = "x") :
    (hidden names values x).dropLast.idxOf x ≤ p := by
  rw [List.length_dropLast] at hp
  have hp' : p < (hidden names values x).dropLast.length := by simp [hidden, ← hlength]; omega
  have hfound : (hidden names values x).dropLast[p] = x := by
    rw [List.getElem_dropLast] at hx
    simp [hidden, hx]
  by_contra hlater
  exact absurd (List.not_of_lt_findIdx (Nat.lt_of_not_le hlater)) (by simp [hfound])

end Datatype

/-! ### Enumerations with legal names -/

/-- The names of the functions of the standard theory. -/
noncomputable def Theory.names : List String := (Theory.symbols (α := Empty)).map Prod.fst

/-- The other names are left to the interpretation. -/
theorem Theory.lookup_of_not_mem_names {α : Type} {name : String} (h : name ∉ Theory.names) :
    (Theory.symbols (α := α)).lookup name = none := by
  -- The functions depend on the type of the elements, their names do not.
  have hnames : (Theory.symbols (α := α)).map Prod.fst = Theory.names := rfl
  exact lookup_of_not_mem_keys (hnames ▸ h)

/-- Whether a user sort is an enumeration with legal names. They are symbols, possibly between bars;
those of the constructors are different from each other and from what the theory knows. -/
@[mk_iff]
structure UserSort.IsEnumeration (s : UserSort) (d : Enumeration) : Prop where
  name : symbolName? s.name = some d.name
  isBuiltIn : (SortExpr.named d.name).isBuiltIn = false
  isRoundingMode : s.isRoundingMode = false
  constructors : s.constructors.bind (·.mapM symbolName?) = some d.constructors
  ne_nil : d.constructors ≠ []
  nodup : d.constructors.Nodup
  isOpen : ∀ c ∈ d.constructors, c ∉ Theory.names

noncomputable instance (s : UserSort) (d : Enumeration) : Decidable (s.IsEnumeration d) :=
  decidable_of_iff _ (UserSort.isEnumeration_iff s d).symm

/-- Whether an interpretation is as the declaration of a kind says. -/
def Kind.DeclaredIn {α : Type} (T : Theory α) (J : Interpretation α) (k : Kind) : Prop :=
  ∃ commands, Declaration.sort k = .ok commands ∧
    T.Satisfies J (joined "\n" (Script.lines commands))

/-- The order of positions that an operator stands for. -/
def Operator.order? : Operator → Option (Nat → Nat → Bool)
  | lessThan => some fun i j => decide (i < j)
  | greaterThan => some fun i j => decide (j < i)
  | lessEq => some fun i j => decide (i ≤ j)
  | greaterEq => some fun i j => decide (j ≤ i)
  | _ => none

/-- The order of an operator is the one of the integer relation behind it. -/
theorem Operator.exists_relation? {α : Type} {op : Operator} {r : Nat → Nat → Bool}
    (h : op.order? = some r) :
    ∃ (relation : String) (f : Element.Function α), Comparison.relation? op = some relation ∧
      Theory.symbols.lookup relation = some f ∧
        ∀ i j : Nat, f [.int i, .int j] = some (.bool (r i j)) := by
  cases op <;> cases h <;>
    exact ⟨_, _, rfl, rfl, fun i j => by simp [Element.Function.compareInts]⟩

namespace UserSort

/-- Whether the function that numbers constructors gives each one its position. -/
def NumbersConstructors {α : Type} (T : Theory α) (J : Interpretation α) (s : UserSort)
    (names : List String) : Prop :=
  ∀ (i : Nat) (hi : i < names.length),
    (Term.app (.symbol (Datatype.indexName s.name)) [.symbol names[i]]).eval T J = some (.int i)

/-- Whether operations compare nodes by the positions of the constructors that they denote. -/
def ComparesPositions {α : Type} (T : Theory α) (J : Interpretation α) (s : UserSort)
    (names : List String) : Prop :=
  ∀ (scope : Scope) (a b : Node), a.kind = .userSort s → b.kind = .userSort s →
    ∀ (i j : Nat) (hi : i < names.length) (hj : j < names.length),
      (scope.nodeTerm a).eval T J = (Term.symbol names[i]).eval T J →
      (scope.nodeTerm b).eval T J = (Term.symbol names[j]).eval T J →
        ∀ op r, op.order? = some r → ∃ t, scope.term ⟨op, [a, b]⟩ = .ok t ∧
          t.eval T J = some (.bool (r i j))

/-- Whether constructors are ordered by their positions, in all interpretations that are as the
declaration of the sort says. -/
def OrdersConstructors (s : UserSort) (names : List String) : Prop :=
  ∀ {α : Type} (carrier : SortExpr → α → Prop) (J : Interpretation α),
    (Kind.userSort s).DeclaredIn (.standard carrier) J →
      s.NumbersConstructors (.standard carrier) J names ∧
        s.ComparesPositions (.standard carrier) J names

variable {α : Type} {carrier : SortExpr → α → Prop} {J : Interpretation α} {s : UserSort}
  {d : Enumeration} {names : List String}

/-- Comparisons are encoded by positions. -/
theorem term_of_order {scope : Scope} {a b : Node} (hconstructors : s.isEnumerated = true)
    (ha : a.kind = .userSort s) (hb : b.kind = .userSort s) {op : Operator} {relation : String}
    (hop : Comparison.relation? op = some relation) :
    scope.term ⟨op, [a, b]⟩ = .ok (.app (.symbol relation)
      [.app (.symbol (Datatype.indexName s.name)) [scope.nodeTerm a],
        .app (.symbol (Datatype.indexName s.name)) [scope.nodeTerm b]]) := by
  have hgeneric : scope.term ⟨op, [a, b]⟩ = scope.generic ⟨op, [a, b]⟩ := by
    cases op <;> cases hop <;> rfl
  -- A user sort is none of the kinds that have operations of their own.
  have hprofile : OperandProfile.ofNodes [a, b] = ⟨false, false, false, false, false, false,
      false, false, false, false⟩ := by
    simp [OperandProfile.ofNodes, ha, hb, Kind.isBool, Kind.isBounded, Kind.isUnbounded,
      Kind.isReal, Kind.isRational, Kind.isFloating, Kind.floatFormat?, Kind.isChar,
      Kind.isString, Kind.isList, Kind.isSigned]
  rw [hgeneric]
  cases op <;> cases hop <;>
    simp [Scope.generic, hprofile, onlyIf, Comparison.enumerated?, Comparison.relation?,
      Comparison.byPosition?, ha, hconstructors, Scope.nodeTerms]

theorem NumbersConstructors.comparesPositions (hconstructors : s.isEnumerated = true)
    (h : s.NumbersConstructors (.standard carrier) J names) :
    s.ComparesPositions (.standard carrier) J names := by
  intro scope a b ha hb i j hi hj hai hbj op r hr
  have hposition {t : Term} {k : Nat} (hk : k < names.length)
      (ht : t.eval (.standard carrier) J = (Term.symbol names[k]).eval (.standard carrier) J) :
      (Term.app (.symbol (Datatype.indexName s.name)) [t]).eval (.standard carrier) J =
        some (.int k) := by
    rw [← h k hk]
    simp only [Term.eval, Term.evalAll, ht]
  obtain ⟨relation, f, hop, hrelation, hf⟩ := Operator.exists_relation? (α := α) hr
  exact ⟨_, term_of_order hconstructors ha hb hop, Term.eval_app_symbol hrelation
    (Term.evalAll_eq_some_iff.mpr (.cons (hposition hi hai) (.cons (hposition hj hbj) .nil)))
    (hf i j)⟩

end UserSort

namespace UserSort.IsEnumeration

variable {α : Type} {carrier : SortExpr → α → Prop} {J : Interpretation α} {s : UserSort}
  {d : Enumeration}

/-- The texts of names that are legal, with what they are read as. -/
theorem exists_expressions {texts names : List String}
    (h : texts.mapM symbolName? = some names) :
    ∃ es, List.Forall₂ (fun c e => symbolExpression? c = some e) texts es ∧
      List.Forall₂ (fun e name => Expression.symbol? e = some name) es names := by
  induction texts generalizing names with
  | nil =>
    cases h
    exact ⟨[], .nil, .nil⟩
  | cons text texts ih =>
    rw [List.mapM_cons] at h
    obtain ⟨name, hname, h⟩ := Option.bind_eq_some_iff.mp h
    obtain ⟨rest, hrest, h⟩ := Option.bind_eq_some_iff.mp h
    cases h
    obtain ⟨e, he, hename⟩ := Option.bind_eq_some_iff.mp hname
    obtain ⟨es, htexts, hes⟩ := ih hrest
    exact ⟨e :: es, .cons he htexts, .cons hename hes⟩

/-- What the declaration of an enumeration says. Only a sort whose name is a word has a function
that numbers the constructors. -/
theorem declaredIn_iff {T : Theory α} (h : s.IsEnumeration d) :
    (Kind.userSort s).DeclaredIn T J ↔ d.HoldsIn T J ∧
      (s.name = d.name → (Datatype.constructorIndex d.name d.constructors).HoldsIn T J) := by
  obtain ⟨texts, htexts, hnames⟩ := Option.bind_eq_some_iff.mp h.constructors
  obtain ⟨sort, hsort, hname⟩ := Option.bind_eq_some_iff.mp h.name
  obtain ⟨es, hes, hread⟩ := exists_expressions hnames
  have hcommands : Declaration.sort (.userSort s) =
      .ok [.declareEnumeration s.name texts, .defineConstructorIndex s.name texts] := by
    simp [Declaration.sort, Kind.userSort?, Declaration.userSort, h.isRoundingMode, htexts]
  obtain ⟨name, names⟩ := d
  cases hread with
  | nil => exact absurd rfl h.ne_nil
  | cons hfirst hrest =>
    obtain ⟨c, cs, hc, hcs, rfl⟩ := List.forall₂_cons_right_iff.mp hes
    rw [Kind.DeclaredIn, hcommands]
    simp only [Except.ok.injEq, exists_eq_left']
    simpa [Script.lines, Command.lines] using
      Datatype.satisfies_declaration_iff hsort hname hc hfirst hcs hrest

/-- Where no constructor that is compared is called like the variable of the definition, each one
gets its position. -/
theorem numbersConstructors (h : s.IsEnumeration d) (hname : s.name = d.name)
    (hx : "x" ∉ d.constructors.dropLast)
    (hdeclared : (Kind.userSort s).DeclaredIn (.standard carrier) J) :
    s.NumbersConstructors (.standard carrier) J d.constructors := by
  obtain ⟨⟨values, hvalues, hnodup, hcontains⟩, hfunction⟩ := h.declaredIn_iff.mp hdeclared
  have hindex := (Datatype.holdsIn_constructorIndex_iff h.isBuiltIn h.ne_nil hvalues hcontains).mp
    (hfunction hname)
  intro i hi
  have hlength := hvalues.length_eq
  have hi' : i < values.length := hlength ▸ hi
  have hvalue : (Term.symbol d.constructors[i]).eval (.standard carrier) J = some values[i] := by
    simpa [Term.eval] using hvalues.get hi hi'
  rw [Term.eval_app_of_evalAll (Term.evalAll_eq_some_iff.mpr (.cons hvalue .nil)), hname,
    hindex _ (List.getElem_mem hi'), Datatype.dropLast_hidden hlength hx,
    Datatype.idxOf_dropLast hnodup hi']

end UserSort.IsEnumeration

/-! ### A model of an enumeration -/

namespace Enumeration

variable {d : Enumeration} {f : Element String → Option (Element String)}

/-- The sort of an enumeration has the names of the constructors for its elements. -/
def carrier (d : Enumeration) : SortExpr → String → Prop := fun s c =>
  s = .named d.name ∧ c ∈ d.constructors

/-- The interpretation in which constructors stand for their names, and functions of one argument
for a given function. -/
def model (d : Enumeration) (f : Element String → Option (Element String)) :
    Interpretation String := fun name es =>
  match es with
  | [] => if name ∈ d.constructors then some (.other name) else none
  | [e] => f e
  | _ => none

theorem forall₂_model (hopen : ∀ c ∈ d.constructors, c ∉ Theory.names) :
    List.Forall₂ (fun c v => (Theory.standard d.carrier).apply (d.model f) (.symbol c) [] = some v)
      d.constructors (d.constructors.map .other) := by
  rw [List.forall₂_map_right_iff, List.forall₂_same]
  intro c hc
  simp [Theory.apply, Term.name?, Theory.standard, Theory.lookup_of_not_mem_names (hopen c hc),
    model, hc]

theorem contains_iff (hbuiltin : (SortExpr.named d.name).isBuiltIn = false) {e : Element String} :
    (Theory.standard d.carrier).Contains (.named d.name) e ↔ e ∈ d.constructors.map .other := by
  rw [List.mem_map]
  constructor
  · intro he
    obtain ⟨c, rfl, -, hc⟩ := he.exists_other hbuiltin
    exact ⟨c, hc, rfl⟩
  · rintro ⟨c, hc, rfl⟩
    exact .other hbuiltin ⟨rfl, hc⟩

theorem holdsIn_model (hbuiltin : (SortExpr.named d.name).isBuiltIn = false)
    (hnodup : d.constructors.Nodup) (hopen : ∀ c ∈ d.constructors, c ∉ Theory.names) :
    d.HoldsIn (.standard d.carrier) (d.model f) :=
  ⟨_, forall₂_model hopen, hnodup.map fun _ _ h => Element.other.inj h, fun _ =>
    contains_iff hbuiltin⟩

end Enumeration

/-- No function of the theory is called like one that numbers constructors. -/
theorem Theory.indexName_not_mem_names (sort : String) :
    Datatype.indexName sort ∉ Theory.names := by
  have hlast : ∀ name ∈ Theory.names, name.toList.getLast? ≠ some 'x' := by decide +kernel
  intro hmem
  exact hlast _ hmem (by simp [Datatype.indexName, List.getLast?_append])

namespace UserSort.IsEnumeration

variable {s : UserSort} {d : Enumeration}

open Classical in
/-- The positions that a definition gives in the model. -/
noncomputable def position (d : Enumeration) (x : Element String) : Option (Element String) :=
  let seen := Datatype.hidden d.constructors (d.constructors.map .other) x
  some (.int (seen.dropLast.idxOf x : Nat))

theorem apply_indexName (f : Element String → Option (Element String)) (sort : String)
    (x : Element String) :
    (Theory.standard d.carrier).apply (d.model f) (.symbol (Datatype.indexName sort)) [x] =
      f x := by
  have hopen := Theory.lookup_of_not_mem_names (α := String) (Theory.indexName_not_mem_names sort)
  simp [Theory.apply, Term.name?, Theory.standard, hopen, Enumeration.model]

/-- The model is as the declaration of the sort says. -/
theorem declaredIn_model (h : s.IsEnumeration d) :
    (Kind.userSort s).DeclaredIn (.standard d.carrier) (d.model (position d)) := by
  refine h.declaredIn_iff.mpr
    ⟨Enumeration.holdsIn_model h.isBuiltIn h.nodup h.isOpen, fun _ => ?_⟩
  refine (Datatype.holdsIn_constructorIndex_iff h.isBuiltIn h.ne_nil
    (Enumeration.forall₂_model h.isOpen) fun _ => Enumeration.contains_iff h.isBuiltIn).mpr ?_
  exact fun x _ => apply_indexName _ _ x

/-- A name between bars has no function, so that anything may stand for it. -/
theorem declaredIn_model_of_ne (h : s.IsEnumeration d) (hname : s.name ≠ d.name)
    (f : Element String → Option (Element String)) :
    (Kind.userSort s).DeclaredIn (.standard d.carrier) (d.model f) :=
  h.declaredIn_iff.mpr ⟨Enumeration.holdsIn_model h.isBuiltIn h.nodup h.isOpen,
    fun hsame => absurd hsame hname⟩

/-- What the function gives for a constructor in the model. -/
theorem eval_index_model (h : s.IsEnumeration d) (f : Element String → Option (Element String))
    {i : Nat} (hi : i < d.constructors.length) :
    (Term.app (.symbol (Datatype.indexName s.name)) [.symbol d.constructors[i]]).eval
      (.standard d.carrier) (d.model f) = f (.other d.constructors[i]) := by
  have hvalue : (Term.symbol d.constructors[i]).eval (.standard d.carrier) (d.model f) =
      some (.other d.constructors[i]) := by
    have hopen := Theory.lookup_of_not_mem_names (α := String) (h.isOpen _ (List.getElem_mem hi))
    simp [Term.eval, Theory.apply, Term.name?, Theory.standard, hopen, Enumeration.model]
  rw [Term.eval_app_of_evalAll (Term.evalAll_eq_some_iff.mpr (.cons hvalue .nil)), apply_indexName]

/-- A name between bars, and a constructor that the variable of the definition hides, leave some
constructor without its position. -/
theorem not_ordersConstructors (h : s.IsEnumeration d)
    (hnames : s.name = d.name → "x" ∈ d.constructors.dropLast) :
    ¬s.OrdersConstructors d.constructors := by
  intro horders
  by_cases hname : s.name = d.name
  · -- The constructor behind the hidden one gets the position of the hidden one or an earlier one.
    obtain ⟨p, hp, hx⟩ := List.getElem_of_mem (hnames hname)
    have hnumbers := (horders _ _ h.declaredIn_model).1
    have hnext : p + 1 < d.constructors.length := by
      rw [List.length_dropLast] at hp
      omega
    have hposition := (h.eval_index_model _ hnext).symm.trans (hnumbers _ hnext)
    have hle := Datatype.idxOf_hidden_le (x := .other d.constructors[p + 1])
      (List.length_map Element.other).symm hp hx
    simp only [position, Option.some.injEq, Element.int.injEq, Int.natCast_inj] at hposition
    omega
  · -- Nothing says what the name of the function stands for, so it may be undefined.
    have hnumbers := (horders _ _ (h.declaredIn_model_of_ne hname fun _ => none)).1
    have hfirst := List.length_pos_of_ne_nil h.ne_nil
    exact absurd ((h.eval_index_model _ hfirst).symm.trans (hnumbers 0 hfirst)) (by simp)

/-- The constructors of an enumeration with legal names are ordered by their positions just if the
name of the sort is not written between bars, and no constructor but possibly the last one is called
`x` like the variable of the definition. There always is an interpretation that is as the
declaration says. -/
theorem ordersConstructors_iff (h : s.IsEnumeration d) :
    (∃ (carrier : SortExpr → String → Prop) (J : Interpretation String),
        (Kind.userSort s).DeclaredIn (.standard carrier) J) ∧
      (s.OrdersConstructors d.constructors ↔
        s.name = d.name ∧ "x" ∉ d.constructors.dropLast) := by
  refine ⟨⟨_, _, h.declaredIn_model⟩, fun horders => ?_, fun ⟨hname, hx⟩ => ?_⟩
  · by_contra hnames
    exact h.not_ordersConstructors (fun hname => by_contra fun hx => hnames ⟨hname, hx⟩) horders
  · intro carrier J hdeclared
    have hnumbers := h.numbersConstructors hname hx hdeclared
    have hconstructors : s.isEnumerated = true := by
      obtain ⟨texts, htexts, -⟩ := Option.bind_eq_some_iff.mp h.constructors
      rw [isEnumerated, htexts]
      rfl
    exact ⟨hnumbers, hnumbers.comparesPositions hconstructors⟩

/-- Names between bars, the last of which is called like the variable. -/
theorem ordersConstructors_shades :
    IsEnumeration ⟨"Shade", some ["pale", "|very dark|", "|x|"]⟩
        ⟨"Shade", ["pale", "very dark", "x"]⟩ ∧
      OrdersConstructors ⟨"Shade", some ["pale", "|very dark|", "|x|"]⟩
        ["pale", "very dark", "x"] := by
  have h : IsEnumeration ⟨"Shade", some ["pale", "|very dark|", "|x|"]⟩
      ⟨"Shade", ["pale", "very dark", "x"]⟩ := by decide +kernel
  exact ⟨h, h.ordersConstructors_iff.2.mpr ⟨rfl, by decide⟩⟩

/-- A constructor called like the variable in front of another one, and the name of a sort between
bars. -/
theorem not_ordersConstructors_axes :
    (IsEnumeration ⟨"S", some ["x", "y"]⟩ ⟨"S", ["x", "y"]⟩ ∧
        ¬OrdersConstructors ⟨"S", some ["x", "y"]⟩ ["x", "y"]) ∧
      (IsEnumeration ⟨"|S|", some ["a", "b"]⟩ ⟨"S", ["a", "b"]⟩ ∧
        ¬OrdersConstructors ⟨"|S|", some ["a", "b"]⟩ ["a", "b"]) := by
  have haxes : IsEnumeration ⟨"S", some ["x", "y"]⟩ ⟨"S", ["x", "y"]⟩ := by decide +kernel
  have hbars : IsEnumeration ⟨"|S|", some ["a", "b"]⟩ ⟨"S", ["a", "b"]⟩ := by decide +kernel
  exact ⟨⟨haxes, haxes.not_ordersConstructors fun _ => by decide⟩,
    ⟨hbars, hbars.not_ordersConstructors fun hname => absurd hname (by decide)⟩⟩

end UserSort.IsEnumeration

end SolverScript
