import SolverScript.Proofs.Semantics.DataTheory
import SolverScript.Script.Invariant

/-!
# Well-sorted terms

The target language gives every term at most one sort: a function is applied to arguments of the
sorts that it expects, and a variable has the sort that it was declared or bound with. This file
computes that sort for the terms that are made of constants, bound variables and the functions that
speak about characters, rationals, lists, sets, tuples, optionals and sums. All other terms have no
sort here.

## Main definitions

* `Sorting` - the sorts of declared constants and bound variables
* `Sorting.result?` - the sort that a function of the theory gives for arguments of some sorts
* `Term.sort?` - the sort of a term
* `Sorting.Accepts` - whether some terms are formulas

## Main results

* `Sorting.result?_nth_iff`, `Sorting.result?_select_iff` and their neighbours - the sorts that single
  functions expect
* `Term.sort?_of_name?` - the sort of a constant that the theory does not have
* `Term.sort?_implication_iff`, `Term.sort?_conjunction_iff`, `Term.sort?_forAll_iff` - formulas
-/

namespace SolverScript

namespace SortExpr

mutual

/-- Sorts are told apart by their names and their arguments. -/
def decEq : (s t : SortExpr) → Decidable (s = t)
  | named a, named b => decidable_of_iff (a = b) (by simp)
  | indexed a is, indexed b js => decidable_of_iff (a = b ∧ is = js) (by simp)
  | applied a ss, applied b ts =>
    have := decEqAll ss ts
    decidable_of_iff (a = b ∧ ss = ts) (by simp)
  | named _, indexed .. | named _, applied .. | indexed .., named _ | indexed .., applied ..
  | applied .., named _ | applied .., indexed .. => isFalse (by simp)

def decEqAll : (ss ts : List SortExpr) → Decidable (ss = ts)
  | [], [] => isTrue rfl
  | [], _ :: _ | _ :: _, [] => isFalse (by simp)
  | s :: ss, t :: ts =>
    have := decEq s t
    have := decEqAll ss ts
    decidable_of_iff (s = t ∧ ss = ts) (by simp)

end

instance : DecidableEq SortExpr := decEq

/-- Whether a sort is made from others. -/
def isApplied : SortExpr → Bool
  | applied .. => true
  | _ => false

end SortExpr

/-- The sorts of the constants that are declared and of the variables that are bound. -/
abbrev Sorting := String → Option SortExpr

namespace Sorting

/-- The sorts inside of a quantifier. -/
def bind (Γ : Sorting) (name : String) (s : SortExpr) : Sorting := fun other =>
  if other = name then some s else Γ other

/-- The sorts inside of a quantifier over several variables. -/
def bindAll (Γ : Sorting) (binders : List (String × SortExpr)) : Sorting :=
  binders.foldl (fun Γ b => Γ.bind b.1 b.2) Γ

@[simp] theorem bind_self (Γ : Sorting) (name : String) (s : SortExpr) :
    Γ.bind name s name = some s := if_pos rfl

theorem bind_of_ne (Γ : Sorting) {name other : String} (s : SortExpr) (h : other ≠ name) :
    Γ.bind name s other = Γ other := if_neg h

/-- A sort that is given for arguments of fixed sorts. -/
def onlyFor (arguments : List SortExpr) (result : SortExpr) (ss : List SortExpr) :
    Option SortExpr :=
  if ss = arguments then some result else none

/-- The sort of a connective of formulas, at least two of them. -/
def connective (ss : List SortExpr) : Option SortExpr :=
  if 2 ≤ ss.length ∧ ∀ s ∈ ss, s = Kind.bool.sort then some Kind.bool.sort else none

/-- The functions that have a name of their own, with the sort of their result. -/
def functions : List (String × (List SortExpr → Option SortExpr)) :=
  [("true", onlyFor [] Kind.bool.sort),
    ("false", onlyFor [] Kind.bool.sort),
    ("and", connective),
    ("=>", connective),
    ("=", fun ss => match ss with
      | [s, t] => if s = t then some Kind.bool.sort else none
      | _ => none),
    ("<", onlyFor [Kind.unbounded.sort, Kind.unbounded.sort] Kind.bool.sort),
    (">=", onlyFor [Kind.unbounded.sort, Kind.unbounded.sort] Kind.bool.sort),
    ("str.len", onlyFor [Kind.string.sort] Kind.unbounded.sort),
    ("seq.len", fun ss => match ss with
      | [.applied "Seq" [_]] => some Kind.unbounded.sort
      | _ => none),
    ("seq.nth", fun ss => match ss with
      | [.applied "Seq" [s], i] => if i = Kind.unbounded.sort then some s else none
      | _ => none),
    ("select", fun ss => match ss with
      | [.applied "Array" [s, t], i] => if i = s then some t else none
      | _ => none),
    (RationalFunction.constructor,
      onlyFor [Kind.unbounded.sort, Kind.unbounded.sort] Kind.rational.sort),
    (RationalFunction.numerator, onlyFor [Kind.rational.sort] Kind.unbounded.sort),
    (RationalFunction.denominator, onlyFor [Kind.rational.sort] Kind.unbounded.sort),
    ("mkSBVTuple0", onlyFor [] (Kind.tuple []).sort),
    (Composite.maybeAccessor, fun ss => match ss with
      | [.applied "SBVMaybe" [s]] => some s
      | _ => none),
    (Composite.sideAccessor false, fun ss => match ss with
      | [.applied "SBVEither" [l, _]] => some l
      | _ => none),
    (Composite.sideAccessor true, fun ss => match ss with
      | [.applied "SBVEither" [_, r]] => some r
      | _ => none)]

/-- The sort of a component of a tuple, by the name of the projection. -/
def component? (name : String) : List SortExpr → Option SortExpr
  | [.applied tuple ss] =>
    if tuple = "SBVTuple" ++ Nat.repr ss.length then
      ((List.range ss.length).find? fun i =>
        name == Composite.projection (i + 1) ss.length).bind (ss[·]?)
    else none
  | _ => none

/-- The sort that a function of the theory gives for arguments of some sorts. -/
def result? (name : String) (ss : List SortExpr) : Option SortExpr :=
  match functions.lookup name with
  | some f => f ss
  | none => component? name ss

theorem onlyFor_eq_some_iff {arguments ss : List SortExpr} {result s : SortExpr} :
    onlyFor arguments result ss = some s ↔ ss = arguments ∧ s = result := by
  rw [onlyFor, Option.ite_none_right_eq_some, Option.some.injEq, eq_comm (a := s)]

theorem connective_eq_some_iff {ss : List SortExpr} {s : SortExpr} :
    connective ss = some s ↔
      (2 ≤ ss.length ∧ ∀ a ∈ ss, a = Kind.bool.sort) ∧ s = Kind.bool.sort := by
  rw [connective, Option.ite_none_right_eq_some, Option.some.injEq, eq_comm (a := s)]

section

variable {a b s : SortExpr}

theorem result?_length_iff :
    result? "str.len" [a] = some s ↔ [a] = [Kind.string.sort] ∧ s = Kind.unbounded.sort :=
  onlyFor_eq_some_iff

theorem result?_denominator_iff :
    result? RationalFunction.denominator [a] = some s ↔
      [a] = [Kind.rational.sort] ∧ s = Kind.unbounded.sort :=
  onlyFor_eq_some_iff

theorem result?_sequenceLength_iff :
    result? "seq.len" [a] = some s ↔
      (∃ element, a = .applied "Seq" [element]) ∧ s = Kind.unbounded.sort := by
  change (match [a] with
      | [.applied "Seq" [_]] => some Kind.unbounded.sort
      | _ => none) = some s ↔ _
  split <;> simp_all [eq_comm]

theorem result?_nth_iff :
    result? "seq.nth" [a, b] = some s ↔ b = Kind.unbounded.sort ∧ a = .applied "Seq" [s] := by
  change (match [a, b] with
      | [.applied "Seq" [s], i] => if i = Kind.unbounded.sort then some s else none
      | _ => none) = some s ↔ _
  split <;> simp_all [eq_comm]

theorem result?_select_iff :
    result? "select" [a, b] = some s ↔ a = .applied "Array" [b, s] := by
  change (match [a, b] with
      | [.applied "Array" [s, t], i] => if i = s then some t else none
      | _ => none) = some s ↔ _
  split <;> simp_all [eq_comm]

theorem result?_getJust_iff :
    result? Composite.maybeAccessor [a] = some s ↔ a = .applied "SBVMaybe" [s] := by
  change (match [a] with
      | [.applied "SBVMaybe" [s]] => some s
      | _ => none) = some s ↔ _
  split <;> simp_all [eq_comm]

theorem result?_getSide_iff {isRight : Bool} :
    result? (Composite.sideAccessor isRight) [a] = some s ↔
      ∃ l r, a = .applied "SBVEither" [l, r] ∧ s = if isRight then r else l := by
  cases isRight
  · change (match [a] with
        | [.applied "SBVEither" [l, _]] => some l
        | _ => none) = some s ↔ _
    split <;> simp_all [eq_comm]
  · change (match [a] with
        | [.applied "SBVEither" [_, r]] => some r
        | _ => none) = some s ↔ _
    split <;> simp_all [eq_comm]

end

/-! ### Projections -/

theorem result?_projection (position arity : Nat) (ss : List SortExpr) :
    result? (Composite.projection position arity) ss =
      component? (Composite.projection position arity) ss := by
  have hlookup : functions.lookup (Composite.projection position arity) = none :=
    OpenSorts.lookup_projection_eq_none
      (by simp [functions, RationalFunction.constructor, RationalFunction.numerator,
        RationalFunction.denominator, Composite.maybeAccessor, Composite.sideAccessor])
      position arity
  rw [result?, hlookup]

/-- The projection from a tuple has the sort of the component. -/
theorem result?_projection_tuple {ss : List SortExpr} {i : Nat} {s : SortExpr}
    (h : ss[i]? = some s) :
    result? (Composite.projection (i + 1) ss.length)
      [.applied ("SBVTuple" ++ Nat.repr ss.length) ss] = some s := by
  obtain ⟨hi, -⟩ := List.getElem?_eq_some_iff.mp h
  have hfind : ((List.range ss.length).find? fun j =>
      Composite.projection (i + 1) ss.length == Composite.projection (j + 1) ss.length) =
        some i := by
    rw [List.find?_range_eq_some]
    refine ⟨by simp, by simpa using hi, fun j hj => ?_⟩
    have hne : i + 1 ≠ j + 1 := by omega
    simpa using (OpenSorts.projection_injective _).ne hne
  rw [result?_projection, component?, if_pos rfl, hfind, Option.bind_some, h]

/-- What has a projection is a sort that is applied to others. -/
theorem exists_of_result?_projection {position arity : Nat} {a s : SortExpr}
    (h : result? (Composite.projection position arity) [a] = some s) :
    ∃ tuple ss, a = .applied tuple ss := by
  rw [result?_projection] at h
  cases a with
  | applied tuple ss => exact ⟨tuple, ss, rfl⟩
  | named | indexed => cases h

/-! ### Constructors and variables -/

/-- The sorts that a constructor is applied to, if its values have a given sort. -/
def parameters? (constructor : String) : SortExpr → Option (List SortExpr)
  | .applied "SBVMaybe" [s] =>
    if constructor = Composite.maybeConstructor true then some [s]
    else if constructor = Composite.maybeConstructor false then some []
    else none
  | .applied "SBVEither" [l, r] =>
    if constructor = Composite.sideConstructor false then some [l]
    else if constructor = Composite.sideConstructor true then some [r]
    else none
  | _ => none

/-- The variables of invariants are not called like functions. -/
theorem lookup_of_isBoundName {depth : Nat} {name : String} (h : IsBoundName depth name) :
    functions.lookup name = none := by
  -- No function whose name starts with the letter of the variables has a digit at the end of it.
  have hkeys : ∀ key ∈ functions.map Prod.fst, key.toList.head? = some 's' →
      ∀ c, key.toList.getLast? = some c → c.isDigit = false := by
    simp [functions, RationalFunction.constructor, RationalFunction.numerator,
      RationalFunction.denominator, Composite.maybeAccessor, Composite.sideAccessor]
  obtain ⟨c, hlast, hdigit⟩ := h.exists_getLast?
  refine lookup_of_not_mem_keys fun hname => ?_
  rw [hkeys name hname h.head?_eq c hlast] at hdigit
  cases hdigit

end Sorting

namespace Term

mutual

/-- The sort of a term. A constant is one of the theory, or has the sort that it was given. -/
def sort? (Γ : Sorting) : Term → Option SortExpr
  | symbol text => (Sorting.result? text []).or (Γ text)
  | node id => (Sorting.result? (nodeName id) []).or (Γ (nodeName id))
  | numeral value => if 0 ≤ value then some Kind.unbounded.sort else none
  | quoted _ => some Kind.string.sort
  | app (symbol name) operands => do Sorting.result? name (← sorts? Γ operands)
  | app (tester constructor (some (parameters, whole))) operands => do
    let ss ← sorts? Γ operands
    if ss = [whole] ∧ Sorting.parameters? constructor whole = some parameters then
      some Kind.bool.sort
    else none
  | forAll binders body => do
    if (← sort? (Γ.bindAll binders) body) = Kind.bool.sort then some Kind.bool.sort else none
  | _ => none

/-- The sorts of several terms. -/
def sorts? (Γ : Sorting) : List Term → Option (List SortExpr)
  | [] => some []
  | t :: ts => do
    let s ← sort? Γ t
    return s :: (← sorts? Γ ts)

end

end Term

/-- Whether some terms are formulas. -/
def Sorting.Accepts (Γ : Sorting) (fs : List Term) : Prop :=
  ∀ f ∈ fs, f.sort? Γ = some Kind.bool.sort

namespace Term

variable {Γ : Sorting} {t u : Term} {s : SortExpr}

theorem sorts?_eq_some_iff {ts : List Term} {ss : List SortExpr} :
    sorts? Γ ts = some ss ↔ List.Forall₂ (fun t s => sort? Γ t = some s) ts ss := by
  induction ts generalizing ss with
  | nil => simp [sorts?, eq_comm]
  | cons t ts ih =>
    cases ss with
    | nil => simp [sorts?, Option.bind_eq_some_iff]
    | cons s ss => simp [sorts?, Option.bind_eq_some_iff, ih]

theorem forall_sort?_eq {ts : List Term} {ss : List SortExpr}
    (h : List.Forall₂ (fun t s => sort? Γ t = some s) ts ss) (hss : ∀ a ∈ ss, a = s) :
    ∀ t ∈ ts, t.sort? Γ = some s := by
  induction h with
  | nil => simp
  | cons ht _ ih =>
    obtain ⟨rfl, hss⟩ := List.forall_mem_cons.mp hss
    exact List.forall_mem_cons.mpr ⟨ht, ih hss⟩

/-- The sort of a constant that the theory does not have. -/
theorem sort?_of_name? {name : String} (hname : t.name? = some name)
    (hfree : Sorting.functions.lookup name = none) : t.sort? Γ = Γ name := by
  have hresult : Sorting.result? name [] = none := by
    rw [Sorting.result?, hfree]
    rfl
  cases t with
  | symbol text | node id =>
    cases hname
    rw [sort?, hresult, Option.none_or]
  | _ => cases hname

/-! ### Applications -/

theorem sort?_app_iff {name : String} {ts : List Term} :
    sort? Γ (.app (.symbol name) ts) = some s ↔
      ∃ ss, List.Forall₂ (fun t s => sort? Γ t = some s) ts ss ∧
        Sorting.result? name ss = some s := by
  simp only [sort?, Option.bind_eq_bind, Option.bind_eq_some_iff, sorts?_eq_some_iff]

theorem sort?_app_one {name : String} :
    sort? Γ (.app (.symbol name) [t]) = some s ↔
      ∃ a, t.sort? Γ = some a ∧ Sorting.result? name [a] = some s := by
  simp [sort?_app_iff, List.forall₂_cons_left_iff]

theorem sort?_app_two {name : String} :
    sort? Γ (.app (.symbol name) [t, u]) = some s ↔
      ∃ a b, t.sort? Γ = some a ∧ u.sort? Γ = some b ∧ Sorting.result? name [a, b] = some s := by
  simp [sort?_app_iff, List.forall₂_cons_left_iff, and_assoc]

/-- The test for a constructor. -/
theorem sort?_tester_iff {constructor : String} {parameters : List Kind} {whole : Kind} :
    sort? Γ (.app (Composite.testerWithSignature constructor parameters whole) [t]) = some s ↔
      t.sort? Γ = some whole.sort ∧
        Sorting.parameters? constructor whole.sort = some (parameters.map Kind.sort) ∧
        s = Kind.bool.sort := by
  simp only [Composite.testerWithSignature, sort?, Option.bind_eq_bind, Option.bind_eq_some_iff,
    sorts?_eq_some_iff, Option.ite_none_right_eq_some, Option.some.injEq]
  constructor
  · rintro ⟨ss, hss, ⟨rfl, hparameters⟩, rfl⟩
    obtain ⟨ht, -⟩ := List.forall₂_cons.mp hss
    exact ⟨ht, hparameters, rfl⟩
  · rintro ⟨ht, hparameters, rfl⟩
    exact ⟨_, .cons ht .nil, ⟨rfl, hparameters⟩, rfl⟩

/-! ### Formulas -/

theorem sort?_ofBool (b : Bool) : (Term.ofBool b).sort? Γ = some Kind.bool.sort := by
  cases b <;> rfl

theorem sort?_implication_iff :
    (Kind.implication t u).sort? Γ = some Kind.bool.sort ↔
      t.sort? Γ = some Kind.bool.sort ∧ u.sort? Γ = some Kind.bool.sort := by
  rw [Kind.implication, sort?_app_two]
  constructor
  · rintro ⟨a, b, ht, hu, h⟩
    obtain ⟨⟨-, hbool⟩, -⟩ := Sorting.connective_eq_some_iff.mp h
    obtain ⟨ha, hb⟩ : a = Kind.bool.sort ∧ b = Kind.bool.sort := by simpa using hbool
    exact ⟨ha ▸ ht, hb ▸ hu⟩
  · rintro ⟨ht, hu⟩
    exact ⟨_, _, ht, hu, rfl⟩

/-- A conjunction is a formula when all of its members are. -/
theorem sort?_conjunction_iff {fs : List Term} :
    (Kind.conjunction fs).sort? Γ = some Kind.bool.sort ↔ Γ.Accepts fs := by
  match fs with
  | [] => simp [Kind.conjunction, Sorting.Accepts, sort?_ofBool]
  | [f] => simp [Kind.conjunction, Sorting.Accepts]
  | f :: g :: rest =>
    refine sort?_app_iff.trans ⟨?_, fun hfs => ?_⟩
    · rintro ⟨ss, hss, h⟩
      obtain ⟨⟨-, hbool⟩, -⟩ := Sorting.connective_eq_some_iff.mp h
      exact forall_sort?_eq hss hbool
    · refine ⟨(f :: g :: rest).map fun _ => Kind.bool.sort, ?_, ?_⟩
      · rw [List.forall₂_map_right_iff, List.forall₂_same]
        exact hfs
      · exact Sorting.connective_eq_some_iff.mpr ⟨⟨by simp, by simp⟩, rfl⟩

theorem sort?_forAll_iff {name : String} :
    (Term.forAll [(name, s)] t).sort? Γ = some Kind.bool.sort ↔
      t.sort? (Γ.bind name s) = some Kind.bool.sort := by
  simp only [sort?, Option.bind_eq_bind, Option.bind_eq_some_iff, Option.ite_none_right_eq_some,
    and_true, exists_eq_right]
  rfl

/-- The formula that a position lies inside of a list. -/
theorem sort?_isPosition_iff (hu : u.sort? Γ = some Kind.unbounded.sort) :
    (Term.app (.symbol "and") [.app (.symbol ">=") [u, .numeral 0],
      .app (.symbol "<") [u, .app (.symbol "seq.len") [t]]]).sort? Γ = some Kind.bool.sort ↔
        ∃ a, t.sort? Γ = some (.applied "Seq" [a]) := by
  change (Kind.conjunction [.app (.symbol ">=") [u, .numeral 0],
    .app (.symbol "<") [u, .app (.symbol "seq.len") [t]]]).sort? Γ = some Kind.bool.sort ↔ _
  rw [sort?_conjunction_iff, Sorting.Accepts, List.forall_mem_cons, List.forall_mem_singleton,
    and_iff_right (sort?_app_two.mpr ⟨_, _, hu, rfl, rfl⟩)]
  constructor
  · intro h
    obtain ⟨a, b, -, hlength, hless⟩ := sort?_app_two.mp h
    obtain ⟨c, hc, hsequence⟩ := sort?_app_one.mp hlength
    obtain ⟨⟨element, rfl⟩, -⟩ := Sorting.result?_sequenceLength_iff.mp hsequence
    exact ⟨element, hc⟩
  · rintro ⟨a, ht⟩
    exact sort?_app_two.mpr ⟨_, _, hu, sort?_app_one.mpr ⟨_, ht, rfl⟩, rfl⟩

/-- A formula about the elements of a list is one if the list has the sort of a list and what is
said of each element is a formula. -/
theorem sort?_elementwise_iff {index : String}
    (hfree : Sorting.functions.lookup index = none) :
    (Kind.elementwise index t u).sort? Γ = some Kind.bool.sort ↔
      (∃ a, t.sort? (Γ.bind index Kind.unbounded.sort) = some (.applied "Seq" [a])) ∧
        u.sort? (Γ.bind index Kind.unbounded.sort) = some Kind.bool.sort := by
  have hindex : (Term.symbol index).sort? (Γ.bind index Kind.unbounded.sort) =
      some Kind.unbounded.sort := by
    rw [sort?_of_name? rfl hfree, Sorting.bind_self]
  rw [Kind.elementwise, sort?_forAll_iff, sort?_implication_iff, sort?_isPosition_iff hindex]

end Term

end SolverScript
