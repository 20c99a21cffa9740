import SolverScript.Proofs.Script.LogicCoverage
import SolverScript.Proofs.Script.SortDeclarations

/-!
# The logic of all theories

Fifteen features of problems are covered by the logic of all theories only. They are tried in a
fixed order, and the first one that is present is given as the reason. A problem that has more in it
than another one has all its features, so the reason can only move to the front of that order; but
the solver may lack what the larger problem requires.

## Main definitions

* `CatchAllFeature` - the features in their order, with `CatchAllFeature.IsIn` for problems
* `CatchAllFeature.choice` - the choice of the logic for the sake of a feature
* `Problem.IsPartOf` - a problem has all that another one has

## Main results

* `CatchAllFeature.flag_iff` - a feature is detected when the problem has it
* `LogicQuery.bestChoice_eq_iff` - a choice is made for the sake of the first feature
* `Problem.chooseLogic_catchAll` - larger problems keep the logic of all theories
-/

namespace SolverScript

/-- A feature that needs the logic of all theories. -/
inductive CatchAllFeature where
  | integers
  | rationals
  | reals
  | userSorts
  | nonBitVectorArrays
  | tuples
  | sums
  | optionals
  | sets
  | lists
  | chars
  | strings
  | regExps
  | arrayInitializers
  | overflows
  deriving DecidableEq, Repr

/-- Whether a kind is a user sort other than the rounding modes. -/
def Kind.isTrueUserSort (k : Kind) : Bool := k.userSort?.any fun s => !s.isRoundingMode

/-- Whether a kind is a tuple. -/
def Kind.isTuple (k : Kind) : Bool := k.arity?.isSome

namespace CatchAllFeature

/-- All features, in the order in which they are given as reasons. -/
def every : List CatchAllFeature :=
  [integers, rationals, reals, userSorts, nonBitVectorArrays, tuples, sums, optionals, sets, lists,
    chars, strings, regExps, arrayInitializers, overflows]

/-- The reason that a feature is. -/
def reason : CatchAllFeature → String
  | integers => "has unbounded values"
  | rationals => "has rational values"
  | reals => "has algebraic reals"
  | userSorts => "has user-defined sorts"
  | nonBitVectorArrays => "has non-bitvector arrays"
  | tuples => "has tuples"
  | sums => "has either type"
  | optionals => "has maybe type"
  | sets => "has sets"
  | lists => "has lists"
  | chars => "has chars"
  | strings => "has strings"
  | regExps => "has regular expressions"
  | arrayInitializers => "has array initializers"
  | overflows => "has overflow checks"

/-- The place of a feature in the order of reasons. -/
def rank (x : CatchAllFeature) : Nat := every.idxOf x

/-- The choice that is made for the sake of a feature. -/
def choice (x : CatchAllFeature) : LogicChoice :=
  ⟨.setLogic "ALL" (x.reason ++ ", using catch-all."), x.reason⟩

/-- Whether a feature is among those that were detected. -/
def flag (f : Features) : CatchAllFeature → Bool
  | integers => f.integers
  | rationals => f.rationals
  | reals => f.reals
  | userSorts => !f.trueUserSorts.isEmpty
  | nonBitVectorArrays => f.nonBitVectorArrays
  | tuples => f.tuples
  | sums => f.sums
  | optionals => f.optionals
  | sets => f.sets
  | lists => f.lists
  | chars => f.chars
  | strings => f.strings
  | regExps => f.regExps
  | arrayInitializers => f.arrayInitializers
  | overflows => f.overflows

/-- Whether a problem has a feature: in its kinds at any depth, its arrays or its assignments. -/
def IsIn (p : Problem) : CatchAllFeature → Prop
  | integers => p.HasKind Kind.isUnbounded
  | rationals => p.HasKind Kind.isRational
  | reals => p.HasKind Kind.isReal
  | userSorts => p.HasKind Kind.isTrueUserSort
  | nonBitVectorArrays => ∃ a ∈ p.arrays, a.domain.isBounded = false ∨ a.range.isBounded = false
  | tuples => p.HasKind Kind.isTuple
  | sums => p.HasKind Kind.isEither
  | optionals => p.HasKind Kind.isMaybe
  | sets => p.HasKind Kind.isSet
  | lists => p.HasKind Kind.isList
  | chars => p.HasKind Kind.isChar
  | strings => p.HasKind Kind.isString
  | regExps => ∃ a ∈ p.assignments, Features.usesRegExp a.operation.operator = true
  | arrayInitializers => ∃ a ∈ p.arrays, Features.isInitialized a.context = true
  | overflows => ∃ a ∈ p.assignments, Features.checksOverflow a.operation.operator = true

theorem mem_every (x : CatchAllFeature) : x ∈ every := by
  cases x <;> decide

theorem reason_injective : Function.Injective reason := by
  intro x y h
  cases x <;> cases y <;> first | rfl | simp [reason] at h

/-! ### Detection -/

theorem trueUserSorts_iff {p : Problem} :
    (!p.features.trueUserSorts.isEmpty) = true ↔ p.HasKind Kind.isTrueUserSort := by
  have hsorts : p.features.userSorts = (KindSet.closure p.kinds).toList.filterMap Kind.userSort? :=
    rfl
  rw [Problem.HasKind, ← Problem.any_closure_iff, Features.trueUserSorts, hsorts]
  simp only [Bool.not_eq_true', List.isEmpty_eq_false_iff_exists_mem, List.mem_map,
    List.mem_filter, List.mem_filterMap, List.any_eq_true, Kind.isTrueUserSort, Option.any_eq_true]
  constructor
  · rintro ⟨-, u, ⟨⟨k, hk, hu⟩, hbuiltin⟩, -⟩
    exact ⟨k, hk, u, hu, by simpa using hbuiltin⟩
  · rintro ⟨k, hk, u, hu, hbuiltin⟩
    exact ⟨u.name, u, ⟨⟨k, hk, hu⟩, by simpa using hbuiltin⟩, rfl⟩

theorem tuples_iff {p : Problem} : p.features.tuples = true ↔ p.HasKind Kind.isTuple := by
  have harities : p.features.tupleArities =
      ((KindSet.closure p.kinds).toList.filterMap Kind.arity?).foldr Features.placeNumber [] := rfl
  rw [Problem.HasKind, ← Problem.any_closure_iff, Features.tuples, harities, Bool.not_eq_true',
    List.isEmpty_eq_false_iff_exists_mem]
  simp only [Features.mem_foldr_placeNumber_iff, List.mem_filterMap, List.any_eq_true,
    Kind.isTuple, Option.isSome_iff_exists]
  constructor
  · rintro ⟨n, k, hk, hn⟩
    exact ⟨k, hk, n, hn⟩
  · rintro ⟨k, hk, n, hn⟩
    exact ⟨n, k, hk, hn⟩

/-- A feature is detected when the problem has it. -/
theorem flag_iff (x : CatchAllFeature) {p : Problem} : x.flag p.features = true ↔ x.IsIn p := by
  cases x
  case userSorts => exact trueUserSorts_iff
  case tuples => exact tuples_iff
  case nonBitVectorArrays =>
    simp [flag, IsIn, Problem.features, Features.detect]
  case arrayInitializers => exact List.any_eq_true
  case regExps =>
    simp [flag, IsIn, Problem.features, Features.detect]
  case overflows =>
    simp [flag, IsIn, Problem.features, Features.detect]
  all_goals exact Problem.any_closure_iff

/-! ### The first feature -/

/-- The first feature that was detected. -/
def first? (f : Features) : Option CatchAllFeature := every.find? fun x => x.flag f

theorem catchAllReason?_eq (f : Features) : catchAllReason? f = (first? f).map reason := by
  have hreasons : catchAllReasons f = every.map fun x => (x.flag f, x.reason) := rfl
  rw [catchAllReason?, hreasons, List.find?_map, Option.map_map]
  rfl

theorem exists_first?_iff {f : Features} :
    (∃ x, first? f = some x) ↔ ∃ x : CatchAllFeature, x.flag f := by
  rw [← Option.isSome_iff_exists, first?, List.find?_isSome]
  exact ⟨fun ⟨x, _, hx⟩ => ⟨x, hx⟩, fun ⟨x, hx⟩ => ⟨x, mem_every x, hx⟩⟩

/-- No feature before the first one was detected. -/
theorem flag_of_rank_lt {f : Features} {x y : CatchAllFeature} (h : first? f = some x)
    (hlt : y.rank < x.rank) : y.flag f = false := by
  obtain ⟨hx, before, rest, hevery, hbefore⟩ := List.find?_eq_some_iff_append.mp h
  have hnot : x ∉ before := fun hmem => by simpa [hx] using hbefore x hmem
  have hy : y ∈ before := by
    by_contra hy
    rw [rank, rank, hevery, List.idxOf_append_of_notMem hy, List.idxOf_append_of_notMem hnot,
      List.idxOf_cons_self] at hlt
    omega
  simpa using hbefore y hy

/-- With more features, the first one comes no later. -/
theorem exists_first?_of_imp {f g : Features}
    (hfg : ∀ x : CatchAllFeature, x.flag f = true → x.flag g = true) {x : CatchAllFeature}
    (h : first? f = some x) : ∃ y, first? g = some y ∧ y.rank ≤ x.rank := by
  have hx : x.flag g = true := hfg x (List.find?_some h)
  obtain ⟨y, hy⟩ := exists_first?_iff.mpr ⟨x, hx⟩
  refine ⟨y, hy, Nat.le_of_not_lt fun hlt => ?_⟩
  rw [flag_of_rank_lt hy hlt] at hx
  cases hx

end CatchAllFeature

/-! ### Choices -/

namespace LogicQuery

open CatchAllFeature

/-- A choice is made for the sake of a feature when that is the first one. -/
theorem bestChoice_eq_iff {q : LogicQuery} {c : Capabilities} {x : CatchAllFeature} :
    q.bestChoice c = x.choice ↔ first? q.features = some x := by
  cases hfirst : first? q.features with
  | some y =>
    have hchoice : q.bestChoice c = y.choice := by
      rw [bestChoice, catchAllReason?_eq, hfirst]
      rfl
    rw [hchoice, Option.some.injEq]
    exact ⟨fun h => reason_injective (congrArg LogicChoice.reason h), fun h => h ▸ rfl⟩
  | none =>
    -- The other choices are made for reasons of their own.
    have hother : (q.bestChoice c).reason ∈ ["has floating point values", "external query",
        "bit-vector problem", "solver does not support bit vectors"] := by
      rw [bestChoice, catchAllReason?_eq, hfirst]
      simp only [Option.map_none]
      split_ifs <;> simp
    refine iff_of_false (fun h => ?_) (by simp)
    rw [h] at hother
    revert hother
    cases x <;> decide

end LogicQuery

namespace Problem

/-- A problem has all kinds, arrays and assignments of another one, and possibly more of them. -/
structure IsPartOf (p q : Problem) : Prop where
  kinds : p.kinds ⊆ q.kinds
  arrays : p.arrays ⊆ q.arrays
  assignments : p.assignments ⊆ q.assignments

variable {config : Config} {p q : Problem}

theorem HasKind.mono {property : Kind → Bool} (h : p.HasKind property) (hpart : p.IsPartOf q) :
    q.HasKind property := by
  obtain ⟨k, hk, hproperty⟩ := h
  exact ⟨k, hpart.kinds hk, hproperty⟩

/-- A larger problem has all features of its parts. -/
theorem isIn_of_isPartOf (hpart : p.IsPartOf q) {x : CatchAllFeature} (hx : x.IsIn p) :
    x.IsIn q := by
  cases x
  case nonBitVectorArrays | arrayInitializers =>
    obtain ⟨a, ha, h⟩ := hx
    exact ⟨a, hpart.arrays ha, h⟩
  case regExps | overflows =>
    obtain ⟨a, ha, h⟩ := hx
    exact ⟨a, hpart.assignments ha, h⟩
  all_goals exact HasKind.mono hx hpart

theorem flag_of_isPartOf (hpart : p.IsPartOf q) {x : CatchAllFeature}
    (hx : x.flag p.features = true) : x.flag q.features = true :=
  x.flag_iff.mpr (isIn_of_isPartOf hpart (x.flag_iff.mp hx))

/-- The choice fails when the solver lacks something, and is the best one otherwise. -/
theorem chooseLogic_eq (hrequest : config.requestedLogics = []) (p : Problem) :
    p.chooseLogic config =
      if config.capabilities.unmet p.features = [] then
        .ok ((p.logicQuery p.features).bestChoice config.capabilities)
      else .error (.unmetRequirements config.capabilities.name
        (config.capabilities.unmet p.features)) := by
  rw [chooseLogic, LogicQuery.choose, hrequest]
  simp only
  split <;> simp_all [logicQuery]

/-- Larger problems keep the logic of all theories: unless the solver lacks something, it is chosen
for the same reason or for an earlier one. It is chosen for such a reason exactly if a problem has
one of the features. -/
theorem chooseLogic_catchAll (hrequest : config.requestedLogics = []) (hpart : p.IsPartOf q) :
    (∀ x : CatchAllFeature, p.chooseLogic config = .ok x.choice →
      q.chooseLogic config = .error (.unmetRequirements config.capabilities.name
        (config.capabilities.unmet q.features)) ∨
      ∃ y : CatchAllFeature, y.rank ≤ x.rank ∧ q.chooseLogic config = .ok y.choice) ∧
    ∀ choice, p.chooseLogic config = .ok choice →
      ((∃ x : CatchAllFeature, choice = x.choice) ↔ ∃ x : CatchAllFeature, x.IsIn p) := by
  rw [chooseLogic_eq hrequest p, chooseLogic_eq hrequest q]
  constructor
  · intro x hx
    split at hx
    · have hfirst := LogicQuery.bestChoice_eq_iff.mp (Except.ok.inj hx)
      -- A larger problem has the features of its parts, and maybe one that counts before them.
      obtain ⟨y, hy, hrank⟩ :=
        CatchAllFeature.exists_first?_of_imp (fun _ => flag_of_isPartOf hpart) hfirst
      split
      · exact .inr ⟨y, hrank, congrArg _ (LogicQuery.bestChoice_eq_iff.mpr hy)⟩
      · exact .inl rfl
    · cases hx
  · intro choice hchoice
    split at hchoice
    · obtain rfl := Except.ok.inj hchoice
      simp only [LogicQuery.bestChoice_eq_iff, CatchAllFeature.exists_first?_iff,
        ← CatchAllFeature.flag_iff]
      rfl
    · cases hchoice

/-- Lists of truth values. -/
def listOfBools : Problem where
  kinds := [.list .bool]

/-- Lists of truth values, with an array of optional integers. -/
def listAndOptionals : Problem where
  kinds := [.bool, .list .bool, .list (.maybe .unbounded)]
  arrays := [⟨0, "memory", .bool, .maybe .unbounded, .free none⟩]

/-- The integers inside the optionals are the reason that comes first. -/
theorem chooseLogic_listAndOptionals :
    listOfBools.chooseLogic {} = .ok CatchAllFeature.lists.choice ∧
      CatchAllFeature.integers.rank ≤ CatchAllFeature.lists.rank ∧
      listAndOptionals.chooseLogic {} = .ok CatchAllFeature.integers.choice := by
  have hpart : listOfBools.IsPartOf listAndOptionals := by
    constructor <;> simp [listOfBools, listAndOptionals]
  have hlists : listOfBools.chooseLogic {} = .ok CatchAllFeature.lists.choice := rfl
  have hbest : listAndOptionals.chooseLogic {} = .ok CatchAllFeature.integers.choice := rfl
  rcases (chooseLogic_catchAll rfl hpart).1 .lists hlists with herror | ⟨y, hrank, hy⟩
  · cases hbest.symm.trans herror
  · rw [hbest] at hy
    obtain rfl : CatchAllFeature.integers = y := CatchAllFeature.reason_injective
      (congrArg LogicChoice.reason (Except.ok.inj hy))
    exact ⟨hlists, hrank, hbest⟩

end Problem

end SolverScript
