import Mathlib.Data.List.Induction
import SolverScript.Proofs.Kind.Closure
import SolverScript.Proofs.Script.CatchAll
import SolverScript.Proofs.Script.Reversals

/-!
# What features say about a problem

The features of a problem are collected from the closure of its kinds, its arrays and its
assignments. Here they are read the other way round: which flag is set, what is listed, and in which
order, is said of the problem itself. A kind counts wherever it is a part of a kind that the problem
lists. User sorts and arities come in increasing order, and what is reversed in the order of its
first use.

## Main definitions

* `Problem.Uses` - the kinds that occur in a problem at any depth
* `Features.IsFirstUse` - the place of the first operator that reverses something
* `Features.IsExactFor` - features that say of a problem what is true of it

## Main results

* `Features.pairwise_isFirstUse_reversalsOf` - what is reversed is listed in the order of first use
* `Problem.isExactFor_features` - the features of a problem are exact
-/

namespace SolverScript

/-! ### The order of first use -/

namespace Features

/-- Whether the first operator that reverses something stands at a place. -/
def IsFirstUse (operators : List Operator) (what : Reversible) (i : Nat) : Prop :=
  IsLeast {j | operators[j]? = some (.reverse what)} i

theorem IsFirstUse.lt_length {operators : List Operator} {what : Reversible} {i : Nat}
    (h : IsFirstUse operators what i) : i < operators.length :=
  (List.getElem?_eq_some_iff.mp h.1).1

/-- More operators behind do not matter for a first use. -/
theorem IsFirstUse.append {operators : List Operator} {what : Reversible} {i : Nat}
    (h : IsFirstUse operators what i) (more : List Operator) :
    IsFirstUse (operators ++ more) what i := by
  have hi := h.lt_length
  obtain ⟨huse, hfirst⟩ := h
  refine ⟨?_, fun j hj => ?_⟩
  · show (operators ++ more)[i]? = some (.reverse what)
    rwa [List.getElem?_append_left hi]
  · rcases lt_or_ge j operators.length with hlt | hge
    · refine hfirst (show operators[j]? = some (.reverse what) from ?_)
      rwa [← List.getElem?_append_left hlt]
    · exact hi.le.trans hge

/-- What no operator reverses is first used by the one that is added. -/
theorem isFirstUse_concat {operators : List Operator} {what : Reversible}
    (h : Operator.reverse what ∉ operators) :
    IsFirstUse (operators ++ [Operator.reverse what]) what operators.length := by
  refine ⟨List.getElem?_concat_length, fun j hj => ?_⟩
  by_contra hlt
  have huse : operators[j]? = some (.reverse what) := by
    rw [← List.getElem?_append_left (not_le.mp hlt)]
    exact hj
  exact h (List.mem_of_getElem? huse)

theorem reversalsOf_concat_of_reversal? {operators : List Operator} {op : Operator}
    {what : Reversible} (h : reversal? op = some what) :
    reversalsOf (operators ++ [op]) = appendNew (reversalsOf operators) what := by
  simp [reversalsOf, h]

theorem reversalsOf_concat_of_none {operators : List Operator} {op : Operator}
    (h : reversal? op = none) : reversalsOf (operators ++ [op]) = reversalsOf operators := by
  simp [reversalsOf, h]

theorem eq_reverse_of_reversal? {op : Operator} {what : Reversible}
    (h : reversal? op = some what) : op = Operator.reverse what := by
  cases op <;> cases h
  rfl

/-- What some operators reverse has a first use. -/
theorem exists_isFirstUse {operators : List Operator} {what : Reversible}
    (h : what ∈ reversalsOf operators) : ∃ i, IsFirstUse operators what i := by
  classical
  obtain ⟨j, hj, huse⟩ := List.getElem_of_mem (mem_reversalsOf_iff.mp h)
  have hexists : ∃ j, operators[j]? = some (Operator.reverse what) :=
    ⟨j, List.getElem?_eq_some_iff.mpr ⟨hj, huse⟩⟩
  exact ⟨Nat.find hexists, Nat.find_spec hexists, fun _ => Nat.find_min' hexists⟩

/-- What some operators reverse is listed in the order of first use: an operator that reverses
something new stands behind all first uses before it. -/
theorem pairwise_isFirstUse_reversalsOf (operators : List Operator) :
    (reversalsOf operators).Pairwise fun what other =>
      ∃ i j, i < j ∧ IsFirstUse operators what i ∧ IsFirstUse operators other j := by
  induction operators using List.reverseRecOn with
  | nil => exact List.Pairwise.nil
  | append_singleton operators op ih =>
    have hbefore : (reversalsOf operators).Pairwise fun what other =>
        ∃ i j, i < j ∧ IsFirstUse (operators ++ [op]) what i ∧
          IsFirstUse (operators ++ [op]) other j :=
      ih.imp fun ⟨i, j, hlt, hwhat, hother⟩ => ⟨i, j, hlt, hwhat.append _, hother.append _⟩
    cases hop : reversal? op with
    | none => rwa [reversalsOf_concat_of_none hop]
    | some what =>
      obtain rfl := eq_reverse_of_reversal? hop
      rw [reversalsOf_concat_of_reversal? hop]
      by_cases hwhat : what ∈ reversalsOf operators
      · rwa [appendNew_of_mem hwhat]
      · rw [appendNew_of_not_mem hwhat]
        refine List.pairwise_append.mpr ⟨hbefore, List.pairwise_singleton _ _, ?_⟩
        intro earlier hearlier other hother
        obtain rfl := List.mem_singleton.mp hother
        obtain ⟨i, hi⟩ := exists_isFirstUse hearlier
        exact ⟨i, operators.length, hi.lt_length, hi.append _,
          isFirstUse_concat (mt mem_reversalsOf_iff.mpr hwhat)⟩

end Features

/-! ### Operators, and kinds at any depth -/

namespace Problem

/-- The operators of a problem, in the order of its assignments. -/
def operators (p : Problem) : List Operator := p.assignments.map fun a => a.operation.operator

/-- Whether a kind is a part of a kind that the problem lists. -/
def Uses (p : Problem) (m : Kind) : Prop := ∃ k ∈ p.kinds, k.HasPart m

theorem mem_closure_kinds_iff {p : Problem} {m : Kind} :
    m ∈ (KindSet.closure p.kinds).toList ↔ p.Uses m :=
  KindSet.mem_closure_iff_exists_hasPart

/-- A test succeeds on some member of the closure just if the problem uses a kind that passes it. -/
theorem any_closure_kinds_iff {p : Problem} {test : Kind → Bool} :
    (KindSet.closure p.kinds).toList.any test = true ↔ ∃ m, p.Uses m ∧ test m := by
  simp only [List.any_eq_true, mem_closure_kinds_iff]

end Problem

namespace Features

/-- Whether features say of a problem what is true of it. -/
structure IsExactFor (f : Features) (p : Problem) : Prop where
  integers : f.integers ↔ p.Uses .unbounded
  reals : f.reals ↔ p.Uses .real
  floats : f.floats ↔ p.Uses .float ∨ p.Uses .double ∨ ∃ format, p.Uses (.floating format)
  strings : f.strings ↔ p.Uses .string
  chars : f.chars ↔ p.Uses .char
  rationals : f.rationals ↔ p.Uses .rational
  rounding : f.rounding ↔ ∃ s, p.Uses (.userSort s) ∧ s.name = "RoundingMode"
  bitVectors : f.bitVectors ↔ ∃ signed width, p.Uses (.bounded signed width)
  lists : f.lists ↔ ∃ k, p.Uses (.list k)
  sets : f.sets ↔ ∃ k, p.Uses (.set k)
  tuples : f.tuples ↔ ∃ ks, p.Uses (.tuple ks)
  optionals : f.optionals ↔ ∃ k, p.Uses (.maybe k)
  sums : f.sums ↔ ∃ l r, p.Uses (.either l r)
  flattening : f.flattening ↔ (∃ k, p.Uses (.list k)) ∨ (∃ k, p.Uses (.set k)) ∨
    (∃ ks, p.Uses (.tuple ks)) ∨ (∃ k, p.Uses (.maybe k)) ∨ ∃ l r, p.Uses (.either l r)
  tupleArities_increasing : f.tupleArities.Pairwise (· < ·)
  mem_tupleArities (n : Nat) : n ∈ f.tupleArities ↔ ∃ ks, p.Uses (.tuple ks) ∧ ks.length = n
  userSorts_increasing : f.userSorts.Pairwise fun s t => s.cmp t = .lt
  mem_userSorts (s : UserSort) : s ∈ f.userSorts ↔ p.Uses (.userSort s)
  trueUserSorts : f.trueUserSorts =
    (f.userSorts.filter fun s => decide (s.name ≠ "RoundingMode")).map UserSort.name
  nonBitVectorArrays : f.nonBitVectorArrays ↔ ∃ a ∈ p.arrays,
    (¬∃ signed width, a.domain = .bounded signed width) ∨
      ¬∃ signed width, a.range = .bounded signed width
  arrayInitializers : f.arrayInitializers ↔ ∃ a ∈ p.arrays, ∃ n, a.context = .free (some n)
  overflows : f.overflows ↔ ∃ a ∈ p.assignments, ∃ check, a.operation.operator = .overflow check
  regExps : f.regExps ↔ ∃ a ∈ p.assignments,
    (∃ positive l r, a.operation.operator = .regExpEqual positive l r) ∨
      ∃ language, a.operation.operator = .stringIn language
  reversals_nodup : (f.reversals.map Reversible.kind).Nodup
  mem_reversals (what : Reversible) : what ∈ f.reversals ↔ p.Reverses what
  reversals_inOrder : f.reversals.Pairwise fun what other =>
    ∃ i j, i < j ∧ IsFirstUse p.operators what i ∧ IsFirstUse p.operators other j

end Features

namespace Problem

variable {p : Problem}

theorem hasKind_iff {test : Kind → Bool} : p.HasKind test ↔ ∃ m, p.Uses m ∧ test m := by
  rw [HasKind, ← any_closure_iff, any_closure_kinds_iff]

/-- A test for a single kind. -/
theorem any_closure_kinds_iff_uses {test : Kind → Bool} {k : Kind}
    (h : ∀ m, test m = true ↔ m = k) :
    (KindSet.closure p.kinds).toList.any test = true ↔ p.Uses k := by
  simp only [any_closure_kinds_iff, h, exists_eq_right]

/-- A test for the kinds of one shape. -/
theorem any_closure_kinds_iff_exists_uses {β : Type} {test : Kind → Bool} (shape : β → Kind)
    (h : ∀ m, test m = true ↔ ∃ b, m = shape b) :
    (KindSet.closure p.kinds).toList.any test = true ↔ ∃ b, p.Uses (shape b) := by
  simp only [any_closure_kinds_iff, h]
  constructor
  · rintro ⟨m, hm, b, rfl⟩
    exact ⟨b, hm⟩
  · rintro ⟨b, hb⟩
    exact ⟨_, hb, b, rfl⟩

theorem features_floats_iff_uses : p.features.floats = true ↔
    p.Uses .float ∨ p.Uses .double ∨ ∃ format, p.Uses (.floating format) := by
  rw [features_floats_iff, hasKind_iff]
  constructor
  · rintro ⟨m, hm, htest⟩
    cases m with
    | float => exact .inl hm
    | double => exact .inr (.inl hm)
    | floating format => exact .inr (.inr ⟨format, hm⟩)
    | _ => cases htest
  · rintro (h | h | ⟨format, h⟩) <;> exact ⟨_, h, rfl⟩

theorem features_rounding_iff_uses : p.features.rounding = true ↔
    ∃ s, p.Uses (.userSort s) ∧ s.name = "RoundingMode" := by
  rw [features_rounding_iff, hasKind_iff]
  constructor
  · rintro ⟨m, hm, htest⟩
    cases m with
    | userSort s => exact ⟨s, hm, beq_iff_eq.mp htest⟩
    | _ => cases htest
  · rintro ⟨s, hs, hname⟩
    exact ⟨_, hs, beq_iff_eq.mpr hname⟩

theorem features_tuples_iff_uses : p.features.tuples = true ↔ ∃ ks, p.Uses (.tuple ks) := by
  rw [CatchAllFeature.tuples_iff, hasKind_iff]
  constructor
  · rintro ⟨m, hm, htest⟩
    cases m with
    | tuple ks => exact ⟨ks, hm⟩
    | _ => cases htest
  · rintro ⟨ks, hks⟩
    exact ⟨_, hks, rfl⟩

/-- What is below a kind that a problem uses is used as well, so that a search below it finds no
more than a test of the kinds themselves. -/
theorem features_flattening_iff_uses : p.features.flattening = true ↔
    (∃ k, p.Uses (.list k)) ∨ (∃ k, p.Uses (.set k)) ∨ (∃ ks, p.Uses (.tuple ks)) ∨
      (∃ k, p.Uses (.maybe k)) ∨ ∃ l r, p.Uses (.either l r) := by
  have hbelow : p.features.flattening = true ↔ ∃ m, p.Uses m ∧ m.isComposite = true := by
    refine any_closure_kinds_iff.trans ⟨?_, ?_⟩
    · rintro ⟨m, ⟨k, hk, hkm⟩, htest⟩
      obtain ⟨part, hpart, hcomposite⟩ := Kind.occurs_iff_exists_part.mp htest
      exact ⟨part, ⟨k, hk, hkm.trans hpart⟩, hcomposite⟩
    · rintro ⟨m, hm, hcomposite⟩
      exact ⟨m, hm, Kind.occurs_iff_exists_part.mpr ⟨m, m.hasPart_self, hcomposite⟩⟩
  rw [hbelow]
  constructor
  · rintro ⟨m, hm, hcomposite⟩
    cases m with
    | list k => exact .inl ⟨k, hm⟩
    | set k => exact .inr (.inl ⟨k, hm⟩)
    | tuple ks => exact .inr (.inr (.inl ⟨ks, hm⟩))
    | maybe k => exact .inr (.inr (.inr (.inl ⟨k, hm⟩)))
    | either l r => exact .inr (.inr (.inr (.inr ⟨l, r, hm⟩)))
    | _ => cases hcomposite
  · rintro (⟨k, h⟩ | ⟨k, h⟩ | ⟨ks, h⟩ | ⟨k, h⟩ | ⟨l, r, h⟩) <;> exact ⟨_, h, rfl⟩

theorem mem_features_tupleArities_iff {n : Nat} :
    n ∈ p.features.tupleArities ↔ ∃ ks, p.Uses (.tuple ks) ∧ ks.length = n := by
  have harities : p.features.tupleArities =
      ((KindSet.closure p.kinds).toList.filterMap Kind.arity?).foldr Features.placeNumber [] := rfl
  rw [harities, Features.mem_foldr_placeNumber_iff, List.mem_filterMap]
  simp only [mem_closure_kinds_iff]
  constructor
  · rintro ⟨m, hm, harity⟩
    cases m with
    | tuple ks => exact ⟨ks, hm, Option.some.inj harity⟩
    | _ => cases harity
  · rintro ⟨ks, hks, rfl⟩
    exact ⟨_, hks, rfl⟩

theorem mem_features_userSorts_iff {s : UserSort} :
    s ∈ p.features.userSorts ↔ p.Uses (.userSort s) := by
  have hsorts : p.features.userSorts = (KindSet.closure p.kinds).toList.filterMap Kind.userSort? :=
    rfl
  rw [hsorts, List.mem_filterMap]
  simp only [mem_closure_kinds_iff]
  constructor
  · rintro ⟨m, hm, hsort⟩
    cases m with
    | userSort t => exact Option.some.inj hsort ▸ hm
    | _ => cases hsort
  · exact fun hs => ⟨_, hs, rfl⟩

/-- User sorts are compared like the kinds that they are. -/
theorem increasing_features_userSorts :
    p.features.userSorts.Pairwise fun s t => s.cmp t = .lt := by
  refine (KindSet.increasing_ofList (p.kinds.flatMap Kind.subkinds)).filterMap _ ?_
  intro k m hkm s hs t ht
  cases k <;> cases hs
  cases m <;> cases ht
  exact hkm

/-- The features that are detected are those of the problem. -/
theorem isExactFor_features (p : Problem) : p.features.IsExactFor p where
  integers := any_closure_kinds_iff_uses fun m => by cases m <;> simp [Kind.isUnbounded]
  reals := any_closure_kinds_iff_uses fun m => by cases m <;> simp [Kind.isReal]
  floats := features_floats_iff_uses
  strings := any_closure_kinds_iff_uses fun m => by cases m <;> simp [Kind.isString]
  chars := any_closure_kinds_iff_uses fun m => by cases m <;> simp [Kind.isChar]
  rationals := any_closure_kinds_iff_uses fun m => by cases m <;> simp [Kind.isRational]
  rounding := features_rounding_iff_uses
  bitVectors :=
    (any_closure_kinds_iff_exists_uses (fun b : Bool × Width => .bounded b.1 b.2)
      fun m => by cases m <;> simp [Kind.isBounded]).trans Prod.exists
  lists := any_closure_kinds_iff_exists_uses .list fun m => by cases m <;> simp [Kind.isList]
  sets := any_closure_kinds_iff_exists_uses .set fun m => by cases m <;> simp [Kind.isSet]
  tuples := features_tuples_iff_uses
  optionals := any_closure_kinds_iff_exists_uses .maybe fun m => by cases m <;> simp [Kind.isMaybe]
  sums :=
    (any_closure_kinds_iff_exists_uses (fun b : Kind × Kind => .either b.1 b.2)
      fun m => by cases m <;> simp [Kind.isEither]).trans Prod.exists
  flattening := features_flattening_iff_uses
  tupleArities_increasing := Features.increasing_foldr_placeNumber _
  mem_tupleArities _ := mem_features_tupleArities_iff
  userSorts_increasing := increasing_features_userSorts
  mem_userSorts _ := mem_features_userSorts_iff
  trueUserSorts := by
    have hname (s : UserSort) : (!s.isRoundingMode) = decide (s.name ≠ "RoundingMode") := by
      rw [UserSort.isRoundingMode, decide_not, beq_eq_decide]
    simp only [Features.trueUserSorts, hname]
  nonBitVectorArrays := by
    have hbounded (k : Kind) :
        (!k.isBounded) = true ↔ ¬∃ signed width, k = .bounded signed width := by
      cases k <;> simp [Kind.isBounded]
    refine List.any_eq_true.trans (exists_congr fun a => and_congr_right fun _ => ?_)
    rw [Bool.or_eq_true, hbounded, hbounded]
  arrayInitializers := by
    refine List.any_eq_true.trans (exists_congr fun a => and_congr_right fun _ => ?_)
    cases a.context <;> simp [Features.isInitialized, Option.isSome_iff_exists]
  overflows := by
    simp only [features, Features.detect, List.any_map, List.any_eq_true]
    refine exists_congr fun a => and_congr_right fun _ => ?_
    cases h : a.operation.operator <;> simp [Features.checksOverflow, h]
  regExps := by
    simp only [features, Features.detect, List.any_map, List.any_eq_true]
    refine exists_congr fun a => and_congr_right fun _ => ?_
    cases h : a.operation.operator <;> simp [Features.usesRegExp, h]
  reversals_nodup := (Features.nodup_reversalsOf _).map Reversible.kind_injective
  mem_reversals _ := Features.mem_reversalsOf_iff.trans List.mem_map
  reversals_inOrder := Features.pairwise_isFirstUse_reversalsOf _

end Problem

end SolverScript
