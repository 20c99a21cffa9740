import Mathlib.Data.List.Nodup
import SolverScript.Proofs.Kind.Set
import SolverScript.Proofs.Script.Vocabulary

/-!
# Declared sorts

Kinds need declarations of user sorts, of tuples of each arity, of sums, optionals and rationals.
What is declared depends on the heads of the kinds in the closure only: all optionals, say, share
one data type. The declarations of a closure list each head once.

## Main definitions

* `DeclaredSort` - a sort that has to be declared, with the names that its declaration introduces
* `Kind.declaredSort?` - the declared sort at the head of a kind
* `Command.typeNames` - the sorts that a command declares, and the functions that come with them

## Main results

* `Features.typeNames_sections` - the sections of sorts introduce the names of the declared sorts
* `Features.mem_declaredSorts_iff`, `Features.nodup_declaredSorts` - each head is declared once
-/

namespace SolverScript

/-- A sort that kinds need a declaration of. -/
inductive DeclaredSort where
  | user (sort : UserSort)
  | tuple (arity : Nat)
  | sum
  | optional
  | rational
  deriving DecidableEq

namespace DeclaredSort

/-- The name of a declared sort. -/
def name : DeclaredSort → String
  | user sort => sort.name
  | tuple arity => "SBVTuple" ++ Nat.repr arity
  | sum => "SBVEither"
  | optional => "SBVMaybe"
  | rational => "SBVRational"

/-- The functions that are defined with a sort: the positions of constructors, and the arithmetic of
rationals. -/
def helpers : DeclaredSort → List String
  | user sort => if sort.isEnumerated then [Datatype.indexName sort.name] else []
  | rational => RationalFunction.all.map RationalFunction.symbol
  | _ => []

/-- The names that the declaration of a sort introduces. -/
def names (s : DeclaredSort) : List Name := .sort s.name :: s.helpers.map .function

/-- Functions come with rationals and with user sorts only. -/
theorem helper_cases {s : DeclaredSort} {f : String} (h : f ∈ s.helpers) :
    (s = rational ∧ f ∈ RationalFunction.all.map RationalFunction.symbol) ∨
      ∃ sort, s = user sort ∧ f = Datatype.indexName sort.name := by
  cases s with
  | user sort =>
    rw [helpers] at h
    split at h
    · exact .inr ⟨sort, rfl, List.mem_singleton.mp h⟩
    · cases h
  | rational => exact .inl ⟨rfl, h⟩
  | _ => cases h

theorem nodup_names (s : DeclaredSort) : s.names.Nodup := by
  have hhelpers : s.helpers.Nodup := by
    cases s with
    | user sort =>
      rw [helpers]
      split
      · exact List.nodup_singleton _
      · exact List.nodup_nil
    | rational => exact List.Nodup.map RationalFunction.symbol_injective (by decide)
    | _ => exact List.nodup_nil
  exact List.nodup_cons.mpr ⟨by simp, hhelpers.map fun _ _ h => Name.function.inj h⟩

/-- Apart from user sorts, different sorts have different names. -/
theorem eq_of_name {a b : DeclaredSort} (ha : ∀ sort, a ≠ user sort) (hb : ∀ sort, b ≠ user sort)
    (h : a.name = b.name) : a = b := by
  -- The letter after the common prefix tells tuples from the others, which are few.
  have hfourth : a.name.toList[3]? = b.name.toList[3]? := by rw [h]
  have htuple : ∀ n, (tuple n).name.toList[3]? = some 'T' := fun n => by simp [name]
  cases a with
  | user sort => exact absurd rfl (ha sort)
  | tuple n =>
    rw [htuple] at hfourth
    cases b with
    | user sort => exact absurd rfl (hb sort)
    | tuple m => exact congrArg tuple (Numeral.repr_injective ((String.append_right_inj _).mp h))
    | _ => exact absurd hfourth (by decide)
  | _ =>
    cases b with
    | user sort => exact absurd rfl (hb sort)
    | tuple m =>
      rw [htuple] at hfourth
      exact absurd hfourth (by decide)
    | _ => first | rfl | exact absurd h (by decide)

end DeclaredSort

/-- The declared sort at the head of a kind. The rounding modes are built in. -/
def Kind.declaredSort? : Kind → Option DeclaredSort
  | userSort sort => if sort.isRoundingMode then none else some (.user sort)
  | tuple components => some (.tuple components.length)
  | either .. => some .sum
  | maybe _ => some .optional
  | rational => some .rational
  | _ => none

/-- The declared sort of a kind is found by the same tests as the features. -/
theorem Kind.declaredSort?_eq_some_iff {k : Kind} {s : DeclaredSort} : k.declaredSort? = some s ↔
    (∃ u, k.userSort? = some u ∧ u.isRoundingMode = false ∧ s = .user u) ∨
      (∃ n, k.arity? = some n ∧ s = .tuple n) ∨ (s = .sum ∧ k.isEither) ∨
      (s = .optional ∧ k.isMaybe) ∨ (s = .rational ∧ k.isRational) := by
  rw [eq_comm]
  cases k <;> simp [declaredSort?, userSort?, arity?, isEither, isMaybe, isRational, eq_comm (a := s)]

/-- The sorts that a command declares, and the functions that come with them. -/
def Command.typeNames : Command → List Name
  | declareSort name | declareEnumeration name _ => [.sort name]
  | defineConstructorIndex name _ => [.function (Datatype.indexName name)]
  | declareTuple arity => (DeclaredSort.tuple arity).names
  | declareSum => DeclaredSort.sum.names
  | declareOptional => DeclaredSort.optional.names
  | declareRationals => DeclaredSort.rational.names
  | _ => []

/-- The sorts that a script declares, and the functions that come with them. -/
def Script.typeNames (commands : List Command) : List Name := commands.flatMap Command.typeNames

namespace Script

theorem typeNames_append (cs ds : List Command) :
    typeNames (cs ++ ds) = typeNames cs ++ typeNames ds :=
  List.flatMap_append

theorem typeNames_note (text : String) (cs : List Command) :
    typeNames (.note text :: cs) = typeNames cs := rfl

theorem typeNames_eq_nil {cs : List Command} (h : ∀ c ∈ cs, c.typeNames = []) :
    typeNames cs = [] :=
  List.flatMap_eq_nil_iff.mpr h

end Script

namespace Features

/-- The sorts that some features need declarations of, in the order of their declarations. -/
def declaredSorts (f : Features) : List DeclaredSort :=
  (f.userSorts.filter fun s => !s.isRoundingMode).map .user ++ f.tupleArities.map .tuple ++
    (if f.sums then [.sum] else []) ++ (if f.optionals then [.optional] else []) ++
    (if f.rationals then [.rational] else [])

/-! ### What the sections of sorts introduce -/

theorem typeNames_sortCommands (f : Features) : Script.typeNames f.sortCommands =
    ((f.userSorts.filter fun s => !s.isRoundingMode).map DeclaredSort.user).flatMap
      DeclaredSort.names := by
  have huserSort : ∀ s : UserSort, Script.typeNames (Declaration.userSort s) =
      if s.isRoundingMode then [] else (DeclaredSort.user s).names := by
    rintro ⟨name, constructors⟩
    unfold Declaration.userSort
    split
    · rfl
    · cases constructors <;> rfl
  rw [sortCommands, Script.typeNames, List.flatMap_assoc]
  induction f.userSorts with
  | nil => rfl
  | cons s sorts ih =>
    rw [List.flatMap_cons, ih, ← Script.typeNames, huserSort, List.filter_cons]
    cases s.isRoundingMode <;> rfl

theorem typeNames_tupleCommands {f : Features} {cs : List Command}
    (h : f.tupleCommands = .ok cs) :
    Script.typeNames cs = (f.tupleArities.map DeclaredSort.tuple).flatMap DeclaredSort.names := by
  unfold tupleCommands at h
  generalize f.tupleArities = arities at h
  rw [mapM_eq_ok_iff] at h
  induction h with
  | nil => rfl
  | cons harity _ ih =>
    unfold Declaration.tuple at harity
    split at harity <;> cases harity
    rw [Script.typeNames, List.flatMap_cons, ← Script.typeNames, ih, List.map_cons,
      List.flatMap_cons]
    rfl

theorem typeNames_datatypeCommands (f : Features) : Script.typeNames f.datatypeCommands =
    ((if f.sums then [DeclaredSort.sum] else []) ++
      (if f.optionals then [DeclaredSort.optional] else []) ++
      (if f.rationals then [DeclaredSort.rational] else [])).flatMap DeclaredSort.names := by
  unfold datatypeCommands
  cases f.sums <;> cases f.optionals <;> cases f.rationals <;> rfl

/-- The three sections of sorts introduce the names of the declared sorts, in order. -/
theorem typeNames_sections {f : Features} {tuples : List Command}
    (h : f.tupleCommands = .ok tuples) :
    Script.typeNames f.sortCommands ++ Script.typeNames tuples ++
      Script.typeNames f.datatypeCommands = f.declaredSorts.flatMap DeclaredSort.names := by
  rw [typeNames_sortCommands, typeNames_tupleCommands h, typeNames_datatypeCommands,
    ← List.flatMap_append, ← List.flatMap_append, declaredSorts]
  simp only [List.append_assoc]

/-! ### Each head once -/

theorem mem_placeNumber_iff {n m : Nat} {numbers : List Nat} :
    m ∈ placeNumber n numbers ↔ m = n ∨ m ∈ numbers := by
  induction numbers with
  | nil => simp [placeNumber]
  | cons first rest ih =>
    rw [placeNumber]
    split
    · exact List.mem_cons
    · split
      · next hsame =>
        rw [hsame]
        simp
      · rw [List.mem_cons, ih, List.mem_cons, or_left_comm]

/-- Placing a number keeps a list increasing. -/
theorem increasing_placeNumber {n : Nat} {numbers : List Nat}
    (h : numbers.Pairwise (· < ·)) : (placeNumber n numbers).Pairwise (· < ·) := by
  induction numbers with
  | nil => exact List.pairwise_singleton _ _
  | cons first rest ih =>
    obtain ⟨hfirst, hrest⟩ := List.pairwise_cons.mp h
    rw [placeNumber]
    split
    · next hlt =>
      exact List.pairwise_cons.mpr
        ⟨List.forall_mem_cons.mpr ⟨hlt, fun m hm => hlt.trans (hfirst m hm)⟩, h⟩
    · split
      · exact h
      · refine List.pairwise_cons.mpr ⟨fun m hm => ?_, ih hrest⟩
        rcases mem_placeNumber_iff.mp hm with rfl | hm
        · omega
        · exact hfirst m hm

theorem mem_foldr_placeNumber_iff {m : Nat} {numbers : List Nat} :
    m ∈ numbers.foldr placeNumber [] ↔ m ∈ numbers := by
  induction numbers with
  | nil => rfl
  | cons n numbers ih => rw [List.foldr_cons, mem_placeNumber_iff, ih, List.mem_cons]

theorem increasing_foldr_placeNumber (numbers : List Nat) :
    (numbers.foldr placeNumber []).Pairwise (· < ·) := by
  induction numbers with
  | nil => exact List.Pairwise.nil
  | cons n numbers ih => exact increasing_placeNumber ih

variable {kinds : KindSet}

/-- What some kinds need declarations of is what their heads are. -/
theorem mem_declaredSorts_iff {s : DeclaredSort} :
    s ∈ (ofKinds kinds).declaredSorts ↔ ∃ k ∈ kinds.toList, k.declaredSort? = some s := by
  have hany : ∀ (test : Kind → Bool) (t : DeclaredSort),
      (s ∈ if kinds.toList.any test then [t] else []) ↔ ∃ k ∈ kinds.toList, s = t ∧ test k := by
    intro test t
    have hexists : kinds.toList.any test = true ↔ ∃ k ∈ kinds.toList, test k := List.any_eq_true
    split <;> simp_all [and_left_comm]
  -- One equivalence for each of the five lists that are put together.
  have huser : s ∈ ((ofKinds kinds).userSorts.filter fun u => !u.isRoundingMode).map .user ↔
      ∃ k ∈ kinds.toList, ∃ u, k.userSort? = some u ∧ u.isRoundingMode = false ∧ s = .user u := by
    simp only [ofKinds, List.mem_map, List.mem_filter, List.mem_filterMap, Bool.not_eq_true']
    constructor
    · rintro ⟨u, ⟨⟨k, hk, hku⟩, hbuiltin⟩, rfl⟩
      exact ⟨k, hk, u, hku, hbuiltin, rfl⟩
    · rintro ⟨k, hk, u, hku, hbuiltin, rfl⟩
      exact ⟨u, ⟨⟨k, hk, hku⟩, hbuiltin⟩, rfl⟩
  have htuple : s ∈ (ofKinds kinds).tupleArities.map .tuple ↔
      ∃ k ∈ kinds.toList, ∃ n, k.arity? = some n ∧ s = .tuple n := by
    simp only [ofKinds, List.mem_map, mem_foldr_placeNumber_iff, List.mem_filterMap]
    constructor
    · rintro ⟨n, ⟨k, hk, hkn⟩, rfl⟩
      exact ⟨k, hk, n, hkn, rfl⟩
    · rintro ⟨k, hk, n, hkn, rfl⟩
      exact ⟨n, ⟨k, hk, hkn⟩, rfl⟩
  have hsum : s ∈ (if (ofKinds kinds).sums then [.sum] else []) ↔ _ := hany Kind.isEither .sum
  have hoptional : s ∈ (if (ofKinds kinds).optionals then [.optional] else []) ↔ _ :=
    hany Kind.isMaybe .optional
  have hrational : s ∈ (if (ofKinds kinds).rationals then [.rational] else []) ↔ _ :=
    hany Kind.isRational .rational
  rw [declaredSorts, List.mem_append, List.mem_append, List.mem_append, List.mem_append, huser,
    htuple, hsum, hoptional, hrational]
  simp only [Kind.declaredSort?_eq_some_iff, and_or_left, exists_or, or_assoc]

/-- The declared sorts of a set of kinds are listed once. -/
theorem nodup_declaredSorts (h : kinds.toList.Nodup) : (ofKinds kinds).declaredSorts.Nodup := by
  have husers : ((ofKinds kinds).userSorts.filter fun u => !u.isRoundingMode).Nodup := by
    refine List.Pairwise.filter _ (List.Pairwise.filterMap _ (fun k l hne u hu v hv huv => ?_) h)
    cases k <;> cases hu
    cases l <;> cases hv
    exact hne (congrArg Kind.userSort huv)
  have harities : (ofKinds kinds).tupleArities.Nodup :=
    (increasing_foldr_placeNumber _).imp fun hlt => hlt.ne
  have husers := husers.map (f := DeclaredSort.user) fun a b hab => DeclaredSort.user.inj hab
  have harities := harities.map (f := DeclaredSort.tuple) fun a b hab => DeclaredSort.tuple.inj hab
  have hoptional : ∀ (b : Bool) (t : DeclaredSort), (if b then [t] else []).Nodup := by
    intro b t
    cases b <;> simp
  unfold declaredSorts
  refine ((((husers.append harities ?_).append (hoptional _ _) ?_).append (hoptional _ _) ?_).append
    (hoptional _ _) ?_)
  all_goals
    rw [List.disjoint_left]
    grind

end Features

end SolverScript
