import SolverScript.Proofs.Semantics.Occurrence
import SolverScript.Proofs.Semantics.Vocabulary

/-!
# What terms are made of

A term is put together from names and from tests for constructors. Two questions are asked about
the terms of a script: which names are written in them, and which nodes and tests occur in them.
Both have the same answer for a term that is put together from others, so that both are settled at
once, for terms whose names satisfy one condition and whose tests satisfy another one.

## Main definitions

* `Term.MadeOf` - terms whose names and tests satisfy conditions
* `Occurrences.names` - the names that restrict the nodes only

## Main results

* `Term.over_iff_madeOf` - names alone
* `Term.within_iff_madeOf` - nodes and tests alone
-/

namespace SolverScript

/-- Whether all names in a term satisfy one condition and all tests in it satisfy another one. -/
def Term.MadeOf (V : Name → Prop) (T : String → Option (List SortExpr × SortExpr) → Prop)
    (t : Term) : Prop :=
  t.Over V ∧ t.Within (.ofTesters T)

variable {V : Name → Prop} {T : String → Option (List SortExpr × SortExpr) → Prop}

/-! ### Terms made from others -/

namespace Term

section

attribute [local simp] MadeOf

@[simp] theorem madeOf_symbol {text : String} :
    (symbol text).MadeOf V T ↔ V (.function text) := by
  simp

@[simp] theorem madeOf_node {id : Int} : (node id).MadeOf V T ↔ V (.node id) := by
  simp

@[simp] theorem madeOf_numeral (value : Int) : (numeral value).MadeOf V T := by
  simp

@[simp] theorem madeOf_decimal (value : Nat) : (decimal value).MadeOf V T := by
  simp

@[simp] theorem madeOf_binary (bits value : Nat) : (binary bits value).MadeOf V T := by
  simp

@[simp] theorem madeOf_hexadecimal (digits value : Nat) :
    (hexadecimal digits value).MadeOf V T := by
  simp

@[simp] theorem madeOf_quoted (characters : List Char) : (quoted characters).MadeOf V T := by
  simp

@[simp] theorem madeOf_indexed {name : String} {indices : List Int} :
    (indexed name indices).MadeOf V T ↔ V (.function name) := by
  simp

@[simp] theorem madeOf_ascribed {name : String} {sort : SortExpr} :
    (ascribed name sort).MadeOf V T ↔ V (.function name) ∧ sort.Over V := by
  simp

@[simp] theorem madeOf_tester {constructor : String}
    {signature : Option (List SortExpr × SortExpr)} :
    (tester constructor signature).MadeOf V T ↔
      (tester constructor signature).Over V ∧ T constructor signature :=
  .rfl

@[simp] theorem madeOf_app {function : Term} {operands : List Term} :
    (app function operands).MadeOf V T ↔
      function.MadeOf V T ∧ ∀ t ∈ operands, t.MadeOf V T := by
  simp [forall_and, and_and_and_comm]

@[simp] theorem madeOf_bind {bound : List String} {values : List Term} {body : Term} :
    (bind bound values body).MadeOf V T ↔
      (∀ name ∈ bound, V (.function name)) ∧ (∀ t ∈ values, t.MadeOf V T) ∧ body.MadeOf V T := by
  simp only [MadeOf, over_bind, Within, allWithin_iff, forall_and]
  grind

@[simp] theorem madeOf_forAll {binders : List (String × SortExpr)} {body : Term} :
    (forAll binders body).MadeOf V T ↔
      (∀ b ∈ binders, V (.function b.1) ∧ b.2.Over V) ∧ body.MadeOf V T := by
  simp [and_assoc]

@[simp] theorem madeOf_attributed {body : Term} {attributes : List (String × String)} :
    (attributed body attributes).MadeOf V T ↔
      body.MadeOf V T ∧ ∀ a ∈ attributes, V (.keyword a.1) := by
  simp [and_right_comm]

@[simp] theorem madeOf_adjacent {ts : List Term} :
    (adjacent ts).MadeOf V T ↔ ∀ t ∈ ts, t.MadeOf V T := by
  simp [forall_and]

end

@[simp] theorem madeOf_applyTo {function : Term} {ts : List Term} :
    (applyTo function ts).MadeOf V T ↔ function.MadeOf V T ∧ ∀ t ∈ ts, t.MadeOf V T := by
  cases ts <;> simp [applyTo]

@[simp] theorem madeOf_apply {name : String} {ts : List Term} :
    (apply name ts).MadeOf V T ↔ V (.function name) ∧ ∀ t ∈ ts, t.MadeOf V T := by
  simp [apply]

@[simp] theorem madeOf_sideBySide {ts : List Term} :
    (sideBySide ts).MadeOf V T ↔ ∀ t ∈ ts, t.MadeOf V T := by
  unfold sideBySide
  split <;> simp

end Term

namespace Vocabulary

variable (hV : Vocabulary V)

include hV

@[simp] theorem madeOf_ofBool (b : Bool) : (Term.ofBool b).MadeOf V T :=
  ⟨hV.over_ofBool b, by simp⟩

theorem madeOf_negation {t : Term} (ht : t.MadeOf V T) : (Term.negation t).MadeOf V T :=
  ⟨hV.over_negation ht.1, Term.within_negation.mpr ht.2⟩

theorem madeOf_int (value : Int) : (Term.int value).MadeOf V T :=
  ⟨hV.over_int value, by simp⟩

theorem madeOf_fraction (value : Rat) : (Term.fraction value).MadeOf V T :=
  ⟨hV.over_fraction value, by simp⟩

end Vocabulary

/-! ### Names alone -/

namespace Term

mutual

/-- Any test may occur. -/
theorem within_ofTesters_any : ∀ t : Term, t.Within (.ofTesters fun _ _ => True)
  | app function operands => ⟨within_ofTesters_any function, allWithin_ofTesters_any operands⟩
  | bind _ values body => ⟨allWithin_ofTesters_any values, within_ofTesters_any body⟩
  | forAll _ body => within_ofTesters_any body
  | attributed body _ => within_ofTesters_any body
  | adjacent ts => allWithin_ofTesters_any ts
  | symbol _ | node _ | numeral _ | decimal _ | binary .. | hexadecimal .. | quoted _
  | indexed .. | ascribed .. | tester .. => trivial

theorem allWithin_ofTesters_any : ∀ ts : List Term, AllWithin (.ofTesters fun _ _ => True) ts
  | [] => trivial
  | t :: ts => ⟨within_ofTesters_any t, allWithin_ofTesters_any ts⟩

end

/-- If any test may occur, what a term is made of is a matter of its names. -/
theorem over_iff_madeOf {t : Term} : t.Over V ↔ t.MadeOf V fun _ _ => True :=
  (and_iff_left (within_ofTesters_any t)).symm

end Term

/-! ### Nodes and tests alone -/

/-- The names that restrict the nodes only. -/
def Occurrences.names (A : Occurrences) : Name → Prop
  | .node id => A.node id
  | _ => True

variable {A : Occurrences}

theorem Occurrences.vocabulary_names (A : Occurrences) : Vocabulary A.names where
  builtin x hx := by cases hx <;> trivial
  position _ _ := trivial

mutual

theorem SortExpr.over_names : ∀ s : SortExpr, s.Over A.names
  | .named _ => over_named.mpr trivial
  | .indexed _ _ => over_indexed.mpr trivial
  | .applied _ arguments => over_applied.mpr ⟨trivial, forall_mem_over_names arguments⟩

theorem SortExpr.forall_mem_over_names : ∀ ss : List SortExpr, ∀ s ∈ ss, s.Over A.names
  | [] => by simp
  | s :: ss => List.forall_mem_cons.mpr ⟨over_names s, forall_mem_over_names ss⟩

end

theorem Kind.over_names (k : Kind) : k.Over A.names :=
  over_iff.mpr fun _ _ => trivial

namespace Term

mutual

/-- Only what may occurs in a term just if it is made of nodes and tests that may occur. -/
theorem within_iff_madeOf {t : Term} : t.Within A ↔ t.MadeOf A.names A.tester := by
  -- Occurrences leave out bound names, keywords and sorts, all of which their vocabulary admits.
  cases t with
  | app function operands =>
    rw [madeOf_app, ← within_iff_madeOf]
    exact and_congr_right fun _ => allWithin_iff_madeOf
  | bind bound values body =>
    rw [madeOf_bind, ← within_iff_madeOf]
    exact (and_congr_left fun _ => allWithin_iff_madeOf).trans
      (and_iff_right fun _ _ => trivial).symm
  | forAll binders body =>
    rw [madeOf_forAll, ← within_iff_madeOf]
    exact (and_iff_right fun b _ => ⟨trivial, b.2.over_names⟩).symm
  | attributed body attributes =>
    rw [madeOf_attributed, ← within_iff_madeOf]
    exact (and_iff_left fun _ _ => trivial).symm
  | adjacent ts =>
    rw [madeOf_adjacent]
    exact allWithin_iff_madeOf
  | tester constructor signature =>
    have hnames : (tester constructor signature).Over A.names := by
      cases signature with
      | none => exact over_tester_none.mpr trivial
      | some signature =>
        exact over_tester_some.mpr ⟨trivial, fun s _ => s.over_names, signature.2.over_names⟩
    exact (and_iff_right hnames).symm
  | ascribed name sort => simp [Occurrences.names, SortExpr.over_names]
  | _ => simp [Occurrences.names]

theorem allWithin_iff_madeOf {ts : List Term} :
    AllWithin A ts ↔ ∀ t ∈ ts, t.MadeOf A.names A.tester := by
  cases ts with
  | nil => simp
  | cons t ts =>
    rw [List.forall_mem_cons]
    exact and_congr within_iff_madeOf allWithin_iff_madeOf

end

end Term

end SolverScript
