import SolverScript.Script.Term

/-!
# Nodes and tests that occur in terms

Which nodes a term mentions, and which constructors it tests for. A term that is built from others
does what they do.

## Main definitions

* `Occurrences` - which nodes and which tests for constructors may occur
* `Term.Within` - terms in which nothing occurs but what may
* `Term.MentionsOnly` - terms in which only nodes with a property occur

## Main results

* `Term.mentionsOnly_iff_within` - a restriction of the nodes leaves the tests free
-/

namespace SolverScript

/-- Which nodes may occur in a term, and which tests for constructors, each with the signature it is
written with. -/
structure Occurrences where
  node : Int → Prop
  tester : String → Option (List SortExpr × SortExpr) → Prop

namespace Occurrences

/-- Only nodes with a property occur, and any tests. -/
def ofNodes (P : Int → Prop) : Occurrences := ⟨P, fun _ _ => True⟩

/-- Only tests with a property occur, and any nodes. -/
def ofTesters (Q : String → Option (List SortExpr × SortExpr) → Prop) : Occurrences :=
  ⟨fun _ => True, Q⟩

@[simp] theorem node_ofNodes (P : Int → Prop) (id : Int) : (ofNodes P).node id ↔ P id := .rfl

@[simp] theorem tester_ofNodes (P : Int → Prop) (constructor : String)
    (signature : Option (List SortExpr × SortExpr)) :
    (ofNodes P).tester constructor signature :=
  trivial

@[simp] theorem node_ofTesters (Q : String → Option (List SortExpr × SortExpr) → Prop) (id : Int) :
    (ofTesters Q).node id :=
  trivial

@[simp] theorem tester_ofTesters (Q : String → Option (List SortExpr × SortExpr) → Prop)
    (constructor : String) (signature : Option (List SortExpr × SortExpr)) :
    (ofTesters Q).tester constructor signature ↔ Q constructor signature :=
  .rfl

end Occurrences

namespace Term

mutual

/-- Whether every node and every test that occurs in a term may occur. -/
@[simp] def Within (A : Occurrences) : Term → Prop
  | .node id => A.node id
  | .tester constructor signature => A.tester constructor signature
  | .app function operands => Within A function ∧ AllWithin A operands
  | .bind _ values body => AllWithin A values ∧ Within A body
  | .forAll _ body => Within A body
  | .attributed body _ => Within A body
  | .adjacent terms => AllWithin A terms
  | _ => True

/-- Whether every node and every test that occurs in one of several terms may occur. -/
def AllWithin (A : Occurrences) : List Term → Prop
  | [] => True
  | t :: ts => Within A t ∧ AllWithin A ts

end

mutual

/-- Whether every node that occurs in a term has a property. -/
@[simp] def MentionsOnly (P : Int → Prop) : Term → Prop
  | .node id => P id
  | .app function operands => MentionsOnly P function ∧ AllMentionOnly P operands
  | .bind _ values body => AllMentionOnly P values ∧ MentionsOnly P body
  | .forAll _ body => MentionsOnly P body
  | .attributed body _ => MentionsOnly P body
  | .adjacent terms => AllMentionOnly P terms
  | _ => True

/-- Whether every node that occurs in several terms has a property. -/
def AllMentionOnly (P : Int → Prop) : List Term → Prop
  | [] => True
  | t :: ts => MentionsOnly P t ∧ AllMentionOnly P ts

end

variable {A : Occurrences} {P : Int → Prop}

section

attribute [local simp] AllWithin AllMentionOnly

@[simp] theorem allWithin_iff {ts : List Term} : AllWithin A ts ↔ ∀ t ∈ ts, t.Within A := by
  induction ts with
  | nil => simp
  | cons t ts ih => simp [ih]

@[simp] theorem allMentionOnly_iff {ts : List Term} :
    AllMentionOnly P ts ↔ ∀ t ∈ ts, t.MentionsOnly P := by
  induction ts with
  | nil => simp
  | cons t ts ih => simp [ih]

end

mutual

/-- A term mentions only nodes with a property just if it stays within what restricts the nodes. -/
theorem mentionsOnly_iff_within {t : Term} : t.MentionsOnly P ↔ t.Within (.ofNodes P) := by
  cases t with
  | app function operands => exact and_congr mentionsOnly_iff_within allMentionOnly_iff_allWithin
  | bind names values body => exact and_congr allMentionOnly_iff_allWithin mentionsOnly_iff_within
  | forAll binders body => exact mentionsOnly_iff_within (t := body)
  | attributed body attributes => exact mentionsOnly_iff_within (t := body)
  | adjacent terms => exact allMentionOnly_iff_allWithin
  | _ => simp

theorem allMentionOnly_iff_allWithin {ts : List Term} :
    AllMentionOnly P ts ↔ AllWithin (.ofNodes P) ts := by
  cases ts with
  | nil => exact Iff.rfl
  | cons t ts => exact and_congr mentionsOnly_iff_within allMentionOnly_iff_allWithin

end

/-! ### Terms made from others -/

@[simp] theorem within_applyTo {function : Term} {ts : List Term} :
    (applyTo function ts).Within A ↔ function.Within A ∧ ∀ t ∈ ts, t.Within A := by
  cases ts <;> simp [applyTo]

@[simp] theorem within_apply {name : String} {ts : List Term} :
    (apply name ts).Within A ↔ ∀ t ∈ ts, t.Within A := by
  simp [apply]

@[simp] theorem within_sideBySide {ts : List Term} :
    (sideBySide ts).Within A ↔ ∀ t ∈ ts, t.Within A := by
  unfold sideBySide
  split <;> simp

@[simp] theorem within_ofBool (b : Bool) : (ofBool b).Within A := by
  simp [ofBool]

@[simp] theorem within_negation {t : Term} :
    (negation t).Within A ↔ t.Within A := by
  simp [negation]

@[simp] theorem within_withAttributes {attributes : List (String × String)} {t : Term} :
    (withAttributes attributes t).Within A ↔ t.Within A := by
  unfold withAttributes
  split <;> simp

@[simp] theorem within_int (value : Int) : (int value).Within A := by
  unfold int
  split <;> simp

@[simp] theorem within_fraction (value : Rat) : (fraction value).Within A := by
  unfold fraction
  split <;> simp

end Term

end SolverScript
