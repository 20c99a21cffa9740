import SolverScript.Proofs.Semantics.Evaluation
import SolverScript.Script.Command

/-!
# Runs of scripts

A script is run command by command. A declaration gives a name any function of its sorts, a
definition gives it the value of a term, and an assertion has to hold with the names as they are at
that point; what is used before it is defined has no value. A script is satisfied when it has a run.
Lines of the user are not read.

## Main definitions

* `QuantifiedBlock.term` - the formula of an assertion under universal quantifiers
* `Command.Runs`, `Script.Runs` - the runs of commands, from one interpretation to another
-/

namespace SolverScript

variable {α : Type}

/-- The functions that take all elements of their domain to elements of their range, and nothing
else. -/
def Theory.IsFunction (T : Theory α) (domain : List SortExpr) (range : SortExpr)
    (f : Element.Function α) : Prop :=
  ∀ es, (List.Forall₂ T.Contains domain es → ∃ e, f es = some e ∧ T.Contains range e) ∧
    (¬List.Forall₂ T.Contains domain es → f es = none)

/-- The constant functions of a sort are those of its elements. -/
theorem Theory.isFunction_nil_iff {T : Theory α} {range : SortExpr} {f : Element.Function α} :
    T.IsFunction [] range f ↔ ∃ e, T.Contains range e ∧ f = e.constant := by
  constructor
  · intro hf
    obtain ⟨e, he, hrange⟩ := (hf []).1 .nil
    refine ⟨e, hrange, funext fun es => ?_⟩
    cases es with
    | nil => exact he
    | cons a es => exact (hf (a :: es)).2 (by simp)
  · rintro ⟨e, he, rfl⟩ es
    constructor
    · intro hes
      obtain rfl := List.forall₂_nil_left_iff.mp hes
      exact ⟨e, rfl, he⟩
    · intro hes
      cases es with
      | nil => exact absurd .nil hes
      | cons a es => rfl

namespace QuantifiedBlock

/-- The formula under the quantifiers: equations that hold there, and the conclusion. -/
def conclusion (b : QuantifiedBlock) : Term :=
  if b.equations.isEmpty then b.formula else .app (.symbol "and") (b.equations ++ [b.formula])

/-- Local definitions around a formula. -/
def withDefinitions (definitions : List LocalDefinition) (body : Term) : Term :=
  definitions.foldr (fun d t => .bind [d.node.name] [d.value] t) body

/-- The formula that a quantified block asserts. -/
def term (b : QuantifiedBlock) : Term :=
  .forAll (b.universals.map fun n => (n.name, n.kind.sort))
    (withDefinitions b.definitions b.conclusion)

/-- A quantified block holds when its conclusion does for all elements of its universal nodes. -/
theorem eval_term_iff {T : Theory α} {I : Interpretation α} {b : QuantifiedBlock} :
    b.term.eval T I = some (.bool true) ↔
      ∀ es, List.Forall₂ T.Contains (b.universals.map fun n => n.kind.sort) es →
        (withDefinitions b.definitions b.conclusion).eval T
          (I.bindAll (b.universals.map Node.name) es) = some (.bool true) := by
  simp only [term, Term.eval_forAll_iff, List.map_map, Function.comp_def]

end QuantifiedBlock

/-- The formulas that a command requires to hold. -/
def Command.required : Command → List Term
  | assert formula => [formula]
  | assertAll formulas => formulas
  | assertResults name arguments formulas =>
    let names := (List.range arguments.length).map argumentName
    let call := Term.app (.symbol name) (names.map .symbol)
    formulas.map fun f => .forAll (names.zip arguments) (.bind [resultName] [call] f)
  | assertForAll block => [block.term]
  | _ => []

/-- A command takes the interpretation before it to the one after it. -/
def Command.Runs (T : Theory α) : Command → Interpretation α → Interpretation α → Prop
  | declareFun name domain range _, I, J => ∃ f, T.IsFunction domain range f ∧ J = I.bind name f
  | defineFun name sort value _, I, J =>
    ∃ e, value.eval T I = some e ∧ T.Contains sort e ∧ J = I.bind name e.constant
  | c, I, J => (∀ f ∈ c.required, f.eval T I = some (.bool true)) ∧ J = I

namespace Script

/-- Commands one after the other. -/
def Runs (T : Theory α) : List Command → Interpretation α → Interpretation α → Prop
  | [], I, J => J = I
  | c :: cs, I, J => ∃ K, c.Runs T I K ∧ Runs T cs K J

variable {T : Theory α} {I J : Interpretation α}

@[simp] theorem runs_nil : Runs T [] I J ↔ J = I := Iff.rfl

@[simp] theorem runs_cons {c : Command} {cs : List Command} :
    Runs T (c :: cs) I J ↔ ∃ K, c.Runs T I K ∧ Runs T cs K J := Iff.rfl

theorem runs_append {cs ds : List Command} :
    Runs T (cs ++ ds) I J ↔ ∃ K, Runs T cs I K ∧ Runs T ds K J := by
  induction cs generalizing I with
  | nil => simp
  | cons c cs ih =>
    simp only [List.cons_append, runs_cons, ih]
    constructor
    · rintro ⟨K, hc, L, hcs, hds⟩
      exact ⟨L, ⟨K, hc, hcs⟩, hds⟩
    · rintro ⟨L, ⟨K, hc, hcs⟩, hds⟩
      exact ⟨K, hc, L, hcs, hds⟩

end Script

/-- The name that a command gives a meaning to. -/
def Command.introduced? : Command → Option String
  | declareFun name .. | defineFun name .. => some name
  | _ => none

/-- A run leaves the names alone that no command gives a meaning to. -/
theorem Script.Runs.eq_of_not_introduced {T : Theory α} {I J : Interpretation α}
    {cs : List Command} (h : Runs T cs I J) {name : String}
    (hname : ∀ c ∈ cs, c.introduced? ≠ some name) : J name = I name := by
  induction cs generalizing I with
  | nil => rw [runs_nil.mp h]
  | cons c cs ih =>
    obtain ⟨hc, hcs⟩ := List.forall_mem_cons.mp hname
    obtain ⟨K, hK, hJ⟩ := h
    have hstep : K name = I name := by
      -- Only declarations and definitions change the interpretation, each at its own name.
      cases c with
      | declareFun other =>
        obtain ⟨f, -, rfl⟩ := hK
        exact Interpretation.bind_of_ne _ _ fun heq => hc (congrArg some heq.symm)
      | defineFun other =>
        obtain ⟨e, -, -, rfl⟩ := hK
        exact Interpretation.bind_of_ne _ _ fun heq => hc (congrArg some heq.symm)
      | _ => rw [hK.2]
    rw [ih hJ hcs, hstep]

/-- Commands that give no meaning to a name. -/
def Command.IsRequirement : Command → Prop
  | declareFun .. | defineFun .. => False
  | _ => True

theorem Command.IsRequirement.runs_iff {T : Theory α} {I J : Interpretation α} {c : Command}
    (hc : c.IsRequirement) :
    c.Runs T I J ↔ (∀ f ∈ c.required, f.eval T I = some (.bool true)) ∧ J = I := by
  cases c <;> first | rfl | exact absurd hc id

/-- Commands that give no meaning to names require formulas to hold, and leave the interpretation
alone. -/
theorem Script.runs_iff_of_requirements {T : Theory α} {I J : Interpretation α} {cs : List Command}
    (hcs : ∀ c ∈ cs, c.IsRequirement) :
    Runs T cs I J ↔ (∀ c ∈ cs, ∀ f ∈ c.required, f.eval T I = some (.bool true)) ∧ J = I := by
  induction cs with
  | nil => simp
  | cons c cs ih =>
    obtain ⟨hc, hrest⟩ := List.forall_mem_cons.mp hcs
    rw [runs_cons, List.forall_mem_cons]
    constructor
    · rintro ⟨K, hK, hJ⟩
      obtain ⟨hholds, rfl⟩ := hc.runs_iff.mp hK
      obtain ⟨hrestHolds, rfl⟩ := (ih hrest).mp hJ
      exact ⟨⟨hholds, hrestHolds⟩, rfl⟩
    · rintro ⟨⟨hholds, hrestHolds⟩, rfl⟩
      exact ⟨J, hc.runs_iff.mpr ⟨hholds, rfl⟩, (ih hrest).mpr ⟨hrestHolds, rfl⟩⟩

/-- Commands that neither give a meaning to a name nor state a formula: remarks, settings, sorts and
what belongs to them, and the lines of the user. -/
def Command.IsInert : Command → Prop
  | declareFun .. | defineFun .. => False
  | assert .. | assertSoft .. | assertAll .. | assertResults .. | assertForAll .. => False
  | _ => True

theorem Command.IsInert.isRequirement {c : Command} (hc : c.IsInert) : c.IsRequirement := by
  cases c <;> first | exact trivial | exact hc

theorem Command.IsInert.required_eq_nil {c : Command} (hc : c.IsInert) : c.required = [] := by
  cases c <;> first | rfl | exact hc.elim

theorem Command.IsInert.introduced? {c : Command} (hc : c.IsInert) : c.introduced? = none := by
  cases c <;> first | rfl | exact hc.elim

/-- An inert command leaves the interpretation alone. -/
theorem Command.IsInert.runs_iff {T : Theory α} {I J : Interpretation α} {c : Command}
    (hc : c.IsInert) : c.Runs T I J ↔ J = I := by
  rw [hc.isRequirement.runs_iff, hc.required_eq_nil]
  simp

theorem Script.runs_of_inert {T : Theory α} {I J : Interpretation α} {cs : List Command}
    (hcs : ∀ c ∈ cs, c.IsInert) : Runs T cs I J ↔ J = I := by
  induction cs with
  | nil => simp
  | cons c cs ih =>
    rw [List.forall_mem_cons] at hcs
    simp [hcs.1.runs_iff, ih hcs.2]

/-- A formula is asserted without changing the interpretation. -/
theorem Command.runs_assert_iff {T : Theory α} {I J : Interpretation α} {formula : Term} :
    (Command.assert formula).Runs T I J ↔ formula.eval T I = some (.bool true) ∧ J = I := by
  simp [Command.Runs, Command.required]

end SolverScript
