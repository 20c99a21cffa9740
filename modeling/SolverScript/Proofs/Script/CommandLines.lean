import SolverScript.Proofs.Script.CommandTexts
import SolverScript.Proofs.Script.Rendering

/-!
# The lines of commands

The lines of a command close what they open, if the names in it are plain and the texts that are
passed on as they stand are complete. The one exception is the assertion under universal quantifiers:
the number of its closing parentheses is a 32-bit word, so that some are missing if there are too
many local definitions to be counted.

## Main definitions

* `Command.IsWhole` - commands with plain names that pass on complete texts
* `QuantifiedBlock.opened` - how many parentheses a quantified part has to close in the end

## Main results

* `Command.readsLines` - the lines of a command
* `Script.isComplete`, `Script.isComplete_assertForAll_iff` - complete scripts
-/

namespace SolverScript

/-- Whether the names in a command have no special characters. -/
structure Command.IsPlain (c : Command) : Prop where
  names : ∀ x ∈ c.names, x.IsPlain
  declares : ∀ name ∈ c.declares, IsPlainText name

/-- Whether the lines that the user adds to a script are complete commands. -/
structure Postulate.IsComplete (p : Postulate) : Prop where
  name : IsSingleLine p.name
  lines : SolverScript.IsComplete (joined "\n" p.lines)

/-- How many parentheses are open before those that close a quantified part. -/
def QuantifiedBlock.opened (b : QuantifiedBlock) : Nat :=
  b.definitions.length + 2 + if b.equations.isEmpty then 0 else 1

/-- Whether what a command passes on as it stands is complete: settings and lines of the user are
commands, and comments end with their lines. A conjunction has to have parts, and the parentheses
that close a quantified part have to be countable. -/
def Command.HasCompleteTexts : Command → Prop
  | note text => IsSingleLine text
  | setting line => IsComplete line
  | setLogic name remark => IsPlainText name ∧ IsSingleLine remark
  | declareFun _ _ _ remark | defineFun _ _ _ remark => IsSingleLine remark
  | assertAll formulas => formulas ≠ []
  | postulate p => p.IsComplete
  | assertForAll block =>
    (∀ d ∈ block.definitions, ∀ remark ∈ d.remark, IsSingleLine remark) ∧ block.opened < 2 ^ 32
  | _ => True

/-- Whether a command has plain names and passes on nothing but complete texts. -/
structure Command.IsWhole (c : Command) : Prop extends c.IsPlain where
  texts : c.HasCompleteTexts

/-! ### Remarks -/

theorem reads_before_comment {l remark : String} {a b : Nat} (hl : Reads l a b)
    (hremark : IsSingleLine remark) : Reads (l ++ (" ; " ++ remark) ++ "\n") a b := by
  rw [String.append_assoc]
  exact hl.append ((reads_comment (by decide) hremark).within b)

theorem reads_remarkText {l remark : String} {a b : Nat} (hl : Reads l a b)
    (hremark : IsSingleLine remark) : Reads (l ++ remarkText remark ++ "\n") a b := by
  unfold remarkText
  split
  · rw [String.append_empty]
    exact hl.append ((show Reads "\n" 0 0 by decide).within b)
  · exact reads_before_comment hl hremark

/-! ### Data types -/

theorem RationalFunction.isPlain_symbol (f : RationalFunction) : (Name.function f.symbol).IsPlain :=
  @Scoping.rational _ scoping_isPlain [f.symbol] f (List.mem_singleton_self _)

theorem RationalFunction.isPlain_definition (f : RationalFunction) : f.definition.IsPlain := by
  have hV := vocabulary_isPlain
  have hx : IsPlainText "x" := by decide
  have hy : IsPlainText "y" := by decide
  refine ⟨f.isPlain_symbol, FunctionDefinition.forall_mem_names ?_ ?_
    fun x hx => .inl (over_body hV isPlain_symbol x hx)⟩
  · cases f <;> simp [definition, parameters, Kind.sort, hV.builtin, hx, hy]
  · cases f <;> simp [definition, result, Kind.sort, hV.builtin]

namespace Datatype

/-- The projections of a tuple and the parentheses behind the last one. -/
theorem readsLines_projections {arity i remaining : Nat} {first indent : String} {d : Nat}
    (hfirst : Reads first d 5) (hindent : Reads indent 0 0) (hremaining : 0 < remaining) :
    ReadsLines (projections arity i first indent remaining) d 0 := by
  have hprojection : ∀ {i d : Nat} {first : String}, Reads first d 5 → Reads (first ++ "(proj_" ++
      Nat.repr i ++ "_SBVTuple" ++ Nat.repr arity ++ " T" ++ Nat.repr i ++ ")") d 5 := by
    intro i d first hfirst
    have hnumber : ∀ n, Reads (Nat.repr n) 6 6 :=
      fun n => (reads_of_plain (Numeral.isPlainText_repr n)).within 6
    exact .append (.append (.append (.append (.append (.append (.append hfirst (by decide))
      (hnumber i)) (by decide)) (hnumber arity)) (by decide)) (hnumber i)) (by decide)
  induction remaining generalizing i first d with
  | zero => exact absurd hremaining (Nat.lt_irrefl 0)
  | succ remaining ih =>
    rw [projections]
    cases remaining with
    | zero => exact .singleton ((hprojection hfirst).append (show Reads ")))))" 5 0 by decide))
    | succ remaining =>
      exact .cons ((hprojection hfirst).append (show Reads "" 5 5 by decide))
        (ih (hindent.within 5) (Nat.succ_pos remaining))

theorem readsLines_tuple (arity : Nat) : ReadsLines (tuple arity) 0 0 := by
  unfold tuple
  split
  · exact .singleton (by decide)
  · next hne =>
    have hnumber : ∀ n k, Reads (Nat.repr n) k k :=
      fun n k => (reads_of_plain (Numeral.isPlainText_repr n)).within k
    have hparameters : Reads (joined " " ((List.range arity).map fun i => "T" ++ Nat.repr (i + 1)))
        0 0 :=
      reads_joined (by decide) (List.forall_mem_map.mpr fun i _ =>
        .append (by decide) (hnumber (i + 1) 0))
    have hopening : Reads ("(declare-datatypes ((SBVTuple" ++ Nat.repr arity ++ " " ++
        Nat.repr arity ++ ")) (") 0 2 :=
      .append (.append (.append (.append (by decide) (hnumber arity 3)) (by decide))
        (hnumber arity 3)) (by decide)
    refine .cons (.append (.append (hopening.append (by decide)) (hparameters.within 4))
      (show Reads ")" 4 3 by decide)) (readsLines_projections ?_ (reads_blanks _) (by omega))
    exact .append (.append (.append ((reads_blanks _).within 3)
      (show Reads "((mkSBVTuple" 3 5 by decide)) (hnumber arity 5)) (by decide)

theorem readsLines_sum : ReadsLines sum 0 0 :=
  .cons (.ofList rfl) (.cons (show Reads _ 3 4 from .ofList rfl) (.singleton (.ofList rfl)))

theorem readsLines_optional : ReadsLines optional 0 0 :=
  .cons (.ofList rfl) (.cons (show Reads _ 3 4 from .ofList rfl) (.singleton (.ofList rfl)))

theorem readsLines_rationals : ReadsLines rationals 0 0 :=
  .cons (by decide) (.flatMap fun f _ =>
    .cons (show Reads "" 0 0 from rfl) f.isPlain_definition.reads_lines)

end Datatype

/-! ### The quantified part -/

theorem LocalDefinition.reads_line {d : LocalDefinition} (hvalue : d.value.Over Name.IsPlain)
    (hremark : ∀ remark ∈ d.remark, IsSingleLine remark) : Reads (d.line ++ "\n") 0 1 := by
  have hbinding := isCompositional_reads.binding_text hvalue
  unfold line
  cases hremark? : d.remark with
  | none => exact (hbinding.append (show Reads "" 1 1 by decide)).append (by decide)
  | some remark => exact reads_before_comment hbinding (hremark remark hremark?)

namespace QuantifiedBlock

variable {V : Name → Prop}

theorem over_withDefinitions {definitions : List LocalDefinition} {body : Term} :
    (withDefinitions definitions body).Over V ↔
      (∀ d ∈ definitions, V (.function d.node.name) ∧ d.value.Over V) ∧ body.Over V := by
  induction definitions with
  | nil => simp [withDefinitions]
  | cons d ds ih =>
    change (Term.bind [d.node.name] [d.value] (withDefinitions ds body)).Over V ↔ _
    rw [Term.over_bind, ih]
    simp [and_assoc]

/-- The names in a quantified part are those in its local definitions, equations and formula. -/
theorem over_conclusion (hV : Vocabulary V) {b : QuantifiedBlock} :
    b.conclusion.Over V ↔ (∀ e ∈ b.equations, e.Over V) ∧ b.formula.Over V := by
  unfold conclusion
  split
  · next h => simp [List.isEmpty_iff.mp h]
  · simp [hV.function, or_imp, forall_and]

theorem over_term (hV : Vocabulary V) {b : QuantifiedBlock} :
    b.term.Over V ↔ (∀ n ∈ b.universals, V (.function n.name) ∧ n.kind.sort.Over V) ∧
      (∀ d ∈ b.definitions, V (.function d.node.name) ∧ d.value.Over V) ∧
      (∀ e ∈ b.equations, e.Over V) ∧ b.formula.Over V := by
  rw [term, Term.over_forAll, over_withDefinitions, over_conclusion hV, List.forall_mem_map]

/-- Each local definition opens a parenthesis that it does not close. -/
theorem readsLines_definitions {definitions : List LocalDefinition}
    (h : ∀ d ∈ definitions, d.value.Over Name.IsPlain ∧
      ∀ remark ∈ d.remark, IsSingleLine remark) (k : Nat) :
    ReadsLines (definitions.map fun d => blanks 12 ++ d.line) k (k + definitions.length) := by
  induction definitions generalizing k with
  | nil => exact .nil
  | cons d ds ih =>
    obtain ⟨⟨hvalue, hremark⟩, hrest⟩ := List.forall_mem_cons.mp h
    have hline : Reads (blanks 12 ++ d.line ++ "\n") k (k + 1) := by
      rw [String.append_assoc]
      exact ((reads_blanks 12).within k).append ((LocalDefinition.reads_line hvalue hremark).lift k)
    rw [List.length_cons, ← Nat.add_assoc, Nat.add_right_comm]
    exact (ReadsLines.of_line hline).append (ih hrest (k + 1))

/-- The closing parentheses are counted by a 32-bit word. -/
theorem toNat_closingParens (b : QuantifiedBlock) :
    b.nesting.closingParens.toNat = b.opened % 2 ^ 32 := by
  have hequations : (if b.nesting.hasEquations then (1 : UInt32) else 0).toNat =
      if b.equations.isEmpty then 0 else 1 := by
    unfold nesting
    cases b.equations <;> rfl
  rw [Nesting.closingParens, UInt32.toNat_add, UInt32.toNat_add, hequations, opened, nesting,
    UInt32.toNat_ofNat]
  simp [Nat.add_mod]

theorem closingParens_le (b : QuantifiedBlock) : b.nesting.closingParens.toNat ≤ b.opened := by
  rw [toNat_closingParens]
  exact Nat.mod_le _ _

/-- The parentheses are all closed if they can be counted. -/
theorem unclosed_eq_zero_iff (b : QuantifiedBlock) :
    b.opened - b.nesting.closingParens.toNat = 0 ↔ b.opened < 2 ^ 32 := by
  rw [toNat_closingParens]
  omega

/-- The quantified part closes what it opens, up to the parentheses that are not counted. -/
theorem readsLines {b : QuantifiedBlock} (h : b.term.Over Name.IsPlain)
    (hremarks : ∀ d ∈ b.definitions, ∀ remark ∈ d.remark, IsSingleLine remark) :
    ReadsLines b.lines 0 (b.opened - b.nesting.closingParens.toNat) := by
  obtain ⟨huniversals, hdefinitions, hequations, hformula⟩ := (over_term vocabulary_isPlain).mp h
  have hopening := isCompositional_reads.opening_block fun n hn => (huniversals n hn).2
  have hdefinitions := readsLines_definitions
    (fun d hd => ⟨(hdefinitions d hd).2, hremarks d hd⟩) 2
  have hequations := (isCompositional_reads.lift_lines
    (isCompositional_reads.equationLines hequations) (2 + b.definitions.length)).readsLines
  have hopened : 2 + b.definitions.length + (if b.equations.isEmpty then 0 else 1) =
      b.opened - b.nesting.closingParens.toNat + b.nesting.closingParens.toNat := by
    rw [Nat.sub_add_cancel b.closingParens_le, opened, Nat.add_comm 2]
  rw [Nat.add_zero, hopened] at hequations
  have hindent : Reads ((if b.nesting.hasEquations then blanks 5 else "") ++ blanks 12) 0 0 := by
    split <;> decide
  have hclosing : Reads (b.nesting.closingLine b.formula)
      (b.opened - b.nesting.closingParens.toNat + b.nesting.closingParens.toNat)
      (b.opened - b.nesting.closingParens.toNat) :=
    ((hindent.append (Term.reads_render hformula)).within _).append (reads_replicate_close _ _)
  have hheading : ∀ {text : String}, Reads (text ++ "\n") 0 0 → ∀ k, ReadsLines [text] k k :=
    fun h k => (ReadsLines.of_line h).within k
  exact (((((ReadsLines.singleton hopening).append (hheading (by decide) 2)).append
    hdefinitions).append (hheading (by decide) _)).append hequations).append
      ((hheading (by decide) _).append (.singleton hclosing))

end QuantifiedBlock

/-! ### Commands -/

namespace Command

theorem readsLines_declareFun {name remark : String} {domain : List SortExpr} {range : SortExpr}
    (h : (declareFun name domain range remark).IsPlain) (hremark : IsSingleLine remark) :
    ReadsLines (declareFun name domain range remark).lines 0 0 := by
  obtain ⟨hdomain, hrange⟩ := List.forall_mem_append.mp h.names
  have hname := reads_of_plain (h.declares name (by simp [declares]))
  exact .of_line (reads_remarkText (isCompositional_reads.declareFun_text hname
    (SortExpr.forall_mem_flatMap_names.mp hdomain) hrange) hremark)

theorem readsLines_defineFun {name remark : String} {sort : SortExpr} {value : Term}
    (h : (defineFun name sort value remark).IsPlain) (hremark : IsSingleLine remark) :
    ReadsLines (defineFun name sort value remark).lines 0 0 := by
  obtain ⟨hsort, hvalue⟩ := List.forall_mem_append.mp h.names
  have hname := reads_of_plain (h.declares name (by simp [declares]))
  exact .of_line (reads_remarkText (isCompositional_reads.defineFun_text hname hsort hvalue)
    hremark)

theorem readsLines_postulate {p : Postulate} (h : p.IsComplete) :
    ReadsLines (postulate p).lines 0 0 := by
  have hlines := isComplete_joined_iff.mp h.lines
  refine (ReadsLines.of_line (reads_comment ?_ h.name)).append hlines
  split <;> decide

theorem readsLines_defineConstructorIndex {name : String} {constructors : List String}
    (h : (defineConstructorIndex name constructors).IsPlain) :
    ReadsLines (defineConstructorIndex name constructors).lines 0 0 :=
  FunctionDefinition.IsPlain.reads_lines
    ⟨h.declares _ (List.mem_singleton_self _), h.names⟩

/-- The lines of a command close what they open, up to the parentheses that are not counted. -/
theorem readsLines {c : Command} (hc : c.IsWhole) : ReadsLines c.lines 0 0 := by
  obtain ⟨h, htexts⟩ := hc
  have hformula : ∀ {f : Term}, (∀ x ∈ f.names, x.IsPlain) → ∀ k, Reads f.render k k :=
    fun hf k => (Term.reads_render hf).within k
  cases c with
  | note text => exact .of_line (reads_comment (by decide) htexts)
  | setting line => exact .of_line (isComplete_iff_reads.mp htexts)
  | setLogic name remark =>
    have hname := reads_of_plain htexts.1
    exact .of_line (reads_remarkText
      (.append (.append (by decide) (hname.within 1)) (show Reads ")" 1 0 by decide)) htexts.2)
  | declareSort name =>
    have hname := reads_of_plain (h.names (.sort name) (by simp [names]))
    -- One literal closes the declaration and opens a comment, which ends with the line.
    have hline : Reads ("(declare-sort " ++ name ++ (" 0)  ; N.B. Uninterpreted sort." ++ "\n"))
        0 0 := .append (.append (by decide) (hname.within 1)) (by decide)
    rw [← String.append_assoc] at hline
    exact .of_line hline
  | declareEnumeration name constructors =>
    exact .singleton (isCompositional_reads.enumeration
      (reads_of_plain (h.names (.sort name) (by simp [names])))
      fun c hc => reads_of_plain (h.declares c hc))
  | defineConstructorIndex name constructors => exact readsLines_defineConstructorIndex h
  | declareTuple arity => exact Datatype.readsLines_tuple arity
  | declareSum => exact Datatype.readsLines_sum
  | declareOptional => exact Datatype.readsLines_optional
  | declareRationals => exact Datatype.readsLines_rationals
  | declareFun name domain range remark => exact readsLines_declareFun h htexts
  | defineFun name sort value remark => exact readsLines_defineFun h htexts
  | defineReversal what name =>
    refine FunctionDefinition.IsPlain.reads_recursiveLines ⟨?_, h.names⟩
    cases what <;> exact h.declares name (List.mem_singleton_self name)
  | assert formula =>
    exact .singleton (.append (.append (by decide) (hformula h.names 1))
      (show Reads ")" 1 0 by decide))
  | assertSoft formula =>
    exact .singleton (.append (.append (by decide) (hformula h.names 1))
      (show Reads ")" 1 0 by decide))
  | assertAll formulas =>
    have hfirst : Reads ("(assert " ++ "(and ") 0 2 := by decide
    exact (isCompositional_reads.conjunctionLines (reads_blanks 13) hfirst
      (fun hempty => absurd hempty htexts) (Term.forall_mem_namesAll.mp h.names)).readsLines.append
        (.singleton (by decide))
  | assertResults name arguments formulas =>
    exact (isCompositional_reads.assertResults_lines h.names).readsLines
  | postulate p => exact readsLines_postulate htexts
  | assertForAll block =>
    -- Nothing is left open as long as the parentheses can be counted.
    have hlines := QuantifiedBlock.readsLines h.names htexts.1
    rwa [block.unclosed_eq_zero_iff.mpr htexts.2] at hlines

end Command

/-! ### Scripts -/

namespace Script

variable {cs : List Command}

theorem readsLines (h : ∀ c ∈ cs, c.IsWhole) : ReadsLines (lines cs) 0 0 :=
  .flatMap fun c hc => Command.readsLines (h c hc)

theorem isComplete (h : ∀ c ∈ cs, c.IsWhole) : IsComplete (joined "\n" (lines cs)) :=
  isComplete_joined_iff.mpr (readsLines h)

/-- A script that ends with a quantified part is complete if its parentheses can be counted. -/
theorem isComplete_assertForAll_iff {block : QuantifiedBlock} (h : ∀ c ∈ cs, c.IsWhole)
    (hnames : block.term.Over Name.IsPlain)
    (hremarks : ∀ d ∈ block.definitions, ∀ remark ∈ d.remark, IsSingleLine remark) :
    IsComplete (joined "\n" (lines (cs ++ [.assertForAll block]))) ↔ block.opened < 2 ^ 32 := by
  have hlines : ReadsLines (lines (cs ++ [.assertForAll block])) 0
      (block.opened - block.nesting.closingParens.toNat) := by
    rw [lines, List.flatMap_append, List.flatMap_singleton]
    exact (readsLines h).append (QuantifiedBlock.readsLines hnames hremarks)
  rw [isComplete_joined_iff, ← block.unclosed_eq_zero_iff]
  exact ⟨hlines.eq, fun hzero => hzero ▸ hlines⟩

end Script

end SolverScript
