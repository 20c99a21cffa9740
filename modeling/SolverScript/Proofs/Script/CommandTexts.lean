import SolverScript.Proofs.Script.TextRelations

/-!
# The texts of commands part by part

A relation between texts and parentheses that is settled part by part holds of the lines of commands
if the names in them allow it. The lines of assertions about a function and of quantified parts open
parentheses that later lines close.

## Main results

* `IsCompositional.declareFun_text`, `IsCompositional.defineFun_text` - declarations and definitions
* `IsCompositional.assertResults_lines` - the lines of an assertion about the results of a function
* `IsCompositional.opening_block`, `IsCompositional.equationLines` - parts of a quantified assertion
-/

namespace SolverScript

namespace IsCompositional

variable {V : Name → Prop} {R : String → Nat → Nat → Prop} (hR : IsCompositional V R)

include hR

/-! ### Declarations and definitions -/

theorem enumeration {name : String} {constructors : List String} (hname : R name 0 0)
    (hconstructors : ∀ c ∈ constructors, R c 0 0) :
    R (Datatype.enumeration name constructors) 0 0 := by
  have hconstructors := hR.spaced (List.forall_mem_map.mpr fun c hc =>
    hR.between 1 (show Reads "(" 0 1 by decide) (hconstructors c hc) (show Reads ")" 1 0 by decide))
  unfold Datatype.enumeration
  exact hR.between₂ 3 3 (by decide) hname (by decide) hconstructors (by decide)

theorem declareFun_text {name : String} {domain : List SortExpr} {range : SortExpr}
    (hname : R name 0 0) (hdomain : ∀ s ∈ domain, s.Over V) (hrange : range.Over V) :
    R ("(declare-fun " ++ name ++ " (" ++ SolverScript.joined " " (domain.map SortExpr.render) ++
      ") " ++ range.render ++ ")") 0 0 :=
  hR.append (hR.append (hR.between₂ 1 2 (by decide) hname (by decide) (hR.spaced_sorts hdomain)
    (by decide)) (hR.within (hR.render_sort hrange) 1)) (hR.reads (by decide))

theorem defineFun_text {name : String} {sort : SortExpr} {value : Term} (hname : R name 0 0)
    (hsort : sort.Over V) (hvalue : value.Over V) :
    R ("(define-fun " ++ name ++ " () " ++ sort.render ++ " " ++ value.render ++ ")") 0 0 :=
  hR.append (hR.append (hR.between₂ 1 1 (by decide) hname (by decide) (hR.render_sort hsort)
    (by decide)) (hR.within (hR.render_term hvalue) 1)) (hR.reads (by decide))

/-! ### Conjunctions -/

/-- A conjunction is closed by what stands behind its lines. Without parts it has no lines. -/
theorem conjunctionLines {indent first : String} {fs : List Term} {a b : Nat}
    (hindent : R indent 0 0) (hfirst : R (first ++ "(and ") a b) (hempty : fs = [] → a = b)
    (hfs : ∀ f ∈ fs, f.Over V) :
    RelatedLines R (Command.conjunctionLines indent first fs) a b := by
  cases fs with
  | nil => exact hempty rfl
  | cons f fs =>
    obtain ⟨hf, hfs⟩ := List.forall_mem_cons.mp hfs
    have hrest : RelatedLines R (fs.map fun f => indent ++ f.render) 0 0 :=
      .map fun f hf => hR.append hindent (hR.render_term (hfs f hf))
    exact ⟨b, hR.append hfirst (hR.within (hR.render_term hf) b), hR.within_lines hrest b⟩

theorem resultLines {fs : List Term} (hfs : ∀ f ∈ fs, f.Over V) :
    RelatedLines R (Command.resultLines fs) 0 0 := by
  unfold Command.resultLines
  split
  · exact ⟨0, hR.reads (by decide), rfl⟩
  · next f =>
    have hf := hR.render_term (List.forall_mem_singleton.mp hfs)
    exact ⟨0, hR.append (hR.blanks 21) hf, rfl⟩
  · next hne _ =>
    have hopening : Reads (SolverScript.blanks 21 ++ "(and ") 0 1 := by decide
    exact (hR.conjunctionLines (hR.blanks 26) (hR.reads hopening) (fun h => absurd h hne)
      hfs).append ⟨0, hR.reads (by decide), rfl⟩

theorem assertResults_lines {name : String} {arguments : List SortExpr} {formulas : List Term}
    (h : ∀ x ∈ (Command.assertResults name arguments formulas).names, V x) :
    RelatedLines R (Command.assertResults name arguments formulas).lines 0 0 := by
  simp only [Command.names, List.forall_mem_cons, List.forall_mem_append, List.forall_mem_map,
    SortExpr.forall_mem_flatMap_names, Term.forall_mem_namesAll] at h
  obtain ⟨⟨⟨hname, hresult, hvariables⟩, harguments⟩, hformulas⟩ := h
  have hbinders : R (SolverScript.joined " " ((((List.range arguments.length).map argumentName).zip
      arguments).map Term.renderBinder)) 0 0 := by
    refine hR.spaced (List.forall_mem_map.mpr fun b hb => ?_)
    obtain ⟨hb, hsort⟩ := List.of_mem_zip hb
    obtain ⟨i, hi, hvariable⟩ := List.mem_map.mp hb
    exact hR.render_binder (hvariable ▸ hR.ofFunction (hvariables i hi)) (harguments _ hsort)
  have hcall : (Term.app (.symbol name) (((List.range arguments.length).map argumentName).map
      .symbol)).Over V := by
    refine Term.over_app.mpr ⟨Term.over_symbol.mpr hname, ?_⟩
    rw [List.map_map]
    exact List.forall_mem_map.mpr fun i hi => Term.over_symbol.mpr (hvariables i hi)
  have hbinding : Reads (SolverScript.blanks 16 ++ "(let ((" ++ resultName ++ " ") 2 5 := by decide
  -- The quantifier and the binding stay open until the last line.
  have hopening := hR.between 3 (show Reads "(assert (forall (" 0 3 by decide) hbinders
    (show Reads ")" 3 2 by decide)
  have hdefinition := hR.between 5 hbinding (hR.render_term hcall)
    (show Reads "))" 5 3 by decide)
  exact RelatedLines.append (b := 3) (.append ⟨2, hopening, 3, hdefinition, rfl⟩
    (hR.within_lines (hR.resultLines hformulas) 3)) ⟨0, hR.reads (by decide), rfl⟩

/-! ### Quantified parts -/

/-- A local definition opens a parenthesis that it does not close. -/
theorem binding_text {d : LocalDefinition} (hvalue : d.value.Over V) :
    R ("(let ((" ++ d.node.name ++ " " ++ d.value.render ++ "))") 0 1 :=
  hR.between₂ 3 3 (by decide) (hR.plain (isPlainText_nodeName d.node.id)) (by decide)
    (hR.render_term hvalue) (by decide)

theorem opening_block {universals : List Node} (h : ∀ n ∈ universals, n.kind.sort.Over V) :
    R (QuantifiedBlock.opening universals) 0 2 := by
  have hbinders : R (SolverScript.joined ("\n" ++ SolverScript.blanks 17)
      (universals.map fun n => Term.renderBinder (n.name, n.kind.sort))) 0 0 :=
    hR.joined (hR.reads (by decide)) (List.forall_mem_map.mpr fun n hn =>
      hR.render_binder (hR.plain (isPlainText_nodeName n.id)) (h n hn))
  exact hR.between 3 (by decide) hbinders (by decide)

theorem equationLines {equations : List Term} (h : ∀ e ∈ equations, e.Over V) :
    RelatedLines R (QuantifiedBlock.equationLines equations) 0
      (if equations.isEmpty then 0 else 1) := by
  cases equations with
  | nil => rfl
  | cons e es =>
    obtain ⟨he, hes⟩ := List.forall_mem_cons.mp h
    have hfirst : R (SolverScript.blanks 12 ++ "(and " ++ e.render) 0 1 :=
      hR.append (hR.reads (by decide)) (hR.within (hR.render_term he) 1)
    have hrest : RelatedLines R
        (es.map fun e => SolverScript.blanks 12 ++ SolverScript.blanks 5 ++ e.render) 0 0 :=
      .map fun e he => hR.append (hR.reads (by decide)) (hR.render_term (hes e he))
    exact ⟨1, hfirst, hR.within_lines hrest 1⟩

end IsCompositional

end SolverScript
