import SolverScript.Proofs.Script.CommandLines
import SolverScript.Proofs.Semantics.Lexemes

/-!
# Commands that leave nothing open

What is written out as data leaves no string literal, quoted symbol or comment open, unless a name
in it does. Names may be quoted symbols here, or have parentheses in them.

## Main definitions

* `Name.IsClosed` - names that leave nothing open

## Main results

* `isCompositional_isClosed`, `Term.isClosed_render` - what is written out leaves nothing open
* `FunctionDefinition.isClosed_recursiveLines` - functions that a script defines
-/

namespace SolverScript

/-! ### Names and characters -/

/-- Whether the text of a name leaves nothing open. The symbols of nodes do not. -/
def Name.IsClosed : Name → Prop
  | node _ => True
  | function text | sort text | keyword text => SolverScript.IsClosed text

instance : DecidablePred Name.IsClosed
  | .node _ => isTrue trivial
  | .function text | .sort text | .keyword text =>
    inferInstanceAs (Decidable (SolverScript.IsClosed text))

theorem Name.IsPlain.isClosed {x : Name} (h : x.IsPlain) : x.IsClosed := by
  cases x with
  | node _ => trivial
  | function text => exact isClosed_of_plain h
  | sort text => exact isClosed_of_plain h
  | keyword text => exact isClosed_of_plain h

theorem vocabulary_isClosed : Vocabulary Name.IsClosed where
  builtin := fun _ h => h.isPlain.isClosed
  position := fun _ h => IsClosed.append h (by decide)

theorem isClosed_repr (n : Nat) : IsClosed (Nat.repr n) :=
  isClosed_of_plain (Numeral.isPlainText_repr n)

theorem isClosed_decimal (i : Int) : IsClosed (Numeral.decimal i) :=
  isClosed_of_plain (Numeral.isPlainText_decimal i)

theorem isClosed_blanks (n : Nat) : IsClosed (blanks n) := isClosed_of_plain (isPlainText_blanks n)

/-- The value of an attribute stands between bars, and has none. -/
theorem Term.isClosed_renderAttribute {a : String × String} (h : IsClosed a.1) :
    IsClosed (renderAttribute a) := by
  have hvalue : ReaderMode.symbol.run (joined "" (a.2.toList.map sanitizeChar)) = .symbol :=
    (Reader.mode_run (@run_joined ⟨.symbol, 0⟩ "" _ rfl
      (List.forall_mem_map.mpr fun c (_ : c ∈ a.2.toList) => run_sanitizeChar c))).symm
  -- The first bar opens a quoted symbol, which the last one closes.
  have hopening : ReaderMode.plain.run " |" = .symbol := by decide
  unfold renderAttribute IsClosed
  rw [ReaderMode.run_append, ReaderMode.run_append, ReaderMode.run_append, h, hopening, hvalue]
  decide

theorem isCompositional_isClosed :
    IsCompositional Name.IsClosed fun text _ _ => IsClosed text where
  reads := isClosed_of_reads
  append := IsClosed.append
  lift := fun h _ => h
  ofFunction := id
  ofSort := id
  ofAttribute := Term.isClosed_renderAttribute

/-! ### Sorts and terms -/

/-- A term leaves nothing open, whatever its string literals are. -/
theorem Term.isClosed_render {t : Term} (h : t.Over Name.IsClosed) : IsClosed t.render :=
  isCompositional_isClosed.render_term h

theorem Term.isClosed_renderAll {ts : List Term} (h : ∀ t ∈ ts, t.Over Name.IsClosed) :
    ∀ text ∈ renderAll ts, IsClosed text :=
  isCompositional_isClosed.render_terms h

/-! ### Function definitions -/

theorem RelatedLines.isClosed {ls : List String} {a b : Nat}
    (h : RelatedLines (fun text _ _ => IsClosed text) ls a b) : ∀ l ∈ ls, IsClosed l := by
  induction ls generalizing a with
  | nil => simp
  | cons l ls ih =>
    obtain ⟨c, hl, hrest⟩ := h
    exact List.forall_mem_cons.mpr ⟨hl, ih hrest⟩

namespace FunctionDefinition

variable {f : FunctionDefinition} (hname : IsClosed f.name) (hnames : ∀ x ∈ f.names, x.IsClosed)

include hname hnames

theorem isClosed_lines : ∀ l ∈ f.lines, IsClosed l :=
  (isCompositional_isClosed.lines_definition hname hnames).isClosed

theorem isClosed_recursiveLines : ∀ l ∈ f.recursiveLines, IsClosed l :=
  (isCompositional_isClosed.recursiveLines_definition hname hnames).isClosed

end FunctionDefinition

end SolverScript
