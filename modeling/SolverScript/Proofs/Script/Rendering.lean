import SolverScript.Proofs.Script.TextRelations

/-!
# The texts of terms

What is written out as data closes what it opens: sorts, terms, and function definitions with their
layout. Their names have to be plain for that; the characters of string literals and the values of
attributes may be any, because the special ones among them are escaped.

## Main definitions

* `Name.IsWord`, `Name.IsPlain` - names that are part of one word, or without special characters
* `FunctionDefinition.IsPlain` - functions with plain names

## Main results

* `scoping_isPlain` - the names that scripts write of their own accord are plain
* `isCompositional_reads`, `Term.reads_render` - what is written out closes what it opens
* `FunctionDefinition.IsPlain.reads_lines` - the lines of functions that a script defines
-/

namespace SolverScript

/-! ### Names that are words -/

/-- Whether a text is part of a single word. -/
def IsWordText (text : String) : Prop :=
  ∀ c ∈ text.toList, (isSpecial c || isSeparator c) = false

instance (text : String) : Decidable (IsWordText text) :=
  List.decidableBAll (fun c => (isSpecial c || isSeparator c) = false) text.toList

namespace IsWordText

variable {s t : String}

theorem append (hs : IsWordText s) (ht : IsWordText t) : IsWordText (s ++ t) := by
  rw [IsWordText, String.toList_append]
  exact List.forall_mem_append.mpr ⟨hs, ht⟩

theorem of_forall_isDecimalChar (h : ∀ c ∈ s.toList, Numeral.isDecimalChar c = true) :
    IsWordText s := by
  intro c hc
  have hdigit := h c hc
  by_contra hends
  have hcases : c ∈ ['(', ')', '"', '|', ';', ' ', '\t', '\n', '\r'] := by
    simp only [isSpecial, isSeparator, isLineBreak, Bool.or_eq_true, Bool.not_eq_false,
      beq_iff_eq] at hends
    simp only [List.mem_cons]
    tauto
  have hnone : ['(', ')', '"', '|', ';', ' ', '\t', '\n', '\r'].all
      (fun d => !Numeral.isDecimalChar d) = true := by decide
  exact absurd (List.all_eq_true.mp hnone c hcases) (by simp [hdigit])

theorem decimal (i : Int) : IsWordText (Numeral.decimal i) :=
  of_forall_isDecimalChar fun _ => Numeral.isDecimalChar_of_mem

theorem numbered (hs : IsWordText s) (n : Nat) : IsWordText (s ++ Nat.repr n) :=
  hs.append (of_forall_isDecimalChar fun _ => Numeral.isDecimalChar_of_mem_repr)

theorem isPlainText (h : IsWordText s) : IsPlainText s :=
  fun c hc => (Bool.or_eq_false_iff.mp (h c hc)).1

end IsWordText

/-- Whether the text of a name is part of a single word. The symbols of nodes are words. -/
def Name.IsWord : Name → Prop
  | node _ => True
  | function text | sort text | keyword text => IsWordText text

instance : DecidablePred Name.IsWord
  | .node _ => isTrue trivial
  | .function text | .sort text | .keyword text =>
    inferInstanceAs (Decidable (IsWordText text))

theorem Name.IsBuiltin.isWord {x : Name} (h : x.IsBuiltin) : x.IsWord := by
  have hnumbered : ∀ {text : String}, IsWordText text → ∀ n, IsWordText (text ++ Nat.repr n) :=
    fun h n => h.numbered n
  cases h with
  | function text h =>
    -- One proof for each name: what the kernel computes it keeps until a proof is complete.
    have hall : ∀ text ∈ builtinFunctions, IsWordText text := by
      simp only [builtinFunctions, List.forall_mem_cons, List.not_mem_nil, false_implies,
        implies_true, and_true]
      and_intros <;> decide +kernel
    exact hall text h
  | sort text h =>
    have hall : ∀ text ∈ builtinSorts, IsWordText text := by decide +kernel
    exact hall text h
  | ofFloat op => cases op <;> decide +kernel
  | ofReal f => cases f <;> decide +kernel
  | ofOverflow check => cases check <;> decide +kernel
  | ofString op => cases op <;> decide +kernel
  | ofSequence op => cases op <;> decide +kernel
  | ofRounding mode => cases mode <;> decide +kernel
  | projection position arity =>
    exact hnumbered ((hnumbered (by decide) position).append (by decide)) arity
  | tupleSort n | tuple n | bit n | element n | member n => exact hnumbered (by decide) n
  | argument i => exact hnumbered (by decide) (i + 1)

/-! ### Plain names -/

/-- Whether the text of a name has no special characters. The symbols of nodes have none. -/
def Name.IsPlain : Name → Prop
  | node _ => True
  | function text | sort text | keyword text => IsPlainText text

instance : DecidablePred Name.IsPlain
  | .node _ => isTrue trivial
  | .function text | .sort text | .keyword text =>
    inferInstanceAs (Decidable (IsPlainText text))

@[simp] theorem Name.isPlain_function {text : String} :
    (function text).IsPlain ↔ IsPlainText text := Iff.rfl

@[simp] theorem Name.isPlain_sort {text : String} : (sort text).IsPlain ↔ IsPlainText text :=
  Iff.rfl

@[simp] theorem Name.isPlain_keyword {text : String} :
    (keyword text).IsPlain ↔ IsPlainText text := Iff.rfl

theorem GeneratedSymbol.isPlainText_name (g : GeneratedSymbol) : IsPlainText g.name := by
  have hnumbered : ∀ {text : String}, IsPlainText text → ∀ n, IsPlainText (text ++ Nat.repr n) :=
    fun h n => isPlainText_append.mpr ⟨h, Numeral.isPlainText_repr n⟩
  cases g with
  | node id => exact isPlainText_nodeName id
  | reversal i => exact hnumbered (by decide) i
  | entity e part =>
    refine isPlainText_append.mpr ⟨?_, ?_⟩
    · cases e <;> exact isPlainText_append.mpr ⟨by decide, Numeral.isPlainText_decimal _⟩
    · cases part with
      | numbered i => exact isPlainText_append.mpr ⟨by decide, hnumbered (by decide) i⟩
      | _ => decide

theorem Name.IsWord.isPlain {x : Name} (h : x.IsWord) : x.IsPlain := by
  cases x with
  | node _ => trivial
  | function text => exact IsWordText.isPlainText h
  | sort text => exact IsWordText.isPlainText h
  | keyword text => exact IsWordText.isPlainText h

theorem Name.IsBuiltin.isPlain {x : Name} (h : x.IsBuiltin) : x.IsPlain := h.isWord.isPlain

/-- The names that scripts write of their own accord are plain. -/
theorem scoping_isPlain : Scoping fun _ => Name.IsPlain where
  vocabulary := fun _ =>
    { builtin := fun _ h => h.isPlain
      position := fun _ h => isPlainText_append.mpr ⟨h, by decide⟩ }
  mono := fun _ _ h => h
  node := fun _ => trivial
  symbol := fun g _ => g.isPlainText_name
  rational := fun f _ => by cases f <;> decide

theorem vocabulary_isPlain : Vocabulary Name.IsPlain := scoping_isPlain.vocabulary []

/-! ### Texts that close what they open -/

theorem Term.reads_renderAttribute {a : String × String} (h : IsPlainText a.1) :
    Reads (renderAttribute a) 0 0 := by
  refine reads_inside ?_ (run_joined rfl (List.forall_mem_map.mpr fun c _ => run_sanitizeChar c))
    (by decide)
  rw [Reader.run_append, show Reader.run {} a.1 = some {} from reads_of_plain h, Option.bind_some]
  decide

theorem isCompositional_reads : IsCompositional Name.IsPlain Reads where
  reads := id
  append := Reads.append
  lift := Reads.lift
  ofFunction := reads_of_plain
  ofSort := reads_of_plain
  ofAttribute := Term.reads_renderAttribute

/-- A term closes what it opens. -/
theorem Term.reads_render {t : Term} (h : t.Over Name.IsPlain) : Reads t.render 0 0 :=
  isCompositional_reads.render_term h

theorem RelatedLines.readsLines {ls : List String} {a b : Nat} (h : RelatedLines Reads ls a b) :
    ReadsLines ls a b := by
  induction ls generalizing a with
  | nil =>
    obtain rfl : a = b := h
    exact .nil
  | cons l ls ih =>
    obtain ⟨c, hl, hrest⟩ := h
    exact .cons hl (ih hrest)

/-! ### Function definitions -/

/-- Whether a function, its parameters and what it is made of have plain names. -/
structure FunctionDefinition.IsPlain (f : FunctionDefinition) : Prop where
  name : IsPlainText f.name
  names : ∀ x ∈ f.names, x.IsPlain

namespace FunctionDefinition.IsPlain

variable {f : FunctionDefinition} (h : f.IsPlain)

include h

/-- The lines of a definition close what they open. -/
theorem reads_lines : ReadsLines f.lines 0 0 :=
  (isCompositional_reads.lines_definition h.name h.names).readsLines

theorem reads_recursiveLines : ReadsLines f.recursiveLines 0 0 :=
  (isCompositional_reads.recursiveLines_definition h.name h.names).readsLines

end FunctionDefinition.IsPlain

end SolverScript
