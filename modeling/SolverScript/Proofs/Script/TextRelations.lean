import SolverScript.Proofs.Script.Vocabulary
import SolverScript.Proofs.Semantics.Lexemes

/-!
# What holds of texts part by part

Two questions about a text are settled part by part: whether it closes what it opens, and whether
it leaves a string literal, a quoted symbol or a comment open. They differ in the names that they
allow. What is written out as data, terms and function definitions with their layout, is the same
for both.

## Main definitions

* `IsCompositional` - relations that texts have when their parts have them
* `RelatedLines` - lines each of which goes on where the one before it has stopped

## Main results

* `IsCompositional.render_sort`, `IsCompositional.render_term` - the texts of sorts and terms
* `IsCompositional.lines_layout`, `IsCompositional.lines_definition` - terms on several lines
-/

namespace SolverScript

theorem isPlainText_nodeName (id : Int) : IsPlainText (nodeName id) := by
  unfold nodeName
  split
  · decide
  · split
    · decide
    · exact isPlainText_append.mpr ⟨by decide, Numeral.isPlainText_decimal id⟩

/-! ### Digits and escapes -/

theorem exists_digit_of_mem_toDigits {b n : Nat} (hb : 1 < b) {c : Char}
    (h : c ∈ Nat.toDigits b n) : ∃ d < b, c = Nat.digitChar d := by
  induction n using Nat.strongRecOn with
  | ind n ih =>
    rcases Nat.lt_or_ge n b with hn | hn
    · rw [Nat.toDigits_of_lt_base hn] at h
      exact ⟨n, hn, List.mem_singleton.mp h⟩
    · rw [Nat.toDigits_of_base_le hb hn, List.mem_append] at h
      rcases h with h | h
      · exact ih (n / b) (Nat.div_lt_self (by omega) hb) h
      · exact ⟨n % b, Nat.mod_lt n (by omega), List.mem_singleton.mp h⟩

namespace Numeral

theorem isSpecial_of_mem_digits {b n : Nat} (hb : 1 < b) (hb' : b ≤ 16) {c : Char}
    (h : c ∈ digits b n) : isSpecial c = false := by
  have hall : ∀ d < 16, isSpecial (Nat.digitChar d) = false := by decide
  obtain ⟨d, hd, rfl⟩ := exists_digit_of_mem_toDigits hb h
  exact hall d (by omega)

theorem isPlainText_padded {b : Nat} (hb : 1 < b) (hb' : b ≤ 16) (k n : Nat) :
    IsPlainText (padded b k n) := by
  intro c hc
  rw [padded, String.toList_ofList, List.mem_append] at hc
  rcases hc with hc | hc
  · rw [List.eq_of_mem_replicate hc]
    rfl
  · exact isSpecial_of_mem_digits hb hb' hc

theorem isPlainText_hexadecimal (n : Nat) : IsPlainText (hexadecimal n) := by
  intro c hc
  rw [hexadecimal, String.toList_ofList] at hc
  exact isSpecial_of_mem_digits (by decide) (by decide) hc

end Numeral

namespace Term

/-- A character of a string literal does not end the literal. -/
theorem run_quoteChar (c : Char) :
    Reader.run ⟨.string, 0⟩ (quoteChar c) = some ⟨.string, 0⟩ := by
  have hstep : ∀ {d : Char}, d ≠ '"' → Reader.step ⟨.string, 0⟩ d = some ⟨.string, 0⟩ :=
    fun hd => by simp [Reader.step, hd]
  unfold quoteChar
  split
  -- A doubled quote ends the literal and starts another one.
  · decide
  · next hc =>
    split
    · exact Reader.run_of_forall_step fun d hd => by
        obtain rfl : d = c := by simpa using hd
        exact hstep hc
    · have hopening : Reader.run ⟨.string, 0⟩ "\\u\x7b" = some ⟨.string, 0⟩ := by decide
      have hclosing : Reader.run ⟨.string, 0⟩ "\x7d" = some ⟨.string, 0⟩ := by decide
      have hdigits : Reader.run ⟨.string, 0⟩ (Numeral.hexadecimal c.toNat) = some ⟨.string, 0⟩ := by
        refine Reader.run_of_forall_step fun d hd => hstep ?_
        rintro rfl
        exact absurd (Numeral.isPlainText_hexadecimal _ _ hd) (by decide)
      rw [Reader.run_append, Reader.run_append, hopening, Option.bind_some, hdigits,
        Option.bind_some, hclosing]

theorem reads_quote (characters : List Char) : Reads (quote characters) 0 0 := by
  have hcharacters := @run_joined ⟨.string, 0⟩ "" _ rfl
    (List.forall_mem_map.mpr fun c (_ : c ∈ characters) => run_quoteChar c)
  exact reads_inside (by decide) hcharacters (by decide)

/-- A character of an attribute's value does not end the value. -/
theorem run_sanitizeChar (c : Char) :
    Reader.run ⟨.symbol, 0⟩ (sanitizeChar c) = some ⟨.symbol, 0⟩ := by
  unfold sanitizeChar
  split
  · decide
  · decide
  · next hbar _ =>
    refine Reader.run_of_forall_step fun d hd => ?_
    obtain rfl : d = c := by simpa using hd
    exact congrArg some (if_neg hbar)

end Term

namespace SortExpr

theorem isPlainText_renderIndices (indices : List Nat) : IsPlainText (renderIndices indices) := by
  induction indices with
  | nil => decide
  | cons n rest ih =>
    exact isPlainText_append.mpr
      ⟨isPlainText_append.mpr ⟨by decide, Numeral.isPlainText_repr n⟩, ih⟩

end SortExpr

namespace Layout

variable {ls : List String}

theorem aligned_ne_nil (opening : String) (ls : List String) : aligned opening ls ≠ [] := by
  cases ls <;> simp [aligned]

theorem closed_ne_nil {closing : String} (h : ls ≠ []) : closed closing ls ≠ [] := by
  fun_cases closed closing ls <;> simp_all

theorem lines_ne_nil (l : Layout) : l.lines ≠ [] := by
  cases l with
  | flat t => simp [lines]
  | stacked function further operands =>
    rw [lines]
    exact closed_ne_nil (aligned_ne_nil _ _)

end Layout

/-! ### Relations between a text and the parentheses around it -/

/-- Whether a relation between a text and the numbers of parentheses that are open in front of it
and behind it can be settled part by part, if names satisfy `V`. The special characters of string
literals and of the values of attributes are escaped, so that `V` has nothing to say about them. -/
structure IsCompositional (V : Name → Prop) (R : String → Nat → Nat → Prop) : Prop where
  reads : ∀ {s a b}, Reads s a b → R s a b
  append : ∀ {s t a b c}, R s a b → R t b c → R (s ++ t) a c
  lift : ∀ {s a b}, R s a b → ∀ k, R s (k + a) (k + b)
  ofFunction : ∀ {text}, V (.function text) → R text 0 0
  ofSort : ∀ {text}, V (.sort text) → R text 0 0
  ofAttribute : ∀ {a : String × String}, V (.keyword a.1) → R (Term.renderAttribute a) 0 0

/-- Whether each of some lines is related to the number of parentheses that the one before it has
left open. -/
def RelatedLines (R : String → Nat → Nat → Prop) : List String → Nat → Nat → Prop
  | [], before, after => before = after
  | line :: rest, before, after => ∃ between, R line before between ∧
      RelatedLines R rest between after

namespace RelatedLines

variable {R : String → Nat → Nat → Prop}

theorem append {ls ms : List String} {a b c : Nat} (hls : RelatedLines R ls a b)
    (hms : RelatedLines R ms b c) : RelatedLines R (ls ++ ms) a c := by
  induction ls generalizing a with
  | nil =>
    obtain rfl : a = b := hls
    exact hms
  | cons l ls ih =>
    obtain ⟨d, hl, hrest⟩ := hls
    exact ⟨d, hl, ih hrest⟩

theorem map {α : Type} {f : α → String} {xs : List α} (h : ∀ x ∈ xs, R (f x) 0 0) :
    RelatedLines R (xs.map f) 0 0 := by
  induction xs with
  | nil => rfl
  | cons x xs ih =>
    obtain ⟨hx, hxs⟩ := List.forall_mem_cons.mp h
    exact ⟨0, hx, ih hxs⟩

end RelatedLines

namespace IsCompositional

variable {V : Name → Prop} {R : String → Nat → Nat → Prop}

section Sorts

variable (hR : IsCompositional V R)

include hR

theorem plain {text : String} (h : IsPlainText text) : R text 0 0 := hR.reads (reads_of_plain h)

theorem blanks (n : Nat) : R (blanks n) 0 0 := hR.plain (isPlainText_blanks n)

/-- What closes what it opens may stand anywhere. -/
theorem within {text : String} (h : R text 0 0) (k : Nat) : R text k k := hR.lift h k

/-- A text between two literals. -/
theorem between {opening text closing : String} {a b : Nat} (k : Nat)
    (hopening : Reads opening a k) (h : R text 0 0) (hclosing : Reads closing k b) :
    R (opening ++ text ++ closing) a b :=
  hR.append (hR.append (hR.reads hopening) (hR.within h k)) (hR.reads hclosing)

/-- Two texts between literals. -/
theorem between₂ {opening first middle second closing : String} {a b : Nat} (k l : Nat)
    (hopening : Reads opening a k) (hfirst : R first 0 0) (hmiddle : Reads middle k l)
    (hsecond : R second 0 0) (hclosing : Reads closing l b) :
    R (opening ++ first ++ middle ++ second ++ closing) a b :=
  hR.append (hR.append (hR.between k hopening hfirst hmiddle) (hR.within hsecond l))
    (hR.reads hclosing)

theorem joined {separator : String} {parts : List String} (hseparator : R separator 0 0)
    (hparts : ∀ t ∈ parts, R t 0 0) : R (joined separator parts) 0 0 := by
  fun_induction SolverScript.joined separator parts with
  | case1 => exact hR.reads rfl
  | case2 part => exact hparts part (by simp)
  | case3 part next rest ih =>
    obtain ⟨hpart, hrest⟩ := List.forall_mem_cons.mp hparts
    exact hR.append (hR.append hpart hseparator) (ih hrest)

/-- Parts with blanks between them. -/
theorem spaced {parts : List String} (hparts : ∀ t ∈ parts, R t 0 0) :
    R (SolverScript.joined " " parts) 0 0 :=
  hR.joined (hR.reads (by decide)) hparts

/-! ### Sorts and terms -/

mutual

theorem render_sort : ∀ {s : SortExpr}, s.Over V → R s.render 0 0
  | .named _, h => hR.ofSort (SortExpr.over_named.mp h)
  | .indexed _ indices, h => by
    have hindices := hR.plain (SortExpr.isPlainText_renderIndices indices)
    exact hR.append (hR.append (hR.append (hR.reads (by decide))
      (hR.within (hR.ofSort (SortExpr.over_indexed.mp h)) 1)) (hR.within hindices 1))
      (hR.reads (by decide))
  | .applied _ _, h => by
    obtain ⟨hname, harguments⟩ := SortExpr.over_applied.mp h
    exact hR.append (hR.append (hR.append (hR.reads (by decide)) (hR.within (hR.ofSort hname) 1))
      (hR.within (render_sorts harguments) 1)) (hR.reads (by decide))

theorem render_sorts :
    ∀ {ss : List SortExpr}, (∀ s ∈ ss, s.Over V) → R (SortExpr.renderAll ss) 0 0
  | [], _ => hR.reads rfl
  | _ :: _, h => by
    obtain ⟨hs, hss⟩ := List.forall_mem_cons.mp h
    exact hR.append (hR.append (hR.reads (by decide)) (render_sort hs)) (render_sorts hss)

end

/-- Sorts with blanks between them. -/
theorem spaced_sorts {ss : List SortExpr} (h : ∀ s ∈ ss, s.Over V) :
    R (SolverScript.joined " " (ss.map SortExpr.render)) 0 0 :=
  hR.spaced (List.forall_mem_map.mpr fun s hs => hR.render_sort (h s hs))

theorem render_binder {b : String × SortExpr} (hname : R b.1 0 0) (hsort : b.2.Over V) :
    R (Term.renderBinder b) 0 0 :=
  hR.between₂ 1 1 (by decide) hname (by decide) (hR.render_sort hsort) (by decide)

theorem render_bindings {names texts : List String} (hnames : ∀ name ∈ names, R name 0 0)
    (htexts : ∀ t ∈ texts, R t 0 0) : R (Term.renderBindings names texts) 0 0 := by
  refine hR.spaced ?_
  rw [← List.map_uncurry_zip_eq_zipWith, List.forall_mem_map]
  intro q hq
  have hname := hnames _ (List.of_mem_zip hq).1
  have htext := htexts _ (List.of_mem_zip hq).2
  exact hR.between₂ 1 1 (by decide) hname (by decide) htext (by decide)

theorem render_tester {constructor : String} {signature : Option (List SortExpr × SortExpr)}
    (h : (Term.tester constructor signature).Over V) :
    R (Term.tester constructor signature).render 0 0 := by
  cases signature with
  | none =>
    rw [Term.render]
    exact hR.between 1 (by decide) (hR.ofFunction (Term.over_tester_none.mp h)) (by decide)
  | some signature =>
    obtain ⟨hname, harguments, hresult⟩ := Term.over_tester_some.mp h
    rw [Term.render]
    exact hR.append (hR.append (hR.between₂ 2 3 (by decide) (hR.ofFunction hname) (by decide)
      (hR.spaced_sorts harguments) (by decide)) (hR.within (hR.render_sort hresult) 2))
      (hR.reads (by decide))

end Sorts

mutual

/-- The text of a term is related if its names satisfy `V`, whatever its string literals are. -/
theorem render_term (hR : IsCompositional V R) {t : Term} (h : t.Over V) : R t.render 0 0 := by
  cases t with
  | symbol text => exact hR.ofFunction (Term.over_symbol.mp h)
  | node id => exact hR.plain (isPlainText_nodeName id)
  | numeral value => exact hR.plain (Numeral.isPlainText_decimal value)
  | decimal value =>
    exact hR.plain (isPlainText_append.mpr ⟨Numeral.isPlainText_repr value, by decide⟩)
  | binary bits value =>
    exact hR.plain (isPlainText_append.mpr
      ⟨by decide, Numeral.isPlainText_padded (by decide) (by decide) bits value⟩)
  | hexadecimal digits value =>
    exact hR.plain (isPlainText_append.mpr
      ⟨by decide, Numeral.isPlainText_padded (by decide) (by decide) digits value⟩)
  | quoted characters => exact hR.reads (Term.reads_quote characters)
  | indexed name indices =>
    have hindices := hR.spaced (List.forall_mem_map.mpr fun i (_ : i ∈ indices) =>
      hR.plain (Numeral.isPlainText_decimal i))
    rw [Term.render]
    exact hR.between₂ 1 1 (by decide) (hR.ofFunction (Term.over_indexed.mp h)) (by decide) hindices
      (by decide)
  | ascribed name sort =>
    obtain ⟨hname, hsort⟩ := Term.over_ascribed.mp h
    rw [Term.render]
    exact hR.between₂ 1 1 (by decide) (hR.ofFunction hname) (by decide) (hR.render_sort hsort)
      (by decide)
  | tester constructor signature => exact hR.render_tester h
  | app function operands =>
    obtain ⟨hfunction, hoperands⟩ := Term.over_app.mp h
    rw [Term.render]
    exact hR.between 1 (by decide) (hR.spaced (List.forall_mem_cons.mpr
      ⟨hR.render_term hfunction, hR.render_terms hoperands⟩)) (by decide)
  | bind names values body =>
    obtain ⟨hnames, hvalues, hbody⟩ := Term.over_bind.mp h
    have hbindings :=
      hR.render_bindings (fun x hx => hR.ofFunction (hnames x hx)) (hR.render_terms hvalues)
    rw [Term.render]
    exact hR.between₂ 2 1 (by decide) hbindings (by decide) (hR.render_term hbody) (by decide)
  | forAll binders body =>
    obtain ⟨hbinders, hbody⟩ := Term.over_forAll.mp h
    have hbinders := hR.spaced (List.forall_mem_map.mpr fun b hb =>
      hR.render_binder (hR.ofFunction (hbinders b hb).1) (hbinders b hb).2)
    rw [Term.render]
    exact hR.between₂ 2 1 (by decide) hbinders (by decide) (hR.render_term hbody) (by decide)
  | attributed body attributes =>
    obtain ⟨hbody, hattributes⟩ := Term.over_attributed.mp h
    have hattributes := hR.spaced (List.forall_mem_map.mpr fun a ha =>
      hR.ofAttribute (hattributes a ha))
    rw [Term.render]
    exact hR.between₂ 1 1 (by decide) (hR.render_term hbody) (by decide) hattributes (by decide)
  | adjacent terms =>
    rw [Term.render]
    exact hR.spaced (hR.render_terms (Term.over_adjacent.mp h))

theorem render_terms (hR : IsCompositional V R) {ts : List Term} (h : ∀ t ∈ ts, t.Over V) :
    ∀ text ∈ Term.renderAll ts, R text 0 0 := by
  cases ts with
  | nil => simp [Term.renderAll]
  | cons t ts =>
    obtain ⟨ht, hts⟩ := List.forall_mem_cons.mp h
    exact List.forall_mem_cons.mpr ⟨hR.render_term ht, hR.render_terms hts⟩

end

/-! ### Terms on several lines -/

section Lines

variable (hR : IsCompositional V R) {ls : List String} {a b : Nat}

include hR

theorem lift_lines (h : RelatedLines R ls a b) (k : Nat) : RelatedLines R ls (k + a) (k + b) := by
  induction ls generalizing a with
  | nil => exact congrArg (k + ·) h
  | cons l ls ih =>
    obtain ⟨c, hl, hrest⟩ := h
    exact ⟨k + c, hR.lift hl k, ih hrest⟩

theorem within_lines (h : RelatedLines R ls 0 0) (k : Nat) : RelatedLines R ls k k :=
  hR.lift_lines h k

theorem indented (n : Nat) (h : RelatedLines R ls a b) :
    RelatedLines R (ls.map (SolverScript.blanks n ++ ·)) a b := by
  induction ls generalizing a with
  | nil => exact h
  | cons l ls ih =>
    obtain ⟨c, hl, hrest⟩ := h
    exact ⟨c, hR.append (hR.within (hR.blanks n) a) hl, ih hrest⟩

theorem aligned {opening : String} (hopening : R opening 0 1) (h : RelatedLines R ls 0 0) :
    RelatedLines R (Layout.aligned opening ls) 0 1 := by
  cases ls with
  | nil => exact ⟨1, hopening, rfl⟩
  | cons first rest =>
    obtain ⟨c, hfirst, hrest⟩ := hR.within_lines h 1
    exact ⟨c, hR.append hopening hfirst, hR.indented _ hrest⟩

theorem closed (hne : ls ≠ []) (h : RelatedLines R ls a (b + 1)) :
    RelatedLines R (Layout.closed ")" ls) a b := by
  fun_induction Layout.closed ")" ls generalizing a with
  | case1 => exact absurd rfl hne
  | case2 last =>
    obtain ⟨_, hlast, rfl⟩ := h
    have hclosing : Reads ")" 1 0 := by decide
    exact ⟨b, hR.append hlast (hR.reads (hclosing.lift b)), rfl⟩
  | case3 line next rest ih =>
    obtain ⟨c, hline, hrest⟩ := h
    exact ⟨c, hline, ih (by simp) hrest⟩

end Lines

mutual

theorem lines_layout (hR : IsCompositional V R) {l : Layout} (h : l.term.Over V) :
    RelatedLines R l.lines 0 0 := by
  cases l with
  | flat t =>
    rw [Layout.term] at h
    rw [Layout.lines]
    exact ⟨0, hR.render_term h, rfl⟩
  | stacked function further operands =>
    rw [Layout.term, Term.over_app] at h
    obtain ⟨hfunction, hoperands⟩ := h
    have hname := hR.ofFunction (Term.over_symbol.mp hfunction)
    have hopening : R ("(" ++ function ++ " " ++ SolverScript.blanks further) 0 1 :=
      hR.append (hR.between 1 (by decide) hname (by decide)) (hR.within (hR.blanks further) 1)
    rw [Layout.lines]
    exact hR.closed (Layout.aligned_ne_nil _ _) (hR.aligned hopening (hR.lines_layouts hoperands))

theorem lines_layouts (hR : IsCompositional V R) {ls : List Layout}
    (h : ∀ t ∈ Layout.terms ls, t.Over V) : RelatedLines R (Layout.stackedLines ls) 0 0 := by
  cases ls with
  | nil => rfl
  | cons l ls =>
    rw [Layout.terms, List.forall_mem_cons] at h
    rw [Layout.stackedLines]
    exact (hR.lines_layout h.1).append (hR.lines_layouts h.2)

end

/-! ### Function definitions -/

variable (hR : IsCompositional V R) {f : FunctionDefinition}

include hR

theorem opening {keyword : String} (hkeyword : IsPlainText keyword) (hname : V (.function f.name))
    (hnames : ∀ x ∈ f.names, V x) : R (f.opening keyword) 0 1 := by
  obtain ⟨hparameters, hresult⟩ :=
    List.forall_mem_append.mp (List.forall_mem_append.mp hnames).1
  have hparameters : R (SolverScript.joined " " (f.parameters.map Term.renderBinder)) 0 0 := by
    refine hR.spaced (List.forall_mem_map.mpr fun b hb => ?_)
    obtain ⟨hparameter, hsort⟩ :=
      List.forall_mem_cons.mp (List.forall_mem_flatMap.mp hparameters b hb)
    exact hR.render_binder (hR.ofFunction hparameter) hsort
  unfold FunctionDefinition.opening
  exact hR.append (hR.append (hR.append (hR.between₂ 1 1 (by decide) (hR.plain hkeyword) (by decide)
    (hR.ofFunction hname) (by decide)) (hR.within hparameters 2)) (hR.reads (by decide)))
    (hR.within (hR.render_sort hresult) 1)

/-- The body may call the function itself. -/
theorem lines_body (hname : V (.function f.name)) (hnames : ∀ x ∈ f.names, V x) :
    RelatedLines R f.body.lines 0 0 := by
  refine hR.lines_layout fun x hx => ?_
  by_cases hself : x = .function f.name
  · rw [hself]
    exact hname
  · exact hnames x (List.mem_append_right _ (List.mem_filter.mpr ⟨hx, by simpa using hself⟩))

theorem lines_definition (hname : V (.function f.name)) (hnames : ∀ x ∈ f.names, V x) :
    RelatedLines R f.lines 0 0 := by
  have hopening := hR.opening (show IsPlainText "define-fun" by decide) hname hnames
  have hbody := hR.indented 3 (hR.lines_body hname hnames)
  exact RelatedLines.append ⟨1, hopening, hR.within_lines hbody 1⟩
    ⟨0, hR.reads (by decide), rfl⟩

theorem recursiveLines_definition (hname : V (.function f.name)) (hnames : ∀ x ∈ f.names, V x) :
    RelatedLines R f.recursiveLines 0 0 := by
  have hopening := hR.opening (show IsPlainText "define-fun-rec" by decide) hname hnames
  have hbody := hR.indented 16 (hR.lines_body hname hnames)
  have hne : f.body.lines.map (SolverScript.blanks 16 ++ ·) ≠ [] := by
    simpa using f.body.lines_ne_nil
  exact ⟨1, hopening, hR.closed hne (hR.within_lines hbody 1)⟩

end IsCompositional

end SolverScript
