import SolverScript.Proofs.Semantics.Replacement

/-!
# Expanding the nodes of a term

A term with other terms in the places of its nodes. In the text of the term, the names of the nodes
are replaced, and nothing else is: what a script writes of its own accord is never taken for the
name of a node.

## Main definitions

* `Term.expand` - a term with its nodes expanded
* `Name.Becomes` - names that a replacement of words treats like the expansion

## Main results

* `vocabulary_becomes` - built-in names are kept by a replacement of numbered words
* `Term.becomes_render` - the text of an expanded term
-/

namespace SolverScript

namespace Term

variable (expansion : Int → Term)

mutual

/-- A term with its nodes expanded. -/
def expand : Term → Term
  | node id => expansion id
  | app function operands => app (expand function) (expandAll operands)
  | bind names values body => bind names (expandAll values) (expand body)
  | forAll binders body => forAll binders (expand body)
  | attributed body attributes => attributed (expand body) attributes
  | adjacent terms => adjacent (expandAll terms)
  | t => t

/-- Several terms with their nodes expanded. -/
def expandAll : List Term → List Term
  | [] => []
  | t :: ts => expand t :: expandAll ts

end

@[simp] theorem expandAll_eq_map (ts : List Term) :
    expandAll expansion ts = ts.map (expand expansion) := by
  induction ts with
  | nil => rfl
  | cons t ts ih => rw [expandAll, ih, List.map_cons]

@[simp] theorem expand_symbol (text : String) : (symbol text).expand expansion = symbol text := rfl

@[simp] theorem expand_numeral (n : Int) : (numeral n).expand expansion = numeral n := rfl

@[simp] theorem expand_binary (bits value : Nat) :
    (binary bits value).expand expansion = binary bits value := rfl

@[simp] theorem expand_indexed (name : String) (indices : List Int) :
    (indexed name indices).expand expansion = indexed name indices := rfl

@[simp] theorem expand_ascribed (name : String) (sort : SortExpr) :
    (ascribed name sort).expand expansion = ascribed name sort := rfl

@[simp] theorem expand_app (function : Term) (operands : List Term) :
    (app function operands).expand expansion =
      app (function.expand expansion) (operands.map (expand expansion)) := by
  rw [expand, expandAll_eq_map]

@[simp] theorem expand_bind (names : List String) (values : List Term) (body : Term) :
    (bind names values body).expand expansion =
      bind names (values.map (expand expansion)) (body.expand expansion) := by
  rw [expand, expandAll_eq_map]

@[simp] theorem expand_adjacent (ts : List Term) :
    (adjacent ts).expand expansion = adjacent (ts.map (expand expansion)) := by
  rw [expand, expandAll_eq_map]

@[simp] theorem expand_applyTo (function : Term) (ts : List Term) :
    (applyTo function ts).expand expansion =
      applyTo (function.expand expansion) (ts.map (expand expansion)) := by
  cases ts <;> simp [applyTo]

@[simp] theorem expand_apply (name : String) (ts : List Term) :
    (apply name ts).expand expansion = apply name (ts.map (expand expansion)) := by
  simp [apply]

@[simp] theorem expand_sideBySide (ts : List Term) :
    (sideBySide ts).expand expansion = sideBySide (ts.map (expand expansion)) := by
  unfold sideBySide
  split <;> simp_all

@[simp] theorem expand_ofBool (b : Bool) : (ofBool b).expand expansion = ofBool b := rfl

@[simp] theorem expand_negation (t : Term) :
    (negation t).expand expansion = negation (t.expand expansion) := by
  simp [negation]

variable {expansion}

mutual

/-- A term without nodes is its own expansion. -/
theorem expand_of_over {t : Term} (h : t.Over fun x => ∀ id, x ≠ .node id) :
    t.expand expansion = t := by
  cases t with
  | node id => exact absurd rfl (over_node.mp h id)
  | app function operands =>
    obtain ⟨hfunction, hoperands⟩ := over_app.mp h
    rw [expand, expand_of_over hfunction, expandAll_of_over hoperands]
  | bind names values body =>
    obtain ⟨-, hvalues, hbody⟩ := over_bind.mp h
    rw [expand, expandAll_of_over hvalues, expand_of_over hbody]
  | forAll binders body => rw [expand, expand_of_over (over_forAll.mp h).2]
  | attributed body attributes => rw [expand, expand_of_over (over_attributed.mp h).1]
  | adjacent terms => rw [expand, expandAll_of_over (over_adjacent.mp h)]
  | _ => rfl

theorem expandAll_of_over {ts : List Term} (h : ∀ t ∈ ts, t.Over fun x => ∀ id, x ≠ .node id) :
    expandAll expansion ts = ts := by
  cases ts with
  | nil => rfl
  | cons t ts =>
    obtain ⟨ht, hts⟩ := List.forall_mem_cons.mp h
    rw [expandAll, expand_of_over ht, expandAll_of_over hts]

end

end Term

/-- Names other than those of nodes. -/
theorem vocabulary_ne_node : Vocabulary fun x => ∀ id, x ≠ .node id where
  builtin := by
    rintro _ h id rfl
    cases h
  position := nofun

/-! ### Names under a replacement of words -/

/-- A numbered word looks like the name of a symbol. -/
theorem Lexeme.isNumbered_eq_false {text : String}
    (h : GeneratedSymbol.looksGenerated text = false) :
    (Lexeme.word text.toList).isNumbered = false := by
  rw [Bool.eq_false_iff]
  intro hnumber
  obtain ⟨c, cs, hlist, hc⟩ : ∃ c cs, text.toList = 's' :: c :: cs ∧
      Numeral.isDecimalChar c = true := by
    unfold isNumbered at hnumber
    split at hnumber
    · next c cs hword =>
      exact ⟨c, cs, Lexeme.word.inj hword, List.all_eq_true.mp hnumber c List.mem_cons_self⟩
    · cases hnumber
  unfold GeneratedSymbol.looksGenerated at h
  rw [hlist] at h
  split at h <;> simp_all [Numeral.isDecimalChar]

variable {replacement : List Char → List Char} {expansion : Int → Term}

/-- Whether an occurrence of a name becomes its expansion when words are replaced. -/
def Name.Becomes (replacement : List Char → List Char) (expansion : Int → Term) : Name → Prop
  | node id => SolverScript.Becomes replacement IsDelimited (nodeName id) (expansion id).render
  | function text | sort text | keyword text => KeepsWords replacement text

/-- Built-in names are kept by a replacement of numbered words. -/
theorem vocabulary_becomes (hreplacement : OnlyNumbered replacement) :
    Vocabulary (Name.Becomes replacement expansion) where
  builtin := by
    intro x hx
    have hword := hx.isWord
    cases x with
    | node id => cases hx
    | keyword text => cases hx
    | function text =>
      -- No built-in function is called like a numbered word.
      exact .of_word hword
        (hreplacement _ (Lexeme.isNumbered_eq_false hx.looksGenerated_eq_false))
    | sort text =>
      -- Numbered words start with a letter that no built-in sort has.
      refine .of_not_mem hreplacement hword.isClosed ?_
      cases hx with
      | sort _ h =>
        have hall : ∀ text ∈ builtinSorts, 's' ∉ text.toList := by decide +kernel
        exact hall text h
      | tupleSort arity =>
        rw [String.toList_append, List.mem_append]
        rintro (hletter | hdigit)
        · exact absurd hletter (by decide)
        · exact absurd (Numeral.isDecimalChar_of_mem_repr hdigit) (by decide)
  position := by
    intro sort hsort
    refine hsort.append_word (by decide) (hreplacement _ ?_)
    by_contra hnumber
    obtain ⟨-, hall⟩ := Lexeme.mem_of_isNumbered (by simpa using hnumber)
    exact absurd (hall '_' (List.mem_append_right _ (by decide))) (by decide)

/-! ### The text of an expansion -/

/-- Blanks or parentheses first. -/
theorem SortExpr.isDelimited_renderIndices (indices : List Nat) {rest : List Char}
    (h : IsDelimited rest) : IsDelimited ((renderIndices indices).toList ++ rest) := by
  cases indices with
  | nil => simpa [renderIndices] using h
  | cons => simp [renderIndices, IsDelimited]

theorem SortExpr.isDelimited_renderAll (sorts : List SortExpr) {rest : List Char}
    (h : IsDelimited rest) : IsDelimited ((renderAll sorts).toList ++ rest) := by
  cases sorts with
  | nil => simpa [renderAll] using h
  | cons => simp [renderAll, IsDelimited]

/-- Digits have no letters. -/
theorem becomes_decimal (hreplacement : OnlyNumbered replacement) (i : Int) :
    Becomes replacement IsDelimited (Numeral.decimal i) (Numeral.decimal i) := by
  refine (KeepsWords.of_not_mem hreplacement (isClosed_decimal i) fun h => ?_).becomes
  exact absurd (Numeral.isDecimalChar_of_mem h) (by decide)

/-- A text that the target language prescribes, up to a blank or a parenthesis. -/
theorem Becomes.prescribed (hreplacement : OnlyNumbered replacement) (text : String)
    (hend : (Lexer.between.read text.toList).2 = .between)
    (hwords : (Lexer.between.read text.toList).1.all (!·.isNumbered) = true) :
    Becomes replacement (fun _ => True) text text := by
  refine .of_between _ (Prod.ext rfl hend) fun w hw => hreplacement w ?_
  simpa using List.all_eq_true.mp hwords _ hw

namespace SortExpr

theorem becomes_renderIndices (hreplacement : OnlyNumbered replacement) (indices : List Nat) :
    Becomes replacement IsDelimited (renderIndices indices) (renderIndices indices) := by
  induction indices with
  | nil => exact .weaken (.prescribed hreplacement _ (by decide) (by decide))
  | cons n rest ih =>
    have hnumber := becomes_decimal hreplacement n
    exact ((Becomes.prescribed hreplacement _ (by decide) (by decide)).append hnumber).delimited ih
      fun _ => isDelimited_renderIndices rest

mutual

/-- The text of a sort is kept. -/
theorem becomes_render (hreplacement : OnlyNumbered replacement) {s : SortExpr}
    (h : s.Over (Name.Becomes replacement expansion)) :
    Becomes replacement IsDelimited s.render s.render := by
  cases s with
  | named name => exact (over_named.mp h : KeepsWords replacement name).becomes
  | indexed name indices =>
    have hname : KeepsWords replacement name := over_indexed.mp h
    rw [render]
    exact (((Becomes.prescribed hreplacement _ (by decide) (by decide)).append
      hname.becomes).delimited (becomes_renderIndices hreplacement indices) fun _ =>
        isDelimited_renderIndices indices).parenthesis
  | applied name arguments =>
    obtain ⟨hname, harguments⟩ := over_applied.mp h
    have hname : KeepsWords replacement name := hname
    rw [render]
    exact (((Becomes.prescribed hreplacement _ (by decide) (by decide)).append
      hname.becomes).delimited (becomes_renderAll hreplacement harguments) fun _ =>
        isDelimited_renderAll arguments).parenthesis

theorem becomes_renderAll (hreplacement : OnlyNumbered replacement) {ss : List SortExpr}
    (h : ∀ s ∈ ss, s.Over (Name.Becomes replacement expansion)) :
    Becomes replacement IsDelimited (renderAll ss) (renderAll ss) := by
  cases ss with
  | nil => exact .weaken (.prescribed hreplacement _ (by decide) (by decide))
  | cons s ss =>
    obtain ⟨hs, hss⟩ := List.forall_mem_cons.mp h
    rw [renderAll]
    exact ((Becomes.prescribed hreplacement _ (by decide) (by decide)).append
      (becomes_render hreplacement hs)).delimited (becomes_renderAll hreplacement hss) fun _ =>
        isDelimited_renderAll ss

end

/-- Sorts with blanks between them. -/
theorem becomes_joined_render (hreplacement : OnlyNumbered replacement) {ss : List SortExpr}
    (h : ∀ s ∈ ss, s.Over (Name.Becomes replacement expansion)) :
    Becomes replacement IsDelimited (joined " " (ss.map render)) (joined " " (ss.map render)) := by
  refine .joined (List.forall₂_same.mpr ?_)
  exact List.forall_mem_map.mpr fun s hs => becomes_render hreplacement (h s hs)

end SortExpr

namespace Term

theorem becomes_renderBinder (hreplacement : OnlyNumbered replacement) {b : String × SortExpr}
    (hname : KeepsWords replacement b.1) (hsort : b.2.Over (Name.Becomes replacement expansion)) :
    Becomes replacement IsDelimited (renderBinder b) (renderBinder b) :=
  (((Becomes.prescribed hreplacement _ (by decide) (by decide)).append hname.becomes).spaced.append
    (SortExpr.becomes_render hreplacement hsort)).parenthesis

theorem becomes_renderBindings (hreplacement : OnlyNumbered replacement)
    {names texts texts' : List String} (hnames : ∀ name ∈ names, KeepsWords replacement name)
    (htexts : List.Forall₂ (Becomes replacement IsDelimited) texts texts') :
    Becomes replacement IsDelimited (renderBindings names texts) (renderBindings names texts') := by
  refine .joined ?_
  induction htexts generalizing names with
  | nil => cases names <;> exact .nil
  | cons htext htexts ih =>
    cases names with
    | nil => exact .nil
    | cons name names =>
      obtain ⟨hname, hnames⟩ := List.forall_mem_cons.mp hnames
      exact .cons ((((Becomes.prescribed hreplacement _ (by decide) (by decide)).append
        hname.becomes).spaced.append htext).parenthesis) (ih hnames)

theorem becomes_renderTester (hreplacement : OnlyNumbered replacement) {constructor : String}
    {signature : Option (List SortExpr × SortExpr)}
    (h : (tester constructor signature).Over (Name.Becomes replacement expansion)) :
    Becomes replacement IsDelimited (tester constructor signature).render
      (tester constructor signature).render := by
  cases signature with
  | none =>
    have hname : KeepsWords replacement constructor := over_tester_none.mp h
    rw [render]
    exact ((Becomes.prescribed hreplacement _ (by decide) (by decide)).append
      hname.becomes).parenthesis
  | some signature =>
    obtain ⟨hname, harguments, hresult⟩ := over_tester_some.mp h
    have hname : KeepsWords replacement constructor := hname
    have harguments := SortExpr.becomes_joined_render hreplacement harguments
    have hresult := SortExpr.becomes_render hreplacement hresult
    have hopened := (Becomes.prescribed hreplacement "(_ is (" (by decide)
      (by decide)).append hname.becomes
    have hsignature := (hopened.ended (.prescribed hreplacement " (" (by decide)
      (by decide)) rfl (.inl rfl)).append harguments
    have hresult := (hsignature.ended (.prescribed hreplacement ") " (by decide)
      (by decide)) rfl (.inr (.inr rfl))).append hresult
    rw [render]
    exact hresult.ended (.weaken (.prescribed hreplacement _ (by decide) (by decide))) rfl
      (.inr (.inr rfl))

theorem becomes_renderIndexed (hreplacement : OnlyNumbered replacement) {name : String}
    {indices : List Int} (hname : KeepsWords replacement name) :
    Becomes replacement IsDelimited (indexed name indices).render
      (indexed name indices).render := by
  have hindices : Becomes replacement IsDelimited (joined " " (indices.map Numeral.decimal))
      (joined " " (indices.map Numeral.decimal)) :=
    .joined (List.forall₂_same.mpr
      (List.forall_mem_map.mpr fun i _ => becomes_decimal hreplacement i))
  rw [render]
  exact (((Becomes.prescribed hreplacement _ (by decide) (by decide)).append
    hname.becomes).spaced.append hindices).parenthesis

/-- Digits behind the mark of their base. -/
theorem becomes_renderDigits (hreplacement : OnlyNumbered replacement) {mark : String} {b : Nat}
    (hb : 1 < b) (hb' : b ≤ 16) (hclosed : IsClosed mark) (hmark : 's' ∉ mark.toList)
    (length value : Nat) :
    Becomes replacement IsDelimited (mark ++ Numeral.padded b length value)
      (mark ++ Numeral.padded b length value) := by
  have hdigits : ∀ d < 16, Nat.digitChar d ≠ 's' := by decide
  have hpadded := isClosed_of_plain (Numeral.isPlainText_padded hb hb' length value)
  refine (KeepsWords.of_not_mem hreplacement (hclosed.append hpadded) fun h => ?_).becomes
  rw [String.toList_append, Numeral.padded, String.toList_ofList, List.mem_append,
    List.mem_append] at h
  rcases h with h | hzero | hdigit
  · exact hmark h
  · exact absurd (List.eq_of_mem_replicate hzero) (by decide)
  · obtain ⟨d, hd, hletter⟩ := exists_digit_of_mem_toDigits hb hdigit
    exact hdigits d (by omega) hletter.symm

mutual

/-- The text of an expanded term is the text of the term, with the names of its nodes replaced. -/
theorem becomes_render (hreplacement : OnlyNumbered replacement) {t : Term}
    (h : t.Over (Name.Becomes replacement expansion)) :
    Becomes replacement IsDelimited t.render (t.expand expansion).render := by
  have hprescribed (text : String) (hend : (Lexer.between.read text.toList).2 = .between)
      (hwords : (Lexer.between.read text.toList).1.all (!·.isNumbered) = true) :=
    Becomes.prescribed hreplacement text hend hwords
  -- A delimiter follows every part, so that no word goes on behind the part that it starts in.
  cases t with
  | symbol text => exact (over_symbol.mp h : KeepsWords replacement text).becomes
  | node id => exact over_node.mp h
  | numeral value => exact becomes_decimal hreplacement value
  | decimal value =>
    have hpoint : KeepsWords replacement (Nat.repr value ++ ".0") := by
      refine .of_not_mem hreplacement (.append (isClosed_repr value) (by decide)) fun hletter => ?_
      rw [String.toList_append, List.mem_append] at hletter
      rcases hletter with hdigit | hpoint
      · exact absurd (Numeral.isDecimalChar_of_mem_repr hdigit) (by decide)
      · exact absurd hpoint (by decide)
    exact hpoint.becomes
  | binary bits value =>
    exact becomes_renderDigits hreplacement (by decide) (by decide) (by decide) (by decide) bits
      value
  | hexadecimal digits value =>
    exact becomes_renderDigits hreplacement (by decide) (by decide) (by decide) (by decide) digits
      value
  | quoted characters => exact (KeepsWords.quote characters).becomes
  | indexed name indices => exact becomes_renderIndexed hreplacement (over_indexed.mp h)
  | ascribed name sort =>
    obtain ⟨hname, hsort⟩ := over_ascribed.mp h
    have hname : KeepsWords replacement name := hname
    have hsort := SortExpr.becomes_render hreplacement hsort
    rw [expand_ascribed, render]
    exact (((hprescribed _ (by decide) (by decide)).append hname.becomes).spaced.append
      hsort).parenthesis
  | tester constructor signature => exact becomes_renderTester hreplacement h
  | app function operands =>
    obtain ⟨hfunction, hoperands⟩ := over_app.mp h
    have hparts := List.Forall₂.cons (becomes_render hreplacement hfunction)
      (becomes_renderAll hreplacement hoperands)
    rw [expand, render, render]
    exact ((hprescribed _ (by decide) (by decide)).append (.joined hparts)).parenthesis
  | bind names values body =>
    obtain ⟨hnames, hvalues, hbody⟩ := over_bind.mp h
    have hbindings := becomes_renderBindings hreplacement hnames
      (becomes_renderAll hreplacement hvalues)
    have hopened := ((hprescribed "(let (" (by decide) (by decide)).append
      hbindings).ended (hprescribed ") " (by decide) (by decide)) rfl (.inr (.inr rfl))
    rw [expand, render, render]
    exact (hopened.append (becomes_render hreplacement hbody)).parenthesis
  | forAll binders body =>
    obtain ⟨hbinders, hbody⟩ := over_forAll.mp h
    have hbinders : Becomes replacement IsDelimited (joined " " (binders.map renderBinder))
        (joined " " (binders.map renderBinder)) :=
      .joined (List.forall₂_same.mpr (List.forall_mem_map.mpr fun b hb =>
        becomes_renderBinder hreplacement (hbinders b hb).1 (hbinders b hb).2))
    have hopened := ((hprescribed "(forall (" (by decide) (by decide)).append
      hbinders).ended (hprescribed ") " (by decide) (by decide)) rfl (.inr (.inr rfl))
    rw [expand, render, render]
    exact (hopened.append (becomes_render hreplacement hbody)).parenthesis
  | attributed body attributes =>
    obtain ⟨hbody, hattributes⟩ := over_attributed.mp h
    have hattributes : Becomes replacement IsDelimited
        (joined " " (attributes.map renderAttribute))
        (joined " " (attributes.map renderAttribute)) :=
      .joined (List.forall₂_same.mpr (List.forall_mem_map.mpr fun a ha =>
        .renderAttribute (hattributes a ha)))
    rw [expand, render, render]
    exact (((hprescribed _ (by decide) (by decide)).append
      (becomes_render hreplacement hbody)).spaced.append hattributes).parenthesis
  | adjacent terms =>
    rw [expand, render, render]
    exact .joined (becomes_renderAll hreplacement (over_adjacent.mp h))

theorem becomes_renderAll (hreplacement : OnlyNumbered replacement) {ts : List Term}
    (h : ∀ t ∈ ts, t.Over (Name.Becomes replacement expansion)) :
    List.Forall₂ (Becomes replacement IsDelimited) (renderAll ts)
      (renderAll (expandAll expansion ts)) := by
  cases ts with
  | nil => exact .nil
  | cons t ts =>
    obtain ⟨ht, hts⟩ := List.forall_mem_cons.mp h
    exact .cons (becomes_render hreplacement ht) (becomes_renderAll hreplacement hts)

end

end Term

end SolverScript
