import SolverScript.Proofs.Script.ClosedTexts
import SolverScript.Proofs.Value.QuotedText

/-!
# Replacing words in a text

The words of a text can be replaced one by one: a lexer copies the text and exchanges every word
that it completes. What is inside of string literals, quoted symbols and comments is no word and
stays. A word ends at a blank or a parenthesis, so that the parts of a term are replaced
independently of each other, whatever they are.

## Main definitions

* `replaceWords` - the text with its words replaced
* `Becomes` - what becomes of a text that others follow
* `KeepsWords` - texts that a replacement leaves as they are

## Main results

* `Becomes.append`, `Becomes.joined` - parts of a text are replaced independently
* `KeepsWords.becomes` - a text without words to replace stays
-/

namespace SolverScript

namespace Lexer

variable {replacement : List Char → List Char}

/-- What is written for a lexeme when it is complete. Only words have not been written before. -/
def written (replacement : List Char → List Char) : Lexeme → List Char
  | .word cs => replacement cs
  | _ => []

/-- What is written for a character that leads to a state. -/
def immediate (c : Char) : Lexer → List Char
  | word _ => []
  | _ => [c]

/-- The characters that have been read and not been written. -/
def pending : Lexer → List Char
  | word cs => cs
  | _ => []

/-- Copies characters and replaces the words that they complete. -/
def replace (replacement : List Char → List Char) (s : Lexer) : List Char → List Char
  | [] => s.completed.flatMap (written replacement)
  | c :: cs => (s.step c).1.flatMap (written replacement) ++ immediate c (s.step c).2 ++
      replace replacement (s.step c).2 cs

end Lexer

/-- A text with its words replaced. -/
def replaceWords (replacement : List Char → List Char) (text : String) : String :=
  String.ofList (Lexer.between.replace replacement text.toList)

/-- Whether what follows ends a word: a blank or a parenthesis, or nothing. -/
def IsDelimited (cs : List Char) : Prop := ∀ c ∈ cs.head?, c = ' ' ∨ c = '(' ∨ c = ')'

namespace Lexer

variable {replacement : List Char → List Char} {s : Lexer} {cs rest : List Char}

theorem words_start (c : Char) : (start c).1.flatMap (written replacement) = [] := by
  unfold start
  split_ifs <;> rfl

theorem immediate_start (c : Char) : immediate c (start c).2 ++ (start c).2.pending = [c] := by
  unfold start
  split_ifs <;> rfl

/-- In front of a delimiter it does not matter what was read before. -/
theorem replace_of_isDelimited (hs : s.mode = .plain) (h : IsDelimited rest) :
    s.replace replacement rest =
      s.completed.flatMap (written replacement) ++ between.replace replacement rest := by
  cases rest with
  | nil =>
    change _ = _ ++ []
    rw [List.append_nil]
    rfl
  | cons c rest =>
    have hstep : s.step c = (s.completed ++ (between.step c).1, (between.step c).2) := by
      have hc := h c rfl
      cases s with
      | literal | quotedSymbol | comment => cases hs
      | between | word | behindQuote => rcases hc with rfl | rfl | rfl <;> rfl
    simp only [replace, hstep, List.flatMap_append, List.append_assoc]

/-- Texts are replaced independently of a delimiter behind them. -/
theorem replace_append (hs : (s.read cs).2.mode = .plain) (h : IsDelimited rest) :
    s.replace replacement (cs ++ rest) =
      s.replace replacement cs ++ between.replace replacement rest := by
  induction cs generalizing s with
  | nil => exact replace_of_isDelimited hs h
  | cons c cs ih => simp only [List.cons_append, replace, ih hs, List.append_assoc]

/-- A text between lexemes, whatever stands behind it. -/
theorem replace_append_of_between (hs : (s.read cs).2 = between) :
    s.replace replacement (cs ++ rest) =
      s.replace replacement cs ++ between.replace replacement rest := by
  induction cs generalizing s with
  | nil =>
    obtain rfl : s = between := hs
    rfl
  | cons c cs ih => simp only [List.cons_append, replace, ih hs, List.append_assoc]

/-- A character is written in the end, if the word that it completes is one to keep. -/
theorem step_of_kept {c : Char} (h : ∀ w, .word w ∈ (s.step c).1 → replacement w = w) :
    (s.step c).1.flatMap (written replacement) ++ immediate c (s.step c).2 ++
      (s.step c).2.pending = s.pending ++ [c] := by
  cases s with
  | between =>
    rw [step, words_start, List.nil_append, immediate_start]
    rfl
  | word cs =>
    by_cases hc : (isSpecial c || isSeparator c) = true
    · have hword : replacement cs = cs := h cs (by simp [step, hc])
      rw [step, if_pos hc, List.flatMap_cons, words_start, List.append_nil, written, hword,
        List.append_assoc, immediate_start, pending]
    · rw [step, if_neg hc]
      rfl
  | behindQuote cs =>
    by_cases hc : c = '"'
    · rw [step, if_pos hc]
      rfl
    · rw [step, if_neg hc, List.flatMap_cons, words_start, List.append_nil, List.append_assoc,
        immediate_start]
      rfl
  | literal cs => by_cases hc : c = '"' <;> simp [step, hc, immediate, pending]
  | quotedSymbol cs => by_cases hc : c = '|' <;> simp [step, hc, immediate, pending, written]
  | comment => by_cases hc : isLineBreak c = true <;> simp [step, hc, immediate, pending]

/-- A text whose words are all to be kept is copied. -/
theorem replace_of_kept
    (h : ∀ w, .word w ∈ (s.read cs).1 ++ (s.read cs).2.completed → replacement w = w) :
    s.replace replacement cs = s.pending ++ cs := by
  induction cs generalizing s with
  | nil =>
    cases s with
    | word cs => simpa [replace, completed, written, pending] using h cs (by simp [read, completed])
    | _ => rfl
  | cons c cs ih =>
    rw [read, List.append_assoc] at h
    have hstep := step_of_kept fun w hw => h w (List.mem_append_left _ hw)
    rw [replace, ih fun w hw => h w (List.mem_append_right _ hw), ← List.append_assoc, hstep,
      List.append_assoc]
    rfl

/-- A word that is completed is what was pending. -/
theorem eq_pending_of_mem {w : List Char} {c : Char} (h : .word w ∈ (s.step c).1) :
    w = s.pending := by
  have hstart : .word w ∉ (start c).1 := by
    unfold start
    split_ifs <;> simp
  cases s with
  | between => exact absurd h hstart
  | word cs =>
    by_cases hc : (isSpecial c || isSeparator c) = true
    · rw [step, if_pos hc, List.mem_cons] at h
      exact Lexeme.word.inj (h.resolve_right hstart)
    · rw [step, if_neg hc] at h
      cases h
  | behindQuote cs => by_cases hc : c = '"' <;> simp [step, hc, hstart] at h
  | quotedSymbol cs => by_cases hc : c = '|' <;> simp [step, hc] at h
  | literal | comment => simp [step] at h

/-- What is pending only grows. -/
theorem mem_of_mem_pending {c d : Char} (h : d ∈ (s.step c).2.pending) :
    d ∈ s.pending ++ [c] := by
  have hstart (h : d ∈ (start c).2.pending) : d ∈ [c] := by
    rw [← immediate_start c]
    exact List.mem_append_right _ h
  cases s with
  | between => exact hstart h
  | word cs =>
    by_cases hc : (isSpecial c || isSeparator c) = true
    · rw [step, if_pos hc] at h
      exact List.mem_append_right _ (hstart h)
    · rwa [step, if_neg hc] at h
  | behindQuote cs =>
    by_cases hc : c = '"'
    · simp [step, hc, pending] at h
    · rw [step, if_neg hc] at h
      exact hstart h
  | literal cs => by_cases hc : c = '"' <;> simp [step, hc, pending] at h
  | quotedSymbol cs => by_cases hc : c = '|' <;> simp [step, hc, pending] at h
  | comment => by_cases hc : isLineBreak c = true <;> simp [step, hc, pending] at h

/-- The characters of words are characters of the text. -/
theorem mem_of_mem_word {w : List Char} {d : Char} (hd : d ∈ w)
    (h : .word w ∈ (s.read cs).1 ++ (s.read cs).2.completed) : d ∈ s.pending ++ cs := by
  induction cs generalizing s with
  | nil =>
    cases s with
    | word cs =>
      obtain rfl : w = cs := by simpa [read, completed] using h
      exact List.mem_append_left _ hd
    | _ => simp [read, completed] at h
  | cons c cs ih =>
    rw [read, List.append_assoc] at h
    rcases List.mem_append.mp h with hnow | hlater
    · rw [← eq_pending_of_mem hnow]
      exact List.mem_append_left _ hd
    · have hsplit : s.pending ++ c :: cs = (s.pending ++ [c]) ++ cs := by simp
      rw [hsplit, List.mem_append]
      exact (List.mem_append.mp (ih hlater)).imp_left mem_of_mem_pending

/-- A character that neither separates anything nor is special belongs to a word. -/
theorem step_of_ordinary (replacement : List Char → List Char) {c : Char} (hs : s.mode = .plain)
    (hc : (isSpecial c || isSeparator c) = false) :
    (s.step c).2 = .word (s.pending ++ [c]) ∧ (∀ w, .word w ∉ (s.step c).1) ∧
      (s.step c).1.flatMap (written replacement) = [] := by
  have hstart : start c = ([], .word [c]) := by
    simp only [isSpecial, Bool.or_eq_false_iff, beq_eq_false_iff_ne] at hc
    simp [start, hc]
  cases s with
  | between => simp [step, hstart, pending]
  | word w => simp [step, hc, pending]
  | behindQuote cs =>
    have hquote : c ≠ '"' := by
      rintro rfl
      cases hc
    simp [step, hquote, hstart, pending, written]
  | literal | quotedSymbol | comment => cases hs

/-- A word is complete when something else follows, and is replaced as a whole. -/
theorem read_ordinary (replacement : List Char → List Char) (hs : s.mode = .plain)
    (hne : cs ≠ []) (h : ∀ c ∈ cs, (isSpecial c || isSeparator c) = false) :
    (s.read cs).2 = .word (s.pending ++ cs) ∧ (∀ w, .word w ∉ (s.read cs).1) ∧
      s.replace replacement cs = replacement (s.pending ++ cs) := by
  induction cs generalizing s with
  | nil => exact absurd rfl hne
  | cons c cs ih =>
    obtain ⟨hc, hcs⟩ := List.forall_mem_cons.mp h
    obtain ⟨hstate, hwords, hwritten⟩ := step_of_ordinary replacement hs hc
    rw [read, replace, hstate, hwritten]
    cases cs with
    | nil => simpa [read, replace, immediate, completed, written] using hwords
    | cons d ds =>
      obtain ⟨hread, hrest, hreplace⟩ := ih (s := .word (s.pending ++ [c])) rfl
        (List.cons_ne_nil d ds) hcs
      refine ⟨?_, fun w hw => (List.mem_append.mp hw).elim (hwords w) (hrest w), ?_⟩
      · rw [hread]
        simp [pending]
      · rw [hreplace]
        simp [immediate, pending]

/-- A quoted symbol goes on up to the next bar. -/
theorem read_insideBars {ds : List Char} (h : '|' ∉ cs) :
    (quotedSymbol ds).read cs = ([], .quotedSymbol (ds ++ cs)) := by
  induction cs generalizing ds with
  | nil => simp [read]
  | cons c cs ih =>
    obtain ⟨hc, hcs⟩ := List.ne_and_not_mem_of_not_mem_cons h
    rw [read, step, if_neg (Ne.symm hc), ih hcs]
    simp

end Lexer

/-! ### What becomes of a text -/

/-- What becomes of a text, if what is replaced behind it meets a condition. -/
def Becomes (replacement : List Char → List Char) (followed : List Char → Prop) (s t : String) :
    Prop :=
  ∀ rest, followed rest → Lexer.between.replace replacement (s.toList ++ rest) =
    t.toList ++ Lexer.between.replace replacement rest

/-- Whether a replacement leaves a text as it is: nothing is open at its end, and all words in it
are to be kept. -/
structure KeepsWords (replacement : List Char → List Char) (text : String) : Prop where
  closed : IsClosed text
  words : ∀ w, .word w ∈ lexemes text → replacement w = w

variable {replacement : List Char → List Char} {followed : List Char → Prop}
  {s t s' t' : String}

/-- A text without words to replace stays. -/
theorem KeepsWords.becomes (h : KeepsWords replacement s) :
    Becomes replacement IsDelimited s s := by
  intro rest hrest
  have hmode := (Lexer.mode_read .between s).trans h.closed
  rw [Lexer.replace_append hmode hrest, Lexer.replace_of_kept h.words]
  rfl

namespace Becomes

theorem replaceWords_eq (h : Becomes replacement IsDelimited s t) :
    replaceWords replacement s = t := by
  have hwhole := h [] (by simp [IsDelimited])
  rw [List.append_nil] at hwhole
  rw [replaceWords, hwhole]
  change String.ofList (t.toList ++ []) = t
  rw [List.append_nil, String.ofList_toList]

theorem weaken (h : Becomes replacement (fun _ => True) s t) : Becomes replacement followed s t :=
  fun rest _ => h rest trivial

/-- A text whose end is between words. -/
theorem of_between (found : List Lexeme) (h : Lexer.between.read s.toList = (found, .between))
    (hwords : ∀ w, .word w ∈ found → replacement w = w) :
    Becomes replacement (fun _ => True) s s := by
  intro rest _
  have hkept : Lexer.between.replace replacement s.toList = s.toList :=
    Lexer.replace_of_kept (by simpa [h, Lexer.completed] using hwords)
  rw [Lexer.replace_append_of_between (by rw [h]), hkept]

/-- One text behind another that does not end within a word. -/
theorem append (h : Becomes replacement (fun _ => True) s t)
    (h' : Becomes replacement followed s' t') :
    Becomes replacement followed (s ++ s') (t ++ t') := by
  intro rest hrest
  rw [String.toList_append, List.append_assoc, h _ trivial, h' rest hrest, String.toList_append,
    List.append_assoc]

/-- One text behind another that a delimiter ends. -/
theorem delimited (h : Becomes replacement IsDelimited s t)
    (h' : Becomes replacement followed s' t')
    (hdelimited : ∀ rest, followed rest → IsDelimited (s'.toList ++ rest)) :
    Becomes replacement followed (s ++ s') (t ++ t') := by
  intro rest hrest
  rw [String.toList_append, List.append_assoc, h _ (hdelimited rest hrest), h' rest hrest,
    String.toList_append, List.append_assoc]

/-- A text that starts with a delimiter ends the one in front of it. -/
theorem ended {c : Char} {cs : List Char} (h : Becomes replacement IsDelimited s t)
    (h' : Becomes replacement followed s' t') (hs' : s'.toList = c :: cs)
    (hc : c = ' ' ∨ c = '(' ∨ c = ')') : Becomes replacement followed (s ++ s') (t ++ t') :=
  h.delimited h' fun rest _ => by simpa [IsDelimited, hs'] using hc

/-- A blank ends a text. -/
theorem spaced (h : Becomes replacement IsDelimited s t) :
    Becomes replacement followed (s ++ " ") (t ++ " ") :=
  h.ended (weaken (of_between [] rfl (by simp))) rfl (.inl rfl)

/-- A parenthesis ends a text. -/
theorem parenthesis (h : Becomes replacement IsDelimited s t) :
    Becomes replacement followed (s ++ ")") (t ++ ")") :=
  h.ended (weaken (of_between [.closing] rfl (by simp))) rfl (.inr (.inr rfl))

/-- Texts with blanks between them. -/
theorem joined {ss ts : List String}
    (h : List.Forall₂ (Becomes replacement IsDelimited) ss ts) :
    Becomes replacement IsDelimited (joined " " ss) (joined " " ts) := by
  induction h with
  | nil => exact weaken (of_between [] rfl (by simp))
  | @cons s t ss ts hst hrest ih =>
    cases hrest with
    | nil => exact hst
    | cons => exact hst.spaced.append ih

end Becomes

/-! ### Numbered words -/

namespace Lexeme

/-- Whether a lexeme is a word like the names of nodes: an `s` with a number. -/
def isNumbered : Lexeme → Bool
  | .word ('s' :: c :: cs) => (c :: cs).all Numeral.isDecimalChar
  | _ => false

theorem mem_of_isNumbered {w : List Char} (h : (word w).isNumbered = true) :
    's' ∈ w ∧ ∀ c ∈ w, c = 's' ∨ Numeral.isDecimalChar c = true := by
  unfold isNumbered at h
  split at h
  · next c cs hw =>
    obtain rfl := Lexeme.word.inj hw
    exact ⟨List.mem_cons_self, List.forall_mem_cons.mpr
      ⟨.inl rfl, fun d hd => .inr (List.all_eq_true.mp h d hd)⟩⟩
  · cases h

end Lexeme

/-- Whether a replacement concerns numbered words only. -/
def OnlyNumbered (replacement : List Char → List Char) : Prop :=
  ∀ w, (Lexeme.word w).isNumbered = false → replacement w = w

namespace IsWordText

/-- A word is replaced as a whole. -/
theorem becomes (h : IsWordText s) (hne : s ≠ "") :
    Becomes replacement IsDelimited s (String.ofList (replacement s.toList)) := by
  intro rest hrest
  obtain ⟨hread, -, hreplace⟩ := Lexer.read_ordinary replacement (s := .between) rfl
    (mt String.toList_eq_nil_iff.mp hne) h
  rw [Lexer.replace_append (by rw [hread]; rfl) hrest, hreplace, String.toList_ofList]
  rfl

theorem isClosed (h : IsWordText s) : IsClosed s :=
  isClosed_of_plain h.isPlainText

end IsWordText

namespace KeepsWords

/-- A text without the letter of numbered words. -/
theorem of_not_mem (hreplacement : OnlyNumbered replacement) (hclosed : IsClosed s)
    (hletter : 's' ∉ s.toList) : KeepsWords replacement s := by
  refine ⟨hclosed, fun w hw => hreplacement w ?_⟩
  by_contra hnumber
  obtain ⟨hmem, -⟩ := Lexeme.mem_of_isNumbered (by simpa using hnumber)
  exact hletter (Lexer.mem_of_mem_word hmem hw)

/-- The last word of a text goes on. -/
theorem append_word (hs : KeepsWords replacement s) (ht : IsWordText t)
    (hlast : replacement ((Lexer.between.read s.toList).2.pending ++ t.toList) =
      (Lexer.between.read s.toList).2.pending ++ t.toList) : KeepsWords replacement (s ++ t) := by
  refine ⟨hs.closed.append ht.isClosed, fun w hw => ?_⟩
  by_cases hempty : t = ""
  · subst hempty
    exact hs.words w (by simpa using hw)
  have hmode := (Lexer.mode_read .between s).trans hs.closed
  obtain ⟨hread, hwords, -⟩ := Lexer.read_ordinary replacement hmode
    (mt String.toList_eq_nil_iff.mp hempty) ht
  simp only [lexemes, String.toList_append, Lexer.read_append, hread, Lexer.completed,
    List.append_assoc, List.mem_append, List.mem_singleton] at hw
  rcases hw with hbefore | hwithin | hlexeme
  · exact hs.words w (List.mem_append_left _ hbefore)
  · exact absurd hwithin (hwords w)
  · rw [Lexeme.word.inj hlexeme]
    exact hlast

/-- A single word. -/
theorem of_word (hs : IsWordText s) (hkept : replacement s.toList = s.toList) :
    KeepsWords replacement s := by
  have hempty : KeepsWords replacement "" := ⟨rfl, by simp [lexemes, Lexer.read, Lexer.completed]⟩
  rw [← String.empty_append (s := s)]
  exact hempty.append_word hs hkept

/-- A string literal has no words. -/
theorem quote (characters : List Char) : KeepsWords replacement (Term.quote characters) := by
  refine ⟨isClosed_of_reads (Term.reads_quote characters), fun w hw => ?_⟩
  simp [lexemes, Lexer.read_quote, Lexer.completed] at hw

end KeepsWords

/-- An attribute with its value, which is a quoted symbol. -/
theorem Becomes.renderAttribute {a : String × String} (h : KeepsWords replacement a.1) :
    Becomes replacement IsDelimited (Term.renderAttribute a) (Term.renderAttribute a) := by
  obtain ⟨keyword, value⟩ := a
  have hvalue : '|' ∉ (value.toList.flatMap fun c => (Term.sanitizeChar c).toList) := by
    intro hbar
    obtain ⟨c, -, hc⟩ := List.mem_flatMap.mp hbar
    unfold Term.sanitizeChar at hc
    split at hc
    · exact absurd hc (by decide)
    · exact absurd hc (by decide)
    · next hne _ => exact hne (by simpa [eq_comm] using hc)
  have hread : Lexer.between.read
      (" |" ++ (SolverScript.joined "" (value.toList.map Term.sanitizeChar) ++ "|")).toList =
        ([.quotedSymbol (value.toList.flatMap fun c => (Term.sanitizeChar c).toList)],
          .between) := by
    rw [String.toList_append, Lexer.read_append, String.toList_append, toList_joined_empty,
      List.flatMap_map]
    change ([] ++ ((Lexer.quotedSymbol []).read _).1, ((Lexer.quotedSymbol []).read _).2) = _
    rw [Lexer.read_append, Lexer.read_insideBars hvalue]
    rfl
  rw [Term.renderAttribute, String.append_assoc, String.append_assoc]
  exact h.becomes.delimited (weaken (of_between _ hread (by simp))) fun _ _ => by simp [IsDelimited]

end SolverScript
