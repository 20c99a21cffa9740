import SolverScript.Proofs.Semantics.Reader

/-!
# The lexemes of a script

What a reader of the target language is left with when blanks, line breaks and comments are dropped:
parentheses, string literals, quoted symbols, and words. A comment starts at a semicolon outside of
string literals and quoted symbols and goes to the end of its line. A doubled quote in a string
literal stands for a quote.

## Main definitions

* `Lexeme`, `Lexer` - lexemes, and what a lexer is in the middle of
* `lexemes` - the lexemes of a text
* `IsClosed` - texts that leave no string literal, quoted symbol or comment open
* `ReadAlike` - texts with the same lexemes, none of which goes on behind them

## Main results

* `ReadAlike.remark`, `ReadAlike.comment` - a comment that ends with its line has no lexemes
* `lexemes_eq_of_readAlike` - lines that are read alike have the same lexemes
-/

namespace SolverScript

/-! ### Texts that leave nothing open -/

namespace ReaderMode

/-- What a character leads to. Parentheses do not matter. -/
def step (mode : ReaderMode) (c : Char) : ReaderMode :=
  match mode with
  | plain =>
    if c = '"' then string else if c = '|' then symbol else if c = ';' then comment else plain
  | string => if c = '"' then plain else string
  | symbol => if c = '|' then plain else symbol
  | comment => if isLineBreak c then plain else comment

/-- What a text leads to. -/
def run (mode : ReaderMode) (text : String) : ReaderMode := text.toList.foldl step mode

theorem run_append (mode : ReaderMode) (s t : String) :
    mode.run (s ++ t) = (mode.run s).run t := by
  rw [run, String.toList_append, List.foldl_append]
  rfl

/-- A text that changes nothing. -/
theorem run_of_forall_step {mode : ReaderMode} {text : String}
    (h : ∀ c ∈ text.toList, mode.step c = mode) : mode.run text = mode := by
  unfold run
  generalize text.toList = cs at h
  induction cs with
  | nil => rfl
  | cons c cs ih =>
    obtain ⟨hc, hcs⟩ := List.forall_mem_cons.mp h
    rw [List.foldl_cons, hc]
    exact ih hcs

end ReaderMode

/-- A reader that counts parentheses is in the same mode. -/
theorem Reader.mode_step {r r' : Reader} {c : Char} (h : r.step c = some r') :
    r'.mode = r.mode.step c := by
  obtain ⟨mode, depth⟩ := r
  unfold Reader.step at h
  unfold ReaderMode.step
  cases mode <;> grind

theorem Reader.mode_run {r r' : Reader} {text : String} (h : r.run text = some r') :
    r'.mode = r.mode.run text := by
  unfold Reader.run at h
  unfold ReaderMode.run
  generalize text.toList = cs at h ⊢
  induction cs generalizing r with
  | nil =>
    cases h
    rfl
  | cons c cs ih =>
    obtain ⟨r₁, hstep, hrest⟩ := Option.bind_eq_some_iff.mp h
    rw [ih hrest, Reader.mode_step hstep]
    rfl

/-- Whether a text leaves no string literal, quoted symbol or comment open. -/
def IsClosed (text : String) : Prop := ReaderMode.plain.run text = .plain

instance (text : String) : Decidable (IsClosed text) := inferInstanceAs (Decidable (_ = _))

theorem isClosed_of_reads {t : String} {a b : Nat} (h : Reads t a b) : IsClosed t :=
  (Reader.mode_run h).symm

theorem isClosed_of_plain {t : String} (h : IsPlainText t) : IsClosed t :=
  isClosed_of_reads (reads_of_plain h)

namespace IsClosed

variable {s t : String}

theorem append (hs : IsClosed s) (ht : IsClosed t) : IsClosed (s ++ t) := by
  rw [IsClosed, ReaderMode.run_append, hs]
  exact ht

theorem joined {separator : String} {parts : List String} (hseparator : IsClosed separator)
    (hparts : ∀ t ∈ parts, IsClosed t) : IsClosed (joined separator parts) := by
  fun_induction SolverScript.joined separator parts with
  | case1 => rfl
  | case2 part => exact hparts part (by simp)
  | case3 part next rest ih =>
    obtain ⟨hpart, hrest⟩ := List.forall_mem_cons.mp hparts
    exact (hpart.append hseparator).append (ih hrest)

theorem terminated {ls : List String} (h : ∀ l ∈ ls, IsClosed l) : IsClosed (terminated ls) := by
  induction ls with
  | nil => rfl
  | cons l ls ih =>
    obtain ⟨hl, hls⟩ := List.forall_mem_cons.mp h
    exact (hl.append (by decide)).append (ih hls)

end IsClosed

/-! ### Lexemes -/

/-- The parts of a script that mean something. -/
inductive Lexeme where
  | opening
  | closing
  | word (characters : List Char)
  | literal (characters : List Char)
  | quotedSymbol (characters : List Char)
  deriving DecidableEq, Repr

/-- What a lexer is in the middle of. Behind a quote it is not known yet whether a string literal has
ended. -/
inductive Lexer where
  | between
  | word (characters : List Char)
  | literal (characters : List Char)
  | behindQuote (characters : List Char)
  | quotedSymbol (characters : List Char)
  | comment
  deriving DecidableEq, Repr

/-- Whether a character only separates others. -/
def isSeparator (c : Char) : Bool := c == ' ' || c == '\t' || isLineBreak c

namespace Lexer

/-- The lexeme that is complete if nothing follows that belongs to it. -/
def completed : Lexer → List Lexeme
  | word characters => [.word characters]
  | behindQuote characters => [.literal characters]
  | _ => []

/-- Reads a character that does not continue anything. -/
def start (c : Char) : List Lexeme × Lexer :=
  if c = '(' then ([.opening], between)
  else if c = ')' then ([.closing], between)
  else if c = '"' then ([], literal [])
  else if c = '|' then ([], quotedSymbol [])
  else if c = ';' then ([], comment)
  else if isSeparator c then ([], between)
  else ([], word [c])

/-- Reads a character. -/
def step (s : Lexer) (c : Char) : List Lexeme × Lexer :=
  match s with
  | literal cs => ([], if c = '"' then behindQuote cs else literal (cs ++ [c]))
  | quotedSymbol cs =>
    if c = '|' then ([.quotedSymbol cs], between) else ([], quotedSymbol (cs ++ [c]))
  | comment => ([], if isLineBreak c then between else comment)
  | word cs =>
    if isSpecial c || isSeparator c then (.word cs :: (start c).1, (start c).2)
    else ([], word (cs ++ [c]))
  | behindQuote cs =>
    if c = '"' then ([], literal (cs ++ [c])) else (.literal cs :: (start c).1, (start c).2)
  | between => start c

/-- Reads characters, and returns the lexemes that they complete. -/
def read (s : Lexer) : List Char → List Lexeme × Lexer
  | [] => ([], s)
  | c :: cs => ((s.step c).1 ++ ((s.step c).2.read cs).1, ((s.step c).2.read cs).2)

/-- The mode of a reader in the same place. -/
def mode : Lexer → ReaderMode
  | literal _ => .string
  | quotedSymbol _ => .symbol
  | comment => .comment
  | _ => .plain

theorem read_append (s : Lexer) (cs ds : List Char) :
    s.read (cs ++ ds) = ((s.read cs).1 ++ ((s.read cs).2.read ds).1, ((s.read cs).2.read ds).2) := by
  induction cs generalizing s with
  | nil => rfl
  | cons c cs ih => simp [read, ih, List.append_assoc]

theorem mode_start (c : Char) : (start c).2.mode = ReaderMode.plain.step c := by
  unfold start ReaderMode.step
  grind [mode]

theorem mode_step (s : Lexer) (c : Char) : (s.step c).2.mode = s.mode.step c := by
  have hordinary : (isSpecial c || isSeparator c) = false → ReaderMode.plain.step c = .plain := by
    intro h
    simp only [isSpecial, Bool.or_eq_false_iff, beq_eq_false_iff_ne] at h
    simp [ReaderMode.step, h]
  cases s with
  | between => exact mode_start c
  | word cs =>
    by_cases h : (isSpecial c || isSeparator c) = true
    · simpa only [step, if_pos h, mode] using mode_start c
    · simpa only [step, if_neg h, mode] using (hordinary (by simpa using h)).symm
  | behindQuote cs =>
    by_cases h : c = '"'
    · rw [h]
      rfl
    · simpa only [step, if_neg h, mode] using mode_start c
  | literal cs => by_cases h : c = '"' <;> simp [step, mode, ReaderMode.step, h]
  | quotedSymbol cs => by_cases h : c = '|' <;> simp [step, mode, ReaderMode.step, h]
  | comment => by_cases h : isLineBreak c = true <;> simp [step, mode, ReaderMode.step, h]

theorem mode_read (s : Lexer) (text : String) : (s.read text.toList).2.mode = s.mode.run text := by
  unfold ReaderMode.run
  generalize text.toList = cs
  induction cs generalizing s with
  | nil => rfl
  | cons c cs ih => rw [read, ih, mode_step, List.foldl_cons]

/-- A line break completes a lexeme, unless it is part of one, and ends a comment. -/
theorem step_lineBreak {s : Lexer} (hstring : s.mode ≠ .string) (hsymbol : s.mode ≠ .symbol) :
    s.step '\n' = (s.completed, between) := by
  cases s with
  | literal cs => exact absurd rfl hstring
  | quotedSymbol cs => exact absurd rfl hsymbol
  | _ => rfl

/-- A comment drops everything up to the end of its line. -/
theorem read_comment {text : String} (h : IsSingleLine text) :
    comment.read (text ++ "\n").toList = ([], between) := by
  rw [String.toList_append]
  unfold IsSingleLine at h
  generalize text.toList = cs at h
  induction cs with
  | nil => rfl
  | cons c cs ih =>
    obtain ⟨hc, hcs⟩ := List.forall_mem_cons.mp h
    have hstep : comment.step c = ([], comment) := by simp [step, hc]
    rw [List.cons_append, read, hstep, ih hcs]
    rfl

end Lexer

/-- The lexemes of a text. A string literal or a quoted symbol that is not closed is none. -/
def lexemes (text : String) : List Lexeme :=
  (Lexer.between.read text.toList).1 ++ (Lexer.between.read text.toList).2.completed

/-! ### Texts that are read alike -/

/-- Whether two texts have the same lexemes, and nothing goes on behind them. -/
def ReadAlike (s t : String) : Prop :=
  ∃ found, Lexer.between.read s.toList = (found, .between) ∧
    Lexer.between.read t.toList = (found, .between)

namespace ReadAlike

variable {s t s' t' : String}

theorem append (h : ReadAlike s t) (h' : ReadAlike s' t') : ReadAlike (s ++ s') (t ++ t') := by
  obtain ⟨found, hs, ht⟩ := h
  obtain ⟨found', hs', ht'⟩ := h'
  refine ⟨found ++ found', ?_, ?_⟩
  · rw [String.toList_append, Lexer.read_append, hs, hs']
  · rw [String.toList_append, Lexer.read_append, ht, ht']

theorem terminated_append {ls ms ls' ms' : List String}
    (h : ReadAlike (terminated ls) (terminated ms))
    (h' : ReadAlike (terminated ls') (terminated ms')) :
    ReadAlike (terminated (ls ++ ls')) (terminated (ms ++ ms')) := by
  rw [SolverScript.terminated_append, SolverScript.terminated_append]
  exact h.append h'

/-- What a line break completes, if no string literal or quoted symbol is open. -/
theorem exists_read_line {l : String} (hl : IsClosed l) :
    (Lexer.between.read l.toList).2.mode = .plain ∧
      Lexer.between.read (l ++ "\n").toList =
        ((Lexer.between.read l.toList).1 ++ (Lexer.between.read l.toList).2.completed,
          .between) := by
  have hmode : (Lexer.between.read l.toList).2.mode = .plain :=
    (Lexer.mode_read .between l).trans hl
  have hstep : (Lexer.between.read l.toList).2.step '\n' =
      ((Lexer.between.read l.toList).2.completed, .between) :=
    Lexer.step_lineBreak (by simp [hmode]) (by simp [hmode])
  refine ⟨hmode, ?_⟩
  rw [String.toList_append, Lexer.read_append]
  simp [Lexer.read, hstep]

/-- A remark behind a line that leaves nothing open. -/
theorem remark {l text : String} (hl : IsClosed l) (htext : IsSingleLine text) :
    ReadAlike (l ++ (" ; " ++ text) ++ "\n") (l ++ "\n") := by
  obtain ⟨hmode, hread⟩ := exists_read_line hl
  refine ⟨_, ?_, hread⟩
  generalize hs : (Lexer.between.read l.toList).2 = s at hmode ⊢
  -- The blank completes what the line break would complete, and the semicolon starts a comment.
  have hblank : s.read " ; ".toList = (s.completed, .comment) := by
    cases s <;> first | rfl | cases hmode
  have hcomment : Lexer.comment.read (text ++ "\n").toList = ([], .between) :=
    Lexer.read_comment htext
  rw [String.append_assoc, String.append_assoc, String.toList_append, Lexer.read_append, hs,
    String.toList_append, Lexer.read_append, hblank, hcomment, List.append_nil]

/-- A line that is a comment. -/
theorem comment {opening text : String}
    (hopening : Lexer.between.read opening.toList = ([], .comment))
    (htext : IsSingleLine text) : ReadAlike (opening ++ text ++ "\n") "" := by
  refine ⟨[], ?_, rfl⟩
  rw [String.append_assoc, String.toList_append, Lexer.read_append, hopening,
    Lexer.read_comment htext]
  rfl

/-- Lines that leave nothing open together. -/
theorem of_isClosed {ls : List String} (h : IsClosed (terminated ls)) :
    ReadAlike (terminated ls) (terminated ls) := by
  rcases eq_or_ne ls [] with rfl | hne
  · exact ⟨[], rfl, rfl⟩
  refine ⟨(Lexer.between.read (terminated ls).toList).1, ?_⟩
  rw [and_self]
  refine Prod.ext rfl ?_
  -- The last character is a line break, and a lexer in a plain mode that has just read one is
  -- between lexemes.
  have hmode := (Lexer.mode_read .between (terminated ls)).trans h
  rw [terminated_eq_joined hne, String.toList_append, Lexer.read_append] at hmode ⊢
  generalize (Lexer.between.read (joined "\n" ls).toList).2 = s at hmode ⊢
  cases s <;> first | rfl | cases hmode

end ReadAlike

theorem lexemes_append {s t : String} {found : List Lexeme}
    (h : Lexer.between.read s.toList = (found, .between)) :
    lexemes (s ++ t) = found ++ lexemes t := by
  simp [lexemes, String.toList_append, Lexer.read_append, h]

/-- Without anything open, the line break behind the last line makes no difference. -/
theorem lexemes_joined {ls : List String} {found : List Lexeme}
    (h : Lexer.between.read (terminated ls).toList = (found, .between)) :
    lexemes (joined "\n" ls) = found := by
  rcases eq_or_ne ls [] with rfl | hne
  · exact congrArg Prod.fst h
  rw [terminated_eq_joined hne, String.toList_append, Lexer.read_append] at h
  obtain ⟨hfound, hbetween⟩ := Prod.mk.inj h
  unfold lexemes
  generalize Lexer.between.read (joined "\n" ls).toList = q at hfound hbetween ⊢
  obtain ⟨before, s⟩ := q
  have hstep : s.step '\n' = (s.completed, .between) := by
    cases s with
    | literal cs => simp [Lexer.read, Lexer.step] at hbetween
    | quotedSymbol cs => simp [Lexer.read, Lexer.step] at hbetween
    | _ => rfl
  rw [← hfound]
  change before ++ s.completed = before ++ ((s.step '\n').1 ++ [])
  rw [hstep, List.append_nil]

/-- Lines that are read alike have the same lexemes. -/
theorem lexemes_eq_of_readAlike {ls ms : List String}
    (h : ReadAlike (terminated ls) (terminated ms)) :
    lexemes (joined "\n" ls) = lexemes (joined "\n" ms) := by
  obtain ⟨found, hls, hms⟩ := h
  rw [lexemes_joined hls, lexemes_joined hms]

end SolverScript
