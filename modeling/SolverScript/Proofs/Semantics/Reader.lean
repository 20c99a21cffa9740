import SolverScript.Proofs.Semantics.Symbols

/-!
# Reading a script character by character

A reader of the target language has to tell parentheses from characters that only look like them:
those in string literals, in quoted symbols and in comments. It counts the parentheses that are open.
A text is complete if no parenthesis is closed that is not open, all of them are closed in the end,
and no string literal or quoted symbol is left open. A quote is doubled in a string literal, which a
reader may take for the end of one literal and the start of another.

## Main definitions

* `Reader` - what a reader keeps of what it has read, with `Reader.run`
* `IsComplete` - texts that are a sequence of complete commands
* `IsPlainText`, `IsSingleLine` - texts without special characters, and without line breaks
* `Reads`, `ReadsLines` - texts and lines between two numbers of open parentheses

## Main results

* `isComplete_joined_iff` - lines that are complete together
* `Reads.lift` - parentheses around a text do not matter for it
* `reads_of_plain`, `reads_inside` - texts that open and close nothing
-/

namespace SolverScript

/-- What the next character is a part of, if it does not start anything new. -/
inductive ReaderMode where
  | plain
  | string
  | symbol
  | comment
  deriving DecidableEq, Repr

/-- What a reader keeps of the text before: what it is in, and how many parentheses are open. -/
structure Reader where
  mode : ReaderMode := .plain
  depth : Nat := 0
  deriving DecidableEq, Repr

/-- The characters that end a line, and with it a comment. -/
def isLineBreak (c : Char) : Bool := c == '\n' || c == '\r'

namespace Reader

/-- Reads one character, unless it closes a parenthesis that is not open. -/
def step (r : Reader) (c : Char) : Option Reader :=
  match r.mode with
  | .plain =>
    if c = '(' then some ⟨.plain, r.depth + 1⟩
    else if c = ')' then if r.depth = 0 then none else some ⟨.plain, r.depth - 1⟩
    else if c = '"' then some ⟨.string, r.depth⟩
    else if c = '|' then some ⟨.symbol, r.depth⟩
    else if c = ';' then some ⟨.comment, r.depth⟩
    else some r
  | .string => some (if c = '"' then ⟨.plain, r.depth⟩ else r)
  | .symbol => some (if c = '|' then ⟨.plain, r.depth⟩ else r)
  | .comment => some (if isLineBreak c then ⟨.plain, r.depth⟩ else r)

/-- Reads a text. -/
def run (r : Reader) (text : String) : Option Reader := text.toList.foldlM step r

end Reader

/-- Whether a text is a sequence of complete commands, possibly with a comment at the end. -/
def IsComplete (text : String) : Prop :=
  ∃ mode, Reader.run {} text = some ⟨mode, 0⟩ ∧ mode ≠ .string ∧ mode ≠ .symbol

/-- Whether a character opens, closes or separates anything. -/
def isSpecial (c : Char) : Bool :=
  c == '(' || c == ')' || c == '"' || c == '|' || c == ';' || isLineBreak c

/-- Whether no character of a text is special. -/
def IsPlainText (text : String) : Prop := ∀ c ∈ text.toList, isSpecial c = false

/-- Whether a text has no line breaks. -/
def IsSingleLine (text : String) : Prop := ∀ c ∈ text.toList, isLineBreak c = false

instance (text : String) : Decidable (IsPlainText text) :=
  List.decidableBAll (isSpecial · = false) text.toList

instance (text : String) : Decidable (IsSingleLine text) :=
  List.decidableBAll (isLineBreak · = false) text.toList

/-- Whether a text leads from one number of open parentheses to another. -/
def Reads (text : String) (before after : Nat) : Prop :=
  Reader.run ⟨.plain, before⟩ text = some ⟨.plain, after⟩

instance (text : String) (before after : Nat) : Decidable (Reads text before after) :=
  inferInstanceAs (Decidable (_ = _))

/-! ### Reading one text after another -/

namespace Reader

@[simp] theorem run_empty (r : Reader) : run r "" = some r := rfl

theorem run_append (r : Reader) (s t : String) :
    run r (s ++ t) = (run r s).bind fun r => run r t := by
  rw [run, String.toList_append, List.foldlM_append]
  rfl

/-- A text that changes nothing. -/
theorem run_of_forall_step {r : Reader} {text : String}
    (h : ∀ c ∈ text.toList, step r c = some r) : run r text = some r := by
  unfold run
  generalize text.toList = cs at h
  induction cs with
  | nil => rfl
  | cons c cs ih =>
    obtain ⟨hc, hcs⟩ := List.forall_mem_cons.mp h
    rw [List.foldlM_cons, hc]
    exact ih hcs

/-- More open parentheses around a character do not matter. -/
theorem step_lift {mode mode' : ReaderMode} {before after : Nat} {c : Char}
    (h : step ⟨mode, before⟩ c = some ⟨mode', after⟩) (k : Nat) :
    step ⟨mode, k + before⟩ c = some ⟨mode', k + after⟩ := by
  unfold step at h ⊢
  cases mode <;> grind

theorem run_lift {mode mode' : ReaderMode} {before after : Nat} {text : String}
    (h : run ⟨mode, before⟩ text = some ⟨mode', after⟩) (k : Nat) :
    run ⟨mode, k + before⟩ text = some ⟨mode', k + after⟩ := by
  unfold run at h ⊢
  generalize text.toList = cs at h ⊢
  induction cs generalizing mode before with
  | nil =>
    cases h
    rfl
  | cons c cs ih =>
    rw [List.foldlM_cons] at h ⊢
    obtain ⟨⟨mode₁, depth₁⟩, hstep, hrest⟩ := Option.bind_eq_some_iff.mp h
    exact Option.bind_eq_some_iff.mpr ⟨_, step_lift hstep k, ih hrest⟩

/-- A line break ends nothing but a comment. -/
theorem run_lineBreak_iff {r : Reader} {depth : Nat} :
    run r "\n" = some ⟨.plain, depth⟩ ↔
      r.depth = depth ∧ r.mode ≠ .string ∧ r.mode ≠ .symbol := by
  have hstep : run r "\n" = step r '\n' := by
    change (step r '\n').bind some = _
    rw [Option.bind_fun_some]
  obtain ⟨mode, d⟩ := r
  rw [hstep]
  cases mode <;> simp [step, isLineBreak]

end Reader

/-- A text is complete if it is followed by a line break without anything open. -/
theorem isComplete_iff_reads {text : String} : IsComplete text ↔ Reads (text ++ "\n") 0 0 := by
  rw [Reads, Reader.run_append, Option.bind_eq_some_iff]
  simp only [Reader.run_lineBreak_iff]
  constructor
  · rintro ⟨mode, hrun, hmode⟩
    exact ⟨_, hrun, rfl, hmode⟩
  · rintro ⟨⟨mode, depth⟩, hrun, rfl, hmode⟩
    exact ⟨mode, hrun, hmode⟩

instance (text : String) : Decidable (IsComplete text) :=
  decidable_of_iff _ isComplete_iff_reads.symm

namespace Reads

variable {s t : String} {a b c : Nat}

theorem append (hs : Reads s a b) (ht : Reads t b c) : Reads (s ++ t) a c := by
  rw [Reads, Reader.run_append, hs]
  exact ht

/-- A literal stands for the list of its characters: reading the list spares the evaluation of the
bytes that encode it. -/
theorem ofList {cs : List Char}
    (h : cs.foldlM Reader.step ⟨.plain, a⟩ = some ⟨.plain, b⟩) : Reads (String.ofList cs) a b := by
  rw [Reads, Reader.run, String.toList_ofList]
  exact h

/-- Parentheses around a text do not matter for it. -/
theorem lift (h : Reads t a b) (k : Nat) : Reads t (k + a) (k + b) := Reader.run_lift h k

/-- A text that closes what it opens may stand anywhere. -/
theorem within (h : Reads t 0 0) (k : Nat) : Reads t k k := h.lift k

/-- A text is read in one way only. -/
theorem eq (h : Reads t a b) (h' : Reads t a c) : b = c := by
  cases h.symm.trans h'
  rfl

theorem parenthesized (h : Reads t 0 0) : Reads ("(" ++ t ++ ")") 0 0 :=
  ((show Reads "(" 0 1 by decide).append (h.within 1)).append (show Reads ")" 1 0 by decide)

end Reads

/-! ### Texts that open and close nothing -/

@[simp] theorem isPlainText_append {s t : String} :
    IsPlainText (s ++ t) ↔ IsPlainText s ∧ IsPlainText t := by
  simp only [IsPlainText, String.toList_append, List.forall_mem_append]

@[simp] theorem isSingleLine_append {s t : String} :
    IsSingleLine (s ++ t) ↔ IsSingleLine s ∧ IsSingleLine t := by
  simp only [IsSingleLine, String.toList_append, List.forall_mem_append]

theorem reads_of_plain {t : String} (h : IsPlainText t) : Reads t 0 0 := by
  refine Reader.run_of_forall_step fun c hc => ?_
  have hc := h c hc
  simp only [isSpecial, Bool.or_eq_false_iff, beq_eq_false_iff_ne] at hc
  simp [Reader.step, hc]

/-- A string literal, a quoted symbol or a comment with what opens and what closes it. -/
theorem reads_inside {mode : ReaderMode} {opening t closing : String}
    (hopening : Reader.run {} opening = some ⟨mode, 0⟩)
    (ht : Reader.run ⟨mode, 0⟩ t = some ⟨mode, 0⟩)
    (hclosing : Reader.run ⟨mode, 0⟩ closing = some {}) : Reads (opening ++ t ++ closing) 0 0 := by
  change Reader.run {} _ = some {}
  rw [Reader.run_append, Reader.run_append, hopening, Option.bind_some, ht, Option.bind_some,
    hclosing]

/-- A comment ends with its line. -/
theorem reads_comment {opening t : String} (hopening : Reader.run {} opening = some ⟨.comment, 0⟩)
    (ht : IsSingleLine t) : Reads (opening ++ t ++ "\n") 0 0 :=
  reads_inside hopening
    (Reader.run_of_forall_step fun c hc => by simp [Reader.step, ht c hc]) (by decide)

/-- What holds between the parts of a joined text holds of it. -/
theorem run_joined {r : Reader} {separator : String} {parts : List String}
    (hseparator : r.run separator = some r) (hparts : ∀ t ∈ parts, r.run t = some r) :
    r.run (joined separator parts) = some r := by
  fun_induction joined separator parts with
  | case1 => rfl
  | case2 part => exact hparts part (by simp)
  | case3 part next rest ih =>
    obtain ⟨hpart, hrest⟩ := List.forall_mem_cons.mp hparts
    rw [Reader.run_append, Reader.run_append, hpart, Option.bind_some, hseparator,
      Option.bind_some]
    exact ih hrest

theorem reads_joined {separator : String} {parts : List String} (hseparator : Reads separator 0 0)
    (hparts : ∀ t ∈ parts, Reads t 0 0) : Reads (joined separator parts) 0 0 :=
  run_joined hseparator hparts

theorem isPlainText_blanks (n : Nat) : IsPlainText (blanks n) := by
  intro c hc
  rw [blanks, String.toList_ofList] at hc
  rw [List.eq_of_mem_replicate hc]
  rfl

theorem reads_blanks (n : Nat) : Reads (blanks n) 0 0 := reads_of_plain (isPlainText_blanks n)

/-- Closing parentheses. -/
theorem reads_replicate_close (k n : Nat) :
    Reads (String.ofList (List.replicate n ')')) (k + n) k := by
  unfold Reads Reader.run
  rw [String.toList_ofList]
  induction n with
  | zero => rfl
  | succ n ih =>
    rw [List.replicate_succ, List.foldlM_cons]
    exact ih

/-! ### Numerals -/

namespace Numeral

theorem isSpecial_of_isDecimalChar {c : Char} (h : isDecimalChar c = true) :
    isSpecial c = false := by
  have hspecial : ∀ d ∈ ['(', ')', '"', '|', ';', '\n', '\r'], isDecimalChar d = false := by
    simp [isDecimalChar]
  rw [← Bool.not_eq_true]
  intro hc
  have hmem : c ∈ ['(', ')', '"', '|', ';', '\n', '\r'] := by
    simpa only [isSpecial, isLineBreak, Bool.or_eq_true, beq_iff_eq, or_assoc, List.mem_cons,
      List.not_mem_nil, or_false] using hc
  exact absurd h (by simp [hspecial c hmem])

theorem isPlainText_decimal (i : Int) : IsPlainText (decimal i) :=
  fun _ hc => isSpecial_of_isDecimalChar (isDecimalChar_of_mem hc)

theorem isPlainText_repr (n : Nat) : IsPlainText (Nat.repr n) :=
  fun _ hc => isSpecial_of_isDecimalChar (isDecimalChar_of_mem_repr hc)

end Numeral

/-! ### Lines -/

/-- The text of some lines, a line break after each. -/
def terminated : List String → String
  | [] => ""
  | line :: rest => line ++ "\n" ++ terminated rest

/-- Whether some lines together lead from one number of open parentheses to another. -/
def ReadsLines (lines : List String) (before after : Nat) : Prop :=
  Reads (terminated lines) before after

instance (lines : List String) (before after : Nat) : Decidable (ReadsLines lines before after) :=
  inferInstanceAs (Decidable (Reads _ before after))

theorem terminated_append (ls ms : List String) :
    terminated (ls ++ ms) = terminated ls ++ terminated ms := by
  induction ls with
  | nil => simp [terminated]
  | cons l ls ih => simp [terminated, ih, String.append_assoc]

/-- The last line is not followed by a line break. -/
theorem terminated_eq_joined {ls : List String} (h : ls ≠ []) :
    terminated ls = joined "\n" ls ++ "\n" := by
  fun_induction joined "\n" ls with
  | case1 => exact absurd rfl h
  | case2 => simp [terminated]
  | case3 l m ls ih => rw [terminated, ih (by simp), String.append_assoc, String.append_assoc,
      String.append_assoc]

/-- Lines are complete if nothing is open after them. -/
theorem isComplete_joined_iff {ls : List String} :
    IsComplete (joined "\n" ls) ↔ ReadsLines ls 0 0 := by
  rcases eq_or_ne ls [] with rfl | hls
  · exact iff_of_true ⟨.plain, rfl, by decide, by decide⟩ rfl
  · rw [isComplete_iff_reads, ReadsLines, terminated_eq_joined hls]

namespace ReadsLines

variable {l : String} {ls ms : List String} {a b c : Nat}

@[simp] theorem nil : ReadsLines [] a a := rfl

theorem append (hls : ReadsLines ls a b) (hms : ReadsLines ms b c) :
    ReadsLines (ls ++ ms) a c := by
  rw [ReadsLines, terminated_append]
  exact Reads.append hls hms

theorem within (h : ReadsLines ls 0 0) (k : Nat) : ReadsLines ls k k := Reads.within h k

theorem eq (h : ReadsLines ls a b) (h' : ReadsLines ls a c) : b = c := Reads.eq h h'

theorem of_line (h : Reads (l ++ "\n") a b) : ReadsLines [l] a b :=
  h.append (show Reads "" b b from rfl)

theorem singleton (h : Reads l a b) : ReadsLines [l] a b :=
  of_line (h.append ((show Reads "\n" 0 0 by decide).within b))

theorem cons (hl : Reads l a b) (hls : ReadsLines ls b c) : ReadsLines (l :: ls) a c :=
  (singleton hl).append hls

/-- Lines that close what they open. -/
theorem flatMap {β : Type} {f : β → List String} {bs : List β}
    (h : ∀ b ∈ bs, ReadsLines (f b) 0 0) : ReadsLines (bs.flatMap f) 0 0 := by
  induction bs with
  | nil => exact nil
  | cons b bs ih =>
    obtain ⟨hb, hbs⟩ := List.forall_mem_cons.mp h
    exact hb.append (ih hbs)

end ReadsLines

end SolverScript
