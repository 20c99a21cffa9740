import SolverScript.Failure
import SolverScript.Value.Literal
import SolverScript.Proofs.Semantics.Lexemes
import SolverScript.Proofs.Semantics.StringLiterals
import SolverScript.Proofs.Text.Utf8

/-!
# Quoted texts

The literal of a text is read here from left to right in one pass: without its outer quotes, two
quotes are one, a backslash with the letter u and hexadecimal digits in braces is the code point
with that number, and every other character is itself. There is no bound on the number of digits, so
a code point beyond the characters of the target language is one number, too. A text that looks like
an escape sequence or contains doubled quotes is not confused with one, because its backslashes and
quotes are escaped and doubled in turn.

## Main definitions

* `readPoints?` - the code points that a literal stands for

## Main results

* `Lexer.read_quote` - a literal is a single lexeme
* `quotedText_faithful` - exactly the valid texts have a literal; it is written in printable ASCII,
  and reading it yields the characters of the text
-/

namespace SolverScript

/-- The code point at the start of a literal that is written with more than one character, and how
many characters follow the first one. -/
def escapedPoint? : List Char → Option (Nat × Nat)
  | '"' :: '"' :: _ => some ('"'.toNat, 1)
  | '\\' :: 'u' :: '\x7b' :: cs =>
    let digits := cs.takeWhile isHexDigit
    if cs[digits.length]? = some '\x7d' then
      (digitsValue? 16 digits).map fun n => (n, digits.length + 3)
    else none
  | _ => none

/-- The code points between the quotes of a literal. The first `pending` characters belong to one
that has been read already. -/
def readPoints (pending : Nat) : List Char → List Nat
  | [] => []
  | c :: cs =>
    match pending with
    | pending + 1 => readPoints pending cs
    | 0 =>
      match escapedPoint? (c :: cs) with
      | some (n, used) => n :: readPoints used cs
      | none => c.toNat :: readPoints 0 cs

/-- The code points that a literal stands for; `none` without quotes around it. -/
def readPoints? : List Char → Option (List Nat)
  | '"' :: cs => if cs.getLast? = some '"' then some (readPoints 0 cs.dropLast) else none
  | _ => none

theorem readPoints_append (cs rest : List Char) :
    readPoints cs.length (cs ++ rest) = readPoints 0 rest := by
  induction cs with
  | nil => rfl
  | cons c cs ih => exact ih

/-- A character that starts no escape is read as itself. -/
theorem readPoints_cons {c : Char} {cs : List Char} (h : escapedPoint? (c :: cs) = none) :
    readPoints 0 (c :: cs) = c.toNat :: readPoints 0 cs := by
  rw [readPoints, h]

/-- Digits in braces are read as their number. -/
theorem escapedPoint?_digits (n : Nat) (rest : List Char) :
    escapedPoint? ('\\' :: 'u' :: '\x7b' :: (Nat.toDigits 16 n ++ '\x7d' :: rest)) =
      some (n, (Nat.toDigits 16 n).length + 3) := by
  rw [escapedPoint?, takeWhile_toDigits n (by decide),
    digitsValue?_toDigits (by decide) (by decide)]
  simp

/-- However a character is quoted, it is read as its code point. -/
theorem readPoints_quoteChar (c : Char) (rest : List Char) :
    readPoints 0 ((Term.quoteChar c).toList ++ rest) = c.toNat :: readPoints 0 rest := by
  by_cases hquote : c = '"'
  · subst hquote
    rfl
  · have hquoted : (Term.quoteChar c).toList = escapedChar c := (if_neg hquote).symm
    rw [hquoted]
    rcases escapedChar_cases c with ⟨h, hbackslash, -⟩ | h
    · rw [h]
      refine readPoints_cons ?_
      simp [escapedPoint?, hquote, hbackslash]
    · -- The digits are read as the number, and then the escape sequence is skipped.
      have hescape := escapedPoint?_digits c.toNat rest
      have hskip := readPoints_append ('u' :: '\x7b' :: (Nat.toDigits 16 c.toNat ++ ['\x7d'])) rest
      simp only [List.length_cons, List.length_append, List.length_nil, List.cons_append,
        List.append_assoc, List.nil_append] at hskip
      rw [h]
      simp only [List.cons_append, List.append_assoc, List.nil_append]
      rw [readPoints, hescape]
      exact congrArg _ hskip

theorem readPoints_quoteChars (characters : List Char) :
    readPoints 0 (characters.flatMap fun c => (Term.quoteChar c).toList) =
      characters.map Char.toNat := by
  induction characters with
  | nil => rfl
  | cons c cs ih =>
    rw [List.flatMap_cons, readPoints_quoteChar, ih]
    rfl

/-- The characters of a literal: those between its quotes, and the quotes. -/
theorem toList_quote (characters : List Char) :
    (Term.quote characters).toList =
      '"' :: (characters.flatMap (fun c => (Term.quoteChar c).toList) ++ ['"']) := by
  simp [Term.quote, toList_joined_empty, List.flatMap_map]

/-- A literal is read as the code points of its characters. -/
theorem readPoints?_quote (characters : List Char) :
    readPoints? (Term.quote characters).toList = some (characters.map Char.toNat) := by
  rw [toList_quote, readPoints?, List.getLast?_concat, if_pos rfl, List.dropLast_concat,
    readPoints_quoteChars]

/-! ### Literals as lexemes -/

namespace Lexer

variable {cs : List Char}

/-- A string literal goes on up to the next quote. -/
theorem read_literal {ds : List Char} (h : '"' ∉ cs) :
    (literal ds).read cs = ([], .literal (ds ++ cs)) := by
  induction cs generalizing ds with
  | nil => simp [read]
  | cons c cs ih =>
    obtain ⟨hc, hcs⟩ := List.ne_and_not_mem_of_not_mem_cons h
    rw [read, step, if_neg (Ne.symm hc), ih hcs]
    simp

/-- However a character is quoted, the literal goes on behind it. -/
theorem read_quoteChar (c : Char) :
    (literal cs).read (Term.quoteChar c).toList = ([], .literal (cs ++ escapedChar c)) := by
  by_cases hc : c = '"'
  · subst hc
    rfl
  · have hquoted : (Term.quoteChar c).toList = escapedChar c := (if_neg hc).symm
    rw [hquoted, read_literal (not_mem_escapedChar hc)]

theorem read_quoteChars (characters : List Char) :
    (literal cs).read (characters.flatMap fun c => (Term.quoteChar c).toList) =
      ([], .literal (cs ++ characters.flatMap escapedChar)) := by
  induction characters generalizing cs with
  | nil => simp [read]
  | cons c characters ih =>
    rw [List.flatMap_cons, read_append, read_quoteChar, ih, List.flatMap_cons, List.append_assoc]
    rfl

/-- Behind a literal it is not known yet that it has ended. -/
theorem read_quote (characters : List Char) :
    between.read (Term.quote characters).toList =
      ([], .behindQuote (characters.flatMap escapedChar)) := by
  have hopening : between.step '"' = ([], .literal []) := rfl
  rw [toList_quote, read, hopening, read_append, read_quoteChars]
  rfl

end Lexer

/-! ### Printable literals -/

/-- Whether a character is a printable one of the first 128. -/
def isPrintable (c : Char) : Bool := 0x20 ≤ c.toNat && c.toNat < 0x7F

theorem isPrintable_of_isHexDigit {c : Char} (hc : isHexDigit c = true) : isPrintable c = true := by
  -- Digits are among the first 127 characters, which can be looked at one by one.
  have hall : ∀ n < 0x7F, isHexDigit (Char.ofNat n) = true → isPrintable (Char.ofNat n) = true := by
    decide
  have hprintable := hall c.toNat (toNat_lt_of_isHexDigit hc)
  rw [Char.ofNat_toNat] at hprintable
  exact hprintable hc

theorem isPrintable_quoteChar (c : Char) :
    ∀ d ∈ (Term.quoteChar c).toList, isPrintable d = true := by
  intro d hd
  rw [Term.quoteChar] at hd
  split at hd
  · obtain rfl : d = '"' := by simpa using hd
    decide
  · split at hd
    · next h =>
      obtain rfl : d = c := by simpa using hd
      simp [isPrintable, h.1, h.2.1]
    · have hdigits : ∀ e ∈ Nat.toDigits 16 c.toNat, isPrintable e = true := fun e he =>
        isPrintable_of_isHexDigit (isHexDigit_of_mem he)
      simp only [String.toList_append, Numeral.hexadecimal, Numeral.digits, String.toList_ofList,
        List.mem_append] at hd
      have hopening : "\\u\x7b".toList.all isPrintable = true := by decide
      have hclosing : "\x7d".toList.all isPrintable = true := by decide
      rcases hd with (hd | hd) | hd
      · exact List.all_eq_true.mp hopening d hd
      · exact hdigits d hd
      · exact List.all_eq_true.mp hclosing d hd

/-- Whatever is quoted, the literal is printable. -/
theorem isPrintable_quote (characters : List Char) :
    ∀ c ∈ (Term.quote characters).toList, isPrintable c = true := by
  intro c hc
  rw [toList_quote] at hc
  simp only [List.mem_cons, List.mem_append, List.mem_flatMap, List.not_mem_nil, or_false] at hc
  rcases hc with rfl | ⟨d, -, hc⟩ | rfl
  · decide
  · exact isPrintable_quoteChar d c hc
  · decide

theorem quotedText_eq_ok_iff {text : String} {t : Term} :
    quotedText text = .ok t ↔
      ∃ characters, Utf8.Encodes text characters ∧ t = .quoted characters := by
  simp only [quotedText, ← Utf8.decode?_toList_eq_some_iff]
  cases Utf8.decode? text.toList <;> simp [eq_comm]

theorem quotedText_eq_error_iff {text : String} {f : Failure} :
    quotedText text = .error f ↔
      f = .malformedText text ∧ ¬ ∃ characters, Utf8.Encodes text characters := by
  simp only [quotedText, ← Utf8.decode?_toList_eq_some_iff]
  cases Utf8.decode? text.toList <;> simp [eq_comm]

/-- Exactly the valid texts have a literal, and the failure of the others is a mistake in the input.
The literal is written in printable characters only, reading it from left to right yields the
characters that the text encodes, and therefore two texts with one literal are equal. -/
theorem quotedText_faithful (text : String) :
    (∀ f, quotedText text = .error f ↔
        f = .malformedText text ∧ ¬ ∃ characters, Utf8.Encodes text characters) ∧
      (Failure.malformedText text).category = .mistake ∧
      (∀ characters, Utf8.Encodes text characters →
        ∃ t, quotedText text = .ok t ∧ (∀ c ∈ t.render.toList, isPrintable c = true) ∧
          readPoints? t.render.toList = some (characters.map Char.toNat)) ∧
      ∀ other t u, quotedText text = .ok t → quotedText other = .ok u → t.render = u.render →
        text = other := by
  refine ⟨fun f => quotedText_eq_error_iff, rfl, fun characters h => ?_,
    fun other t u ht hu hrender => ?_⟩
  · exact ⟨.quoted characters, quotedText_eq_ok_iff.mpr ⟨characters, h, rfl⟩,
      isPrintable_quote characters, readPoints?_quote characters⟩
  · obtain ⟨characters, hcharacters, rfl⟩ := quotedText_eq_ok_iff.mp ht
    obtain ⟨others, hothers, rfl⟩ := quotedText_eq_ok_iff.mp hu
    -- The literals are read as the same code points, so the texts encode the same characters.
    have hread : readPoints? (Term.quote characters).toList =
        readPoints? (Term.quote others).toList := congrArg (fun s => readPoints? s.toList) hrender
    rw [readPoints?_quote, readPoints?_quote, Option.some.injEq,
      List.map_inj_right fun _ _ => Char.toNat_inj.mp] at hread
    exact hcharacters.text_injective (hread ▸ hothers)

/-- A text with a quote, a backslash and an encoded letter, and how it is written. -/
theorem quotedText_faithful_mixed :
    Utf8.Encodes "\"\\\u00C3\u00A9" ['"', '\\', '\u00E9'] ∧
      ∃ t, quotedText "\"\\\u00C3\u00A9" = .ok t ∧
        t.render = "\"\"\"\\u\x7b5c\x7d\\u\x7be9\x7d\"" ∧
        readPoints? t.render.toList = some [0x22, 0x5C, 0xE9] := by
  have hencodes : Utf8.Encodes "\"\\\u00C3\u00A9" ['"', '\\', '\u00E9'] := by
    rw [Utf8.Encodes]
    decide
  obtain ⟨t, ht, -, hread⟩ := (quotedText_faithful _).2.2.1 _ hencodes
  refine ⟨hencodes, t, ht, ?_, hread⟩
  obtain rfl : Term.quoted ['"', '\\', '\u00E9'] = t := Except.ok.inj ht
  decide

end SolverScript
