import SolverScript.Proofs.Semantics.Digits

/-!
# Reading string literals

A string literal is read in two steps. Between its quotes, two quotes stand for one. In what is
left, an escape sequence stands for a character by its code point: a backslash and the letter u,
with four hexadecimal digits, or with one to five of them in braces. The target language has no
characters beyond 2FFFF, and reads an escape sequence of a larger number as the characters that the
sequence is written with.

## Main definitions

* `CodePoint` - the characters of the target language
* `readText?` - the text that a string literal stands for

## Main results

* `readText?_quote` - a quoted text is read as its characters, as far as the target language has
  them
* `exists_readText?_quote` - every quoted text is read as some text
* `length_eq_one_iff_of_readText?_quote` - a quoted character is read as one character only if the
  target language has it
-/

namespace SolverScript

/-- The characters of the target language, by their code points. -/
abbrev CodePoint := Fin 0x30000

/-- The character with a given code point. -/
def CodePoint.ofNat? (n : Nat) : Option CodePoint := if h : n < 0x30000 then some ⟨n, h⟩ else none

theorem CodePoint.ofNat?_of_lt {n : Nat} (h : n < 0x30000) : ofNat? n = some ⟨n, h⟩ := dif_pos h

theorem CodePoint.ofNat?_of_le {n : Nat} (h : 0x30000 ≤ n) : ofNat? n = none :=
  dif_neg (by omega)

/-- Whether a character is a hexadecimal digit. -/
def isHexDigit (c : Char) : Bool := (digitValue? 16 c).isSome

/-- What is left of a string literal behind its first quote: the last quote is dropped, and two
quotes stand for one. -/
def unquoted? : List Char → Option (List Char)
  | ['"'] => some []
  | '"' :: '"' :: cs => (unquoted? cs).map ('"' :: ·)
  | '"' :: _ => none
  | c :: cs => (unquoted? cs).map (c :: ·)
  | [] => none

/-- The character of an escape sequence, by what follows the backslash, and how much of that belongs
to the sequence. -/
def escape? : List Char → Option (CodePoint × Nat)
  | 'u' :: '\x7b' :: cs =>
    let digits := cs.takeWhile isHexDigit
    if digits.length ≤ 5 ∧ cs[digits.length]? = some '\x7d' then
      ((digitsValue? 16 digits).bind CodePoint.ofNat?).map fun p => (p, digits.length + 3)
    else none
  | 'u' :: cs =>
    if 4 ≤ cs.length then
      ((digitsValue? 16 (cs.take 4)).bind CodePoint.ofNat?).map fun p => (p, 5)
    else none
  | _ => none

/-- The characters that a text with escape sequences stands for. The first `pending` characters
belong to an escape sequence that has been read already. -/
def unescaped? (pending : Nat) : List Char → Option (List CodePoint)
  | [] => some []
  | c :: cs =>
    match pending with
    | pending + 1 => unescaped? pending cs
    | 0 =>
      match if c = '\\' then escape? cs else none with
      | some (p, used) => (unescaped? used cs).map (p :: ·)
      | none => do return (← CodePoint.ofNat? c.toNat) :: (← unescaped? 0 cs)

/-- The text that a string literal stands for, by the characters of the literal. -/
def readText? : List Char → Option (List CodePoint)
  | '"' :: cs => do unescaped? 0 (← unquoted? cs)
  | _ => none

/-! ### Quotes -/

theorem unquoted?_append {cs : List Char} (h : '"' ∉ cs) (rest : List Char) :
    unquoted? (cs ++ rest) = (unquoted? rest).map (cs ++ ·) := by
  induction cs with
  | nil => simp
  | cons c cs ih =>
    obtain ⟨hc, hcs⟩ := List.ne_and_not_mem_of_not_mem_cons h
    rw [List.cons_append, unquoted?, ih hcs, Option.map_map]
    · rfl
    · exact fun h _ => hc h.symm
    · exact fun _ h => (hc h.symm).elim
    · exact fun h => hc h.symm

/-- The digits of a code point are hexadecimal digits. -/
theorem isHexDigit_of_mem {c : Char} {n : Nat} (hc : c ∈ Nat.toDigits 16 n) :
    isHexDigit c = true := by
  have hread := digitsValueFrom?_toDigits (b := 16) (by decide) (Nat.le_refl 16) n
  generalize Nat.toDigits 16 n = ds at hc hread
  generalize 0 = m at hread
  induction ds generalizing m with
  | nil => cases hc
  | cons d ds ih =>
    rw [digitsValueFrom?, Option.bind_eq_bind, Option.bind_eq_some_iff] at hread
    obtain ⟨value, hvalue, hrest⟩ := hread
    rcases List.mem_cons.mp hc with rfl | hc
    · simp [isHexDigit, hvalue]
    · exact ih hc _ hrest

theorem toNat_lt_of_isHexDigit {c : Char} (hc : isHexDigit c = true) : c.toNat < 0x7F := by
  obtain ⟨value, hvalue⟩ := Option.isSome_iff_exists.mp hc
  have hsome := (Option.filter_eq_some_iff.mp hvalue).1
  split at hsome
  · next hdigit =>
    simp only [Char.isDigit, Bool.and_eq_true, decide_eq_true_eq, UInt32.le_iff_toNat_le] at hdigit
    exact Nat.lt_of_le_of_lt hdigit.2 (by decide)
  · split at hsome
    · next hlower => exact Nat.lt_of_le_of_lt hlower.2 (by decide)
    · split at hsome
      · next hupper => exact Nat.lt_of_le_of_lt hupper.2 (by decide)
      · cases hsome

/-- How a character appears between the quotes, when doubled quotes have been read. -/
def escapedChar (c : Char) : List Char :=
  if c = '"' then ['"'] else (Term.quoteChar c).toList

/-- A character is written as itself or as an escape sequence. -/
theorem escapedChar_cases (c : Char) :
    (escapedChar c = [c] ∧ c ≠ '\\' ∧ c.toNat < 0x7F) ∨
      escapedChar c = '\\' :: 'u' :: '\x7b' :: (Nat.toDigits 16 c.toNat ++ ['\x7d']) := by
  by_cases hquote : c = '"'
  · exact .inl (by subst hquote; decide)
  · rw [escapedChar, if_neg hquote, Term.quoteChar, if_neg hquote]
    split
    · next h => exact .inl ⟨by simp, h.2.2, h.2.1⟩
    · exact .inr (by simp [Numeral.hexadecimal, Numeral.digits])

/-- Only a quote is written with quotes. -/
theorem not_mem_escapedChar {c : Char} (hc : c ≠ '"') : '"' ∉ escapedChar c := by
  rcases escapedChar_cases c with ⟨h, -, -⟩ | h
  · simpa [h] using hc.symm
  · have hdigits : '"' ∉ Nat.toDigits 16 c.toNat := fun hmem =>
      absurd (isHexDigit_of_mem hmem) (by decide)
    simp [h, hdigits]

theorem unquoted?_quoteChar (c : Char) (rest : List Char) :
    unquoted? ((Term.quoteChar c).toList ++ rest) =
      (unquoted? rest).map (escapedChar c ++ ·) := by
  by_cases hc : c = '"'
  · subst hc
    rfl
  · have hquoted : (Term.quoteChar c).toList = escapedChar c := (if_neg hc).symm
    rw [hquoted, unquoted?_append (not_mem_escapedChar hc)]

theorem toList_joined_empty (parts : List String) :
    (joined "" parts).toList = parts.flatMap String.toList := by
  induction parts with
  | nil => rfl
  | cons part parts ih =>
    cases parts with
    | nil => simp [joined]
    | cons next rest =>
      rw [joined, String.append_empty, String.toList_append, ih]
      rfl

/-- What stands between the quotes of a literal, with two quotes read as one. -/
theorem unquoted?_quote (characters : List Char) :
    unquoted? (joined "" (characters.map Term.quoteChar) ++ "\"").toList =
      some (characters.flatMap escapedChar) := by
  rw [String.toList_append, toList_joined_empty, List.flatMap_map]
  induction characters with
  | nil => rfl
  | cons c cs ih =>
    rw [List.flatMap_cons, List.append_assoc, unquoted?_quoteChar, ih]
    rfl

theorem readText?_quote_eq (characters : List Char) :
    readText? (Term.quote characters).toList =
      unescaped? 0 (characters.flatMap escapedChar) := by
  have hliteral : (Term.quote characters).toList =
      '"' :: (joined "" (characters.map Term.quoteChar) ++ "\"").toList := by
    simp [Term.quote]
  rw [hliteral, readText?, unquoted?_quote]
  rfl

/-! ### Escape sequences -/

theorem unescaped?_append (cs rest : List Char) :
    unescaped? cs.length (cs ++ rest) = unescaped? 0 rest := by
  induction cs with
  | nil => rfl
  | cons c cs ih => exact ih

/-- A character that starts no escape sequence is read as itself. -/
theorem unescaped?_cons {c : Char} {cs : List Char} (hescape : c = '\\' → escape? cs = none)
    (hlt : c.toNat < 0x30000) :
    unescaped? 0 (c :: cs) = (unescaped? 0 cs).map (⟨c.toNat, hlt⟩ :: ·) := by
  have hnone : (if c = '\\' then escape? cs else none) = none := by
    split
    · next hc => exact hescape hc
    · rfl
  rw [unescaped?, hnone, CodePoint.ofNat?_of_lt hlt]
  cases unescaped? 0 cs <;> rfl

/-- A text of characters that the target language has is read as some text. -/
theorem exists_unescaped? {cs : List Char} (h : ∀ c ∈ cs, c.toNat < 0x30000) (pending : Nat) :
    ∃ ps, unescaped? pending cs = some ps := by
  induction cs generalizing pending with
  | nil => exact ⟨[], rfl⟩
  | cons c cs ih =>
    obtain ⟨hc, hcs⟩ := List.forall_mem_cons.mp h
    have ih := ih hcs
    cases pending with
    | succ pending => exact ih pending
    | zero =>
      rw [unescaped?]
      cases if c = '\\' then escape? cs else none with
      | none =>
        obtain ⟨ps, hps⟩ := ih 0
        exact ⟨_, by simp only [CodePoint.ofNat?_of_lt hc, hps]; rfl⟩
      | some found =>
        obtain ⟨ps, hps⟩ := ih found.2
        exact ⟨_, congrArg (Option.map _) hps⟩

/-- The digits of a number reach as far as the next character that is none. -/
theorem takeWhile_toDigits (n : Nat) {c : Char} (hc : isHexDigit c = false) (rest : List Char) :
    (Nat.toDigits 16 n ++ c :: rest).takeWhile isHexDigit = Nat.toDigits 16 n := by
  rw [List.takeWhile_append_of_pos fun d hd => isHexDigit_of_mem hd, List.takeWhile_cons,
    if_neg (by simp [hc]), List.append_nil]

theorem digitsValue?_toDigits {b : Nat} (hb : 1 < b) (hb' : b ≤ 16) (n : Nat) :
    digitsValue? b (Nat.toDigits b n) = some n := by
  simp [digitsValue?, Nat.toDigits_ne_nil, digitsValueFrom?_toDigits hb hb']

/-- The number of an escape sequence in braces; it stands for a character if there is one. -/
theorem escape?_digits (n : Nat) (rest : List Char) :
    escape? ('u' :: '\x7b' :: (Nat.toDigits 16 n ++ '\x7d' :: rest)) =
      (CodePoint.ofNat? n).map fun p => (p, (Nat.toDigits 16 n).length + 3) := by
  rw [escape?, takeWhile_toDigits n (by decide), digitsValue?_toDigits (by decide) (by decide)]
  by_cases hlength : (Nat.toDigits 16 n).length ≤ 5
  · simp [hlength]
  · -- Six digits are more than any code point has.
    have hlarge : 16 ^ 5 ≤ n := by
      rwa [Nat.length_toDigits_le_iff (by decide) (by decide), Nat.not_lt] at hlength
    rw [CodePoint.ofNat?_of_le (by omega)]
    simp [hlength]

/-- A character that the target language has is read as itself. -/
theorem unescaped?_escapedChar {c : Char} (hc : c.toNat < 0x30000) (rest : List Char) :
    unescaped? 0 (escapedChar c ++ rest) = (unescaped? 0 rest).map (⟨c.toNat, hc⟩ :: ·) := by
  rcases escapedChar_cases c with ⟨h, hbackslash, -⟩ | h
  · rw [h]
    exact unescaped?_cons (fun h => absurd h hbackslash) hc
  · -- The digits are read as the number, and the whole sequence is skipped.
    have hescape := escape?_digits c.toNat rest
    have hskip := unescaped?_append ('u' :: '\x7b' :: (Nat.toDigits 16 c.toNat ++ ['\x7d'])) rest
    rw [CodePoint.ofNat?_of_lt hc] at hescape
    simp only [List.length_cons, List.length_append, List.length_nil, List.cons_append,
      List.append_assoc, List.nil_append] at hskip
    rw [h, List.cons_append, List.cons_append, List.cons_append, List.append_assoc, unescaped?,
      if_pos rfl, List.singleton_append, hescape]
    exact congrArg (Option.map _) hskip

/-- Quoted text is read as its characters. -/
theorem readText?_quote {characters : List Char} (h : ∀ c ∈ characters, c.toNat < 0x30000) :
    readText? (Term.quote characters).toList =
      some (characters.attach.map fun c => ⟨c.1.toNat, h c.1 c.2⟩) := by
  rw [readText?_quote_eq]
  induction characters with
  | nil => rfl
  | cons c cs ih =>
    obtain ⟨hc, hcs⟩ := List.forall_mem_cons.mp h
    rw [List.flatMap_cons, unescaped?_escapedChar hc, ih hcs]
    simp

theorem toNat_lt_of_mem_escapedChar {c d : Char} (hd : d ∈ escapedChar c) : d.toNat < 0x7F := by
  rcases escapedChar_cases c with ⟨h, -, hsmall⟩ | h
  · obtain rfl : d = c := by simpa [h] using hd
    exact hsmall
  · rw [h] at hd
    simp only [List.mem_cons, List.mem_append, List.not_mem_nil, or_false] at hd
    rcases hd with rfl | rfl | rfl | hdigit | rfl
    · decide
    · decide
    · decide
    · exact toNat_lt_of_isHexDigit (isHexDigit_of_mem hdigit)
    · decide

/-- Whatever is quoted, the literal stands for some text. -/
theorem exists_readText?_quote (characters : List Char) :
    ∃ ps, readText? (Term.quote characters).toList = some ps := by
  rw [readText?_quote_eq]
  refine exists_unescaped? (fun d hd => ?_) 0
  obtain ⟨c, -, hd⟩ := List.mem_flatMap.mp hd
  have hsmall := toNat_lt_of_mem_escapedChar hd
  omega

/-- A quoted character is read as one character only if the target language has it. Otherwise its
escape sequence is read as it is written. -/
theorem length_eq_one_iff_of_readText?_quote {c : Char} {ps : List CodePoint}
    (h : readText? (Term.quote [c]).toList = some ps) : ps.length = 1 ↔ c.toNat < 0x30000 := by
  by_cases hc : c.toNat < 0x30000
  · rw [readText?_quote (List.forall_mem_singleton.mpr hc)] at h
    obtain rfl := Option.some.inj h
    exact ⟨fun _ => hc, fun _ => rfl⟩
  · refine ⟨fun hlength => ?_, fun h => absurd h hc⟩
    rw [readText?_quote_eq, List.flatMap_singleton] at h
    rcases escapedChar_cases c with ⟨-, -, hsmall⟩ | hescaped
    · omega
    · have hescape := escape?_digits c.toNat []
      rw [CodePoint.ofNat?_of_le (Nat.not_lt.mp hc), Option.map_none] at hescape
      -- The backslash and the letter behind it are two characters already.
      rw [hescaped, unescaped?_cons (fun _ => hescape) (by decide),
        unescaped?_cons (fun h => absurd h (by decide)) (by decide)] at h
      obtain ⟨qs, hqs, rfl⟩ := Option.map_eq_some_iff.mp h
      obtain ⟨_, -, rfl⟩ := Option.map_eq_some_iff.mp hqs
      simp at hlength

end SolverScript
