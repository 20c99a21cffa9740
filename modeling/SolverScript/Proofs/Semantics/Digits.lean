import Mathlib.Algebra.Group.Nat.Defs
import SolverScript.Script.Term
import SolverScript.Proofs.Semantics.Element

/-!
# Reading literals

A literal is written digit by digit and read back here from its characters: bit-vectors with one
digit for each bit or for four of them, and numerals in base ten. What is written is read as the
same number, and the number of digits decides the width of a bit-vector.

## Main definitions

* `digitsValue?` - the number that some digits stand for
* `readLiteral?` - the element that a literal stands for
-/

namespace SolverScript

/-- The value of a digit in a base up to sixteen. -/
def digitValue? (base : Nat) (c : Char) : Option Nat :=
  let value :=
    if c.isDigit then some (c.toNat - '0'.toNat)
    else if 'a' ≤ c ∧ c ≤ 'f' then some (c.toNat - 'a'.toNat + 10)
    else if 'A' ≤ c ∧ c ≤ 'F' then some (c.toNat - 'A'.toNat + 10)
    else none
  value.filter (· < base)

/-- Digits behind a number that has been read already. -/
def digitsValueFrom? (base n : Nat) : List Char → Option Nat
  | [] => some n
  | c :: cs => do digitsValueFrom? base (base * n + (← digitValue? base c)) cs

/-- The number that some digits stand for; there has to be a digit. -/
def digitsValue? (base : Nat) (cs : List Char) : Option Nat :=
  if cs.isEmpty then none else digitsValueFrom? base 0 cs

/-- The element that a literal stands for, by its characters. -/
def readLiteral? {α : Type} : List Char → Option (Element α)
  | '#' :: 'b' :: cs => (digitsValue? 2 cs).map fun n => .bits cs.length (BitVec.ofNat _ n)
  | '#' :: 'x' :: cs => (digitsValue? 16 cs).map fun n => .bits (4 * cs.length) (BitVec.ofNat _ n)
  | cs => (digitsValue? 10 cs).map fun n => .int n

theorem digitValue?_digitChar {b d : Nat} (hb : b ≤ 16) (hd : d < b) :
    digitValue? b (Nat.digitChar d) = some d := by
  have hall : ∀ e < 16, digitValue? 16 (Nat.digitChar e) = some e := by decide
  have h := hall d (by omega)
  unfold digitValue? at h ⊢
  obtain ⟨hv, -⟩ := Option.filter_eq_some_iff.mp h
  exact Option.filter_eq_some_iff.mpr ⟨hv, by simpa using hd⟩

theorem digitsValueFrom?_append (b n : Nat) (cs ds : List Char) :
    digitsValueFrom? b n (cs ++ ds) =
      (digitsValueFrom? b n cs).bind fun m => digitsValueFrom? b m ds := by
  induction cs generalizing n with
  | nil => rfl
  | cons c cs ih =>
    cases h : digitValue? b c <;> simp [digitsValueFrom?, h, ih]

/-- The digits of a number are read as that number. -/
theorem digitsValueFrom?_toDigits {b : Nat} (hb : 1 < b) (hb' : b ≤ 16) (n : Nat) :
    digitsValueFrom? b 0 (Nat.toDigits b n) = some n := by
  induction n using Nat.strongRecOn with
  | ind n ih =>
    rcases Nat.lt_or_ge n b with hn | hn
    · simp [Nat.toDigits_of_lt_base hn, digitsValueFrom?, digitValue?_digitChar hb' hn]
    -- The last digit is the remainder, and the ones before it are those of the quotient.
    · have hdiv : n / b < n := Nat.div_lt_self (by omega) hb
      have hmod : n % b < b := Nat.mod_lt _ (by omega)
      rw [Nat.toDigits_of_base_le hb hn, digitsValueFrom?_append, ih _ hdiv]
      simp [digitsValueFrom?, digitValue?_digitChar hb' hmod,
        Nat.div_add_mod]

/-- Leading zeros do not count. -/
theorem digitsValueFrom?_replicate_zero {b : Nat} (hb : 0 < b) (k : Nat) :
    digitsValueFrom? b 0 (List.replicate k '0') = some 0 := by
  have hzero : digitValue? b '0' = some 0 := by simp [digitValue?, hb]
  induction k with
  | zero => rfl
  | succ k ih => simpa [List.replicate_succ, digitsValueFrom?, hzero] using ih

/-- A padded number has as many digits as it is padded to, if it fits into them. -/
theorem length_toList_padded {b k n : Nat} (hb : 1 < b) (hk : 0 < k) (hn : n < b ^ k) :
    (Numeral.padded b k n).toList.length = k := by
  have hlength : (Nat.toDigits b n).length ≤ k := (Nat.length_toDigits_le_iff hb hk).mpr hn
  simp only [Numeral.padded, Numeral.digits, String.toList_ofList, List.length_append,
    List.length_replicate]
  omega

/-- A padded number is read as that number. -/
theorem digitsValue?_padded {b : Nat} (hb : 1 < b) (hb' : b ≤ 16) (k n : Nat) :
    digitsValue? b (Numeral.padded b k n).toList = some n := by
  have hne : Nat.toDigits b n ≠ [] := Nat.toDigits_ne_nil
  simp [Numeral.padded, Numeral.digits, digitsValue?, digitsValueFrom?_append,
    digitsValueFrom?_replicate_zero (Nat.lt_of_succ_lt hb), digitsValueFrom?_toDigits hb hb', hne]

variable {α : Type}

/-- A binary literal is read as a bit-vector with a bit for each digit. -/
theorem readLiteral?_binary {w n : Nat} (hw : 0 < w) (hn : n < 2 ^ w) :
    readLiteral? (Term.binary w n).render.toList =
      some (.bits w (BitVec.ofNat w n) : Element α) := by
  have hlength := length_toList_padded (by decide) hw hn
  have hrender : (Term.binary w n).render.toList =
      '#' :: 'b' :: (Numeral.padded 2 w n).toList := by
    simp [Term.render]
  rw [hrender, readLiteral?, digitsValue?_padded (by decide) (by decide), Option.map_some,
    Element.bits_ofNat_congr hlength]

/-- A hexadecimal literal is read as a bit-vector with four bits for each digit. -/
theorem readLiteral?_hexadecimal {k n : Nat} (hk : 0 < k) (hn : n < 16 ^ k) :
    readLiteral? (Term.hexadecimal k n).render.toList =
      some (.bits (4 * k) (BitVec.ofNat (4 * k) n) : Element α) := by
  have hlength := length_toList_padded (by decide) hk hn
  have hrender : (Term.hexadecimal k n).render.toList =
      '#' :: 'x' :: (Numeral.padded 16 k n).toList := by
    simp [Term.render]
  rw [hrender, readLiteral?, digitsValue?_padded (by decide) (by decide), Option.map_some,
    Element.bits_ofNat_congr (congrArg (4 * ·) hlength)]

/-- A numeral without sign is read as its integer. -/
theorem readLiteral?_numeral (n : Nat) :
    readLiteral? (Term.numeral n).render.toList = some (.int n : Element α) := by
  have hdigits : ∀ c ∈ Nat.toDigits 10 n, c ≠ '#' := by
    rintro c hc rfl
    exact absurd (Nat.isDigit_of_mem_toDigits (by decide) (by decide) hc) (by decide)
  have hne : Nat.toDigits 10 n ≠ [] := Nat.toDigits_ne_nil
  have hrender : (Term.numeral n).render.toList = Nat.toDigits 10 n := by
    simp [Term.render, Numeral.decimal]
  -- A numeral does not start like the literal of a bit-vector.
  rw [hrender, readLiteral?]
  · simp [digitsValue?, hne, digitsValueFrom?_toDigits]
  · rintro cs rest
    exact hdigits '#' (by simp [rest]) rfl
  · rintro cs rest
    exact hdigits '#' (by simp [rest]) rfl

end SolverScript
