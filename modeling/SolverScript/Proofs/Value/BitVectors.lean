import Mathlib.Data.Int.ModEq
import SolverScript.Proofs.Encoding.IntegralCasts
import SolverScript.Proofs.Semantics.Spelling

/-!
# Constants of bit-vectors

A constant of a bit-vector kind keeps what is left of an integer modulo a power of two, in the range
that the width and the sign allow. Its text is read back here, character by character, as a term of
the target language. Whichever digits the text has, and whether or not a negation stands around
them, that term denotes a bit-vector of exactly the width, and the bit-vector is congruent to the
integer.

## Main definitions

* `Width.Holds` - the integers that a width has a place for
* `Term.IsReadBack` - terms that are read back from their texts

## Main results

* `Width.Holds.eq_of_modEq` - an integer of a width is determined by its residue
* `Term.isReadBack_bitsTerm`, `Term.isReadBack_signedTerm` - literals of bit-vectors are read back
* `Value.ofInteger_bounded_exact` - the constant of an integer, and what its text denotes
-/

namespace SolverScript

/-! ### Integers of a width -/

/-- Whether a width has a place for an integer: from zero on, or around zero if there is a sign. -/
def Width.Holds (width : Width) (signed : Bool) (m : Int) : Prop :=
  if signed then -(2 ^ (width.bits - 1)) ≤ m ∧ m < 2 ^ (width.bits - 1)
  else 0 ≤ m ∧ m < 2 ^ width.bits

theorem Width.holds_readBits (width : Width) (signed : Bool) (x : BitVec width.bits) :
    width.Holds signed (Value.readBits signed x) := by
  cases signed
  · have hlt : (x.toNat : Int) < (2 ^ width.bits : Nat) := Int.ofNat_lt.mpr x.isLt
    refine ⟨Int.natCast_nonneg _, ?_⟩
    rwa [Int.natCast_pow] at hlt
  · exact ⟨BitVec.le_toInt x, BitVec.toInt_lt⟩

/-- No two integers of a width are congruent. -/
theorem Width.Holds.eq_of_modEq {width : Width} {signed : Bool} {m n : Int}
    (hm : width.Holds signed m) (hn : width.Holds signed n)
    (h : m ≡ n [ZMOD 2 ^ width.bits]) : m = n := by
  have hdouble : (2 : Int) ^ width.bits = 2 ^ (width.bits - 1) + 2 ^ (width.bits - 1) := by
    exact_mod_cast (Nat.two_pow_pred_add_two_pow_pred width.pos).symm
  have hdistance : |n - m| < 2 ^ width.bits := by
    cases signed
    · obtain ⟨hlower, hupper⟩ : 0 ≤ m ∧ m < 2 ^ width.bits := hm
      obtain ⟨hlower', hupper'⟩ : 0 ≤ n ∧ n < 2 ^ width.bits := hn
      apply abs_lt.mpr
      omega
    · obtain ⟨hlower, hupper⟩ : -(2 ^ (width.bits - 1)) ≤ m ∧ m < 2 ^ (width.bits - 1) := hm
      obtain ⟨hlower', hupper'⟩ : -(2 ^ (width.bits - 1)) ≤ n ∧ n < 2 ^ (width.bits - 1) := hn
      apply abs_lt.mpr
      omega
  have hzero : n - m = 0 := Int.eq_zero_of_abs_lt_dvd h.dvd hdistance
  omega

/-- The integer that is read from the residue of another one is congruent to it. -/
theorem Value.readBits_ofInt_modEq (signed : Bool) (w : Nat) (n : Int) :
    readBits signed (BitVec.ofInt w n) ≡ n [ZMOD 2 ^ w] := by
  have hpower : ((2 ^ w : Nat) : Int) = 2 ^ w := Int.natCast_pow 2 w
  rw [← hpower]
  cases signed
  · have hnonneg : 0 ≤ n % (2 ^ w : Nat) :=
      Int.emod_nonneg n (Int.natCast_pos.mpr (Nat.two_pow_pos w)).ne'
    have hread : readBits false (BitVec.ofInt w n) = n % (2 ^ w : Nat) :=
      Int.toNat_of_nonneg hnonneg
    rw [hread]
    exact Int.mod_modEq n _
  · have hread : readBits true (BitVec.ofInt w n) = n.bmod (2 ^ w) := BitVec.toInt_ofInt n
    rw [hread]
    exact Int.bmod_emod

/-! ### Texts of literals -/

namespace Term

/-- Whether a term is written as a single expression, the term of which it is. -/
def IsReadBack (t : Term) : Prop :=
  t.isSpelled = true ∧ ∃ e, t.expressions = [e] ∧ e.term? = some t

theorem IsReadBack.readTerm? {t : Term} (h : t.IsReadBack) : readTerm? t.render = some t := by
  obtain ⟨hspelled, e, hexpressions, hterm⟩ := h
  have hspells := spells_render hspelled
  rw [hexpressions, Expression.lexemesAll, Expression.lexemesAll, List.append_nil] at hspells
  rw [readTerm?_of_spells hspells, hterm]

theorem isReadBack_binary {w n : Nat} (hw : 0 < w) (hn : n < 2 ^ w) :
    (binary w n).IsReadBack := by
  refine ⟨rfl, _, rfl, ?_⟩
  rw [Expression.term?, ofWord, digitsValue?_padded (by decide) (by decide),
    length_toList_padded (by decide) hw hn]
  rfl

theorem isReadBack_hexadecimal {k n : Nat} (hk : 0 < k) (hn : n < 16 ^ k) :
    (hexadecimal k n).IsReadBack := by
  refine ⟨rfl, _, rfl, ?_⟩
  rw [Expression.term?, ofWord, digitsValue?_padded (by decide) (by decide),
    length_toList_padded (by decide) hk hn]
  rfl

theorem isReadBack_bitsTerm {w n : Nat} (hw : 0 < w) (hn : n < 2 ^ w) :
    (bitsTerm w n).IsReadBack := by
  rcases bitsTerm_cases hw hn with h | ⟨k, hk, -, hsize, h⟩ <;> rw [h]
  · exact isReadBack_binary hw hn
  · exact isReadBack_hexadecimal hk hsize

/-- The negation of a literal is read back as the literal is. -/
theorem IsReadBack.negated {t : Term} (h : t.IsReadBack) :
    (app (symbol "bvneg") [t]).IsReadBack := by
  obtain ⟨hspelled, e, hexpressions, hterm⟩ := h
  have hname : isWord "bvneg".toList = true := by decide
  have hsymbol : ofWord "bvneg".toList = symbol "bvneg" := rfl
  refine ⟨?_, .list [.word "bvneg".toList, e], ?_, ?_⟩
  · rw [isSpelled, areSpelled, areSpelled, isSpelled, hname, hspelled]
    rfl
  · simp [expressions, expressionsAll, hexpressions]
  · rw [Expression.term?, Expression.term?, Expression.terms?, Expression.terms?, hterm, hsymbol]
    rfl

/-- A signed literal is read back, whether it is a negation or not. -/
theorem isReadBack_signedTerm {w : Nat} (hw : 0 < w) {m : Int} (hm : m.natAbs < 2 ^ w) :
    (signedTerm w m).IsReadBack := by
  have hdouble := Nat.two_pow_pred_add_two_pow_pred hw
  have hleast : powerOfTwo (w - 1) < 2 ^ w := by
    have hpos := Nat.two_pow_pos (w - 1)
    simp only [powerOfTwo, Nat.pow_eq]
    omega
  unfold signedTerm
  split
  · exact isReadBack_binary hw hleast
  · split
    · exact (isReadBack_bitsTerm hw hm).negated
    · exact isReadBack_bitsTerm hw hm

end Term

namespace Value

/-- The text of a bit-vector is read back. -/
theorem readTerm?_render {mode : RoundingMode} {signed : Bool} {width : Width}
    {x : BitVec width.bits} {t : Term} (ht : (bounded signed width x).term mode = .ok t) :
    readTerm? t.render = some t := by
  cases signed
  · cases ht
    exact (Term.isReadBack_bitsTerm width.pos x.isLt).readTerm?
  · cases ht
    have hsize := Term.natAbs_toInt_lt width.pos x
    exact (Term.isReadBack_signedTerm width.pos hsize).readTerm?

/-- The constant of an integer at a bit-vector kind holds the only integer of the width that is
congruent to it. The text of the constant is a term that denotes a bit-vector of the same width,
congruent to the integer as well. -/
theorem ofInteger_bounded_exact (signed : Bool) (width : Width) (n : Int) (mode : RoundingMode) :
    ∃ v, ofInteger (.bounded signed width) n = .ok v ∧
      (∀ m, m = v.numerator ↔ m ≡ n [ZMOD 2 ^ width.bits] ∧ width.Holds signed m) ∧
      ∃ t, v.term mode = .ok t ∧
        ∃ u, readTerm? t.render = some u ∧
          ∀ {α : Type} (carrier : SortExpr → α → Prop) (I : Interpretation α),
            ∃ x : BitVec width.bits,
              u.eval (.standard carrier) I = some (.bits width.bits x) ∧
                (x.toNat : Int) ≡ n [ZMOD 2 ^ width.bits] := by
  have hcongruent := readBits_ofInt_modEq signed width.bits n
  have hholds := width.holds_readBits signed (BitVec.ofInt width.bits n)
  obtain ⟨t, ht⟩ : ∃ t, (bounded signed width (BitVec.ofInt width.bits n)).term mode = .ok t := by
    cases signed <;> exact ⟨_, rfl⟩
  refine ⟨_, rfl, fun m => ⟨?_, ?_⟩, t, ht, t, readTerm?_render ht, fun carrier I => ?_⟩
  · rintro rfl
    exact ⟨hcongruent, hholds⟩
  · rintro ⟨hm, hm'⟩
    exact hm'.eq_of_modEq hholds (hm.trans hcongruent.symm)
  · exact ⟨BitVec.ofInt width.bits n, eval_term ht rfl, readBits_ofInt_modEq false width.bits n⟩

end Value

end SolverScript
