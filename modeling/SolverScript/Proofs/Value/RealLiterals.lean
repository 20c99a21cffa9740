import Mathlib.Data.Rat.Cast.CharZero
import Mathlib.Data.Rat.Lemmas
import Mathlib.Tactic.NormNum
import SolverScript.Proofs.Semantics.Symbols
import SolverScript.Proofs.Value.LiteralMeaning

/-!
# Literals of reals

A real is given by two integers and kept as a fraction in lowest terms, with its sign in front of
it. Zero is written as a decimal, every other number as a quotient of decimals, and no two numbers
are written the same. So the literal is a name for the number that the two integers stand for,
however they were chosen.

## Main definitions

* `Value.IsReduced` - whether a value holds a number as a fraction in lowest terms

## Main results

* `Value.render_realTerm_inj` - the text of a real's literal tells which number it is
* `Value.ofReal_canonical` - all pairs of integers with one quotient have one literal, which denotes
  the quotient
-/

namespace SolverScript

namespace Value

/-! ### Lowest terms -/

/-- Whether the integers in a value are a number's fraction in lowest terms. -/
structure IsReduced (v : Value) (q : ℚ) : Prop where
  pos : 0 < v.denominator
  coprime : Int.gcd v.numerator v.denominator = 1
  denominator_of_zero : v.numerator = 0 → v.denominator = 1
  quotient : (v.numerator : ℚ) / v.denominator = q

/-- A real is kept in lowest terms. -/
theorem isReduced_real (q : ℚ) : (real q).IsReduced q where
  pos := Int.natCast_pos.mpr q.pos
  coprime := q.reduced
  denominator_of_zero h := by
    obtain rfl : q = 0 := Rat.num_eq_zero.mp h
    rfl
  quotient := by
    change (q.num : ℚ) / ((q.den : ℤ) : ℚ) = q
    rw [Int.cast_natCast, Rat.num_div_den]

/-- The quotient of two integers, unless the second one is zero. -/
theorem ofReal_of_ne_zero (n : ℤ) {d : ℤ} (hd : d ≠ 0) : ofReal n d = .ok (real (n / d : ℚ)) := by
  rw [Rat.intCast_div_eq_divInt]
  exact if_neg hd

/-- The integers of a real, from two that may have a factor in common: both are divided by it, and
the sign is moved to the first one. -/
theorem parts_ofReal {n d : ℤ} {v : Value} (hv : ofReal n d = .ok v) :
    v.numerator = d.sign * n / Int.gcd n d ∧ v.denominator = d.natAbs / Int.gcd n d := by
  have hd : d ≠ 0 := by
    rintro rfl
    cases hv
  obtain rfl : real (Rat.divInt n d) = v := Except.ok.inj ((if_neg hd).symm.trans hv)
  constructor
  · change (Rat.divInt n d).num = _
    rw [Rat.num_divInt, Int.gcd_comm]
  · change ((Rat.divInt n d).den : ℤ) = _
    rw [Rat.den_divInt, if_neg hd, Int.gcd_comm, Int.natCast_div]

/-! ### Three forms of literals -/

/-- The text of a quotient of decimals. -/
theorem render_quotient (a b : ℕ) :
    (Term.app (.symbol "/") [.decimal a, .decimal b]).render =
      "(" ++ ("/ " ++ (Numeral.decimal a ++ (".0 " ++ (Numeral.decimal b ++ ".0)")))) := by
  simp [Term.render, Term.renderAll, joined, Numeral.decimal, String.append_assoc]

/-- Both numbers can be read off the text of their quotient: a numeral ends at the point behind it.
-/
theorem render_quotient_inj {a b a' b' : ℕ} :
    (Term.app (.symbol "/") [.decimal a, .decimal b]).render =
        (Term.app (.symbol "/") [.decimal a', .decimal b']).render ↔ a = a' ∧ b = b' := by
  have hpoint : ∀ s : String, ∀ c ∈ (".0 " ++ s).toList.head?, Numeral.isDecimalChar c = false := by
    simp [Numeral.isDecimalChar]
  have hend : ∀ c ∈ ".0)".toList.head?, Numeral.isDecimalChar c = false := by
    simp [Numeral.isDecimalChar]
  rw [render_quotient, render_quotient, String.append_right_inj, String.append_right_inj,
    Numeral.decimal_append_inj (hpoint _) (hpoint _), String.append_right_inj,
    Numeral.decimal_append_inj hend hend]
  simp

/-- The text of a negated term. -/
theorem render_negated (t : Term) :
    (Term.app (.symbol "-") [t]).render = "(" ++ ("- " ++ (t.render ++ ")")) := by
  simp [Term.render, Term.renderAll, joined, String.append_assoc]

/-- A quotient is not written like a negated one. -/
theorem render_quotient_ne_negated (a b : ℕ) (t : Term) :
    (Term.app (.symbol "/") [.decimal a, .decimal b]).render ≠
      (Term.app (.symbol "-") [t]).render := by
  rw [render_quotient, render_negated, Ne, String.append_right_inj]
  intro h
  have hhead := congrArg (·.toList.head?) h
  simp at hhead

/-- The text of a fraction tells which number it is. -/
theorem render_fraction_inj {p q : ℚ} :
    (Term.fraction p).render = (Term.fraction q).render ↔ p = q := by
  refine ⟨fun h => ?_, fun h => by rw [h]⟩
  -- The signs are the same, as only one of the forms starts with a minus sign.
  suffices hparts : (p.num < 0 ↔ q.num < 0) ∧ p.num.natAbs = q.num.natAbs ∧ p.den = q.den by
    obtain ⟨hsign, hnum, hden⟩ := hparts
    exact Rat.ext (by omega) hden
  unfold Term.fraction at h
  by_cases hp : p.num < 0
  · by_cases hq : q.num < 0
    · rw [if_pos hp, if_pos hq, render_negated, render_negated, String.append_right_inj,
        String.append_right_inj, String.append_left_inj] at h
      exact ⟨iff_of_true hp hq, render_quotient_inj.mp h⟩
    · rw [if_pos hp, if_neg hq] at h
      exact absurd h.symm (render_quotient_ne_negated _ _ _)
  · by_cases hq : q.num < 0
    · rw [if_neg hp, if_pos hq] at h
      exact absurd h (render_quotient_ne_negated _ _ _)
    · rw [if_neg hp, if_neg hq] at h
      exact ⟨iff_of_false hp hq, render_quotient_inj.mp h⟩

/-- A fraction is not written like a decimal. -/
theorem render_fraction_ne_decimal (q : ℚ) (n : ℕ) :
    (Term.fraction q).render ≠ (Term.decimal n).render := by
  have hopen : ∃ s, (Term.fraction q).render = "(" ++ s := by
    unfold Term.fraction
    split
    · exact ⟨_, render_negated _⟩
    · exact ⟨_, render_quotient _ _⟩
  obtain ⟨s, hs⟩ := hopen
  intro h
  -- A decimal has no bracket among its digits.
  have hmem : '(' ∈ (Nat.repr n ++ ".0").toList := by
    change '(' ∈ (Term.decimal n).render.toList
    simp [← h, hs]
  rw [String.toList_append] at hmem
  rcases List.mem_append.mp hmem with hdigit | hpoint
  · exact absurd (Numeral.isDecimalChar_of_mem_repr hdigit) (by decide)
  · exact absurd hpoint (by decide)

/-- The text of a real's literal tells which number it is. -/
theorem render_realTerm_inj {p q : ℚ} :
    (realTerm p).render = (realTerm q).render ↔ p = q := by
  refine ⟨fun h => ?_, fun h => by rw [h]⟩
  unfold realTerm at h
  by_cases hp : p.num = 0
  · by_cases hq : q.num = 0
    · exact (Rat.num_eq_zero.mp hp).trans (Rat.num_eq_zero.mp hq).symm
    · rw [if_pos hp, if_neg hq] at h
      exact absurd h.symm (render_fraction_ne_decimal q 0)
  · by_cases hq : q.num = 0
    · rw [if_neg hp, if_pos hq] at h
      exact absurd h (render_fraction_ne_decimal p 0)
    · rw [if_neg hp, if_neg hq] at h
      exact render_fraction_inj.mp h

/-! ### One literal for each number -/

variable {S : OpenSorts}

/-- Reals are canonical: two integers of which the second is not zero make a value that holds their
quotient in lowest terms, its literal denotes the quotient as a real number, and the literals of two
such values are the same text just if the quotients are the same. A zero denominator is refused. -/
theorem ofReal_canonical (R : S.Reals) (mode : RoundingMode) :
    (∀ n d : ℤ, d ≠ 0 → ∃ v t, ofReal n d = .ok v ∧ v.kind = .real ∧ v.IsReduced (n / d) ∧
      v.term mode = .ok t ∧ ∀ J, t.eval S.theory J = some (R.datum (n / d)).element) ∧
    (∀ n d n' d' : ℤ, d ≠ 0 → d' ≠ 0 → ∀ v v' t t', ofReal n d = .ok v → ofReal n' d' = .ok v' →
      v.term mode = .ok t → v'.term mode = .ok t' →
      (t.render = t'.render ↔ (n : ℚ) / d = n' / d')) ∧
    ∀ n, ofReal n 0 = .error .realZeroDenominator ∧
      Failure.realZeroDenominator.category = .mistake := by
  refine ⟨fun n d hd => ?_, fun n d n' d' hd hd' v v' t t' hv hv' ht ht' => ?_,
    fun n => ⟨rfl, rfl⟩⟩
  · refine ⟨_, _, ofReal_of_ne_zero n hd, rfl, isReduced_real _, rfl, fun J => ?_⟩
    have hdenotes := OpenSorts.Reals.denotes_realTerm (R := R) (P := fun _ => True) (n / d : ℚ)
    have hcast : ((n / d : ℚ) : ℝ) = n / d := by
      rw [Rat.cast_div, Rat.cast_intCast, Rat.cast_intCast]
    rw [hdenotes J trivial, hcast]
  · obtain rfl := Except.ok.inj ((ofReal_of_ne_zero n hd).symm.trans hv)
    obtain rfl := Except.ok.inj ((ofReal_of_ne_zero n' hd').symm.trans hv')
    obtain rfl : realTerm _ = t := Except.ok.inj ht
    obtain rfl : realTerm _ = t' := Except.ok.inj ht'
    exact render_realTerm_inj

/-- Two negative numbers of which one is given with its sign in the denominator. -/
theorem ofReal_canonical_negative : ∃ v v', ofReal 6 (-4) = .ok v ∧ ofReal (-9) 6 = .ok v' ∧
    v.numerator = -3 ∧ v.denominator = 2 ∧
    (v.term .nearestTiesToEven).map Term.render = (v'.term .nearestTiesToEven).map Term.render := by
  obtain ⟨hexists, hsame, -⟩ := ofReal_canonical OpenSorts.withReals.reals .nearestTiesToEven
  obtain ⟨v, t, hv, -, -, ht, -⟩ := hexists 6 (-4) (by decide)
  obtain ⟨v', t', hv', -, -, ht', -⟩ := hexists (-9) 6 (by decide)
  have htext := (hsame 6 (-4) (-9) 6 (by decide) (by decide) v v' t t' hv hv' ht ht').mpr
    (by norm_num)
  obtain ⟨hnumerator, hdenominator⟩ := parts_ofReal hv
  refine ⟨v, v', hv, hv', hnumerator.trans (by decide), hdenominator.trans (by decide), ?_⟩
  rw [ht, ht']
  exact congrArg Except.ok htext

end Value

end SolverScript
