import SolverScript.Encoding.Scope
import SolverScript.Proofs.Semantics.Evaluation
import SolverScript.Value.Literal

/-!
# Constants

The literal of a constant denotes the element that the constant stands for, whichever form the
literal takes: digits for two or sixteen, a negated numeral, or the least signed bit-vector, which
is written digit by digit because its magnitude has no place among the signed values.

## Main results

* `Value.eval_term` - the literal of a truth value, an integer or a bit-vector
* `Scope.eval_constantTerm` - the literal of an integer at a kind
-/

namespace SolverScript

variable {α : Type} {carrier : SortExpr → α → Prop} {I : Interpretation α}

namespace Term

/-- A literal is read from its text. -/
private theorem eval_literal {t : Term} {e : Element α}
    (ht : (∃ n, t = .numeral n) ∨ (∃ w n, t = .binary w n) ∨ ∃ k n, t = .hexadecimal k n)
    (he : readLiteral? t.render.toList = some e) : t.eval (.standard carrier) I = some e := by
  rcases ht with ⟨n, rfl⟩ | ⟨w, n, rfl⟩ | ⟨k, n, rfl⟩ <;>
    simpa [eval, Theory.apply, name?, Theory.standard] using he

theorem eval_numeral (n : Nat) :
    (Term.numeral n).eval (.standard carrier) I = some (.int n) :=
  eval_literal (.inl ⟨n, rfl⟩) (readLiteral?_numeral n)

theorem eval_binary {w n : Nat} (hw : 0 < w) (hn : n < 2 ^ w) :
    (Term.binary w n).eval (.standard carrier) I = some (.bits w (BitVec.ofNat w n)) :=
  eval_literal (.inr (.inl ⟨w, n, rfl⟩)) (readLiteral?_binary hw hn)

theorem eval_hexadecimal {k n : Nat} (hk : 0 < k) (hn : n < 16 ^ k) :
    (Term.hexadecimal k n).eval (.standard carrier) I =
      some (.bits (4 * k) (BitVec.ofNat (4 * k) n)) :=
  eval_literal (.inr (.inr ⟨k, n, rfl⟩)) (readLiteral?_hexadecimal hk hn)

/-- An integer, with a negation around a negative one. -/
theorem eval_int (n : Int) : (Term.int n).eval (.standard carrier) I = some (.int n) := by
  obtain ⟨m, rfl | rfl⟩ := n.eq_nat_or_neg
  · have hnonneg : ¬((m : Int) < 0) := by omega
    rw [Term.int, if_neg hnonneg]
    exact eval_numeral m
  · rcases Nat.eq_zero_or_pos m with rfl | hm
    · simpa [Term.int] using eval_numeral 0
    · have hneg : -(m : Int) < 0 := by omega
      rw [Term.int, if_pos hneg, Int.neg_neg]
      exact eval_app_symbol rfl (evalAll_eq_some_iff.mpr (.cons (eval_numeral m) .nil)) rfl

/-- A bit-vector literal has binary or hexadecimal digits, enough of them for its value. -/
theorem bitsTerm_cases {w n : Nat} (hw : 0 < w) (hn : n < 2 ^ w) :
    bitsTerm w n = .binary w n ∨
      ∃ k, 0 < k ∧ 4 * k = w ∧ n < 16 ^ k ∧ bitsTerm w n = .hexadecimal k n := by
  unfold bitsTerm
  split
  · next hmod =>
    have hwidth : 4 * (w / 4) = w := by omega
    have hsize : n < 16 ^ (w / 4) := by
      calc
        n < 2 ^ w := hn
        _ = 2 ^ (4 * (w / 4)) := by rw [hwidth]
        _ = 16 ^ (w / 4) := by rw [Nat.pow_mul]
    exact .inr ⟨w / 4, by omega, hwidth, hsize, rfl⟩
  · exact .inl rfl

theorem eval_bitsTerm {w n : Nat} (hw : 0 < w) (hn : n < 2 ^ w) :
    (bitsTerm w n).eval (.standard carrier) I = some (.bits w (BitVec.ofNat w n)) := by
  rcases bitsTerm_cases hw hn with h | ⟨k, hk, hwidth, hsize, h⟩
  · rw [h, eval_binary hw hn]
  · rw [h, eval_hexadecimal hk hsize, Element.bits_ofNat_congr hwidth]

theorem natAbs_toInt_lt {w : Nat} (hw : 0 < w) (x : BitVec w) : x.toInt.natAbs < 2 ^ w := by
  have hpower : ((2 ^ (w - 1) : Nat) : Int) = 2 ^ (w - 1) := by simp
  have hlower := BitVec.le_toInt x
  have hupper := BitVec.toInt_lt (x := x)
  rw [← hpower] at hlower hupper
  have hdouble := Nat.two_pow_pred_add_two_pow_pred hw
  omega

/-- A signed bit-vector is written by its magnitude, but the least one by its digits. -/
theorem eval_signedTerm {w : Nat} (hw : 0 < w) (x : BitVec w) :
    (signedTerm w x.toInt).eval (.standard carrier) I = some (.bits w x) := by
  have hdouble := Nat.two_pow_pred_add_two_pow_pred hw
  have hpositive : 0 < 2 ^ (w - 1) := Nat.two_pow_pos _
  have hsize := natAbs_toInt_lt hw x
  unfold signedTerm powerOfTwo
  -- The magnitude of the least integer has no place among the integers of the width.
  split
  · next hleast =>
    have hvalue : x.toNat = 2 ^ (w - 1) := by
      rw [BitVec.toInt_eq_toNat_cond] at hleast
      split at hleast <;> simp only [Nat.pow_eq] at hleast <;> omega
    rw [eval_binary hw (by simp only [Nat.pow_eq]; omega), Nat.pow_eq, ← hvalue,
      BitVec.ofNat_toNat, BitVec.setWidth_eq]
  · split
    · next hneg =>
      have hmagnitude : x.toInt = -(x.toInt.natAbs : Int) := by omega
      have hx : -BitVec.ofNat w x.toInt.natAbs = x := by
        rw [← BitVec.ofInt_natCast, ← BitVec.ofInt_neg, ← hmagnitude, BitVec.ofInt_toInt]
      refine eval_app_symbol rfl
        (evalAll_eq_some_iff.mpr (.cons (eval_bitsTerm hw hsize) .nil)) ?_
      simp [Element.Function.onBits, hx]
    · next hnonneg =>
      have hmagnitude : (x.toInt.natAbs : Int) = x.toInt := by omega
      rw [eval_bitsTerm hw hsize, ← BitVec.ofInt_natCast, hmagnitude, BitVec.ofInt_toInt]

end Term

/-- The literal of a truth value, a bit-vector or an integer denotes the element of the constant. -/
theorem Value.eval_term {mode : RoundingMode} {v : Value} {t : Term} {e : Element α}
    (ht : v.term mode = .ok t) (he : v.element? = some e) :
    t.eval (.standard carrier) I = some e := by
  unfold Value.element? at he
  split at he <;> cases he
  · cases ht
    exact Term.eval_ofBool _
  · next signed width b =>
    cases signed <;> cases ht
    · rw [Term.eval_bitsTerm width.pos b.isLt, BitVec.ofNat_toNat, BitVec.setWidth_eq]
    · exact Term.eval_signedTerm width.pos b
  · cases ht
    exact Term.eval_int _

/-- The literal of an integer at a discrete kind denotes the element of the integer. -/
theorem Scope.eval_constantTerm (scope : Scope) (carrier : SortExpr → α → Prop)
    (I : Interpretation α) {kind : Kind} {n : Int} {e : Element α}
    (he : Element.ofInt? kind n = some e) :
    ∃ t, scope.constantTerm kind n = .ok t ∧ t.eval (.standard carrier) I = some e := by
  have hconstant : ∃ v, Value.constant kind n = .ok v ∧ v.element? = some e := by
    cases kind <;> simp_all [Element.ofInt?, Value.constant, Value.ofInteger, Value.element?]
  obtain ⟨v, hv, hve⟩ := hconstant
  have hterm : ∃ t, v.term scope.config.roundingMode = .ok t := by
    cases v with
    | bounded signed width b => cases signed <;> exact ⟨_, rfl⟩
    | bool b => exact ⟨_, rfl⟩
    | unbounded m => exact ⟨_, rfl⟩
    | _ => simp [Value.element?] at hve
  obtain ⟨t, ht⟩ := hterm
  refine ⟨t, ?_, Value.eval_term ht hve⟩
  simp only [Scope.constantTerm, hv]
  exact ht

end SolverScript
