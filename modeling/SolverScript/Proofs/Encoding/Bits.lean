import SolverScript.Proofs.Graph.Evaluation

/-!
# Bit-vectors as integers

Every function on bit-vectors that a script uses is an operation on the integers that the
bit-vectors stand for, up to a multiple of a power of two. Where the function does not depend on the
sign, neither does the way in which its arguments are read; where it does, there is one lemma for
each way.
-/

namespace SolverScript.Value

variable {w : Nat}

/-! ### Arithmetic -/

private theorem ofInt_toNat (x : BitVec w) : BitVec.ofInt w x.toNat = x := by
  rw [BitVec.ofInt_natCast, BitVec.ofNat_toNat, BitVec.setWidth_eq]

theorem ofInt_readBits_add (signed : Bool) (x y : BitVec w) :
    BitVec.ofInt w (readBits signed x + readBits signed y) = x + y := by
  simp [BitVec.ofInt_add]

theorem ofInt_readBits_sub (signed : Bool) (x y : BitVec w) :
    BitVec.ofInt w (readBits signed x - readBits signed y) = x - y := by
  rw [Int.sub_eq_add_neg, BitVec.ofInt_add, BitVec.ofInt_neg, ofInt_readBits, ofInt_readBits,
    BitVec.sub_eq_add_neg]

theorem ofInt_readBits_mul (signed : Bool) (x y : BitVec w) :
    BitVec.ofInt w (readBits signed x * readBits signed y) = x * y := by
  simp [BitVec.ofInt_mul]

theorem ofInt_readBits_neg (signed : Bool) (x : BitVec w) :
    BitVec.ofInt w (-readBits signed x) = -x := by
  simp [BitVec.ofInt_neg]

theorem ofInt_natAbs_toNat (x : BitVec w) :
    BitVec.ofInt w ((readBits false x).natAbs : Int) = x := by
  simp only [readBits, Bool.false_eq_true, if_false, Int.natAbs_natCast, ofInt_toNat]

theorem ofInt_natAbs_toInt (x : BitVec w) :
    BitVec.ofInt w ((readBits true x).natAbs : Int) = if x.slt 0#w then -x else x := by
  rw [BitVec.slt_eq_decide, BitVec.toInt_zero]
  by_cases hx : x.toInt < 0
  · have habs : (x.toInt.natAbs : Int) = -x.toInt := by omega
    simp only [readBits, if_true, hx, decide_true, habs, BitVec.ofInt_neg, BitVec.ofInt_toInt]
  · have habs : (x.toInt.natAbs : Int) = x.toInt := by omega
    simp only [readBits, if_true, hx, decide_false, habs, BitVec.ofInt_toInt]
    rfl

theorem ofInt_divided_toNat (x y : BitVec w) :
    BitVec.ofInt w (divided (readBits false x) (readBits false y)) = x.smtUDiv y := by
  rw [BitVec.smtUDiv_eq]
  by_cases hy : y = 0#w
  · -- Zero divides into a bit-vector of all bits set.
    subst hy
    have hx : ¬((x.toNat : Int) < 0) := by omega
    simp [divided, readBits, hx, BitVec.ofInt_neg, ← BitVec.neg_one_eq_allOnes]
  · have hne : (y.toNat : Int) ≠ 0 := by
      intro hzero
      exact hy (BitVec.eq_of_toNat_eq (by simpa using hzero))
    simp only [divided, readBits, Bool.false_eq_true, if_false, hne, hy]
    rw [← Int.ofNat_tdiv, ← BitVec.toNat_udiv, ofInt_toNat]

private theorem smtSDiv_of_ne_zero (x : BitVec w) {y : BitVec w} (hy : y ≠ 0#w) :
    x.smtSDiv y = x.sdiv y := by
  have hneg : -y ≠ 0#w := by simpa [BitVec.neg_eq_zero_iff] using hy
  rw [BitVec.smtSDiv_eq, BitVec.sdiv_eq]
  simp [BitVec.smtUDiv_eq, hy, hneg]

theorem ofInt_divided_toInt (x y : BitVec w) :
    BitVec.ofInt w (divided (readBits true x) (readBits true y)) = x.smtSDiv y := by
  by_cases hy : y = 0#w
  · -- Zero divides into one or minus one, against the sign.
    subst hy
    simp only [divided, readBits, if_true, BitVec.toInt_zero, BitVec.smtSDiv_zero,
      BitVec.slt_eq_decide, decide_eq_true_eq]
    split
    · simp
    · rw [BitVec.ofInt_neg, ← BitVec.neg_one_eq_allOnes]
      simp
  · have hne : y.toInt ≠ 0 := by
      intro hzero
      exact hy (BitVec.eq_of_toInt_eq (by simpa using hzero))
    rw [smtSDiv_of_ne_zero x hy]
    apply BitVec.eq_of_toInt_eq
    simp only [divided, readBits, if_true, hne, if_false]
    rw [BitVec.toInt_ofInt, BitVec.toInt_sdiv]

theorem ofInt_tmod_toNat (x y : BitVec w) :
    BitVec.ofInt w ((readBits false x).tmod (readBits false y)) = x % y := by
  simp only [readBits, Bool.false_eq_true, if_false]
  rw [← Int.ofNat_tmod, ← BitVec.toNat_umod, ofInt_toNat]

theorem ofInt_tmod_toInt (x y : BitVec w) :
    BitVec.ofInt w ((readBits true x).tmod (readBits true y)) = x.srem y := by
  simp only [readBits, if_true]
  rw [← BitVec.toInt_srem, BitVec.ofInt_toInt]

/-! ### Comparisons -/

theorem decide_lt_toNat (x y : BitVec w) :
    decide (readBits false x < readBits false y) = x.ult y := by
  simp [BitVec.ult, readBits]

theorem decide_le_toNat (x y : BitVec w) :
    decide (readBits false x ≤ readBits false y) = x.ule y := by
  simp [BitVec.ule, readBits]

theorem decide_lt_toInt (x y : BitVec w) :
    decide (readBits true x < readBits true y) = x.slt y := rfl

theorem decide_le_toInt (x y : BitVec w) :
    decide (readBits true x ≤ readBits true y) = x.sle y := rfl

/-! ### Bits -/

theorem ofInt_toNat_and (x y : BitVec w) :
    BitVec.ofInt w ((x.toNat &&& y.toNat : Nat) : Int) = x &&& y := by
  rw [← BitVec.toNat_and, ofInt_toNat]

theorem ofInt_toNat_or (x y : BitVec w) :
    BitVec.ofInt w ((x.toNat ||| y.toNat : Nat) : Int) = x ||| y := by
  rw [← BitVec.toNat_or, ofInt_toNat]

theorem ofInt_toNat_xor (x y : BitVec w) :
    BitVec.ofInt w ((x.toNat ^^^ y.toNat : Nat) : Int) = x ^^^ y := by
  rw [← BitVec.toNat_xor, ofInt_toNat]

theorem ofInt_complement (signed : Bool) (x : BitVec w) :
    BitVec.ofInt w (-1 - readBits signed x) = ~~~x := by
  rw [Int.sub_eq_add_neg, BitVec.ofInt_add, ofInt_readBits_neg, BitVec.ofInt_neg,
    ← BitVec.allOnes_sub_eq_not, ← BitVec.neg_one_eq_allOnes, BitVec.sub_eq_add_neg]
  simp

theorem ofInt_shiftLeft (signed : Bool) (x : BitVec w) (n : Nat) :
    BitVec.ofInt w (readBits signed x * 2 ^ n) = x <<< n := by
  -- A shift by the width or more multiplies by a power that counts as zero.
  have hpower : BitVec.ofInt w (2 ^ n) = BitVec.twoPow w n := by
    apply BitVec.eq_of_toNat_eq
    rw [BitVec.toNat_twoPow, show (2 ^ n : Int) = ((2 ^ n : Nat) : Int) by simp,
      BitVec.ofInt_natCast, BitVec.toNat_ofNat]
  rw [BitVec.ofInt_mul, ofInt_readBits, hpower, BitVec.shiftLeft_eq_mul_twoPow]

theorem ofInt_shiftRight_toNat (x : BitVec w) (n : Nat) :
    BitVec.ofInt w (readBits false x / 2 ^ n) = x >>> n := by
  have hquotient : readBits false x / 2 ^ n = ((x >>> n).toNat : Int) := by
    simp [readBits, BitVec.toNat_ushiftRight, Nat.shiftRight_eq_div_pow]
  rw [hquotient, ofInt_toNat]

theorem ofInt_shiftRight_toInt (x : BitVec w) (n : Nat) :
    BitVec.ofInt w (readBits true x / 2 ^ n) = x.sshiftRight n := by
  simp only [readBits, if_true, BitVec.sshiftRight, Int.shiftRight_eq_div_pow]
  simp

theorem ofInt_rotatedLeft (x : BitVec w) (k : Nat) :
    BitVec.ofInt w (rotatedLeft w k x.toNat) = x.rotateLeft k := by
  have hlow : x.toNat >>> (w - k % w) < 2 ^ w :=
    Nat.lt_of_le_of_lt (Nat.shiftRight_le _ _) x.isLt
  apply BitVec.eq_of_toNat_eq
  rw [BitVec.ofInt_natCast, BitVec.toNat_ofNat, BitVec.toNat_rotateLeft, rotatedLeft,
    Nat.or_mod_two_pow, Nat.mod_eq_of_lt hlow]

theorem ofInt_rotatedRight (x : BitVec w) (k : Nat) :
    BitVec.ofInt w (rotatedRight w k x.toNat) = x.rotateRight k := by
  have hlow : x.toNat >>> (k % w) < 2 ^ w :=
    Nat.lt_of_le_of_lt (Nat.shiftRight_le _ _) x.isLt
  apply BitVec.eq_of_toNat_eq
  rw [BitVec.ofInt_natCast, BitVec.toNat_ofNat, BitVec.toNat_rotateRight, rotatedRight,
    Nat.or_mod_two_pow, Nat.mod_eq_of_lt hlow]

theorem ofInt_extract (x : BitVec w) (high low : Nat) :
    BitVec.ofInt (high - low + 1) ((x.toNat / 2 ^ low : Nat) : Int) = x.extractLsb high low := by
  apply BitVec.eq_of_toNat_eq
  rw [BitVec.ofInt_natCast, BitVec.toNat_ofNat, BitVec.extractLsb_toNat,
    Nat.shiftRight_eq_div_pow]

theorem ofInt_join {v : Nat} (x : BitVec v) (y : BitVec w) :
    BitVec.ofInt (v + w) ((x.toNat * 2 ^ w + y.toNat : Nat) : Int) = x ++ y := by
  have hvalue : x.toNat * 2 ^ w + y.toNat = (x ++ y).toNat := by
    rw [BitVec.toNat_append, ← Nat.shiftLeft_add_eq_or_of_lt y.isLt, Nat.shiftLeft_eq]
  rw [hvalue, ofInt_toNat]

end SolverScript.Value
