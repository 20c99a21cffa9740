import Mathlib.Data.List.Nodup
import SolverScript.Encoding.Cast
import SolverScript.Proofs.Encoding.Bits
import SolverScript.Proofs.Kind.Order
import SolverScript.Proofs.Semantics.Constants

/-!
# Casts between integers and bit-vectors

An integer of one width or of none is turned into an integer of another. Whether the script extends,
cuts off, corrects the sign or puts single bits together, the term that it writes denotes what is
left of the integer at the target: its residue modulo a power of two, in two's complement if the
target has a sign, and the integer itself if the target is unbounded. The residue that is put
together from single bits is the one that a conversion function would have given.

## Main definitions

* `Kind.IsIntegral` - bit-vectors of all widths and unbounded integers
* `Kind.wrap` - what an integral kind keeps of an integer

## Main results

* `Cast.eval_resize`, `Cast.eval_bitVectorToInt`, `Cast.eval_intToBitVector` - what the three forms
  of casts denote
* `Cast.eval_ofKinds_integral` - a cast between integral kinds denotes the wrapped integer
-/

namespace SolverScript

/-- Bit-vectors, with or without a sign, and unbounded integers. -/
def Kind.IsIntegral (k : Kind) : Prop :=
  k = .unbounded ∨ ∃ signed width, k = .bounded signed width

/-- What an integral kind keeps of an integer: its residue, in two's complement if the kind has a
sign. -/
def Kind.wrap (k : Kind) (n : Int) : Int :=
  match k with
  | .bounded true width => n.bmod (2 ^ width.bits)
  | .bounded false width => n % (2 ^ width.bits : Nat)
  | _ => n

variable {α : Type} {carrier : SortExpr → α → Prop} {I : Interpretation α}

namespace Value

/-! ### Residues at different widths -/

/-- The integer that is made from an integer at an integral kind. -/
theorem numerator_of_ofInteger {k : Kind} (hk : k.IsIntegral) {n : Int} {c : Value}
    (hc : ofInteger k n = .ok c) : c.numerator = k.wrap n := by
  rcases hk with rfl | ⟨signed, width, rfl⟩
  · cases hc
    rfl
  · cases hc
    cases signed
    · have hpos := Nat.two_pow_pos width.bits
      have hnonneg := Int.emod_nonneg n (b := (2 ^ width.bits : Nat)) (by omega)
      simp only [numerator, readBits, Bool.false_eq_true, if_false, BitVec.toNat_ofInt, Kind.wrap]
      exact Int.toNat_of_nonneg hnonneg
    · exact BitVec.toInt_ofInt n

/-- The values of integral kinds. -/
theorem eq_of_isIntegral {v : Value} (h : v.kind.IsIntegral) :
    (∃ n, v = unbounded n) ∨ ∃ signed width x, v = bounded signed width x := by
  cases v <;> simp_all [Kind.IsIntegral, kind]

/-- The low bits of an integer do not show whether it was read with a sign. -/
theorem ofInt_readBits_of_le {v w : Nat} (h : v ≤ w) (signed : Bool) (x : BitVec w) :
    BitVec.ofInt v (readBits signed x) = BitVec.ofInt v x.toNat := by
  cases signed
  · rfl
  · calc
      BitVec.ofInt v x.toInt = x.signExtend v := rfl
      _ = x.setWidth v := BitVec.signExtend_eq_setWidth_of_le x h
      _ = BitVec.ofNat v x.toNat := (BitVec.ofNat_toNat v x).symm
      _ = BitVec.ofInt v x.toNat := (BitVec.ofInt_natCast v x.toNat).symm

/-- The integer of a bit-vector with a sign: the bits below the top one, less the weight of that
one if it is set. -/
theorem readBits_true_eq {w : Nat} (hw : 0 < w) (x : BitVec w) :
    readBits true x =
      if x.toNat / 2 ^ (w - 1) = 0 then ((x.toNat % 2 ^ (w - 1) : Nat) : Int)
      else ((x.toNat % 2 ^ (w - 1) : Nat) : Int) - (2 ^ (w - 1) : Nat) := by
  have hdouble := Nat.two_pow_pred_add_two_pow_pred hw
  have hlt := x.isLt
  simp only [readBits, if_true, BitVec.toInt_eq_toNat_cond]
  split
  · next hlow =>
    have hsmall : x.toNat < 2 ^ (w - 1) := by omega
    rw [if_pos (Nat.div_eq_of_lt hsmall), Nat.mod_eq_of_lt hsmall]
  · next hhigh =>
    have hquotient : x.toNat / 2 ^ (w - 1) = 1 :=
      Nat.div_eq_of_lt_le (by omega) (by omega)
    have hsplit := Nat.div_add_mod x.toNat (2 ^ (w - 1))
    rw [hquotient] at hsplit
    rw [if_neg (by omega)]
    omega

/-- The remainder of an integer is all that a bit-vector keeps of it. -/
theorem ofInt_of_emod_eq {w r : Nat} {n : Int} (h : n % (2 ^ w : Nat) = r) :
    BitVec.ofInt w n = BitVec.ofNat w r := by
  have hlt := Int.emod_lt_of_pos n (Int.natCast_pos.mpr (Nat.two_pow_pos w))
  apply BitVec.eq_of_toNat_eq
  rw [BitVec.toNat_ofInt, BitVec.toNat_ofNat, Nat.mod_eq_of_lt (by omega)]
  omega

/-- A residue is made of a smaller one and a further bit on top of it. -/
theorem ofNat_append_ofNat (w n : Nat) :
    BitVec.ofNat 1 (n / 2 ^ w) ++ BitVec.ofNat w n = BitVec.ofNat (1 + w) n := by
  have hvalue : n / 2 ^ w % 2 * 2 ^ w + n % 2 ^ w = n % 2 ^ (1 + w) := by
    rw [Nat.add_comm 1 w, Nat.mod_pow_succ, Nat.mul_comm, Nat.add_comm]
  rw [← ofInt_join, BitVec.ofInt_natCast]
  apply BitVec.eq_of_toNat_eq
  simp only [BitVec.toNat_ofNat, pow_one, hvalue, Nat.mod_mod]

end Value

namespace Cast

open Element.Function

/-! ### The parts of casts -/

theorem eval_bits {t : Term} {w high low : Nat} {x : BitVec w}
    (ht : t.eval (.standard carrier) I = some (.bits w x)) (hlow : low ≤ high) (hhigh : high < w) :
    (bits high low t).eval (.standard carrier) I =
      some (.bits (high - low + 1) (x.extractLsb high low)) :=
  Term.eval_app_indexed (Term.evalAll_eq_some_iff.mpr (.cons ht .nil)) (if_pos ⟨hlow, hhigh⟩)

theorem eval_natural {t : Term} {w : Nat} {x : BitVec w}
    (ht : t.eval (.standard carrier) I = some (.bits w x)) :
    (Term.app (.symbol "bv2nat") [t]).eval (.standard carrier) I = some (.int x.toNat) :=
  Term.eval_app_symbol rfl (Term.evalAll_eq_some_iff.mpr (.cons ht .nil)) rfl

/-- A case distinction denotes one of two elements of one sort. -/
theorem eval_ite {c t u : Term} {b : Bool} {d e : Element α}
    (hc : c.eval (.standard carrier) I = some (.bool b))
    (ht : t.eval (.standard carrier) I = some d) (hu : u.eval (.standard carrier) I = some e)
    (hsort : d.sameSort e = true) :
    (Term.app (.symbol "ite") [c, t, u]).eval (.standard carrier) I =
      some (if b then d else e) :=
  Term.eval_app_symbol rfl
    (Term.evalAll_eq_some_iff.mpr (.cons hc (.cons ht (.cons hu .nil)))) (if_pos hsort)

/-- A single bit decides between two integers. -/
theorem eval_ifZero {bit t u : Term} {w : Nat} {x : BitVec w} {m n : Int} (hw : w = 1)
    (hbit : bit.eval (.standard carrier) I = some (.bits w x))
    (ht : t.eval (.standard carrier) I = some (.int m))
    (hu : u.eval (.standard carrier) I = some (.int n)) :
    (ifZero bit t u).eval (.standard carrier) I = some (.int (if x.toNat = 0 then m else n)) := by
  subst hw
  have hzero : (Element.bits 1 x : Element α) = .bits 1 (BitVec.ofNat 1 0) ↔ x.toNat = 0 := by
    simp [← BitVec.toNat_inj]
  have hcondition := Term.eval_equation hbit (Term.eval_binary (w := 1) (n := 0) (by decide)
    (by decide)) rfl
  rw [ifZero, eval_ite hcondition ht hu rfl]
  by_cases hx : x.toNat = 0
  · simp [hzero.mpr hx, hx]
  · simp [mt hzero.mp hx, hx]

/-- Quotients and remainders of integers by a number other than zero. -/
theorem eval_onIntsNonzero (name : String) {f : Int → Int → Int} {t u : Term} {m n : Int}
    (hname : (Theory.symbols (α := α)).lookup name = some (onIntsNonzero f))
    (ht : t.eval (.standard carrier) I = some (.int m))
    (hu : u.eval (.standard carrier) I = some (.int n)) (hn : n ≠ 0) :
    (Term.app (.symbol name) [t, u]).eval (.standard carrier) I = some (.int (f m n)) :=
  Term.eval_app_symbol hname (Term.evalAll_eq_some_iff.mpr (.cons ht (.cons hu .nil))) (if_neg hn)

theorem powerOfTwo_ne_zero (n : Nat) : ((powerOfTwo n : Nat) : Int) ≠ 0 :=
  Int.natCast_ne_zero.mpr (Nat.ne_of_gt (Nat.two_pow_pos n))

/-! ### From bit-vectors -/

/-- A bit-vector at another width denotes the residue of the integer that it is read as. -/
theorem eval_resize {t : Term} {signed : Bool} {m n : Nat} (hn : 0 < n) {x : BitVec m}
    (ht : t.eval (.standard carrier) I = some (.bits m x)) :
    (resize signed m n t).eval (.standard carrier) I =
      some (.bits n (BitVec.ofInt n (Value.readBits signed x))) := by
  have hes := Term.evalAll_eq_some_iff.mpr (.cons ht .nil)
  unfold resize
  split
  · next hlt =>
    have hwidth : m + (n - m) = n := by omega
    rw [← Element.bits_ofInt_congr hwidth]
    cases signed
    · refine Term.eval_app_indexed hes ?_
      have hextended : x.setWidth (m + (n - m)) = BitVec.ofInt (m + (n - m)) x.toNat := by
        rw [BitVec.ofInt_natCast, BitVec.ofNat_toNat]
      exact congrArg (fun y => some (Element.bits _ y)) hextended
    · exact Term.eval_app_indexed hes rfl
  · split
    · next heq =>
      subst heq
      rw [ht, Value.ofInt_readBits]
    · next hne =>
      have hwidth : n - 1 - 0 + 1 = n := by omega
      rw [eval_bits ht (Nat.zero_le _) (by omega), ← Value.ofInt_extract, Nat.pow_zero, Nat.div_one,
        Element.bits_ofInt_congr hwidth, ← Value.ofInt_readBits_of_le (by omega) signed]

/-- The integer of a bit-vector, whatever its width. -/
theorem eval_bitVectorToInt {t : Term} {signed : Bool} {w : Nat} (hw : 0 < w) {x : BitVec w}
    (ht : t.eval (.standard carrier) I = some (.bits w x)) :
    (bitVectorToInt signed w t).eval (.standard carrier) I =
      some (.int (Value.readBits signed x)) := by
  cases signed
  · exact eval_natural ht
  · rw [Value.readBits_true_eq hw]
    unfold bitVectorToInt
    simp only [Bool.not_true, Bool.false_eq_true, if_false]
    split
    -- A single bit is the sign; there are no bits below it.
    · next hone =>
      subst hone
      have hzero : (Term.numeral 0).eval (.standard carrier) I = some (.int 0) :=
        Term.eval_numeral 0
      rw [eval_ifZero rfl ht hzero (Term.eval_int (-1))]
      simp [Nat.mod_one]
    · next hmany =>
      have hbelow : w - 2 + 1 = w - 1 := by omega
      have hrest := eval_natural (eval_bits ht (Nat.zero_le (w - 2)) (by omega))
      have htop := eval_bits ht (Nat.le_refl (w - 1)) (by omega)
      have hweight : (Term.numeral (powerOfTwo (w - 1))).eval (.standard carrier) I =
          some (.int (powerOfTwo (w - 1))) := Term.eval_numeral _
      have hcorrected := Term.eval_app_symbol
        (show Theory.symbols.lookup "-" = some _ from rfl)
        (Term.evalAll_eq_some_iff.mpr (.cons hrest (.cons hweight .nil))) rfl
      rw [eval_ifZero (by omega) htop hrest hcorrected]
      have hquotient : x.toNat / 2 ^ (w - 1) % 2 = x.toNat / 2 ^ (w - 1) := by
        have hdouble := Nat.two_pow_pred_add_two_pow_pred hw
        exact Nat.mod_eq_of_lt (Nat.div_lt_of_lt_mul (by have := x.isLt; omega))
      simp [hbelow, Nat.shiftRight_eq_div_pow, hquotient, powerOfTwo]

/-! ### From integers -/

theorem bitName_injective : Function.Injective bitName := by
  intro i j h
  exact Numeral.repr_injective (by simpa [bitName] using h)

/-- The standard theory has no function whose name starts like those of the bits. -/
theorem lookup_underscore {name : String} (hname : name.toList.head? = some '_') :
    (Theory.symbols (α := α)).lookup name = none := by
  have hkeys : ∀ key ∈ (Theory.symbols (α := α)).map Prod.fst, key.toList.head? ≠ some '_' := by
    simp [Theory.symbols, Theory.core, Theory.integers, Theory.bitVectors]
  exact lookup_of_not_mem_keys fun hmem => hkeys name hmem hname

/-- A name that starts like those of the bits denotes what it is bound to. -/
theorem eval_underscore {name : String} {e : Element α} (hname : name.toList.head? = some '_')
    (he : I name = e.constant) :
    (Term.symbol name).eval (.standard carrier) I = some e := by
  simp [Term.eval, Theory.apply, Term.name?, Theory.standard, lookup_underscore hname, he,
    Element.constant]

/-- Bit `i` of a natural number. -/
theorem eval_bitOf {n : Nat} (hI : I "__a" = (Element.int n).constant) (i : Nat) :
    (bitOf i).eval (.standard carrier) I = some (.bits 1 (BitVec.ofNat 1 (n / 2 ^ i))) := by
  have hnumber : (Term.symbol "__a").eval (.standard carrier) I = some (.int n) :=
    eval_underscore rfl hI
  have hshifted : (if i = 0 then Term.symbol "__a" else
      .app (.symbol "div") [.symbol "__a", .numeral (powerOfTwo i)]).eval (.standard carrier) I =
        some (.int (n / 2 ^ i : Nat)) := by
    split
    · next hi => rw [hnumber, hi, Nat.pow_zero, Nat.div_one]
    · have hquotient := eval_onIntsNonzero "div" rfl hnumber (Term.eval_numeral _)
        (powerOfTwo_ne_zero i)
      exact hquotient
  have hparity := eval_onIntsNonzero "mod" rfl hshifted (Term.eval_numeral 2) (by decide)
  have heven := Term.eval_equation hparity (Term.eval_numeral 0) rfl
  refine (eval_ite heven (Term.eval_binary (by decide) (by decide))
    (Term.eval_binary (by decide) (by decide)) rfl).trans ?_
  generalize n / 2 ^ i = q
  have hbit : BitVec.ofNat 1 q = BitVec.ofNat 1 (q % 2) := BitVec.eq_of_toNat_eq (by simp)
  rw [hbit]
  rcases Nat.mod_two_eq_zero_or_one q with hmod | hmod
  · have heven : (q : Int) % 2 = 0 := by omega
    simp [hmod, heven]
  · have hodd : (q : Int) % 2 = 1 := by omega
    simp [hmod, hodd]

/-- The bits up to bit `m`, put together. -/
theorem eval_concatenated {n : Nat} (m : Nat)
    (hI : ∀ i ≤ m, I (bitName i) = (Element.bits 1 (BitVec.ofNat 1 (n / 2 ^ i))).constant) :
    (concatenated m).eval (.standard carrier) I =
      some (.bits (m + 1) (BitVec.ofNat (m + 1) n)) := by
  have hbit : ∀ i ≤ m, (Term.symbol (bitName i)).eval (.standard carrier) I =
      some (.bits 1 (BitVec.ofNat 1 (n / 2 ^ i))) := fun i hi =>
    eval_underscore (by simp [bitName]) (hI i hi)
  -- The bits below the top one have been put together already.
  induction m with
  | zero => simpa [concatenated] using hbit 0 (Nat.le_refl 0)
  | succ m ih =>
    have htop := hbit (m + 1) (Nat.le_refl _)
    have hrest := ih (fun i hi => hI i (by omega)) fun i hi => hbit i (by omega)
    have hes := Term.evalAll_eq_some_iff.mpr (.cons htop (.cons hrest .nil))
    refine Term.eval_app_symbol rfl hes ?_
    rw [← Element.bits_ofNat_congr (Nat.add_comm 1 (m + 1)), ← Value.ofNat_append_ofNat]

/-- The residue of an integer, whether it is converted or put together from its bits. -/
theorem eval_intToBitVector (hasConversion : Bool) {t : Term} {w : Nat} (hw : 0 < w) {n : Int}
    (ht : t.eval (.standard carrier) I = some (.int n)) :
    (intToBitVector hasConversion w t).eval (.standard carrier) I =
      some (.bits w (BitVec.ofInt w n)) := by
  have hes := Term.evalAll_eq_some_iff.mpr (.cons ht .nil)
  cases hasConversion
  · obtain ⟨r, hr⟩ := Int.eq_ofNat_of_zero_le (Int.emod_nonneg n (powerOfTwo_ne_zero w))
    have hreduced := eval_onIntsNonzero "mod" rfl ht (Term.eval_numeral _) (powerOfTwo_ne_zero w)
    rw [hr] at hreduced
    -- All bits are taken from the residue, outside the scope of each other.
    have hbits : Term.evalAll (.standard carrier) (I.bind "__a" (Element.int r).constant)
        ((List.range w).map bitOf) =
          some ((List.range w).map fun i => .bits 1 (BitVec.ofNat 1 (r / 2 ^ i))) := by
      rw [Term.evalAll_eq_some_iff, List.forall₂_map_left_iff, List.forall₂_map_right_iff,
        List.forall₂_same]
      exact fun i _ => eval_bitOf (I.bind_self _ _) i
    simp only [intToBitVector, Bool.false_eq_true, if_false]
    rw [Term.eval_bind_of_eval hreduced, Term.eval, hbits, Value.ofInt_of_emod_eq hr,
      ← Element.bits_ofNat_congr (Nat.sub_add_cancel hw)]
    refine eval_concatenated (w - 1) fun i hi => ?_
    refine Interpretation.bindAll_of_mem_zip _ (List.nodup_range.map bitName_injective) ?_
    rw [List.zip_map']
    exact List.mem_map_of_mem (List.mem_range.mpr (by omega))
  · exact Term.eval_app_indexed hes rfl

/-! ### Casts -/

/-- A cast of a term that denotes a value denotes the element of its integer at the target. -/
theorem eval_ofKinds (hasConversion : Bool) {v : Value} {target : Kind}
    (hsource : v.kind.IsIntegral) (htarget : target.IsIntegral) {t : Term}
    (ht : t.eval (.standard carrier) I = v.element?) :
    ∃ u, ofKinds hasConversion v.kind target t = .ok u ∧
      u.eval (.standard carrier) I = Element.ofInt? target v.numerator := by
  rcases v.eq_of_isIntegral hsource with ⟨n, rfl⟩ | ⟨signed, m, x, rfl⟩ <;>
    rcases htarget with rfl | ⟨signed', w, rfl⟩
  · exact ⟨t, rfl, ht⟩
  · exact ⟨_, rfl, eval_intToBitVector hasConversion w.pos ht⟩
  · exact ⟨_, rfl, eval_bitVectorToInt m.pos ht⟩
  · by_cases hsame : Kind.bounded signed m = .bounded signed' w
    -- The argument is kept as it is, and so is its integer.
    · refine ⟨t, if_pos (Kind.beq_eq_true_iff.mpr hsame), ht.trans ?_⟩
      cases hsame
      simp only [Value.element?, Element.ofInt?, Value.numerator, Value.ofInt_readBits]
    · exact ⟨_, if_neg (mt Kind.beq_eq_true_iff.mp hsame), eval_resize w.pos ht⟩

/-- A cast between integral kinds succeeds, and its term denotes the value that the target makes
from the integer, with or without a function that converts integers. -/
theorem eval_ofKinds_integral {v : Value} {target : Kind} (hsource : v.kind.IsIntegral)
    (htarget : target.IsIntegral) {t : Term} (ht : t.eval (.standard carrier) I = v.element?) :
    ∃ c e, Value.ofInteger target v.numerator = .ok c ∧ c.kind = target ∧
      c.numerator = target.wrap v.numerator ∧ c.element? = some e ∧
      ∀ hasConversion, ∃ u, ofKinds hasConversion v.kind target t = .ok u ∧
        u.eval (.standard carrier) I = some e := by
  obtain ⟨c, hc, hkind⟩ : ∃ c, Value.ofInteger target v.numerator = .ok c ∧ c.kind = target := by
    rcases htarget with rfl | ⟨signed, w, rfl⟩ <;> exact ⟨_, rfl, rfl⟩
  obtain ⟨e, he⟩ : ∃ e, c.element? = some (e : Element α) := by
    rcases c.eq_of_isIntegral (hkind ▸ htarget) with ⟨n, rfl⟩ | ⟨signed, w, x, rfl⟩ <;>
      exact ⟨_, rfl⟩
  refine ⟨c, e, hc, hkind, Value.numerator_of_ofInteger htarget hc, he, fun hasConversion => ?_⟩
  obtain ⟨u, hu, heval⟩ := eval_ofKinds hasConversion hsource htarget ht
  exact ⟨u, hu, by rw [heval, ← Value.element?_of_ofInteger hc, he]⟩

/-- Minus ten, cut to three bits with a sign, is minus two. -/
theorem eval_ofKinds_minusTen :
    ∃ c, Value.ofInteger (.bounded true ⟨3, by decide⟩) (-10) = .ok c ∧ c.numerator = -2 ∧
      ∀ hasConversion, ∃ u,
        ofKinds hasConversion .unbounded (.bounded true ⟨3, by decide⟩) (Term.int (-10)) = .ok u ∧
          u.eval (.standard fun _ (_ : Unit) => True) (fun _ _ => none) = c.element? := by
  have hsource : (Value.unbounded (-10)).kind.IsIntegral := .inl rfl
  have htarget : (Kind.bounded true ⟨3, by decide⟩).IsIntegral := .inr ⟨_, _, rfl⟩
  have hargument : (Term.int (-10)).eval (.standard fun _ (_ : Unit) => True) (fun _ _ => none) =
      (Value.unbounded (-10)).element? := Term.eval_int (-10)
  obtain ⟨c, e, hc, -, hwrapped, he, hcast⟩ := eval_ofKinds_integral hsource htarget hargument
  exact ⟨c, hc, hwrapped, he ▸ hcast⟩

end Cast

end SolverScript
