import SolverScript.Encoding.Lookup
import SolverScript.Proofs.Encoding.Bits
import SolverScript.Proofs.Results
import SolverScript.Proofs.Semantics.Constants

/-!
# Range checks of look-ups

A look-up in a table checks that its index is not outside of the table, unless the kind of the index
has no values beyond the table. The check compares literals of the index kind, so the length of the
table counts modulo the number of values, and as a negative number where the sign bit is set.

## Main definitions

* `Kind.IsIndex` - the kinds of indices that are looked up by their value
* `Kind.isChecked`, `Kind.bound` - whether there is a check, and the bound that it compares with
* `Kind.AdmitsLength` - whether the length of a table has a place among the indices

## Main results

* `Scope.exists_eval_lookup` - the term of a look-up
* `Scope.isOutside_iff` - the check is right for admitted lengths
-/

namespace SolverScript

variable {α : Type} {carrier : SortExpr → α → Prop}

namespace Kind

/-- The kinds of indices that stand for integers. -/
inductive IsIndex : Kind → Prop
  | bounded (signed : Bool) (width : Width) : IsIndex (.bounded signed width)
  | unbounded : IsIndex .unbounded

/-- Whether a look-up in a table of some length checks its index. -/
def isChecked (k : Kind) (length : Nat) : Bool :=
  match k with
  | bounded _ width => fitsIn width.bits length
  | _ => true

/-- The integer that the length of a table is read as at the kind of the index. -/
def bound (k : Kind) (length : Nat) : Int :=
  match k with
  | bounded signed width => Value.readBits signed (BitVec.ofInt width.bits length)
  | _ => length

/-- Whether the length of a table has a place among the integers of a signed index kind. -/
def AdmitsLength (k : Kind) (length : Nat) : Prop :=
  match k with
  | bounded true width => length < 2 ^ (width.bits - 1)
  | _ => True

end Kind

namespace Element

/-- The elements of the sort of an index kind are those of the integers. -/
theorem ofInt?_read_of_contains {T : Theory α} {k : Kind} (hk : k.IsIndex) {e : Element α}
    (he : T.Contains k.sort e) : ofInt? k (e.read k.isSigned) = some e := by
  generalize hs : k.sort = s at he
  cases hk with
  | bounded signed width =>
    cases he with
    | bool => simp [Kind.sort] at hs
    | int => simp [Kind.sort] at hs
    | @bits w x =>
      obtain rfl : width.bits = w := by simpa [Kind.sort] using hs
      simp [ofInt?, read]
    | other hb => simp [← hs, Kind.sort, SortExpr.isBuiltIn] at hb
  | unbounded =>
    cases he with
    | bool => simp [Kind.sort] at hs
    | int n => rfl
    | bits => simp [Kind.sort] at hs
    | other hb => simp [← hs, Kind.sort, SortExpr.isBuiltIn] at hb

theorem contains_of_ofInt? {T : Theory α} {k : Kind} (hk : k.IsIndex) {n : Int} {e : Element α}
    (he : ofInt? k n = some e) : T.Contains k.sort e := by
  cases hk with
  | bounded =>
    cases he
    exact .bits _
  | unbounded =>
    cases he
    exact .int n

end Element

/-- Elements of one sort can be compared. -/
theorem Theory.Contains.sameSort {T : Theory α} {s : SortExpr} {a b : Element α}
    (ha : T.Contains s a) (hb : T.Contains s b) : a.sameSort b = true := by
  generalize hs : s = s' at hb
  cases ha <;> cases hb <;> first
    | (simp_all [Element.sameSort]; done)
    | (subst hs; simp_all [SortExpr.isBuiltIn])

/-! ### Comparisons of indices -/

namespace Scope

variable {scope : Scope} {I : Interpretation α} {l : Lookup}

/-- The order relations of an index kind. -/
def orderOf (k : Kind) : String × String :=
  match k with
  | .bounded true _ => ("bvslt", "bvsle")
  | .bounded false _ => ("bvult", "bvule")
  | _ => ("<", "<=")

theorem indexRelations_eq {operation : Operation} (hk : l.indexKind.IsIndex)
    (hindex : l.index.kind = l.indexKind) :
    indexRelations l operation =
      .ok (if l.indexKind.isChecked l.length then some (orderOf l.indexKind) else none) := by
  unfold indexRelations Node.isSigned
  rw [hindex]
  generalize l.indexKind = k at hk
  cases hk with
  | bounded signed width =>
    cases hfits : fitsIn width.bits l.length <;> cases signed <;>
      simp [Kind.isChecked, orderOf, Kind.isSigned, hfits]
  | unbounded => rfl

/-- A relation between bit-vectors of one width. -/
private theorem eval_compareBits {name : String} {w : Nat} {x y : BitVec w} {b : Bool}
    {r : {w : Nat} → BitVec w → BitVec w → Bool} {t u : Term}
    (hname : (Theory.symbols (α := α)).lookup name = some (Element.Function.compareBits r))
    (ht : t.eval (.standard carrier) I = some (.bits w x))
    (hu : u.eval (.standard carrier) I = some (.bits w y)) (hb : b = r x y) :
    (Term.app (.symbol name) [t, u]).eval (.standard carrier) I = some (.bool b) := by
  have htu := Term.evalAll_eq_some_iff.mpr (.cons ht (.cons hu .nil))
  refine Term.eval_app_symbol hname htu ?_
  simp [Element.Function.compareBits, hb]

/-- The order relations of an index kind compare the integers of elements. -/
theorem eval_order {k : Kind} (hk : k.IsIndex) {t u : Term} {m n : Int} {a b : Element α}
    (ha : Element.ofInt? k m = some a) (hb : Element.ofInt? k n = some b)
    (ht : t.eval (.standard carrier) I = some a) (hu : u.eval (.standard carrier) I = some b) :
    (Term.app (.symbol (orderOf k).1) [t, u]).eval (.standard carrier) I =
        some (.bool (decide (a.read k.isSigned < b.read k.isSigned))) ∧
      (Term.app (.symbol (orderOf k).2) [t, u]).eval (.standard carrier) I =
        some (.bool (decide (a.read k.isSigned ≤ b.read k.isSigned))) := by
  cases hk with
  | bounded signed width =>
    cases ha
    cases hb
    cases signed
    · exact ⟨eval_compareBits rfl ht hu (Value.decide_lt_toNat _ _),
        eval_compareBits rfl ht hu (Value.decide_le_toNat _ _)⟩
    · exact ⟨eval_compareBits rfl ht hu (Value.decide_lt_toInt _ _),
        eval_compareBits rfl ht hu (Value.decide_le_toInt _ _)⟩
  | unbounded =>
    cases ha
    cases hb
    have htu := Term.evalAll_eq_some_iff.mpr (.cons ht (.cons hu .nil))
    exact ⟨Term.eval_app_symbol rfl htu rfl, Term.eval_app_symbol rfl htu rfl⟩

/-! ### The check -/

/-- The literal of the length of a table is read as the bound. -/
theorem exists_ofInt?_bound {k : Kind} (hk : k.IsIndex) (n : Nat) :
    ∃ e : Element α, Element.ofInt? k n = some e ∧ e.read k.isSigned = k.bound n := by
  cases hk with
  | bounded => exact ⟨_, rfl, rfl⟩
  | unbounded => exact ⟨_, rfl, rfl⟩

theorem bound_zero {k : Kind} (hk : k.IsIndex) : k.bound 0 = 0 := by
  cases hk with
  | bounded signed => cases signed <;> simp [Kind.bound, Value.readBits]
  | unbounded => rfl

/-- Indices without a sign are not negative. -/
theorem read_nonneg {k : Kind} (hk : k.IsIndex) (hsigned : k.isSigned = false) {n : Int}
    {e : Element α} (he : Element.ofInt? k n = some e) : 0 ≤ e.read k.isSigned := by
  cases hk with
  | bounded signed =>
    obtain rfl : signed = false := hsigned
    cases he
    exact Int.natCast_nonneg _
  | unbounded => cases hsigned

/-- For an admitted length the check finds out which indices are outside of the table. -/
theorem isOutside_iff {k : Kind} (hk : k.IsIndex) {length : Nat} (hadmits : k.AdmitsLength length)
    {n : Int} {e : Element α} (he : Element.ofInt? k n = some e) :
    (k.isChecked length ∧ (e.read k.isSigned < 0 ∨ k.bound length ≤ e.read k.isSigned)) ↔
      (e.read k.isSigned < 0 ∨ (length : Int) ≤ e.read k.isSigned) := by
  cases hk with
  | unbounded => simp [Kind.isChecked, Kind.bound]
  | bounded signed width =>
    cases he
    generalize BitVec.ofInt width.bits n = x
    have hfits : (Kind.bounded signed width).isChecked length = true ↔
        length < 2 ^ width.bits := fitsIn_iff
    rw [hfits]
    simp only [Element.read, Kind.isSigned, Kind.bound, BitVec.ofInt_natCast]
    cases signed with
    | false =>
      -- Without a sign, the length is read as it is whenever the check is made.
      have hx := x.isLt
      simp only [Value.readBits, Bool.false_eq_true, if_false, BitVec.toNat_ofNat]
      by_cases hlength : length < 2 ^ width.bits
      · rw [Nat.mod_eq_of_lt hlength]
        simp [hlength]
      · omega
    | true =>
      -- With a sign, half of the range is left for the length.
      have hlength : length < 2 ^ (width.bits - 1) := hadmits
      have hpower := Nat.two_pow_pred_add_two_pow_pred width.pos
      have hnat : (BitVec.ofNat width.bits length).toNat = length := by
        rw [BitVec.toNat_ofNat, Nat.mod_eq_of_lt (by omega)]
      have hint : (BitVec.ofNat width.bits length).toInt = length := by
        rw [BitVec.toInt_eq_toNat_of_lt (by omega), hnat]
      simp only [Value.readBits, if_true, hint]
      have hbelow : length < 2 ^ width.bits := by omega
      simp [hbelow]

/-- The literal of a length with the sign bit set is not positive. -/
private theorem bound_nonpos {width : Width} {length : Nat}
    (hlength : 2 ^ (width.bits - 1) ≤ length) (hfits : length < 2 ^ width.bits) :
    (Kind.bounded true width).bound length ≤ 0 := by
  have hpower := Nat.two_pow_pred_add_two_pow_pred width.pos
  have hnat : (BitVec.ofNat width.bits length).toNat = length := by
    rw [BitVec.toNat_ofNat, Nat.mod_eq_of_lt hfits]
  simp only [Kind.bound, Value.readBits, if_true, BitVec.ofInt_natCast,
    BitVec.toInt_eq_toNat_cond, hnat]
  split <;> omega

/-- Every width has a place for minus one. -/
private theorem read_neg_one (width : Width) :
    Element.read (α := α) (Kind.bounded true width).isSigned
      (.bits width.bits (BitVec.ofInt width.bits (-1))) < 0 := by
  have hpower := Nat.two_pow_pred_add_two_pow_pred width.pos
  have hpos : 0 < 2 ^ (width.bits - 1) := Nat.two_pow_pos _
  simp only [Element.read, Kind.isSigned, Value.readBits, if_true, BitVec.toInt_ofInt]
  rw [Int.bmod_eq_of_le] <;> omega

/-- For other lengths there is an index where the check is wrong: zero, which is not below a
negative bound, or the negative indices that no check finds. -/
theorem exists_not_isOutside_iff {k : Kind} (hk : k.IsIndex) {length : Nat}
    (hadmits : ¬k.AdmitsLength length) :
    ∃ (n : Int) (e : Element α), Element.ofInt? k n = some e ∧
      ¬((k.isChecked length ∧ (e.read k.isSigned < 0 ∨ k.bound length ≤ e.read k.isSigned)) ↔
        (e.read k.isSigned < 0 ∨ (length : Int) ≤ e.read k.isSigned)) := by
  cases hk with
  | unbounded => exact absurd trivial hadmits
  | bounded signed width =>
    cases signed with
    | false => exact absurd trivial hadmits
    | true =>
      have hlength : 2 ^ (width.bits - 1) ≤ length := Nat.not_lt.mp hadmits
      have hpos : 0 < 2 ^ (width.bits - 1) := Nat.two_pow_pos _
      by_cases hfits : length < 2 ^ width.bits
      · -- Zero is inside of the table, but not below its length as the check reads it.
        refine ⟨0, _, rfl, fun hiff => ?_⟩
        have hchecked : (Kind.bounded true width).isChecked length = true := fitsIn_iff.mpr hfits
        have hbound := bound_nonpos hlength hfits
        have hzero : Element.read (α := α) (Kind.bounded true width).isSigned
            (.bits width.bits (BitVec.ofInt width.bits 0)) = 0 := by
          simp [Element.read, Kind.isSigned, Value.readBits]
        rw [hzero] at hiff
        rcases hiff.mp ⟨hchecked, .inr hbound⟩ with h | h <;> omega
      · -- The check is left out, so it does not find the negative index.
        refine ⟨-1, _, rfl, fun hiff => ?_⟩
        have hunchecked : (Kind.bounded true width).isChecked length ≠ true :=
          fun hchecked => hfits (fitsIn_iff.mp hchecked)
        exact hunchecked (hiff.mpr (.inl (read_neg_one width))).1

/-- The check asks whether an index is negative or not below the bound. -/
theorem exists_eval_outside (hk : l.indexKind.IsIndex) (hindex : l.index.kind = l.indexKind)
    {e : Element α} (he : Element.ofInt? l.indexKind (e.read l.indexKind.isSigned) = some e)
    (heval : (scope.nodeTerm l.index).eval (.standard carrier) I = some e) :
    ∃ t, scope.outside l (orderOf l.indexKind).1 (orderOf l.indexKind).2 = .ok t ∧
      t.eval (.standard carrier) I = some (.bool (decide (e.read l.indexKind.isSigned < 0 ∨
        l.indexKind.bound l.length ≤ e.read l.indexKind.isSigned))) := by
  obtain ⟨zero, hzero, hzeroRead⟩ := exists_ofInt?_bound (α := α) hk 0
  obtain ⟨bound, hbound, hboundRead⟩ := exists_ofInt?_bound (α := α) hk l.length
  rw [bound_zero hk] at hzeroRead
  obtain ⟨zeroTerm, hzeroTerm, hzeroEval⟩ :=
    scope.eval_constantTerm carrier I hzero
  obtain ⟨boundTerm, hboundTerm, hboundEval⟩ :=
    scope.eval_constantTerm carrier I hbound
  -- The check compares with the literals of zero and of the length.
  have htooSmall := (eval_order hk he hzero heval hzeroEval).1
  have htooLarge := (eval_order hk hbound he hboundEval heval).2
  rw [hzeroRead] at htooSmall
  rw [hboundRead] at htooLarge
  unfold outside Node.isSigned
  rw [hindex]
  have hzeroTerm' : scope.constantTerm l.indexKind 0 = .ok zeroTerm := hzeroTerm
  rw [hzeroTerm', hboundTerm]
  refine ⟨_, rfl, ?_⟩
  cases hsigned : l.indexKind.isSigned with
  | true =>
    rw [hsigned] at htooSmall htooLarge
    have hboth := Term.evalAll_eq_some_iff.mpr (.cons htooSmall (.cons htooLarge .nil))
    refine Term.eval_app_symbol rfl hboth ?_
    simp [Element.Function.connective]
  | false =>
    -- Without a sign only the upper end is checked.
    rw [hsigned] at htooLarge
    have hnonneg := read_nonneg hk hsigned he
    rw [hsigned] at hnonneg
    have hnot : ¬e.read false < 0 := Int.not_lt.mpr hnonneg
    simpa [hnot] using htooLarge

/-- A look-up denotes the default for an index that is checked and found to be outside, and the
table's value otherwise. -/
theorem exists_eval_lookup (operation : Operation) (hk : l.indexKind.IsIndex)
    (hindex : l.index.kind = l.indexKind) {s : SortExpr} {e d a : Element α}
    (he : (Theory.standard carrier).Contains l.indexKind.sort e)
    (heval : (scope.nodeTerm l.index).eval (.standard carrier) I = some e)
    (hd : (Theory.standard carrier).Contains s d)
    (hdefault : (scope.nodeTerm l.default).eval (.standard carrier) I = some d)
    (ha : (Theory.standard carrier).Contains s a)
    (helement : ((scope.tables.head l.table).at (scope.nodeTerm l.index)).eval
      (.standard carrier) I = some a) :
    ∃ t, scope.lookup l operation = .ok t ∧ t.eval (.standard carrier) I =
      some (if l.indexKind.isChecked l.length ∧ (e.read l.indexKind.isSigned < 0 ∨
        l.indexKind.bound l.length ≤ e.read l.indexKind.isSigned) then d else a) := by
  have hread := Element.ofInt?_read_of_contains hk he
  unfold lookup
  rw [indexRelations_eq hk hindex]
  cases hchecked : l.indexKind.isChecked l.length with
  | false =>
    refine ⟨_, rfl, ?_⟩
    simpa using helement
  | true =>
    obtain ⟨t, ht, houtside⟩ := scope.exists_eval_outside hk hindex hread heval
    refine ⟨.app (.symbol "ite") [t, scope.nodeTerm l.default,
      (scope.tables.head l.table).at (scope.nodeTerm l.index)], ?_, ?_⟩
    · simp only [if_true]
      exact bind_eq_ok_iff.mpr ⟨_, rfl, bind_eq_ok_iff.mpr ⟨t, ht, rfl⟩⟩
    · have hall := Term.evalAll_eq_some_iff.mpr
        (.cons houtside (.cons hdefault (.cons helement .nil)))
      refine Term.eval_app_symbol rfl hall ?_
      simp only [Element.Function.choice, hd.sameSort ha, if_true, true_and,
        decide_eq_true_eq]

end Scope

end SolverScript
