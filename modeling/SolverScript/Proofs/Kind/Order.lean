import SolverScript.Kind.Order
import Mathlib.Order.Defs.LinearOrder
import Mathlib.Data.String.Basic

/-!
# The order of kinds

Two kinds compare as equal exactly when they are the same kind. The comparison goes by shape first,
so that kinds of different shapes never compare as equal, and inside a shape by all its data. It is
a strict order of all kinds.

## Main results

* `Kind.cmp_eq_iff` - the order of kinds decides equality
* `Kind.swap_cmp`, `Kind.cmp_lt_trans` - kinds are ordered
-/

namespace SolverScript

theorem UserSort.cmp_eq_iff {a b : UserSort} : a.cmp b = .eq ↔ a = b := by
  cases a with
  | mk name constructors =>
    cases b with
    | mk name' constructors' =>
      cases constructors <;> cases constructors' <;>
        simp [UserSort.cmp, Ordering.then_eq_eq]

theorem UserSort.swap_cmp (a b : UserSort) : (a.cmp b).swap = b.cmp a := by
  obtain ⟨name, constructors⟩ := a
  obtain ⟨name', constructors'⟩ := b
  rw [cmp, Ordering.swap_then, ← Std.OrientedCmp.eq_swap, cmp]
  congr 1
  cases constructors <;> cases constructors' <;> try rfl
  exact Std.OrientedCmp.eq_swap.symm

theorem UserSort.cmp_lt_trans {a b c : UserSort} (hab : a.cmp b = .lt) (hbc : b.cmp c = .lt) :
    a.cmp c = .lt := by
  rw [cmp, Ordering.then_eq_lt] at hab hbc ⊢
  rcases hab with hab | ⟨hab, hab'⟩ <;> rcases hbc with hbc | ⟨hbc, hbc'⟩
  · exact .inl (Std.TransCmp.lt_trans hab hbc)
  · exact .inl (compare_eq_iff_eq.mp hbc ▸ hab)
  · exact .inl (compare_eq_iff_eq.mp hab ▸ hbc)
  · refine .inr ⟨compare_eq_iff_eq.mpr ?_, ?_⟩
    · rw [compare_eq_iff_eq.mp hab, compare_eq_iff_eq.mp hbc]
    · revert hab' hbc'
      cases a.constructors <;> cases b.constructors <;> cases c.constructors <;> try simp
      exact Std.TransCmp.lt_trans

theorem FloatFormat.cmp_eq_iff {a b : FloatFormat} : a.cmp b = .eq ↔ a = b := by
  cases a
  cases b
  simp [FloatFormat.cmp, Ordering.then_eq_eq]

theorem FloatFormat.swap_cmp (a b : FloatFormat) : (a.cmp b).swap = b.cmp a := by
  rw [cmp, Ordering.swap_then, ← Std.OrientedCmp.eq_swap, ← Std.OrientedCmp.eq_swap, cmp]

theorem FloatFormat.cmp_lt_trans {a b c : FloatFormat} (hab : a.cmp b = .lt) (hbc : b.cmp c = .lt) :
    a.cmp c = .lt := by
  simp only [cmp, Ordering.then_eq_lt, Nat.compare_eq_lt, Nat.compare_eq_eq] at *
  omega

theorem Width.eq_of_bits {w v : Width} (h : w.bits = v.bits) : w = v := by
  cases w
  cases v
  cases h
  rfl

namespace Kind

theorem tag_eq_of_cmp {k m : Kind} (h : k.cmp m = .eq) : k.tag = m.tag := by
  revert h
  fun_cases cmp k m with
  | case9 => exact compare_eq_iff_eq.mp
  | _ => exact fun _ => rfl

mutual

/-- Kinds that compare as equal are the same: their shapes agree, and then all their data. -/
theorem eq_of_cmp : ∀ {k m : Kind}, k.cmp m = .eq → k = m
  | bounded s w, m, h => by
    cases m <;> cases tag_eq_of_cmp h
    obtain ⟨hsigned, hbits⟩ := Ordering.then_eq_eq.mp h
    rw [compare_eq_iff_eq.mp hsigned, Width.eq_of_bits (compare_eq_iff_eq.mp hbits)]
  | userSort _, m, h => by
    cases m <;> cases tag_eq_of_cmp h
    rw [UserSort.cmp_eq_iff.mp h]
  | floating _, m, h => by
    cases m <;> cases tag_eq_of_cmp h
    rw [FloatFormat.cmp_eq_iff.mp h]
  | list k, m, h | set k, m, h | maybe k, m, h => by
    cases m <;> cases tag_eq_of_cmp h
    have hinner : k.cmp _ = .eq := h
    rw [eq_of_cmp hinner]
  | tuple ks, m, h => by
    cases m <;> cases tag_eq_of_cmp h
    obtain ⟨hlength, hall⟩ := Ordering.then_eq_eq.mp h
    rw [eq_of_cmpAll (compare_eq_iff_eq.mp hlength) hall]
  | either l r, m, h => by
    cases m <;> cases tag_eq_of_cmp h
    obtain ⟨hleft, hright⟩ := Ordering.then_eq_eq.mp h
    rw [eq_of_cmp hleft, eq_of_cmp hright]
  | bool, m, h | unbounded, m, h | real, m, h | float, m, h | double, m, h | char, m, h
  | string, m, h | rational, m, h => by
    cases m <;> cases tag_eq_of_cmp h
    rfl

theorem eq_of_cmpAll : ∀ {ks ms : List Kind}, ks.length = ms.length → cmpAll ks ms = .eq → ks = ms
  | [], [], _, _ => rfl
  | k :: ks, m :: ms, hlength, h => by
    obtain ⟨hhead, htail⟩ := Ordering.then_eq_eq.mp h
    rw [eq_of_cmp hhead, eq_of_cmpAll (Nat.succ.inj hlength) htail]

end

mutual

theorem cmp_self : ∀ k : Kind, k.cmp k = .eq
  | bounded .. => by simp [cmp]
  | userSort _ => UserSort.cmp_eq_iff.mpr rfl
  | floating _ => FloatFormat.cmp_eq_iff.mpr rfl
  | list k | set k | maybe k => cmp_self k
  | tuple ks => Ordering.then_eq_eq.mpr ⟨compare_eq_iff_eq.mpr rfl, cmpAll_self ks⟩
  | either l r => Ordering.then_eq_eq.mpr ⟨cmp_self l, cmp_self r⟩
  | bool | unbounded | real | float | double | char | string | rational => rfl

theorem cmpAll_self : ∀ ks : List Kind, cmpAll ks ks = .eq
  | [] => rfl
  | k :: ks => Ordering.then_eq_eq.mpr ⟨cmp_self k, cmpAll_self ks⟩

end

/-- The order of kinds decides equality. -/
theorem cmp_eq_iff {k m : Kind} : k.cmp m = .eq ↔ k = m :=
  ⟨eq_of_cmp, fun h => h ▸ cmp_self k⟩

theorem beq_eq_true_iff {k l : Kind} : (k == l) = true ↔ k = l := by
  show (k.cmp l == .eq) = true ↔ k = l
  rw [beq_iff_eq, cmp_eq_iff]

/-! ### A strict order -/

theorem swap_compare_tag (k m : Kind) : (compare k.tag m.tag).swap = compare m.tag k.tag :=
  Std.OrientedCmp.eq_swap.symm

mutual

/-- Kinds compare the other way round when they are exchanged. -/
theorem swap_cmp : ∀ k m : Kind, (k.cmp m).swap = m.cmp k
  | bounded s w, m => by
    cases m <;> try exact swap_compare_tag _ _
    rw [cmp, Ordering.swap_then, ← Std.OrientedCmp.eq_swap, ← Std.OrientedCmp.eq_swap, cmp]
  | userSort _, m => by
    cases m <;> first | exact swap_compare_tag _ _ | exact UserSort.swap_cmp _ _
  | floating _, m => by
    cases m <;> first | exact swap_compare_tag _ _ | exact FloatFormat.swap_cmp _ _
  | list k, m | set k, m | maybe k, m => by
    cases m <;> first | exact swap_compare_tag _ _ | exact swap_cmp k _
  | tuple ks, m => by
    cases m <;> try exact swap_compare_tag _ _
    rw [cmp, Ordering.swap_then, ← Std.OrientedCmp.eq_swap, swap_cmpAll, cmp]
  | either l r, m => by
    cases m <;> try exact swap_compare_tag _ _
    rw [cmp, Ordering.swap_then, swap_cmp l, swap_cmp r, cmp]
  | bool, m | unbounded, m | real, m | float, m | double, m | char, m
  | string, m | rational, m => by
    cases m <;> exact swap_compare_tag _ _

theorem swap_cmpAll : ∀ ks ms : List Kind, (cmpAll ks ms).swap = cmpAll ms ks
  | [], [] | [], _ :: _ | _ :: _, [] => rfl
  | k :: ks, m :: ms => by
    rw [cmpAll, Ordering.swap_then, swap_cmp k, swap_cmpAll ks, cmpAll]

end

theorem tag_le_of_cmp {k m : Kind} (h : k.cmp m = .lt) : k.tag ≤ m.tag := by
  revert h
  fun_cases cmp k m with
  | case9 => exact fun h => (Nat.compare_eq_lt.mp h).le
  | _ => exact fun _ => le_rfl

theorem cmp_of_tag_lt {k m : Kind} (h : k.tag < m.tag) : k.cmp m = .lt := by
  revert h
  fun_cases cmp k m with
  | case9 => exact Nat.compare_eq_lt.mpr
  | _ => exact fun h => absurd h (lt_irrefl _)

/-- Where the shapes differ along the way, they decide. -/
theorem cmp_lt_trans_of_tags {k l m : Kind} (hkl : k.cmp l = .lt) (hlm : l.cmp m = .lt)
    (h : k.tag = l.tag → l.tag = m.tag → k.cmp m = .lt) : k.cmp m = .lt := by
  rcases (tag_le_of_cmp hkl).lt_or_eq with hlt | hkl'
  · exact cmp_of_tag_lt (hlt.trans_le (tag_le_of_cmp hlm))
  · rcases (tag_le_of_cmp hlm).lt_or_eq with hlt | hlm'
    · exact cmp_of_tag_lt (hkl' ▸ hlt)
    · exact h hkl' hlm'

mutual

/-- The order of kinds is transitive: where shapes agree, their data are compared one after the
other. -/
theorem cmp_lt_trans : ∀ {k l m : Kind}, k.cmp l = .lt → l.cmp m = .lt → k.cmp m = .lt
  | bounded s w, l, m, hkl, hlm => by
    -- Different tags settle the order, so that all three kinds may be taken to have the same one.
    refine cmp_lt_trans_of_tags hkl hlm fun hl hm => ?_
    cases l <;> cases hl
    cases m <;> cases hm
    simp only [cmp, Ordering.then_eq_lt, compare_eq_iff_eq, compare_lt_iff_lt] at hkl hlm ⊢
    rcases hkl with hkl | ⟨rfl, hkl'⟩ <;> rcases hlm with hlm | ⟨rfl, hlm'⟩
    · exact .inl (hkl.trans hlm)
    · exact .inl hkl
    · exact .inl hlm
    · exact .inr ⟨rfl, hkl'.trans hlm'⟩
  | userSort _, l, m, hkl, hlm => by
    refine cmp_lt_trans_of_tags hkl hlm fun hl hm => ?_
    cases l <;> cases hl
    cases m <;> cases hm
    exact UserSort.cmp_lt_trans hkl hlm
  | floating _, l, m, hkl, hlm => by
    refine cmp_lt_trans_of_tags hkl hlm fun hl hm => ?_
    cases l <;> cases hl
    cases m <;> cases hm
    exact FloatFormat.cmp_lt_trans hkl hlm
  | list k, l, m, hkl, hlm | set k, l, m, hkl, hlm | maybe k, l, m, hkl, hlm => by
    refine cmp_lt_trans_of_tags hkl hlm fun hl hm => ?_
    cases l <;> cases hl
    cases m <;> cases hm
    next l m => exact cmp_lt_trans (k := k) (l := l) (m := m) hkl hlm
  | tuple ks, l, m, hkl, hlm => by
    refine cmp_lt_trans_of_tags hkl hlm fun hl hm => ?_
    cases l with
    | tuple ls =>
      cases m with
      | tuple ms =>
        -- The numbers of components come first, and the components count if these are equal.
        simp only [cmp, Ordering.then_eq_lt, Nat.compare_eq_lt, Nat.compare_eq_eq] at hkl hlm ⊢
        rcases hkl with hkl | ⟨hkl, hkl'⟩ <;> rcases hlm with hlm | ⟨hlm, hlm'⟩
        · exact .inl (hkl.trans hlm)
        · exact .inl (hlm ▸ hkl)
        · exact .inl (hkl ▸ hlm)
        · exact .inr ⟨hkl.trans hlm, cmpAll_lt_trans hkl' hlm'⟩
      | _ => cases hm
    | _ => cases hl
  | either k k', l, m, hkl, hlm => by
    refine cmp_lt_trans_of_tags hkl hlm fun hl hm => ?_
    cases l with
    | either l l' =>
      cases m with
      | either m m' =>
        simp only [cmp, Ordering.then_eq_lt, cmp_eq_iff] at hkl hlm ⊢
        rcases hkl with hkl | ⟨rfl, hkl'⟩ <;> rcases hlm with hlm | ⟨rfl, hlm'⟩
        · exact .inl (cmp_lt_trans hkl hlm)
        · exact .inl hkl
        · exact .inl hlm
        · exact .inr ⟨rfl, cmp_lt_trans hkl' hlm'⟩
      | _ => cases hm
    | _ => cases hl
  | bool, l, m, hkl, hlm | unbounded, l, m, hkl, hlm | real, l, m, hkl, hlm
  | float, l, m, hkl, hlm | double, l, m, hkl, hlm | char, l, m, hkl, hlm
  | string, l, m, hkl, hlm | rational, l, m, hkl, hlm => by
    refine cmp_lt_trans_of_tags hkl hlm fun hl hm => ?_
    cases l <;> cases hl
    cases hkl

theorem cmpAll_lt_trans : ∀ {ks ls ms : List Kind}, cmpAll ks ls = .lt → cmpAll ls ms = .lt →
    cmpAll ks ms = .lt
  | [], _, _, h, _ => by simp [cmpAll] at h
  | _ :: _, [], _, h, _ => by simp [cmpAll] at h
  | _ :: _, _ :: _, [], _, h => by simp [cmpAll] at h
  | k :: ks, l :: ls, m :: ms, hkl, hlm => by
    simp only [cmpAll, Ordering.then_eq_lt, cmp_eq_iff] at hkl hlm ⊢
    rcases hkl with hkl | ⟨rfl, hkl'⟩ <;> rcases hlm with hlm | ⟨rfl, hlm'⟩
    · exact .inl (cmp_lt_trans hkl hlm)
    · exact .inl hkl
    · exact .inl hlm
    · exact .inr ⟨rfl, cmpAll_lt_trans hkl' hlm'⟩

end

end Kind

end SolverScript
