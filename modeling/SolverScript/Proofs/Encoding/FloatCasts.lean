import SolverScript.Encoding.Cast
import SolverScript.Proofs.Kind.Order

/-!
# Casts that involve floats

A float has a named format or one that is given by its widths, and the floating casts do not tell
the two apart. The conversion between arbitrary kinds leaves a cast to them only if one of the
formats has a name. Between floats of which neither has one, and between such a float and an integer
or a real, it fails although there is a cast.

## Main definitions

* `Cast.IsNumeric` - the kinds that floats are converted from and to

## Main results

* `Cast.ofKinds_eq_floating` - a cast that involves a named format is a floating cast
* `Cast.ofKinds_agrees_iff` - when a cast that involves any float is the floating cast
-/

namespace SolverScript

namespace Cast

variable {source target : Kind} {mode argument : Term} {hasConversion : Bool}

/-- The kinds that floats are converted from and to: integers of all widths, reals and floats. -/
def IsNumeric : Kind → Prop
  | .bounded .. | .unbounded | .real | .float | .double | .floating _ => True
  | _ => False

/-- Floats are numeric. -/
theorem isNumeric_of_isFloating {k : Kind} (h : k.isFloating) : IsNumeric k := by
  cases k with
  | float | double | floating => trivial
  | _ => cases h

/-- The floats, whether their format has a name or not. -/
theorem exists_anonymous {k : Kind} (h : k.isFloating) : ∃ format, k.anonymous = .floating format :=
  match k, h with
  | .float, _ => ⟨.single, rfl⟩
  | .double, _ => ⟨.double, rfl⟩
  | .floating format, _ => ⟨format, rfl⟩

/-- The numeric kinds without the names of formats. -/
theorem anonymous_of_isNumeric {k : Kind} (h : IsNumeric k) :
    (∃ signed width, k.anonymous = .bounded signed width) ∨ k.anonymous = .unbounded ∨
      k.anonymous = .real ∨ ∃ format, k.anonymous = .floating format := by
  cases k with
  | bounded signed width => exact .inl ⟨signed, width, rfl⟩
  | unbounded => exact .inr (.inl rfl)
  | real => exact .inr (.inr (.inl rfl))
  | float | double | floating => exact .inr (.inr (.inr (exists_anonymous rfl)))
  | _ => cases h

/-! ### Floating casts -/

theorem floating_of_anonymous_eq (h : source.anonymous = target.anonymous) :
    floating source target mode argument = .ok argument :=
  if_pos (Kind.beq_eq_true_iff.mpr h)

/-- There is a floating cast between two numeric kinds if one of them is a float. -/
theorem exists_floating (h : source.isFloating ∨ target.isFloating) (hsource : IsNumeric source)
    (htarget : IsNumeric target) : ∃ t, floating source target mode argument = .ok t := by
  by_cases hsame : source.anonymous = target.anonymous
  · exact ⟨argument, floating_of_anonymous_eq hsame⟩
  unfold floating
  rw [if_neg (mt Kind.beq_eq_true_iff.mp hsame)]
  rcases h with h | h
  · obtain ⟨format, hformat⟩ := exists_anonymous h
    rw [hformat]
    obtain ⟨signed, width, h⟩ | h | h | ⟨format', h⟩ := anonymous_of_isNumeric htarget
    all_goals exact ⟨_, by rw [h]⟩
  · obtain ⟨format, hformat⟩ := exists_anonymous h
    rw [hformat]
    obtain ⟨_ | _, width, h⟩ | h | h | ⟨format', h⟩ := anonymous_of_isNumeric hsource
    all_goals exact ⟨_, by rw [h]⟩

/-- There is none from or to a kind that is not numeric. -/
theorem floating_of_not_isNumeric (h : source.isFloating ∨ target.isFloating)
    (hkinds : ¬(IsNumeric source ∧ IsNumeric target)) :
    floating source target mode argument = .error (.unexpectedFloatCast source target) := by
  have hother : (∃ format, source.anonymous = .floating format) ∧ ¬IsNumeric target ∨
      (∃ format, target.anonymous = .floating format) ∧ ¬IsNumeric source := by
    rcases h with h | h
    · exact .inl ⟨exists_anonymous h, fun htarget => hkinds ⟨isNumeric_of_isFloating h, htarget⟩⟩
    · exact .inr ⟨exists_anonymous h, fun hsource => hkinds ⟨hsource, isNumeric_of_isFloating h⟩⟩
  unfold floating
  rcases hother with ⟨⟨format, hformat⟩, hkind⟩ | ⟨⟨format, hformat⟩, hkind⟩
  · cases target with
    | bounded | unbounded | real | float | double | floating => exact absurd trivial hkind
    | _ =>
      rw [hformat]
      rfl
  · cases source with
    | bounded | unbounded | real | float | double | floating => exact absurd trivial hkind
    | _ =>
      rw [hformat]
      rfl

/-! ### Casts between all kinds -/

theorem ofKinds_self (k : Kind) : ofKinds hasConversion k k argument = .ok argument :=
  if_pos (Kind.beq_eq_true_iff.mpr rfl)

/-- The conversions that are not floating casts have no float on either side. -/
theorem ofKinds_of_isFloating (h : source.isFloating ∨ target.isFloating) (hne : source ≠ target) :
    ofKinds hasConversion source target argument =
      if isNamedFloat source || isNamedFloat target then
        floating source target (.symbol RoundingMode.nearestTiesToEven.symbol) argument
      else .error (.unexpectedCast source target) := by
  unfold ofKinds
  rw [if_neg (mt Kind.beq_eq_true_iff.mp hne)]
  split
  -- The integers and the reals are no floats.
  iterate 5 exact absurd h (by rintro (h | h) <;> cases h)
  rfl

/-- A cast that involves a float of a named format is a floating cast, or it fails like that. -/
theorem ofKinds_eq_floating (h : isNamedFloat source ∨ isNamedFloat target) :
    ofKinds hasConversion source target argument =
      floating source target (.symbol RoundingMode.nearestTiesToEven.symbol) argument := by
  have hnamed {k : Kind} (hk : isNamedFloat k) : k.isFloating := by
    cases k with
    | float | double => rfl
    | _ => cases hk
  by_cases hsame : source = target
  · subst hsame
    rw [ofKinds_self, floating_of_anonymous_eq rfl]
  · rw [ofKinds_of_isFloating (h.imp hnamed hnamed) hsame, if_pos (Bool.or_eq_true_iff.mpr h)]

/-- A cast from or to a float fails if neither kind is a named format, unless they are the same. -/
theorem ofKinds_of_unnamed (h : source.isFloating ∨ target.isFloating) (hne : source ≠ target)
    (hunnamed : ¬(isNamedFloat source ∨ isNamedFloat target)) :
    ofKinds hasConversion source target argument = .error (.unexpectedCast source target) := by
  rw [ofKinds_of_isFloating h hne, if_neg (mt Bool.or_eq_true_iff.mp hunnamed)]

/-- A cast that involves a float is the floating cast, or there is neither, just if one of the
formats has a name, or the kinds are the same, or one of them is not numeric. -/
theorem ofKinds_agrees_iff (h : source.isFloating ∨ target.isFloating) (hasConversion : Bool)
    (argument : Term) :
    (ofKinds hasConversion source target argument).toOption =
        (floating source target (.symbol RoundingMode.nearestTiesToEven.symbol) argument).toOption ↔
      isNamedFloat source ∨ isNamedFloat target ∨ source = target ∨
        ¬(IsNumeric source ∧ IsNumeric target) := by
  rw [← or_assoc]
  by_cases hnamed : isNamedFloat source ∨ isNamedFloat target
  · rw [ofKinds_eq_floating hnamed]
    exact iff_of_true rfl (.inl hnamed)
  by_cases hsame : source = target
  · subst hsame
    rw [ofKinds_self, floating_of_anonymous_eq rfl]
    exact iff_of_true rfl (.inr (.inl rfl))
  rw [ofKinds_of_unnamed h hsame hnamed]
  -- The cast fails now, and the question is whether there is a floating one.
  by_cases hnumeric : IsNumeric source ∧ IsNumeric target
  · obtain ⟨t, ht⟩ : ∃ t, floating source target
        (.symbol RoundingMode.nearestTiesToEven.symbol) argument = .ok t :=
      exists_floating h hnumeric.1 hnumeric.2
    rw [ht]
    refine iff_of_false nofun ?_
    rintro (hn | hs | hk)
    · exact hnamed hn
    · exact hsame hs
    · exact hk hnumeric
  · rw [floating_of_not_isNumeric h hnumeric]
    exact iff_of_true rfl (.inr (.inr hnumeric))

/-- A number of half precision at double precision. -/
theorem ofKinds_agrees_halfToDouble :
    (ofKinds true (.floating ⟨5, 11, by decide, by decide⟩) .double (.symbol "x")).toOption =
      (floating (.floating ⟨5, 11, by decide, by decide⟩) .double
        (.symbol RoundingMode.nearestTiesToEven.symbol) (.symbol "x")).toOption :=
  (ofKinds_agrees_iff (.inl rfl) true (.symbol "x")).mpr (.inr (.inl rfl))

/-- The real number that a number of half precision is. There is a floating cast for it. -/
theorem not_ofKinds_halfToReal :
    ofKinds true (.floating ⟨5, 11, by decide, by decide⟩) .real (.symbol "x") =
        .error (.unexpectedCast (.floating ⟨5, 11, by decide, by decide⟩) .real) ∧
      floating (.floating ⟨5, 11, by decide, by decide⟩) .real
          (.symbol RoundingMode.nearestTiesToEven.symbol) (.symbol "x") =
        .ok (.app (.symbol "fp.to_real") [.symbol "x"]) :=
  ⟨rfl, rfl⟩

end Cast

end SolverScript
