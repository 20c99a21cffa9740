import SolverScript.Proofs.Encoding.Disequality
import SolverScript.Proofs.Encoding.Rationals
import SolverScript.Proofs.Script.ReachableValues

/-!
# Equality of values with rationals inside

One half and two quarters are different pairs of integers and the same number. Two rationals are
compared as numbers, by a function that a script defines. Values that have rationals inside are
compared by the equality of the target language, which takes different pairs for different values.

## Main definitions

* `Kind.IsAlgebraic` - tuples, optionals and sums of rationals, truth values, integers and
  bit-vectors
* `Kind.Agree` - equality of values whose rationals are compared as numbers
* `Kind.ComparesNumbers` - whether the encoding of equality decides that

## Main results

* `Kind.exists_agree_ne` - where there are rationals inside, different values can agree
* `Scope.eval_equal_structural` - what equality denotes at all kinds but that of rationals
* `Kind.comparesNumbers_iff` - the kinds at which equality compares rationals as numbers
-/

namespace SolverScript

/-! ### Values that agree -/

namespace Kind

mutual

/-- Whether a kind is made of rationals, truth values, integers and bit-vectors by tuples, optionals
and sums. -/
def IsAlgebraic : Kind → Prop
  | bool | unbounded | bounded _ _ | rational => True
  | tuple ks => AreAlgebraic ks
  | maybe k => IsAlgebraic k
  | either l r => IsAlgebraic l ∧ IsAlgebraic r
  | _ => False

/-- Whether several kinds are. -/
def AreAlgebraic : List Kind → Prop
  | [] => True
  | k :: ks => IsAlgebraic k ∧ AreAlgebraic ks

end

variable {C : SortExpr → Type}

mutual

/-- Whether two values of an algebraic kind are the same when rationals are compared as numbers. -/
def Agree : (k : Kind) → k.domain.Model C → k.domain.Model C → Prop
  | rational => fun p q : Int × Int => (p.1 / p.2 : ℚ) = q.1 / q.2
  | tuple ks => AllAgree ks
  | maybe k => Option.Rel (Agree k)
  | either l r => Sum.LiftRel (Agree l) (Agree r)
  | _ => Eq

/-- Whether the components of two tuples are. -/
def AllAgree : (ks : List Kind) → Domain.Models C (domains ks) → Domain.Models C (domains ks) → Prop
  | [] => fun _ _ => True
  | k :: ks => fun xs ys : k.domain.Model C × Domain.Models C (domains ks) =>
    Agree k xs.1 ys.1 ∧ AllAgree ks xs.2 ys.2

end

/-- Whether the denominators of all rationals inside a value of an algebraic kind are positive. -/
def IsProper (k : Kind) (x : k.domain.Model C) : Prop := ∀ leaf ∈ k.reachable x, leaf.IsWellFormed

/-- Whether they are positive inside all components of a tuple. -/
def AreProper (ks : List Kind) (xs : Domain.Models C (domains ks)) : Prop :=
  ∀ leaf ∈ reachableAll ks xs, leaf.IsWellFormed

theorem isProper_rational {p : Int × Int} (h : 0 < p.2) : IsProper (C := C) rational p :=
  fun _ hleaf => hleaf ▸ h

theorem IsProper.some {k : Kind} {x : k.domain.Model C} (h : k.IsProper x) :
    (maybe k).IsProper (Option.some x) := by
  rintro leaf ⟨y, hy, hleaf⟩
  obtain rfl := Option.some.inj hy
  exact h leaf hleaf

theorem AreProper.cons {k : Kind} {ks : List Kind} {x : k.domain.Model C}
    {xs : Domain.Models C (domains ks)} (hx : k.IsProper x) (hxs : AreProper ks xs) :
    AreProper (k :: ks) (x, xs) :=
  fun leaf h => h.elim (hx leaf) (hxs leaf)

/-- One half and two quarters are the same number. -/
theorem agree_half_quarters : Agree (C := C) rational ((1, 2) : Int × Int) ((2, 4) : Int × Int) := by
  change ((1 : Int) / (2 : Int) : ℚ) = (2 : Int) / (4 : Int)
  norm_num

mutual

theorem agree_refl {k : Kind} (hk : k.IsAlgebraic) (x : k.domain.Model C) : k.Agree x x := by
  cases k with
  | tuple ks => exact allAgree_refl hk x
  | maybe k =>
    cases x with
    | none => exact .none
    | some x => exact .some (agree_refl (k := k) hk x)
  | either l r =>
    cases x with
    | inl x => exact .inl (agree_refl hk.1 x)
    | inr x => exact .inr (agree_refl hk.2 x)
  | bool | unbounded | bounded | rational => rfl
  | _ => exact hk.elim

theorem allAgree_refl {ks : List Kind} (hks : AreAlgebraic ks)
    (xs : Domain.Models C (domains ks)) : AllAgree ks xs xs := by
  cases ks with
  | nil => trivial
  | cons k ks => exact ⟨agree_refl hks.1 _, allAgree_refl hks.2 _⟩

end

mutual

/-- Without rationals inside, only a value itself agrees with it. -/
theorem eq_of_agree {k : Kind} (hk : k.IsAlgebraic) (hfree : rational ∉ k.subkinds)
    {x y : k.domain.Model C} (h : k.Agree x y) : x = y := by
  cases k with
  | tuple ks => exact eq_of_allAgree hk (fun hmem => hfree (List.mem_cons_of_mem _ hmem)) h
  | maybe k =>
    cases h with
    | none => rfl
    | some h =>
      exact congrArg some
        (eq_of_agree (k := k) hk (fun hmem => hfree (List.mem_cons_of_mem _ hmem)) h)
  | either l r =>
    cases h with
    | inl h =>
      exact congrArg Sum.inl (eq_of_agree hk.1
        (fun hmem => hfree (List.mem_cons_of_mem _ (List.mem_append_left _ hmem))) h)
    | inr h =>
      exact congrArg Sum.inr (eq_of_agree hk.2
        (fun hmem => hfree (List.mem_cons_of_mem _ (List.mem_append_right _ hmem))) h)
  | rational => exact absurd List.mem_cons_self hfree
  | bool | unbounded | bounded => exact h
  | _ => exact hk.elim

theorem eq_of_allAgree {ks : List Kind} (hks : AreAlgebraic ks)
    (hfree : rational ∉ subkindsAll ks) {xs ys : Domain.Models C (domains ks)}
    (h : AllAgree ks xs ys) : xs = ys := by
  cases ks with
  | nil => rfl
  | cons k ks =>
    exact Prod.ext (eq_of_agree hks.1 (fun hmem => hfree (List.mem_append_left _ hmem)) h.1)
      (eq_of_allAgree hks.2 (fun hmem => hfree (List.mem_append_right _ hmem)) h.2)

end

mutual

theorem exists_isProper {k : Kind} (hk : k.IsAlgebraic) : ∃ x : k.domain.Model C, k.IsProper x := by
  cases k with
  | tuple ks => exact exists_areProper hk
  | maybe k => exact ⟨none, fun _ ⟨_, h, _⟩ => nomatch h⟩
  | either l r =>
    obtain ⟨x, hx⟩ := exists_isProper (k := l) hk.1
    exact ⟨.inl x, hx⟩
  | rational => exact ⟨((0, 1) : Int × Int), isProper_rational Int.one_pos⟩
  | bool => exact ⟨false, fun _ h => h.elim⟩
  | unbounded => exact ⟨(0 : Int), fun _ h => h.elim⟩
  | bounded _ width => exact ⟨BitVec.zero width.bits, fun _ h => h.elim⟩
  | _ => exact hk.elim

theorem exists_areProper {ks : List Kind} (hks : AreAlgebraic ks) :
    ∃ xs : Domain.Models C (domains ks), AreProper ks xs := by
  cases ks with
  | nil => exact ⟨(), fun _ h => h.elim⟩
  | cons k ks =>
    obtain ⟨x, hx⟩ := exists_isProper (k := k) hks.1
    obtain ⟨xs, hxs⟩ : ∃ xs : Domain.Models C (domains ks), AreProper ks xs :=
      exists_areProper hks.2
    exact ⟨(x, xs), .cons hx hxs⟩

end

mutual

/-- Where there are rationals inside, different values can agree. -/
theorem exists_agree_ne {k : Kind} (hk : k.IsAlgebraic) (hmem : rational ∈ k.subkinds) :
    ∃ x y : k.domain.Model C, k.IsProper x ∧ k.IsProper y ∧ k.Agree x y ∧ x ≠ y := by
  cases k with
  | rational =>
    refine ⟨((1, 2) : Int × Int), ((2, 4) : Int × Int), isProper_rational (by decide),
      isProper_rational (by decide), agree_half_quarters, fun h => ?_⟩
    exact absurd (congrArg Prod.fst h) (by decide : (1 : Int) ≠ 2)
  | maybe k =>
    have hinner : rational ∈ k.subkinds := by simpa [subkinds] using hmem
    obtain ⟨x, y, hx, hy, hagree, hne⟩ := exists_agree_ne (k := k) hk hinner
    exact ⟨some x, some y, hx.some, hy.some, .some hagree, fun h => hne (Option.some.inj h)⟩
  | either l r =>
    have hsides : rational ∈ l.subkinds ∨ rational ∈ r.subkinds := by
      simpa [subkinds] using hmem
    cases hsides with
    | inl hside =>
      obtain ⟨x, y, hx, hy, hagree, hne⟩ := exists_agree_ne (k := l) hk.1 hside
      exact ⟨.inl x, .inl y, hx, hy, .inl hagree, fun h => hne (Sum.inl.inj h)⟩
    | inr hside =>
      obtain ⟨x, y, hx, hy, hagree, hne⟩ := exists_agree_ne (k := r) hk.2 hside
      exact ⟨.inr x, .inr y, hx, hy, .inr hagree, fun h => hne (Sum.inr.inj h)⟩
  | tuple ks => exact exists_allAgree_ne hk (by simpa [subkinds] using hmem)
  | bool | unbounded | bounded => simp [subkinds] at hmem
  | _ => exact hk.elim

theorem exists_allAgree_ne {ks : List Kind} (hks : AreAlgebraic ks)
    (hmem : rational ∈ subkindsAll ks) :
    ∃ xs ys : Domain.Models C (domains ks),
      AreProper ks xs ∧ AreProper ks ys ∧ AllAgree ks xs ys ∧ xs ≠ ys := by
  cases ks with
  | nil => cases hmem
  | cons k ks =>
    cases List.mem_append.mp hmem with
    | inl hhead =>
      obtain ⟨x, y, hx, hy, hagree, hne⟩ := exists_agree_ne (k := k) hks.1 hhead
      obtain ⟨xs, hxs⟩ : ∃ xs : Domain.Models C (domains ks), AreProper ks xs :=
        exists_areProper hks.2
      exact ⟨(x, xs), (y, xs), .cons hx hxs, .cons hy hxs, ⟨hagree, allAgree_refl hks.2 xs⟩,
        fun h => hne (congrArg Prod.fst h)⟩
    | inr hrest =>
      obtain ⟨x, hx⟩ := exists_isProper (k := k) hks.1
      obtain ⟨xs, ys, hxs, hys, hagree, hne⟩ : ∃ xs ys : Domain.Models C (domains ks),
          AreProper ks xs ∧ AreProper ks ys ∧ AllAgree ks xs ys ∧ xs ≠ ys :=
        exists_allAgree_ne hks.2 hrest
      exact ⟨(x, xs), (x, ys), .cons hx hxs, .cons hx hys, ⟨agree_refl hks.1 x, hagree⟩,
        fun h => hne (congrArg Prod.snd h)⟩

end

end Kind

/-! ### The encoding of equality -/

namespace Scope

variable {scope : Scope} {m n : Node} {k : Kind}

/-- Values of all kinds but that of rationals are compared by the equality of the target
language. -/
theorem term_equal_of_ne_rational (hk : k.IsAlgebraic) (hne : k ≠ .rational) (hm : m.kind = k)
    (hn : n.kind = k) : scope.term ⟨.equal, [m, n]⟩ =
      .ok (.app (.symbol "=") [scope.nodeTerm m, scope.nodeTerm n]) := by
  have hgeneric : scope.generic ⟨.equal, [m, n]⟩ =
      .ok (.app (.symbol "=") [scope.nodeTerm m, scope.nodeTerm n]) := by
    cases k with
    | rational => exact absurd rfl hne
    | bool | unbounded | bounded | tuple | maybe | either =>
      simp [generic, OperandProfile.ofNodes, hm, hn, onlyIf, Arithmetic.integer?,
        Arithmetic.shared?, Arithmetic.bitVector?, Comparison.bool?, Comparison.enumerated?,
        binary, nodeTerms, Kind.isUnbounded, Kind.isBool, Kind.isBounded, Kind.isReal,
        Kind.isRational, Kind.isFloating, Kind.floatFormat?, Kind.isChar, Kind.isString,
        Kind.isList]
    | _ => exact hk.elim
  exact hgeneric

variable {S : OpenSorts} {J : Interpretation (Datum S.Carrier)}

open Classical in
/-- There, equality denotes whether the values are the same. -/
theorem eval_equal_structural (hk : k.IsAlgebraic) (hne : k ≠ .rational) (hm : m.kind = k)
    (hn : n.kind = k) {x y : k.domain.Model S.Carrier}
    (hx : (scope.nodeTerm m).eval S.theory J = some (Datum.element ⟨k.domain, x⟩))
    (hy : (scope.nodeTerm n).eval S.theory J = some (Datum.element ⟨k.domain, y⟩)) :
    ∃ t, scope.term ⟨.equal, [m, n]⟩ = .ok t ∧
      t.eval S.theory J = some (.bool (decide (x = y))) := by
  refine ⟨_, term_equal_of_ne_rational hk hne hm hn, ?_⟩
  have hdenotes : (Term.app (.symbol "=") [scope.nodeTerm m, scope.nodeTerm n]).Denotes S (· = J)
      (.ofBool (decide (Datum.mk k.domain x = Datum.mk k.domain y))) :=
    Term.Denotes.equation (fun _ h => h ▸ hx) (fun _ h => h ▸ hy) (Datum.sameSort_element x y)
  rw [hdenotes J rfl, decide_eq_decide.mpr (Datum.mk_injective k.domain).eq_iff]
  rfl

/-- Equality of rationals denotes whether they are the same number. -/
theorem eval_equal_rational
    (hopen : ∀ f : RationalFunction, ∀ x ∈ f.parameters, S.theory.function (.symbol x) [] = none)
    (hdefinitions : ∀ d ∈ readDefinitions (joined "\n" Datatype.rationals), d.HoldsIn S.theory J)
    (hm : m.kind = .rational) (hn : n.kind = .rational)
    {x y : Kind.rational.domain.Model S.Carrier} (hproper : Kind.rational.IsProper x)
    (hproper' : Kind.rational.IsProper y)
    (hx : (scope.nodeTerm m).eval S.theory J = some (Datum.element ⟨Kind.rational.domain, x⟩))
    (hy : (scope.nodeTerm n).eval S.theory J = some (Datum.element ⟨Kind.rational.domain, y⟩)) :
    ∃ t b, scope.term ⟨.equal, [m, n]⟩ = .ok t ∧ t.eval S.theory J = some (.bool b) ∧
      (b = true ↔ Kind.rational.Agree x y) := by
  have hoperands : List.Forall₂ (Term.DenotesFraction S J) (scope.nodeTerms [m, n])
      [(x.1 / x.2 : ℚ), (y.1 / y.2 : ℚ)] :=
    .cons ⟨x, ⟨hproper _ rfl, rfl⟩, hx⟩ (.cons ⟨y, ⟨hproper' _ rfl, rfl⟩, hy⟩ .nil)
  have hresult : Operator.equal.onRationals? [(x.1 / x.2 : ℚ), (y.1 / y.2 : ℚ)] =
      some (.inl (decide ((x.1 / x.2 : ℚ) = y.1 / y.2))) := rfl
  obtain ⟨t, a, hterm, heval, hrepresents⟩ := eval_rational hopen hdefinitions
    (by simp [hm, hn]) hoperands hresult
  cases hrepresents
  exact ⟨t, _, hterm, heval, decide_eq_true_iff⟩

end Scope

/-! ### The kinds at which equality is that of numbers -/

/-- Whether the encoding of equality decides if two values of a kind agree, in all scopes and
wherever the definitions hold that a script contains. -/
def Kind.ComparesNumbers (k : Kind) : Prop :=
  ∀ (S : OpenSorts) (J : Interpretation (Datum S.Carrier)),
    (∀ f : RationalFunction, ∀ x ∈ f.parameters, S.theory.function (.symbol x) [] = none) →
    (∀ d ∈ readDefinitions (joined "\n" Datatype.rationals), d.HoldsIn S.theory J) →
    ∀ (scope : Scope) (m n : Node) {x y : k.domain.Model S.Carrier}, m.kind = k → n.kind = k →
      k.IsProper x → k.IsProper y →
      (scope.nodeTerm m).eval S.theory J = some (Datum.element ⟨k.domain, x⟩) →
      (scope.nodeTerm n).eval S.theory J = some (Datum.element ⟨k.domain, y⟩) →
      ∃ t b, scope.term ⟨.equal, [m, n]⟩ = .ok t ∧ t.eval S.theory J = some (.bool b) ∧
        (b = true ↔ k.Agree x y)

/-- The theory leaves the parameters of the functions and the first two nodes open. -/
theorem OpenSorts.decimals_leaves_open (name : String)
    (h : name ∈ ["x", "y", nodeName 1, nodeName 2]) :
    OpenSorts.decimals.theory.function (.symbol name) [] = none := by
  simp only [List.mem_cons, List.not_mem_nil, or_false] at h
  rcases h with rfl | rfl | rfl | rfl <;>
    · rw [OpenSorts.function_theory]
      split <;> rfl

namespace Scope

variable {k : Kind}

/-- One value for the first node, and another one for the others. -/
def twoValues (x y : k.domain.Model OpenSorts.decimals.Carrier) :
    Interpretation (Datum OpenSorts.decimals.Carrier) :=
  RationalFunction.model fun name =>
    (Datum.element ⟨k.domain, if name = nodeName 1 then x else y⟩).constant

theorem decimals_parameters (f : RationalFunction) : ∀ x ∈ f.parameters,
    OpenSorts.decimals.theory.function (.symbol x) [] = none := fun _ hx =>
  OpenSorts.decimals_leaves_open _
    (List.mem_append_left [nodeName 1, nodeName 2] (f.parameters_subset hx))

theorem holdsIn_twoValues (x y : k.domain.Model OpenSorts.decimals.Carrier) :
    ∀ d ∈ readDefinitions (joined "\n" Datatype.rationals),
      d.HoldsIn OpenSorts.decimals.theory (twoValues x y) := by
  refine RationalFunction.holdsIn_model decimals_parameters (fun f es => ?_) _
  rw [OpenSorts.function_theory, Theory.standard_symbol, f.lookup_symbol, if_neg f.not_isDataHead]
  rfl

variable (x y : k.domain.Model OpenSorts.decimals.Carrier)

theorem eval_first : (({} : Scope).nodeTerm ⟨1, k⟩).eval OpenSorts.decimals.theory (twoValues x y) =
    some (Datum.element ⟨k.domain, x⟩) :=
  congrArg (Option.or · _) (OpenSorts.decimals_leaves_open (nodeName 1) (by simp))

theorem eval_second : (({} : Scope).nodeTerm ⟨2, k⟩).eval OpenSorts.decimals.theory (twoValues x y) =
    some (Datum.element ⟨k.domain, y⟩) :=
  congrArg (Option.or · _) (OpenSorts.decimals_leaves_open (nodeName 2) (by simp))

end Scope

/-- Equality compares rationals as numbers at their own kind, and at no other kind that has them
inside. -/
theorem Kind.comparesNumbers_iff {k : Kind} (hk : k.IsAlgebraic) :
    k.ComparesNumbers ↔ k = .rational ∨ .rational ∉ k.subkinds := by
  classical
  constructor
  · intro hcompares
    by_contra hother
    obtain ⟨hne, hmem⟩ := not_or.mp hother
    obtain ⟨x, y, hx, hy, hagree, hdiffer⟩ := exists_agree_ne
      (C := OpenSorts.decimals.Carrier) hk (not_not.mp hmem)
    -- The values agree, and the term denotes that they are different.
    obtain ⟨t, b, hterm, heval, hb⟩ := hcompares _ _ Scope.decimals_parameters
      (Scope.holdsIn_twoValues x y) {} ⟨1, k⟩ ⟨2, k⟩ rfl rfl hx hy (Scope.eval_first x y)
      (Scope.eval_second x y)
    obtain ⟨u, hterm', heval'⟩ := Scope.eval_equal_structural hk hne rfl rfl
      (Scope.eval_first x y) (Scope.eval_second x y)
    obtain rfl := Except.ok.inj (hterm.symm.trans hterm')
    rw [heval', hb.mpr hagree, decide_eq_false hdiffer] at heval
    cases heval
  · rintro (rfl | hfree) S J hopen hdefinitions scope m n x y hm hn hproper hproper' hx hy
    · exact Scope.eval_equal_rational hopen hdefinitions hm hn hproper hproper' hx hy
    · have hne : k ≠ .rational := by
        rintro rfl
        exact hfree List.mem_cons_self
      obtain ⟨t, hterm, heval⟩ := Scope.eval_equal_structural hk hne hm hn hx hy
      refine ⟨t, _, hterm, heval, decide_eq_true_iff.trans ⟨?_, eq_of_agree hk hfree⟩⟩
      rintro rfl
      exact agree_refl hk x

/-- One half and two quarters are equal rationals. -/
theorem Kind.comparesNumbers_iff_half :
    let half : Kind.rational.domain.Model OpenSorts.decimals.Carrier := ((1, 2) : Int × Int)
    let quarters : Kind.rational.domain.Model OpenSorts.decimals.Carrier := ((2, 4) : Int × Int)
    ∃ t, ({} : Scope).term ⟨.equal, [⟨1, .rational⟩, ⟨2, .rational⟩]⟩ = .ok t ∧
      t.eval OpenSorts.decimals.theory (Scope.twoValues half quarters) = some (.bool true) := by
  intro half quarters
  have hcompares := (Kind.comparesNumbers_iff (k := .rational) trivial).mpr (.inl rfl)
  obtain ⟨t, b, hterm, heval, hb⟩ := hcompares _ _ Scope.decimals_parameters
    (Scope.holdsIn_twoValues half quarters) {} ⟨1, .rational⟩ ⟨2, .rational⟩ rfl rfl
    (isProper_rational (by decide)) (isProper_rational (by decide))
    (Scope.eval_first half quarters) (Scope.eval_second half quarters)
  rw [hb.mpr agree_half_quarters] at heval
  exact ⟨t, hterm, heval⟩

/-- Just one half and just two quarters agree and are not equal. -/
theorem Kind.not_comparesNumbers_maybe :
    let half : (Kind.maybe .rational).domain.Model OpenSorts.decimals.Carrier :=
      some ((1, 2) : Int × Int)
    let quarters : (Kind.maybe .rational).domain.Model OpenSorts.decimals.Carrier :=
      some ((2, 4) : Int × Int)
    (Kind.maybe .rational).IsProper half ∧ (Kind.maybe .rational).IsProper quarters ∧
      (Kind.maybe .rational).Agree half quarters ∧
      (∀ d ∈ readDefinitions (joined "\n" Datatype.rationals),
        d.HoldsIn OpenSorts.decimals.theory (Scope.twoValues half quarters)) ∧
      ∃ t, ({} : Scope).term ⟨.equal, [⟨1, .maybe .rational⟩, ⟨2, .maybe .rational⟩]⟩ = .ok t ∧
        t.eval OpenSorts.decimals.theory (Scope.twoValues half quarters) = some (.bool false) := by
  classical
  intro half quarters
  obtain ⟨t, hterm, heval⟩ := Scope.eval_equal_structural (k := .maybe .rational) trivial nofun rfl
    rfl (Scope.eval_first half quarters) (Scope.eval_second half quarters)
  have hdiffer : half ≠ quarters := fun h =>
    absurd (congrArg Prod.fst (Option.some.inj h)) (by decide : (1 : Int) ≠ 2)
  rw [decide_eq_false hdiffer] at heval
  exact ⟨(isProper_rational (by decide)).some, (isProper_rational (by decide)).some,
    .some agree_half_quarters, Scope.holdsIn_twoValues half quarters, t, hterm, heval⟩

end SolverScript
