import Mathlib.Data.Set.Finite.List
import SolverScript.Proofs.Script.InvariantMeaning
import SolverScript.Proofs.Semantics.DataLiterals

/-!
# Well-formed constants

The invariants of a kind are asserted of what a script leaves open, and not of constants: the
literal of a constant is meant to have them already. Here the literal of every constant is given its
meaning, and the constants are told apart whose literals have the invariants. Some have not: a
rational keeps the negative denominator that it was given; a character beyond 2FFFF is written as an
escape sequence that is read as several characters; and the complement of a set of characters or
rationals has members that are none. No set has the invariants if its members are lists, sets,
tuples, optionals or sums with characters or rationals inside.

## Main definitions

* `Value.subvalues` - a value and all that it is made of
* `Value.IsProper` - whether a value itself, apart from what is inside, has its invariants

## Main results

* `Value.admits_iff` - the literal of a constant has the invariants of its kind just if all that the
  constant is made of is proper
-/

namespace SolverScript

namespace Value

mutual

/-- A value and everything inside of it. -/
def subvalues : Value → List Value
  | list k vs => list k vs :: subvaluesAll vs
  | set k vs complemented => set k vs complemented :: subvaluesAll vs
  | tuple vs => tuple vs :: subvaluesAll vs
  | just v => just v :: subvalues v
  | left v k => left v k :: subvalues v
  | right k v => right k v :: subvalues v
  | v => [v]

/-- Some values and everything inside of them. -/
def subvaluesAll : List Value → List Value
  | [] => []
  | v :: vs => subvalues v ++ subvaluesAll vs

end

/-- Whether the elements of a list and the members of a set have the kind that it says they have. -/
def HasElementsOfKind : Value → Prop
  | list k vs | set k vs _ => ∀ v ∈ vs, v.kind = k
  | _ => True

/-- Whether a string can be written: its bytes have to be valid UTF-8. -/
def HasText : Value → Prop
  | string text => (Utf8.decode? text.toList).isSome
  | _ => True

/-- Whether a value is of a sort that is left open. -/
def isBasic : Value → Bool
  | real _ | float _ | double _ | floating .. | userSort .. => true
  | _ => false

/-- Whether a value itself has the invariants of its kind: characters are those of the target
language, denominators are positive, and sets that have invariants list their members, which are
characters or rationals themselves. -/
def IsProper : Value → Prop
  | rational _ denominator _ => 0 < denominator
  | char c => c.toNat < 0x30000
  | set k _ complemented =>
    k.containsCharOrRational = true → k.isComposite = false ∧ complemented = false
  | _ => True

/-- Whether the literal of a value has a meaning: the same element of its sort in all
interpretations. -/
def IsRead (S : OpenSorts) (mode : RoundingMode) (v : Value) : Prop :=
  ∀ t, v.term mode = .ok t →
    ∃ e, S.theory.Contains v.kind.sort e ∧ ∀ J, t.eval S.theory J = some e

/-- The literal of a value, with what it denotes, which has the invariants of the value's kind just
if everything inside the value is proper. -/
def HasMeaning (S : OpenSorts) (mode : RoundingMode) (v : Value) : Prop :=
  ∃ (t : Term) (x : v.kind.domain.Model S.Carrier), v.term mode = .ok t ∧
    t.Denotes S (fun _ => True) ⟨v.kind.domain, x⟩ ∧
    (v.kind.Allows x ↔ ∀ u ∈ v.subvalues, u.IsProper)

variable {S : OpenSorts} {mode : RoundingMode}

theorem terms_of_forall₂ {vs : List Value} {ts : List Term}
    (h : List.Forall₂ (fun v t => v.term mode = .ok t) vs ts) : terms mode vs = .ok ts := by
  induction h with
  | nil => rfl
  | cons ht _ ih =>
    rw [terms, ht, ih]
    rfl

theorem termsLastFirst_of_forall₂ {vs : List Value} {ts : List Term}
    (h : List.Forall₂ (fun v t => v.term mode = .ok t) vs ts) :
    termsLastFirst mode vs = .ok ts := by
  induction h with
  | nil => rfl
  | cons ht _ ih =>
    rw [termsLastFirst, ih]
    change (do return (← term mode _) :: _) = _
    rw [ht]
    rfl

theorem forall_isProper_cons (v : Value) {vs : List Value} (hv : v.IsProper) :
    (∀ u ∈ v :: vs, u.IsProper) ↔ ∀ u ∈ vs, u.IsProper := by
  rw [List.forall_mem_cons, and_iff_right hv]

/-! ### Values without parts -/

theorem bindsNothing_int (n : Int) : (Term.int n).bindsNothing = true := by
  unfold Term.int
  split <;> rfl

theorem bindsNothing_bitsTerm (width value : Nat) : (bitsTerm width value).bindsNothing = true := by
  unfold bitsTerm
  split <;> rfl

theorem bindsNothing_signedTerm (width : Nat) (value : Int) :
    (signedTerm width value).bindsNothing = true := by
  unfold signedTerm
  split
  · rfl
  · split
    · rw [Term.bindsNothing, Term.bindNothing, bindsNothing_bitsTerm]
      rfl
    · exact bindsNothing_bitsTerm _ _

theorem denotes_int {P : Interpretation (Datum S.Carrier) → Prop} (n : Int) :
    (Term.int n).Denotes S P ⟨.int, n⟩ :=
  .of_standard (bindsNothing_int n) (Term.eval_int n)

/-- A literal of the standard theory has a meaning, and its kind has no invariants. -/
theorem hasMeaning_of_element {v : Value} {t : Term} {x : v.kind.domain.Model S.Carrier}
    (ht : v.term mode = .ok t) (hbinds : t.bindsNothing = true)
    (hx : v.element? = some (Datum.element (C := S.Carrier) ⟨v.kind.domain, x⟩))
    (hallows : v.kind.Allows x) (hproper : ∀ u ∈ v.subvalues, u.IsProper) : HasMeaning S mode v :=
  ⟨t, x, ht, .of_standard hbinds (eval_term ht hx), iff_of_true hallows hproper⟩

theorem hasMeaning_bounded (signed : Bool) (width : Width) (bits : BitVec width.bits) :
    HasMeaning S mode (bounded signed width bits) := by
  cases signed with
  | false =>
    exact hasMeaning_of_element (x := bits) rfl (bindsNothing_bitsTerm _ _) rfl trivial
      (List.forall_mem_singleton.mpr trivial)
  | true =>
    exact hasMeaning_of_element (x := bits) rfl (bindsNothing_signedTerm _ _) rfl trivial
      (List.forall_mem_singleton.mpr trivial)

theorem hasMeaning_rational (numerator denominator : Int) (nonzero : denominator ≠ 0) :
    HasMeaning S mode (rational numerator denominator nonzero) := by
  have hsubvalues : (∀ u ∈ (rational numerator denominator nonzero).subvalues, u.IsProper) ↔
      0 < denominator := List.forall_mem_singleton
  exact ⟨_, (numerator, denominator), rfl, .pair (denotes_int numerator) (denotes_int denominator),
    hsubvalues.symm⟩

/-- A character beyond the last one of the target language is read as several. -/
theorem hasMeaning_char (c : Char) : HasMeaning S mode (char c) := by
  obtain ⟨cs, hcs⟩ := exists_readText?_quote [c]
  have hsubvalues : (∀ u ∈ (char c).subvalues, u.IsProper) ↔ c.toNat < 0x30000 :=
    List.forall_mem_singleton
  exact ⟨_, cs, rfl, .quoted hcs,
    (length_eq_one_iff_of_readText?_quote hcs).trans hsubvalues.symm⟩

theorem hasMeaning_string {text : String} (h : HasText (string text)) :
    HasMeaning S mode (string text) := by
  obtain ⟨characters, hcharacters⟩ := Option.isSome_iff_exists.mp h
  obtain ⟨cs, hcs⟩ := exists_readText?_quote characters
  refine ⟨.quoted characters, cs, ?_, .quoted hcs,
    iff_of_true trivial (List.forall_mem_singleton.mpr trivial)⟩
  rw [term, quotedText, hcharacters]

/-- A value of a sort that is left open. -/
theorem hasMeaning_basic {v : Value} {t : Term} (ht : v.term mode = .ok t) (hv : v.isBasic = true)
    (h : v.IsRead S mode) : HasMeaning S mode v := by
  obtain ⟨e, he, heval⟩ := h t ht
  obtain ⟨x, rfl⟩ := S.hasDomains_theory.contains_iff.mp he
  -- Such a kind has no invariants, and the value has no parts.
  refine ⟨t, x, ht, fun J _ => heval J, iff_of_true ?_ ?_⟩
  · cases v with
    | real | float | double | floating | userSort => trivial
    | _ => cases hv
  · cases v with
    | real | float | double | floating | userSort => exact List.forall_mem_singleton.mpr trivial
    | _ => cases hv

/-! ### Lists and sets -/

section

variable {k : Kind} {vs : List Value}

/-- The literals of values of one kind, and what they denote. -/
theorem exists_elements (hkinds : ∀ v ∈ vs, v.kind = k) (h : ∀ v ∈ vs, HasMeaning S mode v) :
    ∃ (ts : List Term) (xs : List (k.domain.Model S.Carrier)),
      List.Forall₂ (fun v t => v.term mode = .ok t) vs ts ∧
      List.Forall₂ (fun t x => t.Denotes S (fun _ => True) ⟨k.domain, x⟩) ts xs ∧
      ((∀ x ∈ xs, k.Allows x) ↔ ∀ u ∈ subvaluesAll vs, u.IsProper) := by
  induction vs with
  | nil => exact ⟨[], [], .nil, .nil,
    iff_of_true (List.forall_mem_nil _) (List.forall_mem_nil _)⟩
  | cons v vs ih =>
    obtain ⟨rfl, hkinds⟩ := List.forall_mem_cons.mp hkinds
    obtain ⟨⟨t, x, ht, hx, hallows⟩, hvs⟩ := List.forall_mem_cons.mp h
    obtain ⟨ts, xs, hts, hxs, hall⟩ := ih hkinds hvs
    refine ⟨t :: ts, x :: xs, .cons ht hts, .cons hx hxs, ?_⟩
    exact List.forall_mem_cons.trans ((and_congr hallows hall).trans List.forall_mem_append.symm)

theorem hasMeaning_list (hkinds : ∀ v ∈ vs, v.kind = k) (h : ∀ v ∈ vs, HasMeaning S mode v) :
    HasMeaning S mode (list k vs) := by
  obtain ⟨ts, xs, hts, hxs, hall⟩ := exists_elements hkinds h
  refine ⟨sequenceTerm (Kind.list k).sort ts, xs, ?_, .sequence hxs, ?_⟩
  · exact bind_eq_ok_iff.mpr ⟨ts, terms_of_forall₂ hts, rfl⟩
  · exact hall.trans (forall_isProper_cons (list k vs) trivial).symm

theorem exists_not_mem_of_injective {β : Type} {f : Nat → β} (hf : Function.Injective f)
    (xs : List β) : ∃ n, f n ∉ xs := by
  obtain ⟨_, ⟨n, rfl⟩, hn⟩ :=
    (Set.infinite_range_of_injective hf).exists_notMem_finite (List.finite_toSet xs)
  exact ⟨n, hn⟩

/-- Some value of the sort of characters or rationals is neither listed nor one of the kind. -/
theorem exists_not_allows (hk : k.isComposite = false) (hcontains : k.containsCharOrRational = true)
    (xs : List (k.domain.Model S.Carrier)) : ∃ x, x ∉ xs ∧ ¬k.Allows x := by
  rcases Kind.eq_char_or_rational hk hcontains with rfl | rfl
  · -- Texts of two and more characters.
    have hinjective : Function.Injective fun n => List.replicate (n + 2) (0 : CodePoint) := by
      intro m n h
      simpa using congrArg List.length h
    obtain ⟨n, hn⟩ := exists_not_mem_of_injective hinjective xs
    refine ⟨_, hn, fun hallows : (List.replicate (n + 2) (0 : CodePoint)).length = 1 => ?_⟩
    simp at hallows
  · -- Pairs with denominator zero.
    have hinjective : Function.Injective fun n : Nat => ((n : Int), (0 : Int)) := by
      intro m n h
      exact Int.ofNat.inj (congrArg Prod.fst h)
    obtain ⟨n, hn⟩ := exists_not_mem_of_injective hinjective xs
    exact ⟨_, hn, fun hallows : (0 : Int) < 0 => absurd hallows (by decide)⟩

/-- A set allows its members if it lists them; a complement has members that are not allowed. -/
theorem allows_memberships_iff {xs : List (k.domain.Model S.Carrier)} (complemented : Bool) :
    (Kind.set k).Allows (C := S.Carrier) (Term.Denotes.memberships complemented xs) ↔
      IsProper (set k vs complemented) ∧ ∀ x ∈ xs, k.Allows x := by
  classical
  cases hcontains : k.containsCharOrRational with
  | false =>
    refine iff_of_true (Kind.allows_of_not_contains (k := .set k) hcontains _)
      ⟨fun h => ?_, fun x _ => Kind.allows_of_not_contains hcontains x⟩
    exact absurd (hcontains.symm.trans h) (by decide)
  | true =>
    rw [Kind.allows_set, IsProper]
    simp only [hcontains, true_implies]
    cases hk : k.isComposite with
    | true => simp
    | false =>
      cases complemented with
      | false => simp [Term.Denotes.memberships]
      | true =>
        -- Listed or not, a value that is not allowed would have to be absent.
        obtain ⟨x, hx, hallows⟩ := exists_not_allows hk hcontains xs
        simp only [true_and, Bool.true_eq_false, false_and, iff_false]
        exact fun hall => hallows (hall x (by simp [Term.Denotes.memberships, hx]))

theorem hasMeaning_set (complemented : Bool) (hkinds : ∀ v ∈ vs, v.kind = k)
    (h : ∀ v ∈ vs, HasMeaning S mode v) : HasMeaning S mode (set k vs complemented) := by
  obtain ⟨ts, xs, hts, hxs, hall⟩ := exists_elements hkinds h
  refine ⟨membershipTerm (Kind.set k).sort complemented ts, _, ?_, .membership complemented hxs, ?_⟩
  · exact bind_eq_ok_iff.mpr ⟨ts, termsLastFirst_of_forall₂ hts, rfl⟩
  · exact (allows_memberships_iff complemented).trans
      ((and_congr_right' hall).trans List.forall_mem_cons.symm)

end

/-! ### Tuples -/

/-- The literals of the components of a tuple, and what they denote. -/
theorem exists_components {vs : List Value} (h : ∀ v ∈ vs, HasMeaning S mode v) :
    ∃ (ts : List Term) (xs : Domain.Models S.Carrier (Kind.domains (kinds vs))),
      List.Forall₂ (fun v t => v.term mode = .ok t) vs ts ∧
      List.Forall₂ (Term.Denotes S fun _ => True) ts (Datum.components _ xs) ∧
      (Kind.AllowsAll (kinds vs) xs ↔ ∀ u ∈ subvaluesAll vs, u.IsProper) := by
  induction vs with
  | nil => exact ⟨[], (), .nil, .nil, iff_of_true trivial (List.forall_mem_nil _)⟩
  | cons v vs ih =>
    obtain ⟨⟨t, x, ht, hx, hallows⟩, hvs⟩ := List.forall_mem_cons.mp h
    obtain ⟨ts, xs, hts, hxs, hall⟩ := ih hvs
    refine ⟨t :: ts, (x, xs), .cons ht hts, .cons hx hxs, ?_⟩
    exact (and_congr hallows hall).trans List.forall_mem_append.symm

theorem hasMeaning_tuple {vs : List Value} (h : ∀ v ∈ vs, HasMeaning S mode v) :
    HasMeaning S mode (tuple vs) := by
  obtain ⟨ts, xs, hts, hxs, hall⟩ := exists_components h
  refine ⟨tupleTerm (Kind.tuple (kinds vs)).sort ts, xs, ?_, .tuple hxs, ?_⟩
  · exact bind_eq_ok_iff.mpr ⟨ts, terms_of_forall₂ hts, rfl⟩
  · exact hall.trans (forall_isProper_cons (tuple vs) trivial).symm

/-! ### Optionals and sums -/

theorem hasMeaning_nothing (k : Kind) : HasMeaning S mode (nothing k) :=
  ⟨_, none, rfl, .nothing k,
    iff_of_true (fun x hx => by cases hx) (List.forall_mem_singleton.mpr trivial)⟩

theorem hasMeaning_just {v : Value} (h : HasMeaning S mode v) : HasMeaning S mode (just v) := by
  obtain ⟨t, x, ht, hx, hallows⟩ := h
  refine ⟨_, some x, ?_, .just hx, ?_⟩
  · exact bind_eq_ok_iff.mpr ⟨t, ht, rfl⟩
  · refine Iff.trans ?_ (hallows.trans (forall_isProper_cons (just v) trivial).symm)
    exact ⟨fun h => h x rfl, fun h _ hy => Option.some.inj hy ▸ h⟩

theorem hasMeaning_left {v : Value} (k : Kind) (h : HasMeaning S mode v) :
    HasMeaning S mode (left v k) := by
  obtain ⟨t, x, ht, hx, hallows⟩ := h
  refine ⟨_, Sum.inl x, ?_, .left k hx, ?_⟩
  · exact bind_eq_ok_iff.mpr ⟨t, ht, rfl⟩
  · exact hallows.trans (forall_isProper_cons (left v k) trivial).symm

theorem hasMeaning_right {v : Value} (k : Kind) (h : HasMeaning S mode v) :
    HasMeaning S mode (right k v) := by
  obtain ⟨t, x, ht, hx, hallows⟩ := h
  refine ⟨_, Sum.inr x, ?_, .right k hx, ?_⟩
  · exact bind_eq_ok_iff.mpr ⟨t, ht, rfl⟩
  · exact hallows.trans (forall_isProper_cons (right k v) trivial).symm

/-! ### All values -/

/-- What is needed for the literal of a value to be read: its elements have the kind that it says
they have, its text can be written, and if its sort is left open, its literal has a meaning. -/
structure IsReadable (S : OpenSorts) (mode : RoundingMode) (v : Value) : Prop where
  elements : v.HasElementsOfKind
  text : v.HasText
  basic : v.isBasic = true → v.IsRead S mode

theorem self_mem_subvalues (v : Value) : v ∈ v.subvalues := by
  cases v <;> exact List.mem_cons_self

mutual

/-- The literal of a value has a meaning, which shows whether everything inside it is proper. -/
theorem hasMeaning {v : Value} (h : ∀ u ∈ v.subvalues, u.IsReadable S mode) :
    HasMeaning S mode v := by
  -- By recursion on the value; what is inside of it is readable as well.
  have hself := h v v.self_mem_subvalues
  cases v with
  | bool b =>
    exact hasMeaning_of_element (x := b) rfl rfl rfl trivial (List.forall_mem_singleton.mpr trivial)
  | bounded signed width bits => exact hasMeaning_bounded signed width bits
  | unbounded n =>
    exact hasMeaning_of_element (x := n) rfl (bindsNothing_int n) rfl trivial
      (List.forall_mem_singleton.mpr trivial)
  | real | float | double | floating | userSort =>
    exact hasMeaning_basic rfl rfl (hself.basic rfl)
  | rational m n hn => exact hasMeaning_rational m n hn
  | char c => exact hasMeaning_char c
  | string text => exact hasMeaning_string hself.text
  | list k vs =>
    exact hasMeaning_list hself.elements (hasMeaning_of_mem (List.forall_mem_cons.mp h).2)
  | set k vs complemented =>
    exact hasMeaning_set complemented hself.elements
      (hasMeaning_of_mem (List.forall_mem_cons.mp h).2)
  | tuple vs => exact hasMeaning_tuple (hasMeaning_of_mem (List.forall_mem_cons.mp h).2)
  | nothing k => exact hasMeaning_nothing k
  | just v => exact hasMeaning_just (hasMeaning (List.forall_mem_cons.mp h).2)
  | left v k => exact hasMeaning_left k (hasMeaning (List.forall_mem_cons.mp h).2)
  | right k v => exact hasMeaning_right k (hasMeaning (List.forall_mem_cons.mp h).2)

theorem hasMeaning_of_mem {vs : List Value}
    (h : ∀ u ∈ subvaluesAll vs, u.IsReadable S mode) : ∀ v ∈ vs, HasMeaning S mode v := by
  cases vs with
  | nil => exact fun _ hv => absurd hv List.not_mem_nil
  | cons v vs =>
    obtain ⟨hv, hvs⟩ := List.forall_mem_append.mp h
    exact List.forall_mem_cons.mpr ⟨hasMeaning hv, hasMeaning_of_mem hvs⟩

end

variable {v : Value} {J : Interpretation (Datum S.Carrier)}

/-- What has a meaning denotes an element of its sort, with the invariants of its kind just if
everything inside it is proper. -/
theorem HasMeaning.exists_term (h : HasMeaning S mode v) (hJ : J.LeavesData S) :
    ∃ t, v.term mode = .ok t ∧
      (∃ e, t.eval S.theory J = some e ∧ S.theory.Contains v.kind.sort e) ∧
      (v.kind.Admits S.theory J t ↔ ∀ u ∈ v.subvalues, u.IsProper) := by
  obtain ⟨t, x, ht, hx, hallows⟩ := h
  refine ⟨t, ht, ⟨_, hx J trivial, S.hasDomains_theory.contains _ x⟩, ?_⟩
  exact (Kind.admits_iff_allows hJ (hx.mono fun _ _ => trivial)).trans hallows

/-- The literal of a constant exists, denotes an element of its sort, and has the invariants of its
kind just if the constant and everything inside it are proper. -/
theorem admits_iff (hkinds : ∀ u ∈ v.subvalues, u.HasElementsOfKind)
    (htexts : ∀ u ∈ v.subvalues, u.HasText)
    (hbasic : ∀ u ∈ v.subvalues, u.isBasic = true → u.IsRead S mode) (hJ : J.LeavesData S) :
    ∃ t, v.term mode = .ok t ∧
      (∃ e, t.eval S.theory J = some e ∧ S.theory.Contains v.kind.sort e) ∧
      (v.kind.Admits S.theory J t ↔ ∀ u ∈ v.subvalues, u.IsProper) :=
  HasMeaning.exists_term (hasMeaning fun u hu => ⟨hkinds u hu, htexts u hu, hbasic u hu⟩) hJ

theorem isRead_zero : (real 0).IsRead OpenSorts.decimals .nearestTiesToEven := by
  rintro _ ⟨⟩
  have hhead : ¬OpenSorts.decimals.IsDataHead (.decimal 0) := fun h => by cases h
  have hstandard : (Theory.standard OpenSorts.decimals.theory.carrier).function (.decimal 0) [] =
      none := rfl
  refine ⟨_, OpenSorts.decimals.hasDomains_theory.contains .real (0 : Rat), fun J => ?_⟩
  exact OpenSorts.function_of_open hhead hstandard

/-- A list of a half, a real of a sort that is left open, and an optional letter. -/
def halfAndLetter : Value :=
  tuple [list .rational [rational 1 2 (by decide)], real 0, just (char 'a')]

theorem admits_halfAndLetter : ∃ t, halfAndLetter.term .nearestTiesToEven = .ok t ∧
    halfAndLetter.kind.Admits OpenSorts.decimals.theory (fun _ _ => none) t := by
  have hall : ∀ {P : Value → Prop}, P halfAndLetter →
      P (list .rational [rational 1 2 (by decide)]) → P (rational 1 2 (by decide)) →
      P (real 0) → P (just (char 'a')) → P (char 'a') → ∀ u ∈ halfAndLetter.subvalues, P u := by
    intro P h₀ h₁ h₂ h₃ h₄ h₅
    simpa [halfAndLetter, subvalues, subvaluesAll] using ⟨h₀, h₁, h₂, h₃, h₄, h₅⟩
  have hkinds : ∀ u ∈ halfAndLetter.subvalues, u.HasElementsOfKind :=
    hall trivial (List.forall_mem_singleton.mpr rfl) trivial trivial trivial trivial
  have htexts : ∀ u ∈ halfAndLetter.subvalues, u.HasText :=
    hall trivial trivial trivial trivial trivial trivial
  have hbasic : ∀ u ∈ halfAndLetter.subvalues, u.isBasic = true →
      u.IsRead OpenSorts.decimals .nearestTiesToEven :=
    hall nofun nofun nofun (fun _ => isRead_zero) nofun nofun
  obtain ⟨t, ht, -, hadmits⟩ := admits_iff hkinds htexts hbasic (J := fun _ _ => none)
    fun _ _ _ => rfl
  have htwo : (0 : Int) < 2 := by decide
  have hletter : 'a'.toNat < 0x30000 := by decide
  exact ⟨t, ht, hadmits.mpr (hall trivial trivial htwo trivial trivial hletter)⟩

/-- A rational keeps a negative denominator, characters have an escape sequence that is read as
several, complements have members of all texts, and sets of lists have invariants that are no
formulas. -/
theorem not_admits_improper :
    (∃ v t, ofRational 1 (-2) = .ok v ∧ v.term .nearestTiesToEven = .ok t ∧
      ¬v.kind.Admits OpenSorts.decimals.theory (fun _ _ => none) t) ∧
    (∃ v t, ofCodePoint 0x30000 = .ok v ∧ v.term .nearestTiesToEven = .ok t ∧
      ¬v.kind.Admits OpenSorts.decimals.theory (fun _ _ => none) t) ∧
    ∀ v ∈ [set .char [char 'a'] true, set (.list .char) [list .char [char 'a']] false],
      ∃ t, v.term .nearestTiesToEven = .ok t ∧
        ¬v.kind.Admits OpenSorts.decimals.theory (fun _ _ => none) t := by
  have hnot : ∀ {v : Value}, HasMeaning OpenSorts.decimals .nearestTiesToEven v →
      ¬v.IsProper → ∃ t, v.term .nearestTiesToEven = .ok t ∧
        ¬v.kind.Admits OpenSorts.decimals.theory (fun _ _ => none) t := by
    intro v h himproper
    obtain ⟨t, ht, -, hadmits⟩ := h.exists_term (J := fun _ _ => none) fun _ _ _ => rfl
    exact ⟨t, ht, fun hv => himproper (hadmits.mp hv v v.self_mem_subvalues)⟩
  have hnegative : ¬(0 : Int) < -2 := by decide
  have hbeyond : ¬(Char.ofNat 0x30000).toNat < 0x30000 := by decide
  have hletter : ∀ v ∈ [char 'a'], HasMeaning OpenSorts.decimals .nearestTiesToEven v :=
    List.forall_mem_singleton.mpr (hasMeaning_char 'a')
  have hword : HasMeaning OpenSorts.decimals .nearestTiesToEven (list .char [char 'a']) :=
    hasMeaning_list (List.forall_mem_singleton.mpr rfl) hletter
  refine ⟨⟨_, (hnot (hasMeaning_rational 1 (-2) (by decide)) hnegative).imp fun t h => ⟨rfl, h⟩⟩,
    ⟨_, (hnot (hasMeaning_char (Char.ofNat 0x30000)) hbeyond).imp fun t h => ⟨rfl, h⟩⟩,
    List.forall_mem_cons.mpr ⟨?_, List.forall_mem_singleton.mpr ?_⟩⟩
  · exact hnot (hasMeaning_set true (List.forall_mem_singleton.mpr rfl) hletter)
      fun h => absurd (h rfl).2 (by decide)
  · exact hnot (hasMeaning_set false (List.forall_mem_singleton.mpr rfl)
      (List.forall_mem_singleton.mpr hword)) fun h => absurd (h rfl).1 (by decide)

end Value

end SolverScript
