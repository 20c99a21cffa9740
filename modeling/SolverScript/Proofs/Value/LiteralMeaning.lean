import Mathlib.Data.Real.Basic
import SolverScript.Proofs.Script.WellFormedConstants
import SolverScript.Proofs.Semantics.LiteralSorts

/-!
# The meaning of literals

A value is read as a datum without looking at its literal: a list as the sequence of its elements, a
set as the function that is true on exactly the listed members or on exactly the others, tuples,
optionals and sums by what they are made of. The literal has the sort of the value's kind, and
denotes that datum in every interpretation. It exists if the texts inside the value are valid; a
character that the target language does not have is written, but has no datum.

What a literal of reals denotes depends on the reals, whose sort is left open by the theory: they
come with decimals, negation and division here.

## Main definitions

* `OpenSorts.Reals` - the real numbers as the values of their sort
* `Value.datum?` - the datum that a value is
* `Value.IsOrdinary` - whether a value itself is one that this file speaks about

## Main results

* `Value.term_exact` - the literal of a value has the sort of its kind and denotes its datum
-/

namespace SolverScript

/-! ### Reals -/

/-- The real numbers as the values of their sort, with the functions that literals use. Nothing is
said about a division by zero. -/
structure OpenSorts.Reals (S : OpenSorts) where
  ofReal : ℝ ≃ S.Carrier Kind.real.sort
  decimal : ∀ n, S.function (.decimal n) [] = some (.other ⟨.basic Kind.real.sort, ofReal n⟩)
  neg : ∀ x, S.function (.symbol "-") [.other ⟨.basic Kind.real.sort, ofReal x⟩] =
    some (.other ⟨.basic Kind.real.sort, ofReal (-x)⟩)
  div : ∀ x y, y ≠ 0 → S.function (.symbol "/")
      [.other ⟨.basic Kind.real.sort, ofReal x⟩, .other ⟨.basic Kind.real.sort, ofReal y⟩] =
    some (.other ⟨.basic Kind.real.sort, ofReal (x / y)⟩)

namespace OpenSorts

variable {S : OpenSorts}

/-- No function on data is called by a sign. -/
theorem not_isDataHead_of_mem {name : String} (h : name ∈ ["-", "/"]) :
    ¬S.IsDataHead (.symbol name) := by
  have hsigns : name = "-" ∨ name = "/" := by simpa using h
  refine not_isDataHead_symbol ?_
  rcases hsigns with rfl | rfl
  all_goals exact not_isDataName (by rw [keys_symbols]; decide) (by decide) (by decide)

namespace Reals

variable (R : S.Reals) {P : Interpretation (Datum S.Carrier) → Prop}

/-- The datum of a real number. -/
def datum (x : ℝ) : Datum S.Carrier := ⟨.basic Kind.real.sort, R.ofReal x⟩

variable {R}

theorem denotes_decimal (n : Nat) : (Term.decimal n).Denotes S P (R.datum n) := by
  intro J _
  have hhead : ¬S.IsDataHead (.decimal n) := nofun
  exact (function_of_open hhead rfl).trans (R.decimal n)

theorem denotes_neg {t : Term} {x : ℝ} (h : t.Denotes S P (R.datum x)) :
    (Term.app (.symbol "-") [t]).Denotes S P (R.datum (-x)) :=
  .app (fun _ => by simp) (.cons h .nil)
    ((function_of_open (not_isDataHead_of_mem (by simp)) rfl).trans (R.neg x))

theorem denotes_div {t u : Term} {x y : ℝ} (hx : t.Denotes S P (R.datum x))
    (hu : u.Denotes S P (R.datum y)) (hy : y ≠ 0) :
    (Term.app (.symbol "/") [t, u]).Denotes S P (R.datum (x / y)) :=
  .app (fun _ => by simp) (.cons hx (.cons hu .nil))
    ((function_of_open (not_isDataHead_of_mem (by simp)) rfl).trans (R.div x y hy))

/-- The literal of a real number denotes the number. -/
theorem denotes_realTerm (q : Rat) : (Value.realTerm q).Denotes S P (R.datum q) := by
  have hden : (q.den : ℝ) ≠ 0 := Nat.cast_ne_zero.mpr q.den_nz
  have hmagnitude := denotes_div (P := P) (denotes_decimal (R := R) q.num.natAbs)
    (denotes_decimal q.den) hden
  -- Zero is written without a fraction, and the sign stands in front of the whole fraction.
  unfold Value.realTerm
  split
  · next hzero =>
    obtain rfl : q = 0 := Rat.num_eq_zero.mp hzero
    simpa using denotes_decimal (R := R) (P := P) 0
  · rw [Term.fraction, Rat.cast_def]
    split
    · next hneg =>
      have hmagnitudes : q.num = -(q.num.natAbs : ℤ) := by omega
      have hvalue : (q.num : ℝ) = -(q.num.natAbs : ℝ) :=
        (congrArg Int.cast hmagnitudes).trans (by rw [Int.cast_neg, Int.cast_natCast])
      rw [hvalue, neg_div]
      exact denotes_neg hmagnitude
    · next hnonneg =>
      have hmagnitudes : q.num = (q.num.natAbs : ℤ) := by omega
      have hvalue : (q.num : ℝ) = (q.num.natAbs : ℝ) :=
        (congrArg Int.cast hmagnitudes).trans (Int.cast_natCast _)
      rw [hvalue]
      exact hmagnitude

end Reals

/-- Real numbers for the values of all basic sorts. -/
noncomputable def withReals : OpenSorts where
  Carrier _ := ℝ
  unspecified _ _ := Domain.default fun _ => (0 : ℝ)
  function head es :=
    match head, es with
    | .decimal n, [] => some (.other ⟨.basic Kind.real.sort, (n : ℝ)⟩)
    | .symbol "-", [.other ⟨.basic s, x⟩] => some (.other ⟨.basic s, (Neg.neg : ℝ → ℝ) x⟩)
    | .symbol "/", [.other ⟨.basic s, x⟩, .other ⟨.basic _, y⟩] =>
      some (.other ⟨.basic s, (HDiv.hDiv : ℝ → ℝ → ℝ) x y⟩)
    | _, _ => none
  leaves_bound name _ := by
    split <;> simp_all

/-- The real numbers are themselves. -/
noncomputable def withReals.reals : withReals.Reals where
  ofReal := Equiv.refl ℝ
  decimal _ := rfl
  neg _ := rfl
  div _ _ _ := rfl

end OpenSorts

namespace Value

variable {S : OpenSorts} {mode : RoundingMode}

/-- The text of some characters, if the target language has all of them. -/
def codePoints? (characters : List Char) : Option (List CodePoint) :=
  characters.mapM fun c => CodePoint.ofNat? c.toNat

mutual

/-- The datum that a value is; none for a character that the target language does not have, and
for values of the sorts whose values are left open, apart from reals. -/
noncomputable def datum? (R : S.Reals) : Value → Option (Datum S.Carrier)
  | bool value => some (.ofBool value)
  | bounded _ width bits => some ⟨.bits width.bits, bits⟩
  | unbounded value => some ⟨.int, value⟩
  | real value => some (R.datum value)
  | rational numerator denominator _ => some ⟨.rational, (numerator, denominator)⟩
  | char character => (codePoints? [character]).map fun cs => ⟨.text, cs⟩
  | string text => do
    let cs ← codePoints? (← Utf8.decode? text.toList)
    return ⟨.text, cs⟩
  | list element elements => do
    let xs ← (← data? R elements).mapM (Datum.as? element.domain)
    return ⟨.list element.domain, xs⟩
  | set element members complemented => do
    let xs ← (← data? R members).mapM (Datum.as? element.domain)
    return ⟨.set element.domain, Term.Denotes.memberships complemented xs⟩
  | tuple components => do
    let xs ← Datum.asTuple? (Kind.domains (kinds components)) (← data? R components)
    return ⟨.tuple (Kind.domains (kinds components)), xs⟩
  | nothing element => some ⟨.maybe element.domain, none⟩
  | just value => (datum? R value).map fun a => ⟨.maybe a.domain, some a.value⟩
  | left value rightKind =>
    (datum? R value).map fun a => ⟨.either a.domain rightKind.domain, Sum.inl a.value⟩
  | right leftKind value =>
    (datum? R value).map fun a => ⟨.either leftKind.domain a.domain, Sum.inr a.value⟩
  | _ => none

/-- The data that some values are. -/
noncomputable def data? (R : S.Reals) : List Value → Option (List (Datum S.Carrier))
  | [] => some []
  | v :: vs => do return (← datum? R v) :: (← data? R vs)

end

/-- Whether a value itself is one whose meaning is fixed: not a float and not of a user sort, the
elements have the kind that it says they have, and there is no tuple of a single component. -/
def IsOrdinary : Value → Prop
  | float _ | double _ | floating .. | userSort .. => False
  | list k vs | set k vs _ => ∀ v ∈ vs, v.kind = k
  | tuple vs => vs.length ≠ 1
  | _ => True

/-- Whether the target language has all characters of a value itself. -/
def HasCodePoints : Value → Prop
  | char c => c.toNat < 0x30000
  | string text => ∀ cs, Utf8.decode? text.toList = some cs → ∀ c ∈ cs, c.toNat < 0x30000
  | _ => True

/-! ### Literals that do not exist -/

/-- Whether a computation succeeds just if all texts among some values are valid, and otherwise
names one that is not. -/
structure DependsOnTexts {α : Type} (vs : List Value) (r : Except Failure α) : Prop where
  ok : ∀ a, r = .ok a → ∀ v ∈ vs, v.HasText
  error : ∀ f, r = .error f →
    ∃ text, string text ∈ vs ∧ ¬(string text).HasText ∧ f = .malformedText text

namespace DependsOnTexts

variable {α β : Type} {vs ws : List Value}

theorem of_ok {a : α} (h : ∀ v ∈ vs, v.HasText) : DependsOnTexts vs (.ok a : Except Failure α) :=
  ⟨fun _ _ => h, nofun⟩

theorem bind {x : Except Failure α} {f : α → Except Failure β} (hx : DependsOnTexts vs x)
    (hf : ∀ a, DependsOnTexts ws (f a)) : DependsOnTexts (vs ++ ws) (x >>= f) := by
  cases x with
  | error e =>
    obtain ⟨text, hmem, htext, rfl⟩ := hx.error e rfl
    refine ⟨nofun, fun g hg => ⟨text, List.mem_append_left ws hmem, htext, ?_⟩⟩
    exact (Except.error.inj hg).symm
  | ok a =>
    refine ⟨fun b hb => List.forall_mem_append.mpr ⟨hx.ok a rfl, (hf a).ok b hb⟩, fun g hg => ?_⟩
    obtain ⟨text, hmem, htext⟩ := (hf a).error g hg
    exact ⟨text, List.mem_append_right vs hmem, htext⟩

/-- The result is put into another one. -/
theorem map {x : Except Failure α} (hx : DependsOnTexts vs x) (f : α → β) :
    DependsOnTexts vs (x >>= fun a => .ok (f a)) := by
  have h : DependsOnTexts (vs ++ []) (x >>= fun a => .ok (f a)) :=
    hx.bind fun _ => of_ok (List.forall_mem_nil _)
  rwa [List.append_nil] at h

/-- In which order the values stand does not matter. -/
theorem comm {x : Except Failure α} (hx : DependsOnTexts (vs ++ ws) x) :
    DependsOnTexts (ws ++ vs) x := by
  refine ⟨fun a ha v hv => hx.ok a ha v (List.mem_append.mpr (List.mem_append.mp hv).symm),
    fun f hf => ?_⟩
  obtain ⟨text, hmem, htext⟩ := hx.error f hf
  exact ⟨text, List.mem_append.mpr (List.mem_append.mp hmem).symm, htext⟩

/-- A value whose text does not matter is added. -/
theorem cons {x : Except Failure α} {v : Value} (hv : v.HasText) (hx : DependsOnTexts vs x) :
    DependsOnTexts (v :: vs) x :=
  ⟨fun a ha => List.forall_mem_cons.mpr ⟨hv, hx.ok a ha⟩, fun f hf => by
    obtain ⟨text, hmem, htext⟩ := hx.error f hf
    exact ⟨text, List.mem_cons_of_mem v hmem, htext⟩⟩

end DependsOnTexts

/-- The literal of a text. -/
theorem dependsOnTexts_quotedText (text : String) :
    DependsOnTexts [string text] (quotedText text) := by
  unfold quotedText
  split
  · next characters h =>
    exact .of_ok (List.forall_mem_singleton.mpr (Option.isSome_iff_exists.mpr ⟨characters, h⟩))
  · next h =>
    refine ⟨nofun, fun f hf => ⟨text, List.mem_singleton_self _, ?_, (Except.error.inj hf).symm⟩⟩
    exact fun htext => absurd h (Option.isSome_iff_ne_none.mp htext)

mutual

/-- The literal of a value fails over its texts only. -/
theorem dependsOnTexts_term (mode : RoundingMode) (v : Value) :
    DependsOnTexts v.subvalues (v.term mode) := by
  cases v with
  | string text => exact dependsOnTexts_quotedText text
  | list k vs => exact .cons trivial ((dependsOnTexts_terms mode vs).map _)
  | set k vs complemented => exact .cons trivial ((dependsOnTexts_termsLastFirst mode vs).map _)
  | tuple vs => exact .cons trivial ((dependsOnTexts_terms mode vs).map _)
  | just v | left v | right _ v => exact .cons trivial ((dependsOnTexts_term mode v).map _)
  | bounded signed =>
    cases signed <;> exact .of_ok (List.forall_mem_singleton.mpr trivial)
  | _ => exact .of_ok (List.forall_mem_singleton.mpr trivial)

theorem dependsOnTexts_terms (mode : RoundingMode) (vs : List Value) :
    DependsOnTexts (subvaluesAll vs) (terms mode vs) := by
  cases vs with
  | nil => exact .of_ok (List.forall_mem_nil _)
  | cons v vs =>
    exact (dependsOnTexts_term mode v).bind fun t => (dependsOnTexts_terms mode vs).map _

theorem dependsOnTexts_termsLastFirst (mode : RoundingMode) (vs : List Value) :
    DependsOnTexts (subvaluesAll vs) (termsLastFirst mode vs) := by
  cases vs with
  | nil => exact .of_ok (List.forall_mem_nil _)
  | cons v vs =>
    -- The last text fails first, but all that is said is that one of them does.
    exact ((dependsOnTexts_termsLastFirst mode vs).bind fun ts =>
      (dependsOnTexts_term mode v).map _).comm

end

/-- A value has a literal if all its texts are valid. -/
theorem exists_term_iff {v : Value} :
    (∃ t, v.term mode = .ok t) ↔ ∀ u ∈ v.subvalues, u.HasText := by
  have h := dependsOnTexts_term mode v
  refine ⟨fun ⟨t, ht⟩ => h.ok t ht, fun htexts => ?_⟩
  cases hterm : v.term mode with
  | ok t => exact ⟨t, rfl⟩
  | error f =>
    obtain ⟨text, hmem, htext, -⟩ := h.error f hterm
    exact absurd (htexts _ hmem) htext

/-! ### Meanings -/

/-- Whether a term is a literal of a value: it has the sort of the value's kind, and it denotes the
value's datum if the target language has all characters. -/
structure IsLiteral (R : S.Reals) (v : Value) (t : Term) : Prop where
  sort : t.literalSort? = some v.kind.sort
  denotes : (∀ u ∈ v.subvalues, u.HasCodePoints) → ∃ x : v.kind.domain.Model S.Carrier,
    v.datum? R = some ⟨v.kind.domain, x⟩ ∧ t.Denotes S (fun _ => True) ⟨v.kind.domain, x⟩

variable {R : S.Reals}

theorem exists_codePoints? {characters : List Char} (h : ∀ c ∈ characters, c.toNat < 0x30000) :
    ∃ cs, codePoints? characters = some cs ∧
      readText? (Term.quote characters).toList = some cs := by
  refine ⟨_, ?_, readText?_quote h⟩
  induction characters with
  | nil => rfl
  | cons c cs ih =>
    obtain ⟨hc, hcs⟩ := List.forall_mem_cons.mp h
    have ih := ih hcs
    unfold codePoints? at ih ⊢
    rw [List.mapM_cons, CodePoint.ofNat?_of_lt hc, ih]
    simp

/-- A literal of the standard theory. -/
theorem isLiteral_of_element {v : Value} {t : Term} {x : v.kind.domain.Model S.Carrier}
    (ht : v.term mode = .ok t) (hbinds : t.bindsNothing = true)
    (hsort : t.literalSort? = some v.kind.sort)
    (hx : v.element? = some (Datum.element (C := S.Carrier) ⟨v.kind.domain, x⟩))
    (hdatum : v.datum? R = some ⟨v.kind.domain, x⟩) : IsLiteral R v t :=
  ⟨hsort, fun _ => ⟨x, hdatum, .of_standard hbinds (eval_term ht hx)⟩⟩

theorem isLiteral_bounded (signed : Bool) (width : Width) (bits : BitVec width.bits) {t : Term}
    (ht : (bounded signed width bits).term mode = .ok t) :
    IsLiteral R (bounded signed width bits) t := by
  cases signed with
  | false =>
    obtain rfl := Except.ok.inj ht
    exact isLiteral_of_element (x := bits) ht (bindsNothing_bitsTerm _ _)
      (Term.literalSort?_bitsTerm width.pos bits.isLt) rfl rfl
  | true =>
    obtain rfl := Except.ok.inj ht
    exact isLiteral_of_element (x := bits) ht (bindsNothing_signedTerm _ _)
      (Term.literalSort?_signedTerm width.pos bits) rfl rfl

theorem isLiteral_string {text : String} {t : Term} (ht : (string text).term mode = .ok t) :
    IsLiteral R (string text) t := by
  obtain ⟨characters, hcharacters, rfl⟩ : ∃ characters,
      Utf8.decode? text.toList = some characters ∧ t = .quoted characters := by
    change quotedText text = .ok t at ht
    unfold quotedText at ht
    split at ht
    · next characters h => exact ⟨characters, h, (Except.ok.inj ht).symm⟩
    · cases ht
  refine ⟨rfl, fun hall => ?_⟩
  have hall : (string text).HasCodePoints := hall _ (self_mem_subvalues _)
  obtain ⟨cs, hcs, hread⟩ := exists_codePoints? (hall characters hcharacters)
  refine ⟨cs, ?_, .quoted hread⟩
  rw [datum?, hcharacters, Option.bind_eq_bind, Option.bind_some, hcs]
  rfl

theorem isLiteral_char (c : Char) : IsLiteral R (char c) (.quoted [c]) := by
  refine ⟨rfl, fun hall => ?_⟩
  have hc : c.toNat < 0x30000 := hall _ (self_mem_subvalues (char c))
  obtain ⟨cs, hcs, hread⟩ := exists_codePoints? (List.forall_mem_singleton.mpr hc)
  exact ⟨cs, congrArg (Option.map _) hcs, .quoted hread⟩

/-! ### Lists and sets -/

section

variable {k : Kind} {vs : List Value} {ts : List Term}

theorem literalSort?_of_elements (hkinds : ∀ v ∈ vs, v.kind = k)
    (h : List.Forall₂ (IsLiteral R) vs ts) : ∀ t ∈ ts, t.literalSort? = some k.sort := by
  induction h with
  | nil => exact List.forall_mem_nil _
  | cons ht _ ih =>
    obtain ⟨rfl, hkinds⟩ := List.forall_mem_cons.mp hkinds
    exact List.forall_mem_cons.mpr ⟨ht.sort, ih hkinds⟩

/-- The data of values of one kind, and that their literals denote them. -/
theorem exists_elementData (hkinds : ∀ v ∈ vs, v.kind = k)
    (h : List.Forall₂ (IsLiteral R) vs ts) (hall : ∀ u ∈ subvaluesAll vs, u.HasCodePoints) :
    ∃ (as : List (Datum S.Carrier)) (xs : List (k.domain.Model S.Carrier)),
      data? R vs = some as ∧ as.mapM (Datum.as? k.domain) = some xs ∧
      List.Forall₂ (fun t x => t.Denotes S (fun _ => True) ⟨k.domain, x⟩) ts xs := by
  induction h with
  | nil => exact ⟨[], [], rfl, rfl, .nil⟩
  | cons ht _ ih =>
    -- The kind of the first element is the one of all, so their data are of one type.
    obtain ⟨rfl, hkinds⟩ := List.forall_mem_cons.mp hkinds
    obtain ⟨hv, hvs⟩ := List.forall_mem_append.mp hall
    obtain ⟨x, hx, hdenotes⟩ := ht.denotes hv
    obtain ⟨as, xs, has, hxs, hall⟩ := ih hkinds hvs
    refine ⟨⟨_, x⟩ :: as, x :: xs, ?_, ?_, .cons hdenotes hall⟩
    · rw [data?, hx, has]
      rfl
    · rw [List.mapM_cons, Datum.as?_self, hxs]
      rfl

theorem isLiteral_list (hkinds : ∀ v ∈ vs, v.kind = k) (h : List.Forall₂ (IsLiteral R) vs ts) :
    IsLiteral R (list k vs) (sequenceTerm (Kind.list k).sort ts) := by
  refine ⟨Term.literalSort?_sequence (literalSort?_of_elements hkinds h), fun hall => ?_⟩
  obtain ⟨as, xs, has, hxs, hdenotes⟩ :=
    exists_elementData hkinds h (List.forall_mem_cons.mp hall).2
  refine ⟨xs, ?_, .sequence hdenotes⟩
  rw [datum?, has, Option.bind_eq_bind, Option.bind_some, hxs]
  rfl

theorem isLiteral_set (complemented : Bool) (hkinds : ∀ v ∈ vs, v.kind = k)
    (h : List.Forall₂ (IsLiteral R) vs ts) :
    IsLiteral R (set k vs complemented)
      (membershipTerm (Kind.set k).sort complemented ts) := by
  refine ⟨Term.literalSort?_membership complemented (literalSort?_of_elements hkinds h),
    fun hall => ?_⟩
  obtain ⟨as, xs, has, hxs, hdenotes⟩ :=
    exists_elementData hkinds h (List.forall_mem_cons.mp hall).2
  refine ⟨Term.Denotes.memberships complemented xs, ?_, .membership complemented hdenotes⟩
  rw [datum?, has, Option.bind_eq_bind, Option.bind_some, hxs]
  rfl

end

/-! ### Tuples, optionals and sums -/

section

variable {vs : List Value} {ts : List Term}

theorem literalSort?_of_components (h : List.Forall₂ (IsLiteral R) vs ts) :
    List.Forall₂ (fun t k => t.literalSort? = some (Kind.sort k)) ts (kinds vs) := by
  induction h with
  | nil => exact .nil
  | cons ht _ ih => exact .cons ht.sort ih

/-- The data of the components of a tuple, and that their literals denote them. -/
theorem exists_componentData (h : List.Forall₂ (IsLiteral R) vs ts)
    (hall : ∀ u ∈ subvaluesAll vs, u.HasCodePoints) :
    ∃ (as : List (Datum S.Carrier)) (xs : Domain.Models S.Carrier (Kind.domains (kinds vs))),
      data? R vs = some as ∧ Datum.asTuple? (Kind.domains (kinds vs)) as = some xs ∧
      List.Forall₂ (Term.Denotes S fun _ => True) ts (Datum.components _ xs) := by
  induction h with
  | nil => exact ⟨[], (), rfl, rfl, .nil⟩
  | cons ht _ ih =>
    obtain ⟨hv, hvs⟩ := List.forall_mem_append.mp hall
    obtain ⟨x, hx, hdenotes⟩ := ht.denotes hv
    obtain ⟨as, xs, has, hxs, hall⟩ := ih hvs
    refine ⟨⟨_, x⟩ :: as, (x, xs), ?_, ?_, .cons hdenotes hall⟩
    · rw [data?, hx, has]
      rfl
    · refine (congrArg (Option.bind · _) (Datum.as?_self x)).trans ?_
      exact congrArg (Option.map _) hxs

theorem isLiteral_tuple (hlength : vs.length ≠ 1) (h : List.Forall₂ (IsLiteral R) vs ts) :
    IsLiteral R (tuple vs) (tupleTerm (Kind.tuple (kinds vs)).sort ts) := by
  have hsorts := literalSort?_of_components h
  have hkinds : (kinds vs).length ≠ 1 := by
    rw [← hsorts.length_eq, ← h.length_eq]
    exact hlength
  refine ⟨Term.literalSort?_tuple hkinds hsorts, fun hall => ?_⟩
  obtain ⟨as, xs, has, hxs, hdenotes⟩ := exists_componentData h (List.forall_mem_cons.mp hall).2
  refine ⟨xs, ?_, .tuple hdenotes⟩
  rw [datum?, has, Option.bind_eq_bind, Option.bind_some, hxs]
  rfl

end

section

variable {v : Value} {t : Term}

theorem isLiteral_just (h : IsLiteral R v t) : IsLiteral R (just v)
    (.app (.ascribed "just_SBVMaybe" (Kind.maybe v.kind).sort) [t]) := by
  refine ⟨Term.literalSort?_just h.sort, fun hall => ?_⟩
  obtain ⟨x, hx, hdenotes⟩ := h.denotes (List.forall_mem_cons.mp hall).2
  exact ⟨some x, congrArg (Option.map _) hx, .just hdenotes⟩

theorem isLiteral_left (k : Kind) (h : IsLiteral R v t) : IsLiteral R (left v k)
    (.app (.ascribed "left_SBVEither" (Kind.either v.kind k).sort) [t]) := by
  refine ⟨Term.literalSort?_left k h.sort, fun hall => ?_⟩
  obtain ⟨x, hx, hdenotes⟩ := h.denotes (List.forall_mem_cons.mp hall).2
  exact ⟨Sum.inl x, congrArg (Option.map _) hx, .left k hdenotes⟩

theorem isLiteral_right (k : Kind) (h : IsLiteral R v t) : IsLiteral R (right k v)
    (.app (.ascribed "right_SBVEither" (Kind.either k v.kind).sort) [t]) := by
  refine ⟨Term.literalSort?_right k h.sort, fun hall => ?_⟩
  obtain ⟨x, hx, hdenotes⟩ := h.denotes (List.forall_mem_cons.mp hall).2
  exact ⟨Sum.inr x, congrArg (Option.map _) hx, .right k hdenotes⟩

end

/-! ### All values -/

mutual

/-- The literal of a value is one of it. -/
theorem isLiteral_of_term {v : Value} {t : Term} (hv : ∀ u ∈ v.subvalues, u.IsOrdinary)
    (ht : v.term mode = .ok t) : IsLiteral R v t := by
  -- By recursion on the value; what is inside of it is ordinary as well.
  have hself := hv v v.self_mem_subvalues
  cases v with
  | bool b =>
    obtain rfl := Except.ok.inj ht
    exact isLiteral_of_element (x := b) ht rfl (Term.literalSort?_ofBool b) rfl rfl
  | bounded signed width bits => exact isLiteral_bounded signed width bits ht
  | unbounded n =>
    obtain rfl := Except.ok.inj ht
    exact isLiteral_of_element (x := n) ht (bindsNothing_int n) (Term.literalSort?_int n) rfl rfl
  | real q =>
    obtain rfl := Except.ok.inj ht
    exact ⟨Term.literalSort?_realTerm q,
      fun _ => ⟨R.ofReal q, rfl, OpenSorts.Reals.denotes_realTerm q⟩⟩
  | float | double | floating | userSort => exact absurd hself id
  | rational m n hn =>
    obtain rfl := Except.ok.inj ht
    exact ⟨Term.literalSort?_rational m n,
      fun _ => ⟨(m, n), rfl, .pair (denotes_int m) (denotes_int n)⟩⟩
  | char c =>
    obtain rfl := Except.ok.inj ht
    exact isLiteral_char c
  | string text => exact isLiteral_string ht
  | list k vs =>
    obtain ⟨ts, hts, ht⟩ := bind_eq_ok_iff.mp ht
    obtain rfl := Except.ok.inj ht
    exact isLiteral_list hself (forall₂_isLiteral_of_terms (List.forall_mem_cons.mp hv).2 hts)
  | set k vs complemented =>
    obtain ⟨ts, hts, ht⟩ := bind_eq_ok_iff.mp ht
    obtain rfl := Except.ok.inj ht
    exact isLiteral_set complemented hself
      (forall₂_isLiteral_of_termsLastFirst (List.forall_mem_cons.mp hv).2 hts)
  | tuple vs =>
    obtain ⟨ts, hts, ht⟩ := bind_eq_ok_iff.mp ht
    obtain rfl := Except.ok.inj ht
    exact isLiteral_tuple hself (forall₂_isLiteral_of_terms (List.forall_mem_cons.mp hv).2 hts)
  | nothing k =>
    obtain rfl := Except.ok.inj ht
    exact ⟨Term.literalSort?_nothing k, fun _ => ⟨none, rfl, .nothing k⟩⟩
  | just v =>
    obtain ⟨t, hinner, ht⟩ := bind_eq_ok_iff.mp ht
    obtain rfl := Except.ok.inj ht
    exact isLiteral_just (isLiteral_of_term (List.forall_mem_cons.mp hv).2 hinner)
  | left v k =>
    obtain ⟨t, hinner, ht⟩ := bind_eq_ok_iff.mp ht
    obtain rfl := Except.ok.inj ht
    exact isLiteral_left k (isLiteral_of_term (List.forall_mem_cons.mp hv).2 hinner)
  | right k v =>
    obtain ⟨t, hinner, ht⟩ := bind_eq_ok_iff.mp ht
    obtain rfl := Except.ok.inj ht
    exact isLiteral_right k (isLiteral_of_term (List.forall_mem_cons.mp hv).2 hinner)

theorem forall₂_isLiteral_of_terms {vs : List Value} {ts : List Term}
    (hvs : ∀ u ∈ subvaluesAll vs, u.IsOrdinary) (hts : terms mode vs = .ok ts) :
    List.Forall₂ (IsLiteral R) vs ts := by
  cases vs with
  | nil =>
    obtain rfl := Except.ok.inj hts
    exact .nil
  | cons v vs =>
    obtain ⟨hv, hvs⟩ := List.forall_mem_append.mp hvs
    obtain ⟨t, ht, hrest⟩ := bind_eq_ok_iff.mp hts
    obtain ⟨us, hus, hcons⟩ := bind_eq_ok_iff.mp hrest
    obtain rfl := Except.ok.inj hcons
    exact .cons (isLiteral_of_term hv ht) (forall₂_isLiteral_of_terms hvs hus)

theorem forall₂_isLiteral_of_termsLastFirst {vs : List Value} {ts : List Term}
    (hvs : ∀ u ∈ subvaluesAll vs, u.IsOrdinary) (hts : termsLastFirst mode vs = .ok ts) :
    List.Forall₂ (IsLiteral R) vs ts := by
  cases vs with
  | nil =>
    obtain rfl := Except.ok.inj hts
    exact .nil
  | cons v vs =>
    obtain ⟨hv, hvs⟩ := List.forall_mem_append.mp hvs
    obtain ⟨us, hus, hrest⟩ := bind_eq_ok_iff.mp hts
    obtain ⟨t, ht, hcons⟩ := bind_eq_ok_iff.mp hrest
    obtain rfl := Except.ok.inj hcons
    exact .cons (isLiteral_of_term hv ht) (forall₂_isLiteral_of_termsLastFirst hvs hus)

end

/-- An ordinary value has a literal if all texts inside it are valid, and otherwise fails over one
that is not. The literal has the sort of the value's kind, and if the target language has all
characters of the texts, it denotes the value's datum in every interpretation. -/
theorem term_exact (R : S.Reals) (mode : RoundingMode) {v : Value}
    (hv : ∀ u ∈ v.subvalues, u.IsOrdinary) :
    ((∀ u ∈ v.subvalues, u.HasText) → ∃ t, v.term mode = .ok t) ∧
      (∀ u ∈ v.subvalues, ¬u.HasText → ∃ text, string text ∈ v.subvalues ∧
        ¬(string text).HasText ∧ v.term mode = .error (.malformedText text)) ∧
      ∀ t, v.term mode = .ok t →
        t.literalSort? = some v.kind.sort ∧
        ((∀ u ∈ v.subvalues, u.HasCodePoints) → ∃ x : v.kind.domain.Model S.Carrier,
          v.datum? R = some ⟨v.kind.domain, x⟩ ∧
          ∀ J, t.eval S.theory J = some (Datum.element ⟨v.kind.domain, x⟩)) := by
  refine ⟨exists_term_iff.mpr, fun u hu htext => ?_, fun t ht => ?_⟩
  · have hdepends := dependsOnTexts_term mode v
    cases hterm : v.term mode with
    | ok t => exact absurd (hdepends.ok t hterm u hu) htext
    | error f =>
      obtain ⟨text, hmem, hmalformed, rfl⟩ := hdepends.error f hterm
      exact ⟨text, hmem, hmalformed, rfl⟩
  · obtain ⟨hsort, hdenotes⟩ := isLiteral_of_term (R := R) hv ht
    refine ⟨hsort, fun hall => ?_⟩
    obtain ⟨x, hx, hdenotes⟩ := hdenotes hall
    exact ⟨x, hx, fun J => hdenotes J trivial⟩

/-- All texts but one, and an optional negative number. -/
def textsAndNumber : Value :=
  tuple [set .string [string "a", string ""] true, just (real (-1 / 2))]

theorem term_exact_textsAndNumber : ∃ t, textsAndNumber.term .nearestTiesToEven = .ok t ∧
    t.literalSort? = some textsAndNumber.kind.sort ∧
    ∃ a, textsAndNumber.datum? OpenSorts.withReals.reals = some a ∧
      t.eval OpenSorts.withReals.theory (fun _ _ => none) = some a.element := by
  have hall : ∀ {P : Value → Prop}, P textsAndNumber →
      P (set .string [string "a", string ""] true) → P (string "a") → P (string "") →
      P (just (real (-1 / 2))) → P (real (-1 / 2)) → ∀ u ∈ textsAndNumber.subvalues, P u := by
    intro P h₀ h₁ h₂ h₃ h₄ h₅
    simpa [textsAndNumber, subvalues, subvaluesAll] using ⟨h₀, h₁, h₂, h₃, h₄, h₅⟩
  have hordinary : ∀ u ∈ textsAndNumber.subvalues, u.IsOrdinary :=
    hall (by simp [textsAndNumber, IsOrdinary]) (by simp [IsOrdinary, kind]) trivial trivial trivial
      trivial
  have htexts : ∀ u ∈ textsAndNumber.subvalues, u.HasText :=
    hall trivial trivial rfl rfl trivial trivial
  have hletters : ∀ u ∈ textsAndNumber.subvalues, u.HasCodePoints := by
    refine hall trivial trivial ?_ ?_ trivial trivial
    · rintro cs ⟨⟩
      exact List.forall_mem_singleton.mpr (by decide)
    · rintro cs ⟨⟩
      exact List.forall_mem_nil _
  obtain ⟨hexists, -, hliteral⟩ :=
    term_exact OpenSorts.withReals.reals .nearestTiesToEven hordinary
  obtain ⟨t, ht⟩ := hexists htexts
  obtain ⟨hsort, hdenotes⟩ := hliteral t ht
  obtain ⟨x, hx, heval⟩ := hdenotes hletters
  exact ⟨t, ht, hsort, _, hx, heval _⟩

/-- A byte that is not the start of a character is not written. -/
theorem not_exists_term_malformed :
    (∀ u ∈ (list .string [string "\u00FF"]).subvalues, u.IsOrdinary) ∧
      ¬∃ t, (list .string [string "\u00FF"]).term .nearestTiesToEven = .ok t := by
  refine ⟨by simp [subvalues, subvaluesAll, IsOrdinary, kind], fun h => ?_⟩
  have htext := exists_term_iff.mp h (string "\u00FF") (by simp [subvalues, subvaluesAll])
  exact absurd (Option.isSome_iff_ne_none.mp htext) (not_not.mpr rfl)

end Value

end SolverScript
