import SolverScript.Proofs.Semantics.Ingredients

/-!
# What literals are made of

The literal of a value is written with the constructors and the kinds of the value, and the term of
a regular expression with built-in functions only. Neither mentions a node or tests for a
constructor.

## Main results

* `Value.madeOf_term`, `RegExp.madeOf_term` - what the literals of values and the terms of regular
  expressions are made of
* `Value.over_term` - the literal of a value is written with the names of the value
* `RegExp.over_term` - the term of a regular expression is written with built-in names
* `Value.within_term` - the literal of a value mentions no nodes and tests nothing
-/

namespace SolverScript

variable {V : Name → Prop} {T : String → Option (List SortExpr × SortExpr) → Prop}

theorem madeOf_quotedText {text : String} {t : Term} (h : quotedText text = .ok t) :
    t.MadeOf V T := by
  unfold quotedText at h
  split at h <;> cases h
  simp

@[simp] theorem madeOf_bitsTerm (width value : Nat) : (bitsTerm width value).MadeOf V T := by
  unfold bitsTerm
  split <;> simp

theorem madeOf_signedTerm (hV : Vocabulary V) (width : Nat) (value : Int) :
    (signedTerm width value).MadeOf V T := by
  unfold signedTerm
  split
  · simp
  · split <;> simp [hV.builtin]

@[simp] theorem FloatFormat.madeOf_special {format : FloatFormat} {name : String} :
    (format.special name).MadeOf V T ↔ V (.function name) := by
  simp [special]

theorem FloatDatum.madeOf_term (hV : Vocabulary V) (format : FloatFormat) (mode : RoundingMode)
    (datum : FloatDatum) : (datum.term format mode).MadeOf V T := by
  cases datum with
  | infinite negative | zero negative => cases negative <;> simp [FloatDatum.term, hV.builtin]
  | _ => simp [FloatDatum.term, hV.builtin, hV.madeOf_fraction]

namespace Value

/-! ### Values -/

/-- The names in the parts of a composite value and in their kinds. -/
theorem forall_mem_namesAll {vs : List Value} :
    (∀ x ∈ namesAll vs, V x) ↔ ∀ v ∈ vs, v.kind.Over V ∧ v.Over V := by
  induction vs with
  | nil => simp
  | cons v vs ih =>
    rw [namesAll, List.forall_mem_append, List.forall_mem_append, ih, List.forall_mem_cons]
    rfl

@[simp] theorem over_userSort {sort : UserSort} {constructor : String} :
    (userSort sort constructor).Over V ↔ V (.function constructor) := by
  simp [Over]

@[simp] theorem over_list {element : Kind} {vs : List Value} :
    (list element vs).Over V ↔ element.Over V ∧ ∀ v ∈ vs, v.kind.Over V ∧ v.Over V := by
  rw [Over, names, List.forall_mem_append, forall_mem_namesAll]
  rfl

@[simp] theorem over_set {element : Kind} {members : List Value} {complemented : Bool} :
    (set element members complemented).Over V ↔
      element.Over V ∧ ∀ v ∈ members, v.kind.Over V ∧ v.Over V := by
  rw [Over, names, List.forall_mem_append, forall_mem_namesAll]
  rfl

@[simp] theorem over_tuple {components : List Value} :
    (tuple components).Over V ↔ ∀ v ∈ components, v.kind.Over V ∧ v.Over V := by
  rw [Over, names, forall_mem_namesAll]

@[simp] theorem over_nothing {element : Kind} : (nothing element).Over V ↔ element.Over V :=
  Iff.rfl

@[simp] theorem over_just {v : Value} : (just v).Over V ↔ v.kind.Over V ∧ v.Over V := by
  rw [Over, names, List.forall_mem_append]
  rfl

@[simp] theorem over_left {v : Value} {k : Kind} :
    (left v k).Over V ↔ v.kind.Over V ∧ k.Over V ∧ v.Over V := by
  rw [Over, names, List.forall_mem_append, List.forall_mem_append, and_assoc]
  rfl

@[simp] theorem over_right {v : Value} {k : Kind} :
    (right k v).Over V ↔ k.Over V ∧ v.kind.Over V ∧ v.Over V := by
  rw [Over, names, List.forall_mem_append, List.forall_mem_append, and_assoc]
  rfl

theorem mem_kinds {k : Kind} {vs : List Value} : k ∈ kinds vs ↔ ∃ v ∈ vs, v.kind = k := by
  induction vs with
  | nil => simp [kinds]
  | cons v vs ih => simp [kinds, ih, eq_comm]

/-! ### Their literals -/

theorem madeOf_realTerm (hV : Vocabulary V) (value : Rat) : (realTerm value).MadeOf V T := by
  unfold realTerm
  split
  · simp
  · exact hV.madeOf_fraction value

theorem madeOf_constructorTerm (hV : Vocabulary V) {sort : UserSort} {constructor : String}
    (h : V (.function constructor)) : (constructorTerm sort constructor).MadeOf V T := by
  unfold constructorTerm
  split <;> simp [hV.builtin, h]

theorem madeOf_sequenceTerm (hV : Vocabulary V) {sort : SortExpr} {ts : List Term}
    (hsort : sort.Over V) (hts : ∀ t ∈ ts, t.MadeOf V T) : (sequenceTerm sort ts).MadeOf V T := by
  have hunit : V (.function "seq.unit") := hV.builtin _ (.ofSequence .unit)
  have happend : V (.function "seq.++") := hV.builtin _ (.ofSequence .concat)
  unfold sequenceTerm
  split
  · simp [hV.builtin, hsort]
  · simpa [hunit] using hts
  · simpa [hunit, happend] using hts

theorem madeOf_membershipTerm (hV : Vocabulary V) {sort : SortExpr} {complemented : Bool}
    {members : List Term} (hsort : sort.Over V) (hmembers : ∀ t ∈ members, t.MadeOf V T) :
    (membershipTerm sort complemented members).MadeOf V T := by
  unfold membershipTerm
  -- Each exception is written over the function that has the exceptions after it.
  induction members with
  | nil => simp [hV.builtin, hV.madeOf_ofBool, hsort]
  | cons member members ih =>
    obtain ⟨hmember, hrest⟩ := List.forall_mem_cons.mp hmembers
    simp [hV.builtin, hV.madeOf_ofBool, hmember, ih hrest]

theorem madeOf_tupleTerm (hV : Vocabulary V) {sort : SortExpr} {ts : List Term}
    (hsort : sort.Over V) (hts : ∀ t ∈ ts, t.MadeOf V T) : (tupleTerm sort ts).MadeOf V T := by
  unfold tupleTerm
  split
  · simp [hV.builtin]
  · simpa [hV.builtin, hsort] using hts

mutual

/-- The literal of a value is made of the names of the value. -/
theorem madeOf_term (hV : Vocabulary V) {mode : RoundingMode} {v : Value} {t : Term}
    (hv : v.Over V) (h : v.term mode = .ok t) : t.MadeOf V T := by
  -- Constructors are ascribed their sort, whose names are those of the kind of the value.
  cases v with
  | list element elements =>
    obtain ⟨ts, hts, h⟩ := bind_eq_ok_iff.mp h
    cases h
    obtain ⟨helement, helements⟩ := over_list.mp hv
    exact madeOf_sequenceTerm hV (Kind.over_sort hV (by simpa using helement))
      (madeOf_terms hV (fun v hv => (helements v hv).2) hts)
  | set element members complemented =>
    obtain ⟨ts, hts, h⟩ := bind_eq_ok_iff.mp h
    cases h
    obtain ⟨helement, hmembers⟩ := over_set.mp hv
    exact madeOf_membershipTerm hV (Kind.over_sort hV (by simpa using helement))
      (madeOf_termsLastFirst hV (fun v hv => (hmembers v hv).2) hts)
  | tuple components =>
    obtain ⟨ts, hts, h⟩ := bind_eq_ok_iff.mp h
    cases h
    have hcomponents := over_tuple.mp hv
    refine madeOf_tupleTerm hV (Kind.over_sort hV (Kind.over_tuple.mpr fun k hk => ?_))
      (madeOf_terms hV (fun v hv => (hcomponents v hv).2) hts)
    obtain ⟨v, hv, rfl⟩ := mem_kinds.mp hk
    exact (hcomponents v hv).1
  | just value =>
    obtain ⟨t', ht', h⟩ := bind_eq_ok_iff.mp h
    cases h
    obtain ⟨hkind, hvalue⟩ := over_just.mp hv
    have hsort := Kind.over_sort hV (Kind.over_maybe.mpr hkind)
    simpa [hV.builtin, hsort] using madeOf_term hV hvalue ht'
  | left value rightKind =>
    obtain ⟨t', ht', h⟩ := bind_eq_ok_iff.mp h
    cases h
    obtain ⟨hkind, hother, hvalue⟩ := over_left.mp hv
    have hsort := Kind.over_sort hV (Kind.over_either.mpr ⟨hkind, hother⟩)
    simpa [hV.builtin, hsort] using madeOf_term hV hvalue ht'
  | right leftKind value =>
    obtain ⟨t', ht', h⟩ := bind_eq_ok_iff.mp h
    cases h
    obtain ⟨hother, hkind, hvalue⟩ := over_right.mp hv
    have hsort := Kind.over_sort hV (Kind.over_either.mpr ⟨hother, hkind⟩)
    simpa [hV.builtin, hsort] using madeOf_term hV hvalue ht'
  | nothing element =>
    cases h
    have hsort := Kind.over_sort hV (Kind.over_maybe.mpr (over_nothing.mp hv))
    simpa [hV.builtin] using hsort
  | userSort sort constructor =>
    cases h
    exact madeOf_constructorTerm hV (over_userSort.mp hv)
  | string text => exact madeOf_quotedText h
  | bounded signed =>
    cases signed <;> cases h
    · simp
    · exact madeOf_signedTerm hV _ _
  | bool value =>
    cases h
    exact hV.madeOf_ofBool value
  | unbounded value =>
    cases h
    exact hV.madeOf_int value
  | real value =>
    cases h
    exact madeOf_realTerm hV value
  | float datum | double datum =>
    cases h
    exact FloatDatum.madeOf_term hV _ _ _
  | rational numerator denominator =>
    cases h
    simp [RationalFunction.constructor, hV.builtin, hV.madeOf_int]
  | floating | char =>
    cases h
    simp [hV.builtin]

theorem madeOf_terms (hV : Vocabulary V) {mode : RoundingMode} {vs : List Value} {ts : List Term}
    (hvs : ∀ v ∈ vs, v.Over V) (h : terms mode vs = .ok ts) : ∀ t ∈ ts, t.MadeOf V T := by
  cases vs with
  | nil =>
    cases h
    simp
  | cons v vs =>
    obtain ⟨t, ht, h⟩ := bind_eq_ok_iff.mp h
    obtain ⟨ts, hts, h⟩ := bind_eq_ok_iff.mp h
    cases h
    obtain ⟨hv, hvs⟩ := List.forall_mem_cons.mp hvs
    exact List.forall_mem_cons.mpr ⟨madeOf_term hV hv ht, madeOf_terms hV hvs hts⟩

theorem madeOf_termsLastFirst (hV : Vocabulary V) {mode : RoundingMode} {vs : List Value}
    {ts : List Term} (hvs : ∀ v ∈ vs, v.Over V) (h : termsLastFirst mode vs = .ok ts) :
    ∀ t ∈ ts, t.MadeOf V T := by
  cases vs with
  | nil =>
    cases h
    simp
  | cons v vs =>
    obtain ⟨ts, hts, h⟩ := bind_eq_ok_iff.mp h
    obtain ⟨t, ht, h⟩ := bind_eq_ok_iff.mp h
    cases h
    obtain ⟨hv, hvs⟩ := List.forall_mem_cons.mp hvs
    exact List.forall_mem_cons.mpr ⟨madeOf_term hV hv ht, madeOf_termsLastFirst hV hvs hts⟩

end

/-- The literal of a value is written with the names of the value. -/
theorem over_term (hV : Vocabulary V) {mode : RoundingMode} {v : Value} {t : Term}
    (hv : v.Over V) (h : v.term mode = .ok t) : t.Over V :=
  Term.over_iff_madeOf.mpr (madeOf_term hV hv h)

mutual

/-- The names in a value restrict no nodes. -/
theorem over_names {A : Occurrences} : ∀ v : Value, v.Over A.names
  | list element vs => over_list.mpr ⟨element.over_names, kinds_over_names vs⟩
  | set element vs _ => over_set.mpr ⟨element.over_names, kinds_over_names vs⟩
  | tuple vs => over_tuple.mpr (kinds_over_names vs)
  | nothing element => over_nothing.mpr element.over_names
  | just v => over_just.mpr ⟨v.kind.over_names, over_names v⟩
  | left v k => over_left.mpr ⟨v.kind.over_names, k.over_names, over_names v⟩
  | right k v => over_right.mpr ⟨k.over_names, v.kind.over_names, over_names v⟩
  | userSort .. => over_userSort.mpr trivial
  | bool _ | bounded .. | unbounded _ | real _ | float _ | double _ | floating .. | rational ..
  | char _ | string _ => by simp [Over]

theorem kinds_over_names {A : Occurrences} :
    ∀ vs : List Value, ∀ v ∈ vs, v.kind.Over A.names ∧ v.Over A.names
  | [] => by simp
  | v :: vs => List.forall_mem_cons.mpr ⟨⟨v.kind.over_names, over_names v⟩, kinds_over_names vs⟩

end

/-- The literal of a value mentions no nodes and tests nothing. -/
theorem within_term {A : Occurrences} {mode : RoundingMode} {v : Value} {t : Term}
    (h : v.term mode = .ok t) : t.Within A :=
  Term.within_iff_madeOf.mpr (madeOf_term A.vocabulary_names v.over_names h)

/-- The value of an integer at a numeric kind has no names. -/
theorem names_of_constant {kind : Kind} {n : Int} {v : Value} (h : constant kind n = .ok v) :
    v.names = [] := by
  unfold constant at h
  split at h
  · cases h
    rfl
  · cases h
    rfl
  · cases h
    rfl
  · rw [ofReal, if_neg Int.one_ne_zero] at h
    cases h
    rfl
  · rw [ofRational, dif_neg Int.one_ne_zero] at h
    cases h
    rfl
  · cases h
    rfl
  · cases h
    rfl
  · cases h

theorem over_of_constant {kind : Kind} {n : Int} {v : Value} (h : constant kind n = .ok v) :
    v.Over V := by
  simp [Over, names_of_constant h]

end Value

/-! ### Regular expressions -/

namespace RegExp

theorem madeOf_concatTerm (hV : Vocabulary V) {ts : List Term} (hts : ∀ t ∈ ts, t.MadeOf V T) :
    (concatTerm ts).MadeOf V T := by
  unfold concatTerm
  split
  · simp [hV.builtin]
  · simpa using hts
  · simpa [hV.builtin] using hts

theorem madeOf_unionTerm (hV : Vocabulary V) {ts : List Term} (hts : ∀ t ∈ ts, t.MadeOf V T) :
    (unionTerm ts).MadeOf V T := by
  unfold unionTerm
  split
  · simp [hV.builtin]
  · simpa using hts
  · simpa [hV.builtin] using hts

theorem madeOf_boundTerm {codePoint : Nat} {t : Term} (h : boundTerm codePoint = .ok t) :
    t.MadeOf V T := by
  obtain ⟨v, hv, h⟩ := bind_eq_ok_iff.mp h
  unfold Value.ofCodePoint at hv
  by_cases hvalid : codePoint.isValidChar
  · rw [dif_pos hvalid] at hv
    cases hv
    cases h
    exact Term.madeOf_quoted _
  · rw [dif_neg hvalid] at hv
    cases hv

mutual

/-- The term of a regular expression is made of built-in names. -/
theorem madeOf_term (hV : Vocabulary V) {r : RegExp} {t : Term} (h : r.term = .ok t) :
    t.MadeOf V T := by
  cases r with
  | literal text =>
    obtain ⟨t', ht', h⟩ := bind_eq_ok_iff.mp h
    cases h
    simpa [hV.builtin] using madeOf_quotedText ht'
  | range low high =>
    obtain ⟨l, hl, h⟩ := bind_eq_ok_iff.mp h
    obtain ⟨u, hu, h⟩ := bind_eq_ok_iff.mp h
    cases h
    simp [hV.builtin, madeOf_boundTerm hl, madeOf_boundTerm hu]
  | concat parts =>
    obtain ⟨ts, hts, h⟩ := bind_eq_ok_iff.mp h
    cases h
    exact madeOf_concatTerm hV (madeOf_terms hV hts)
  | union parts =>
    obtain ⟨ts, hts, h⟩ := bind_eq_ok_iff.mp h
    cases h
    exact madeOf_unionTerm hV (madeOf_terms hV hts)
  | diff left right | inter left right =>
    obtain ⟨l, hl, h⟩ := bind_eq_ok_iff.mp h
    obtain ⟨r, hr, h⟩ := bind_eq_ok_iff.mp h
    cases h
    simp [hV.builtin, madeOf_term hV hl, madeOf_term hV hr]
  | star inner | plus inner | opt inner | complement inner | loop _ _ inner | power _ inner =>
    obtain ⟨t', ht', h⟩ := bind_eq_ok_iff.mp h
    cases h
    simpa [hV.builtin] using madeOf_term hV ht'
  | all | allChar | none =>
    cases h
    simp [hV.builtin]

theorem madeOf_terms (hV : Vocabulary V) {rs : List RegExp} {ts : List Term}
    (h : terms rs = .ok ts) : ∀ t ∈ ts, t.MadeOf V T := by
  cases rs with
  | nil =>
    cases h
    simp
  | cons r rs =>
    obtain ⟨t, ht, h⟩ := bind_eq_ok_iff.mp h
    obtain ⟨ts, hts, h⟩ := bind_eq_ok_iff.mp h
    cases h
    exact List.forall_mem_cons.mpr ⟨madeOf_term hV ht, madeOf_terms hV hts⟩

end

/-- The term of a regular expression is written with built-in names. -/
theorem over_term (hV : Vocabulary V) {r : RegExp} {t : Term} (h : r.term = .ok t) : t.Over V :=
  Term.over_iff_madeOf.mpr (madeOf_term hV h)

end RegExp

end SolverScript
