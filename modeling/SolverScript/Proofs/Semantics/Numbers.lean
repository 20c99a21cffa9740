import Mathlib.Logic.Equiv.Basic
import SolverScript.Proofs.Semantics.Floats
import SolverScript.Proofs.Value.LiteralMeaning

/-!
# Sums, counting constraints and floats in a theory

What a theory can add to the standard one for the operations on numbers: sums of one integer or
more, the constraints on how much of some truth values is true, and the floats with their rounding
modes. There is a theory that has all of it, together with the reals.

## Main definitions

* `OpenSorts.Counting` - sums and counting constraints
* `OpenSorts.Floats` - reals, rounding modes and floats as the values of their sorts
* `OpenSorts.numbers` - a theory of all of them

## Main results

* `OpenSorts.Counting.denotes_sum`, `OpenSorts.Floats.denotes_convert` - what the functions denote
-/

namespace SolverScript

/-! ### Sums and counting constraints -/

/-- How much the true ones among some truth values weigh together. -/
def totalWeight (weights : List Int) (bs : List Bool) : Int :=
  (weights.zipWith (fun w b => if b then w else 0) bs).sum

/-- Sums of one integer or more, and constraints on how much of some truth values is true. The
indices of a constraint are its bound and, for most of them, weights; indices have no signs. -/
structure OpenSorts.Counting (S : OpenSorts) : Prop where
  sum : ∀ ns : List Int, ns ≠ [] → S.function (.symbol "+") (ns.map .int) = some (.int ns.sum)
  atMost : ∀ (k : Int) (bs : List Bool), bs ≠ [] → 0 ≤ k →
    S.function (.indexed "at-most" [k]) (bs.map .bool) = some (.bool (decide (bs.count true ≤ k)))
  atLeast : ∀ (k : Int) (bs : List Bool), bs ≠ [] → 0 ≤ k →
    S.function (.indexed "at-least" [k]) (bs.map .bool) = some (.bool (decide (k ≤ bs.count true)))
  le : ∀ (k : Int) (ws : List Int) (bs : List Bool), bs ≠ [] → ws.length = bs.length →
    (∀ i ∈ k :: ws, 0 ≤ i) → S.function (.indexed "pble" (k :: ws)) (bs.map .bool) =
      some (.bool (decide (totalWeight ws bs ≤ k)))
  ge : ∀ (k : Int) (ws : List Int) (bs : List Bool), bs ≠ [] → ws.length = bs.length →
    (∀ i ∈ k :: ws, 0 ≤ i) → S.function (.indexed "pbge" (k :: ws)) (bs.map .bool) =
      some (.bool (decide (k ≤ totalWeight ws bs)))
  eq : ∀ (k : Int) (ws : List Int) (bs : List Bool), bs ≠ [] → ws.length = bs.length →
    (∀ i ∈ k :: ws, 0 ≤ i) → S.function (.indexed "pbeq" (k :: ws)) (bs.map .bool) =
      some (.bool (decide (totalWeight ws bs = k)))

namespace OpenSorts.Counting

variable {S : OpenSorts} {P : Interpretation (Datum S.Carrier) → Prop}

/-- A sum of integers; the standard theory has those of two. -/
theorem denotes_sum (h : S.Counting) {ts : List Term} {ns : List Int} (hne : ns ≠ [])
    (hts : List.Forall₂ (Term.Denotes S P) ts (ns.map fun n => ⟨.int, n⟩)) :
    (Term.app (.symbol "+") ts).Denotes S P ⟨.int, ns.sum⟩ := by
  have helements : (ns.map fun n => (⟨.int, n⟩ : Datum S.Carrier)).map Datum.element =
      ns.map .int := List.map_map
  refine .app (fun _ => by simp) hts ?_
  rw [helements]
  -- A theory cannot change what two integers add up to, and the others are left to it.
  by_cases htwo : ∃ m n, ns = [m, n]
  · obtain ⟨m, n, rfl⟩ := htwo
    have hsum : [m, n].sum = m + n := by simp
    rw [hsum]
    exact function_of_standard rfl
  · refine (function_of_open (not_isDataHead_symbol ?_) ?_).trans (h.sum ns hne)
    · exact not_isDataName (by rw [keys_symbols]; decide) (by decide) (by decide)
    · match ns, htwo with
      | [], _ | [_], _ | _ :: _ :: _ :: _, _ => rfl
      | [m, n], htwo => exact absurd ⟨m, n, rfl⟩ htwo

end OpenSorts.Counting

/-! ### Floats and rounding modes -/

/-- The reals, the rounding modes and the floats of all formats as the values of their sorts, with
the constants, conversions and equality of floats. -/
structure OpenSorts.Floats (S : OpenSorts) extends OpenSorts.Reals S where
  ofMode : RoundingMode ≃ S.Carrier (.named "RoundingMode")
  ofDatum : (format : FloatFormat) → format.Datum ≃ S.Carrier format.sort
  mode : ∀ m, S.function (.symbol m.symbol) [] =
    some (.other ⟨.basic (.named "RoundingMode"), ofMode m⟩)
  nan : ∀ format, S.function (format.special "NaN") [] =
    some (.other ⟨.basic format.sort, ofDatum format ⟨.nan, .nan⟩⟩)
  infinite : ∀ format negative, S.function (format.special (if negative then "-oo" else "+oo")) [] =
    some (.other ⟨.basic format.sort, ofDatum format ⟨.infinite negative, .infinite negative⟩⟩)
  zero : ∀ format negative, S.function (format.special (if negative then "-zero" else "+zero")) [] =
    some (.other ⟨.basic format.sort, ofDatum format ⟨.zero negative, .zero negative⟩⟩)
  convert : ∀ format m x, S.function (format.special "to_fp")
      [.other ⟨.basic (.named "RoundingMode"), ofMode m⟩,
        .other ⟨.basic Kind.real.sort, ofReal x⟩] =
    some (.other ⟨.basic format.sort, ofDatum format (format.round m x)⟩)
  equal : ∀ format a b, S.function (.symbol "fp.eq")
      [.other ⟨.basic format.sort, ofDatum format a⟩,
        .other ⟨.basic format.sort, ofDatum format b⟩] =
    some (.bool (a.1.equal b.1))

namespace OpenSorts.Floats

variable {S : OpenSorts} (F : S.Floats) {P : Interpretation (Datum S.Carrier) → Prop}

/-- The datum of a float. -/
def datum (format : FloatFormat) (d : format.Datum) : Datum S.Carrier :=
  ⟨.basic format.sort, F.ofDatum format d⟩

variable {F} {format : FloatFormat}

theorem denotes_special {name : String} {d : format.Datum}
    (hstandard : (Theory.standard S.theory.carrier).function (format.special name) [] = none)
    (h : S.function (format.special name) [] = some (F.datum format d).element) :
    (format.special name).Denotes S P (F.datum format d) := by
  intro J _
  have hhead : ¬S.IsDataHead (format.special name) := nofun
  exact (function_of_open hhead hstandard).trans h

theorem denotes_nan : (format.special "NaN").Denotes S P (F.datum format ⟨.nan, .nan⟩) :=
  denotes_special rfl (F.nan format)

theorem denotes_infinite (negative : Bool) :
    (format.special (if negative then "-oo" else "+oo")).Denotes S P
      (F.datum format ⟨.infinite negative, .infinite negative⟩) :=
  denotes_special (by cases negative <;> rfl) (F.infinite format negative)

theorem denotes_zero (negative : Bool) :
    (format.special (if negative then "-zero" else "+zero")).Denotes S P
      (F.datum format ⟨.zero negative, .zero negative⟩) :=
  denotes_special (by cases negative <;> rfl) (F.zero format negative)

theorem denotes_mode (m : RoundingMode) : (Term.symbol m.symbol).Denotes S P
    ⟨.basic (.named "RoundingMode"), F.ofMode m⟩ := by
  intro J _
  have hname : ¬S.IsDataName m.symbol := by
    refine not_isDataName ?_ ?_ ?_
    · rw [keys_symbols]
      cases m <;> decide
    all_goals cases m <;> decide
  have hstandard : m.symbol ∉ (Theory.symbols (α := Datum S.Carrier)).map Prod.fst := by
    cases m <;> simp [RoundingMode.symbol, RoundingMode.direction, Theory.symbols, Theory.core,
      Theory.integers, Theory.bitVectors]
  have hfunction := (function_of_open (not_isDataHead_symbol hname)
    (Theory.standard_symbol_of_not_mem _ hstandard [])).trans (F.mode m)
  exact congrArg (Option.or · _) hfunction

/-- A real number is converted in the direction that a mode says. -/
theorem denotes_convert {t : Term} {x : ℝ} (m : RoundingMode)
    (h : t.Denotes S P (F.toReals.datum x)) :
    (Term.app (format.special "to_fp") [.symbol m.symbol, t]).Denotes S P
      (F.datum format (format.round m x)) := by
  have hhead : ¬S.IsDataHead (format.special "to_fp") := nofun
  refine .app (fun _ => by simp [FloatFormat.special])
    (.cons (denotes_mode (F := F) m) (.cons h .nil)) ?_
  exact (function_of_open hhead rfl).trans (F.convert format m x)

theorem denotes_equal {t u : Term} {a b : format.Datum} (ht : t.Denotes S P (F.datum format a))
    (hu : u.Denotes S P (F.datum format b)) :
    (Term.app (.symbol "fp.eq") [t, u]).Denotes S P (.ofBool (a.1.equal b.1)) := by
  refine .app (fun _ => by simp) (.cons ht (.cons hu .nil)) ?_
  refine (function_of_open (not_isDataHead_symbol ?_) ?_).trans (F.equal format a b)
  · exact not_isDataName (by rw [keys_symbols]; decide) (by decide) (by decide)
  · exact Theory.standard_symbol_of_not_mem _
      (by simp [Theory.symbols, Theory.core, Theory.integers, Theory.bitVectors]) _

end OpenSorts.Floats

/-! ### A theory of numbers -/

theorem FloatFormat.sort_injective : Function.Injective FloatFormat.sort := by
  rintro ⟨e, s, _, _⟩ ⟨e', s', _, _⟩ h
  simpa [FloatFormat.sort] using h

/-- The format with given places. -/
def FloatFormat.ofIndices? : List Int → Option FloatFormat
  | [.ofNat e, .ofNat s] => if h : 2 ≤ e ∧ 2 ≤ s then some ⟨e, s, h.1, h.2⟩ else none
  | _ => none

theorem FloatFormat.ofIndices?_eq (format : FloatFormat) :
    ofIndices? [format.exponent, format.significand] = some format :=
  dif_pos ⟨format.two_le_exponent, format.two_le_significand⟩

/-- The special data of a format by their names. -/
def FloatFormat.specialDatum? (format : FloatFormat) : String → Option format.Datum
  | "NaN" => some ⟨.nan, .nan⟩
  | "+oo" => some ⟨.infinite false, .infinite false⟩
  | "-oo" => some ⟨.infinite true, .infinite true⟩
  | "+zero" => some ⟨.zero false, .zero false⟩
  | "-zero" => some ⟨.zero true, .zero true⟩
  | _ => none

/-- Reals, rounding modes, the floats of all formats, and something else. -/
inductive Number where
  | real (x : ℝ)
  | mode (m : RoundingMode)
  | float (format : FloatFormat) (d : format.Datum)
  | other

namespace Number

/-- The sorts of the numbers. All other sorts have a single value. -/
inductive IsOf : Number → SortExpr → Prop
  | real (x : ℝ) : IsOf (real x) Kind.real.sort
  | mode (m : RoundingMode) : IsOf (mode m) (.named "RoundingMode")
  | float {format : FloatFormat} (d : format.Datum) : IsOf (float format d) format.sort
  | other {s : SortExpr} (hreal : s ≠ Kind.real.sort) (hmode : s ≠ .named "RoundingMode")
    (hfloat : ∀ format : FloatFormat, s ≠ format.sort) : IsOf other s

theorem IsOf.exists_real {a : Number} (h : a.IsOf Kind.real.sort) : ∃ x, a = Number.real x := by
  generalize hs : Kind.real.sort = s at h
  cases h with
  | real x => exact ⟨x, rfl⟩
  | mode => simp [Kind.sort] at hs
  | float => cases hs
  | other hreal => exact absurd hs.symm hreal

theorem IsOf.exists_mode {a : Number} (h : a.IsOf (.named "RoundingMode")) :
    ∃ m, a = Number.mode m := by
  generalize hs : SortExpr.named "RoundingMode" = s at h
  cases h with
  | real => simp [Kind.sort] at hs
  | mode m => exact ⟨m, rfl⟩
  | float => cases hs
  | other _ hmode => exact absurd hs.symm hmode

theorem IsOf.exists_float {a : Number} {format : FloatFormat} (h : a.IsOf format.sort) :
    ∃ d, a = Number.float format d := by
  generalize hs : format.sort = s at h
  cases h with
  | real => cases hs
  | mode => cases hs
  | float d =>
    obtain rfl := FloatFormat.sort_injective hs
    exact ⟨d, rfl⟩
  | other _ _ hfloat => exact absurd hs.symm (hfloat format)

/-- The numbers of a sort. -/
abbrev Carrier (s : SortExpr) : Type := { a : Number // a.IsOf s }

theorem exists_isOf (s : SortExpr) : ∃ a : Number, a.IsOf s := by
  by_cases hreal : s = Kind.real.sort
  · exact ⟨real 0, by rw [hreal]; exact .real 0⟩
  by_cases hmode : s = .named "RoundingMode"
  · exact ⟨mode .nearestTiesToEven, by rw [hmode]; exact .mode _⟩
  by_cases hfloat : ∃ format : FloatFormat, s = format.sort
  · obtain ⟨format, rfl⟩ := hfloat
    exact ⟨_, .float ⟨.nan, .nan⟩⟩
  · exact ⟨other, .other hreal hmode (not_exists.mp hfloat)⟩

/-- A number as a datum. -/
def datum {a : Number} {s : SortExpr} (h : a.IsOf s) : Datum Carrier := ⟨.basic s, ⟨a, h⟩⟩

/-- The number that an element is. -/
def ofElement? : Element (Datum Carrier) → Option Number
  | .other ⟨.basic _, a⟩ => some (Subtype.val a)
  | _ => none

/-- The functions on numbers. -/
noncomputable def function : Term → List Number → Option (Element (Datum Carrier))
  | .decimal n, [] => some (.other (datum (.real n)))
  | .symbol "-", [real x] => some (.other (datum (.real (-x))))
  | .symbol "/", [real x, real y] => some (.other (datum (.real (x / y))))
  | .symbol "fp.eq", [float format a, float format' b] =>
    if format = format' then some (.bool (a.1.equal b.1)) else none
  | .symbol name, [] => do
    let m ← RoundingMode.all.find? fun m => m.symbol == name
    return .other (datum (.mode m))
  | .indexed "to_fp" indices, [mode m, real x] => do
    let format ← FloatFormat.ofIndices? indices
    return .other (datum (.float (format.round m x)))
  | .indexed name indices, [] => do
    let format ← FloatFormat.ofIndices? indices
    let d ← format.specialDatum? name
    return .other (datum (.float d))
  | _, _ => none

theorem function_special {format : FloatFormat} {name : String} {d : format.Datum}
    (h : format.specialDatum? name = some d) :
    function (format.special name) [] = some (.other (datum (.float d))) := by
  simp [function, FloatFormat.special, format.ofIndices?_eq, h]

theorem function_convert (format : FloatFormat) (m : RoundingMode) (x : ℝ) :
    function (format.special "to_fp") [mode m, real x] =
      some (.other (datum (.float (format.round m x)))) := by
  simp [function, FloatFormat.special, format.ofIndices?_eq]

/-- The integer that an element is. -/
def int? : Element (Datum Carrier) → Option Int
  | .int n => some n
  | _ => none

/-- The truth value that an element is. -/
def bool? : Element (Datum Carrier) → Option Bool
  | .bool b => some b
  | _ => none

/-- Whether a counting constraint holds. -/
def constraint? (name : String) (k : Int) (ws : List Int) (bs : List Bool) : Option Bool :=
  match name with
  | "at-most" => some (decide (bs.count true ≤ k))
  | "at-least" => some (decide (k ≤ bs.count true))
  | "pble" => some (decide (totalWeight ws bs ≤ k))
  | "pbge" => some (decide (k ≤ totalWeight ws bs))
  | "pbeq" => some (decide (totalWeight ws bs = k))
  | _ => none

/-- Sums and counting constraints. -/
def counting : Term → Element.Function (Datum Carrier)
  | .symbol name, es => do
    let ns ← es.mapM int?
    if name = "+" ∧ ns ≠ [] then return .int ns.sum else none
  | .indexed name (k :: ws), es => do
    return .bool (← constraint? name k ws (← es.mapM bool?))
  | _, _ => none

/-- What was put in can be read back one by one. -/
theorem mapM_map_eq_some {α β : Type} {f : α → β} {g : β → Option α}
    (h : ∀ a, g (f a) = some a) (as : List α) : (as.map f).mapM g = some as := by
  induction as with
  | nil => rfl
  | cons a as ih => simp [h, ih]

theorem counting_sum {ns : List Int} (hne : ns ≠ []) :
    counting (.symbol "+") (ns.map .int) = some (.int ns.sum) := by
  have hns : (ns.map Element.int).mapM int? = some ns :=
    mapM_map_eq_some (f := Element.int) (fun _ => rfl) ns
  rw [counting, hns]
  exact if_pos ⟨rfl, hne⟩

theorem counting_constraint {name : String} {k : Int} {ws : List Int} {bs : List Bool} {b : Bool}
    (h : constraint? name k ws bs = some b) :
    counting (.indexed name (k :: ws)) (bs.map .bool) = some (.bool b) := by
  have hbs : (bs.map Element.bool).mapM bool? = some bs :=
    mapM_map_eq_some (f := Element.bool) (fun _ => rfl) bs
  rw [counting, hbs]
  exact congrArg (Option.bind · _) h

end Number

/-- The theory of numbers. -/
noncomputable def OpenSorts.numbers : OpenSorts where
  Carrier := Number.Carrier
  unspecified _ _ := Domain.default fun s => ⟨_, (Number.exists_isOf s).choose_spec⟩
  function head es :=
    (Number.counting head es).or ((es.mapM Number.ofElement?).bind (Number.function head))
  leaves_bound name h := by
    -- The symbols of rounding modes start with another letter.
    have hmode : RoundingMode.all.find? (fun m => m.symbol == name) = none := by
      rw [List.find?_eq_none]
      intro m _ hm
      have hhead := h.head?_eq
      rw [← beq_iff_eq.mp hm] at hhead
      cases m <;> exact absurd hhead (by decide)
    simp [Number.counting, Number.function, hmode]

namespace OpenSorts.numbers

theorem function_of_counting {head : Term} {es : List (Element (Datum Number.Carrier))}
    {e : Element (Datum Number.Carrier)} (h : Number.counting head es = some e) :
    numbers.function head es = some e :=
  congrArg (Option.or · _) h

theorem function_of_number {head : Term} {es : List (Element (Datum Number.Carrier))}
    (ns : List Number) {e : Element (Datum Number.Carrier)}
    (hcounting : Number.counting head es = none) (hns : es.mapM Number.ofElement? = some ns)
    (h : Number.function head ns = some e) : numbers.function head es = some e := by
  change (Number.counting head es).or ((es.mapM Number.ofElement?).bind (Number.function head)) = _
  rw [hcounting, hns, Option.none_or, Option.bind_some, h]

theorem counting : numbers.Counting where
  sum _ hne := function_of_counting (Number.counting_sum hne)
  atMost _ _ _ _ := function_of_counting (Number.counting_constraint rfl)
  atLeast _ _ _ _ := function_of_counting (Number.counting_constraint rfl)
  le _ _ _ _ _ _ := function_of_counting (Number.counting_constraint rfl)
  ge _ _ _ _ _ _ := function_of_counting (Number.counting_constraint rfl)
  eq _ _ _ _ _ _ := function_of_counting (Number.counting_constraint rfl)

/-- The values of the sorts of numbers are the numbers. -/
noncomputable def floats : numbers.Floats where
  ofReal := .ofBijective (fun x => ⟨.real x, .real x⟩) <| by
    refine ⟨fun x y h => Number.real.inj (congrArg Subtype.val h), ?_⟩
    rintro ⟨a, h⟩
    obtain ⟨x, rfl⟩ := h.exists_real
    exact ⟨x, rfl⟩
  ofMode := .ofBijective (fun m => ⟨.mode m, .mode m⟩) <| by
    refine ⟨fun m n h => Number.mode.inj (congrArg Subtype.val h), ?_⟩
    rintro ⟨a, h⟩
    obtain ⟨m, rfl⟩ := h.exists_mode
    exact ⟨m, rfl⟩
  ofDatum format := .ofBijective (fun d => ⟨.float format d, .float d⟩) <| by
    refine ⟨fun d e h => eq_of_heq (Number.float.inj (congrArg Subtype.val h)).2, ?_⟩
    rintro ⟨a, h⟩
    obtain ⟨d, rfl⟩ := h.exists_float
    exact ⟨d, rfl⟩
  decimal _ := rfl
  neg _ := rfl
  div _ _ _ := rfl
  mode m := by cases m <;> rfl
  nan _ := function_of_number [] rfl rfl (Number.function_special rfl)
  infinite _ negative := by
    cases negative <;> exact function_of_number [] rfl rfl (Number.function_special rfl)
  zero _ negative := by
    cases negative <;> exact function_of_number [] rfl rfl (Number.function_special rfl)
  convert format m x :=
    function_of_number [.mode m, .real x] rfl rfl (Number.function_convert format m x)
  equal format a b :=
    function_of_number [.float format a, .float format b] rfl rfl (if_pos rfl)

end OpenSorts.numbers

end SolverScript
