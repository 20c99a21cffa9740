import Mathlib.Computability.Language
import Mathlib.Order.ConditionallyCompleteLattice.Basic
import SolverScript.Proofs.Semantics.DataLiterals

/-!
# Languages in a theory

What a theory can add to the standard one for regular expressions: languages of texts as the values
of a sort, with the functions that make them of texts and of other languages. There is a theory that
has them.

## Main definitions

* `Regular.ofTexts?`, `Regular.ofLanguages?` - what the functions give
* `OpenSorts.Languages` - languages as the values of their sort
* `OpenSorts.languages` - a theory of them

## Main results

* `OpenSorts.Languages.denotes_texts`, `OpenSorts.Languages.denotes_languages` - applications of the
  functions
-/

namespace SolverScript

open scoped Computability

namespace Regular

/-- The texts of one character between two others. There are none if a bound is not a single
character. -/
def between : List CodePoint → List CodePoint → Language CodePoint
  | [low], [high] => {w | ∃ p, low ≤ p ∧ p ≤ high ∧ w = [p]}
  | _, _ => 0

/-- The texts of a language that are repeated between two numbers of times. -/
def repeated (low high : Nat) (L : Language CodePoint) : Language CodePoint :=
  {w | ∃ n, low ≤ n ∧ n ≤ high ∧ w ∈ L ^ n}

/-- The languages that the functions make of texts. -/
def ofTexts? : String → List (List CodePoint) → Option (Language CodePoint)
  | "str.to_re", [w] => some {w}
  | "re.range", [low, high] => some (between low high)
  | _, _ => none

/-- The languages that the functions with a name make of others. -/
def ofNamed? : String → List (Language CodePoint) → Option (Language CodePoint)
  | "re.all", [] => some ⊤
  | "re.allchar", [] => some {w | w.length = 1}
  | "re.nostr", [] => some 0
  | "re.++", L :: M :: Ls => some (L :: M :: Ls).prod
  | "re.*", [L] => some L∗
  | "re.+", [L] => some (L * L∗)
  | "re.opt", [L] => some (1 + L)
  | "re.comp", [L] => some Lᶜ
  | "re.diff", [L, M] => some (L - M)
  | "re.union", L :: M :: Ls => some (L :: M :: Ls).sum
  | "re.inter", [L, M] => some (L ⊓ M)
  | _, _ => none

/-- The languages that the functions with indices make of others. -/
def ofIndexed? : String → List Nat → List (Language CodePoint) → Option (Language CodePoint)
  | "re.loop", [low, high], [L] => some (repeated low high L)
  | "re.^", [count], [L] => some (L ^ count)
  | _, _, _ => none

/-- The languages that the functions make of others. -/
def ofLanguages? : Term → List (Language CodePoint) → Option (Language CodePoint)
  | .symbol name, Ls => ofNamed? name Ls
  | .indexed name indices, Ls => do ofIndexed? name (← indices.mapM Int.toNat?) Ls
  | _, _ => none

/-- The names of the functions without indices. -/
def names : List String :=
  ["str.to_re", "re.range", "re.all", "re.allchar", "re.nostr", "re.++", "re.*", "re.+", "re.opt",
    "re.comp", "re.diff", "re.union", "re.inter"]

theorem mem_names_of_texts {name : String} {ws : List (List CodePoint)} {L : Language CodePoint}
    (h : ofTexts? name ws = some L) : name ∈ names := by
  unfold ofTexts? at h
  split at h
  · simp [names]
  · simp [names]
  · cases h

theorem mem_names_of_named {name : String} {Ls : List (Language CodePoint)} {L : Language CodePoint}
    (h : ofNamed? name Ls = some L) : name ∈ names := by
  unfold ofNamed? at h
  split at h
  case h_12 => cases h
  all_goals simp [names]

end Regular

/-- A text as an element. -/
def Element.ofText {C : SortExpr → Type} (w : List CodePoint) : Element (Datum C) :=
  .other ⟨.text, w⟩

/-- Languages of texts as the values of the sort of regular expressions, with the functions that
make them. -/
structure OpenSorts.Languages (S : OpenSorts) where
  ofLanguage : Language CodePoint ≃ S.Carrier (.named "RegLan")
  texts : ∀ name ws L, Regular.ofTexts? name ws = some L →
    S.function (.symbol name) (ws.map Element.ofText) =
      some (.other ⟨.basic (.named "RegLan"), ofLanguage L⟩)
  languages : ∀ head Ls L, Regular.ofLanguages? head Ls = some L →
    S.function head (Ls.map fun L => .other ⟨.basic (.named "RegLan"), ofLanguage L⟩) =
      some (.other ⟨.basic (.named "RegLan"), ofLanguage L⟩)

namespace OpenSorts.Languages

variable {S : OpenSorts} (R : S.Languages) {P : Interpretation (Datum S.Carrier) → Prop}

/-- The datum of a language. -/
def datum (L : Language CodePoint) : Datum S.Carrier := ⟨.basic (.named "RegLan"), R.ofLanguage L⟩

/-- The functions are left open by the standard theory and the one of data. -/
theorem function_named {name : String} (h : name ∈ Regular.names)
    (es : List (Element (Datum S.Carrier))) :
    S.theory.function (.symbol name) es = S.function (.symbol name) es := by
  have hdata : ¬S.IsDataName name := by
    refine not_isDataName ?_ ?_ ?_
    · rw [keys_symbols]
      revert h name
      decide
    · revert h name
      decide
    · revert h name
      decide
  have hstandard : name ∉ (Theory.symbols (α := Datum S.Carrier)).map Prod.fst := by
    simp only [Regular.names, List.mem_cons, List.not_mem_nil, or_false] at h
    rcases h with rfl | rfl | rfl | rfl | rfl | rfl | rfl | rfl | rfl | rfl | rfl | rfl | rfl <;>
      simp [Theory.symbols, Theory.core, Theory.integers, Theory.bitVectors]
  exact function_of_open (not_isDataHead_symbol hdata)
    (Theory.standard_symbol_of_not_mem _ hstandard es)

theorem function_indexed {name : String} {indices : List Int} {Ls : List (Language CodePoint)}
    {L : Language CodePoint} (h : Regular.ofLanguages? (.indexed name indices) Ls = some L)
    (es : List (Element (Datum S.Carrier))) :
    S.theory.function (.indexed name indices) es = S.function (.indexed name indices) es := by
  obtain ⟨ns, -, h⟩ := Option.bind_eq_some_iff.mp h
  unfold Regular.ofIndexed? at h
  split at h
  · exact function_of_open nofun rfl
  · exact function_of_open nofun rfl
  · cases h

variable {R}

/-- An application of a function to texts. -/
theorem denotes_texts {name : String} {ts : List Term} {ws : List (List CodePoint)}
    {L : Language CodePoint} (hts : List.Forall₂ (fun t w => t.Denotes S P ⟨.text, w⟩) ts ws)
    (h : Regular.ofTexts? name ws = some L) :
    (Term.app (.symbol name) ts).Denotes S P (R.datum L) := by
  have hdata : List.Forall₂ (Term.Denotes S P) ts
      (ws.map fun w : List CodePoint => (⟨.text, w⟩ : Datum S.Carrier)) :=
    List.forall₂_map_right_iff.mpr hts
  refine .app (fun _ => by simp) hdata ?_
  rw [List.map_map, function_named (Regular.mem_names_of_texts h)]
  exact R.texts name ws L h

/-- An application of a function to languages. -/
theorem denotes_languages {head : Term} {ts : List Term} {Ls : List (Language CodePoint)}
    {L : Language CodePoint} (hts : List.Forall₂ (fun t L => t.Denotes S P (R.datum L)) ts Ls)
    (h : Regular.ofLanguages? head Ls = some L) :
    (Term.app head ts).Denotes S P (R.datum L) := by
  have helements : (Ls.map R.datum).map Datum.element =
      Ls.map fun L => .other ⟨.basic (.named "RegLan"), R.ofLanguage L⟩ := List.map_map
  refine .app (fun id => ?_) (List.forall₂_map_right_iff.mpr hts) ?_
  · rintro rfl
    cases h
  · rw [helements]
    refine Eq.trans ?_ (R.languages head Ls L h)
    cases head with
    | symbol name => exact function_named (Regular.mem_names_of_named h) _
    | indexed name indices => exact function_indexed h _
    | _ => cases h

/-- A language that has a name. -/
theorem denotes_name {name : String} {L : Language CodePoint}
    (h : Regular.ofNamed? name [] = some L) : (Term.symbol name).Denotes S P (R.datum L) := by
  intro J _
  have hfunction := (function_named (Regular.mem_names_of_named h) []).trans
    (R.languages (.symbol name) [] L h)
  exact congrArg (Option.or · _) hfunction

end OpenSorts.Languages

/-! ### A theory of languages -/

namespace Regular

/-- The values of all basic sorts are languages. -/
abbrev Carrier (_ : SortExpr) : Type := Language CodePoint

/-- The text that an element is. -/
def text? : Element (Datum Carrier) → Option (List CodePoint)
  | .other ⟨.text, w⟩ => some w
  | _ => none

/-- The language that an element is. -/
def language? : Element (Datum Carrier) → Option (Language CodePoint)
  | .other ⟨.basic _, L⟩ => some L
  | _ => none

/-- A language as an element. -/
def element (L : Language CodePoint) : Element (Datum Carrier) :=
  .other ⟨.basic (.named "RegLan"), L⟩

theorem mapM_text? (ws : List (List CodePoint)) :
    (ws.map Element.ofText).mapM text? = some ws := by
  induction ws with
  | nil => rfl
  | cons w ws ih => simp [ih, text?, Element.ofText]

theorem mapM_language? (Ls : List (Language CodePoint)) :
    (Ls.map element).mapM language? = some Ls := by
  induction Ls with
  | nil => rfl
  | cons L Ls ih => simp [ih, element, language?]

theorem ofTexts?_nil (name : String) : ofTexts? name [] = none := by
  unfold ofTexts?
  split <;> simp_all

/-- Languages are no texts. -/
theorem texts_of_languages (name : String) (Ls : List (Language CodePoint)) :
    ((Ls.map element).mapM text?).bind (ofTexts? name) = none := by
  cases Ls with
  | nil => exact ofTexts?_nil name
  | cons L Ls => rfl

end Regular

/-- The theory of languages. -/
def OpenSorts.languages : OpenSorts where
  Carrier := Regular.Carrier
  unspecified _ _ := Domain.default fun _ => (0 : Language CodePoint)
  function head es :=
    match head with
    | .symbol name =>
      (((es.mapM Regular.text?).bind (Regular.ofTexts? name)).or
        ((es.mapM Regular.language?).bind (Regular.ofNamed? name))).map Regular.element
    | .indexed name indices =>
      ((es.mapM Regular.language?).bind (Regular.ofLanguages? (.indexed name indices))).map
        Regular.element
    | _ => none
  leaves_bound name h := by
    have hname : name ∉ Regular.names := by
      intro hmem
      obtain ⟨c, hlast, hdigit⟩ := h.exists_getLast?
      -- Bound names end in a digit, the names of these functions do not.
      have hkeys : ∀ key ∈ Regular.names, ∀ c, key.toList.getLast? = some c →
          c.isDigit = false := by
        simp [Regular.names]
      rw [hkeys name hmem c hlast] at hdigit
      cases hdigit
    have hlanguages : Regular.ofNamed? name [] = none := by
      rw [← Option.not_isSome_iff_eq_none, Option.isSome_iff_exists]
      exact fun ⟨_, h⟩ => hname (Regular.mem_names_of_named h)
    simp [Regular.ofTexts?_nil, hlanguages]

/-- The languages are themselves. -/
def OpenSorts.languages.regular : OpenSorts.languages.Languages where
  ofLanguage := Equiv.refl _
  texts name ws L h := by
    change ((((ws.map Element.ofText).mapM Regular.text?).bind (Regular.ofTexts? name)).or _).map
      Regular.element = _
    rw [Regular.mapM_text?, Option.bind_some, h]
    rfl
  languages head Ls L h := by
    cases head with
    | symbol name =>
      change ((((Ls.map Regular.element).mapM Regular.text?).bind (Regular.ofTexts? name)).or
        (((Ls.map Regular.element).mapM Regular.language?).bind (Regular.ofNamed? name))).map
          Regular.element = _
      rw [Regular.texts_of_languages, Option.none_or, Regular.mapM_language?, Option.bind_some]
      exact congrArg (Option.map Regular.element) h
    | indexed name indices =>
      change (((Ls.map Regular.element).mapM Regular.language?).bind
        (Regular.ofLanguages? (.indexed name indices))).map Regular.element = _
      rw [Regular.mapM_language?, Option.bind_some]
      exact congrArg (Option.map Regular.element) h
    | _ => cases h

end SolverScript
