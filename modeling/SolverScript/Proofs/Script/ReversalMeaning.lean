import SolverScript.Proofs.Script.RationalDefinitions
import SolverScript.Proofs.Semantics.Sequences
import SolverScript.Proofs.Semantics.Symbols
import SolverScript.Script.Reversal

/-!
# What reversal functions compute

The definition of a reversal function is an equation for the function that its name stands for. The
body calls the function on the rest of a sequence, which is shorter, so the equation determines the
function on all sequences: it is the one that reverses them. This is so for strings and for lists of
any kind, and for every name that stands for nothing else inside of the definition.

## Main definitions

* `FunctionDefinition.IsSolution` - the functions that satisfy a definition
* `Term.calls` - the operands that a term applies a function to
* `Reversible.Item`, `Reversible.sequence` - what is reversed, as data
* `Reversible.Admits` - the names that a reversal function can have

## Main results

* `Reversible.eval_body` - what the body computes from what the call in it gives
* `Reversible.isSolution_iff` - the functions that satisfy a definition reverse all sequences
* `Reversible.definition_reverses` - there is one such function, and its calls descend
-/

namespace SolverScript

/-- Whether a function on the sorts of a definition satisfies it as its name. -/
def FunctionDefinition.IsSolution {α : Type} (T : Theory α) (I : Interpretation α)
    (d : FunctionDefinition) (f : Element.Function α) : Prop :=
  T.IsFunction (d.parameters.map Prod.snd) d.result f ∧ d.HoldsIn T (I.bind d.name f)

namespace Term

mutual

/-- The operands of the applications of a named function inside of a term. -/
def calls (name : String) : Term → List (List Term)
  | app head operands =>
    let inner := callsAll name operands
    if head.name? = some name then operands :: inner else inner
  | bind _ values body => callsAll name values ++ calls name body
  | forAll _ body => calls name body
  | attributed body _ => calls name body
  | adjacent ts => callsAll name ts
  | _ => []

/-- The operands of the applications of a named function inside of some terms. -/
def callsAll (name : String) : List Term → List (List Term)
  | [] => []
  | t :: ts => calls name t ++ callsAll name ts

end

end Term

namespace Reversible

/-! ### Sequences as data -/

/-- What a sequence consists of: the characters of a string, or the values of a list. -/
def Item (C : SortExpr → Type) : Reversible → Type
  | string => CodePoint
  | list k => k.domain.Model C

/-- A string or a list as a datum. -/
def sequence {C : SortExpr → Type} : (what : Reversible) → List (what.Item C) → Datum C
  | string, cs => ⟨.text, cs⟩
  | list k, xs => ⟨.list k.domain, xs⟩

section

variable {C : SortExpr → Type} {what : Reversible}

theorem sequence_injective : Function.Injective (what.sequence (C := C)) := by
  cases what with
  | string => exact Datum.mk_injective .text
  | list k => exact Datum.mk_injective (.list k.domain)

theorem element_sequence_inj {xs ys : List (what.Item C)} :
    (what.sequence xs).element = (what.sequence ys).element ↔ xs = ys := by
  rw [Datum.element_injective.eq_iff, sequence_injective.eq_iff]

theorem sameSort_sequence (xs ys : List (what.Item C)) :
    (what.sequence xs).element.sameSort (what.sequence ys).element = true := by
  cases what <;> rfl

theorem contains_iff {T : Theory (Datum C)} (hT : T.HasDomains) {e : Element (Datum C)} :
    T.Contains what.kind.sort e ↔ ∃ xs, e = (what.sequence xs).element := by
  cases what with
  | string => exact hT.contains_iff
  | list k => exact hT.contains_iff

end

/-! ### The body of a definition -/

/-- The name of the parameter. -/
def parameter : Reversible → String
  | string => "str"
  | list _ => "lst"

/-- The term for the empty sequence. -/
def emptyTerm : Reversible → Term
  | string => .quoted []
  | list k => .ascribed "seq.empty" (Kind.list k).sort

/-- The term for everything behind the first item. -/
def restTerm : Reversible → Term
  | string => restOf "str.substr" "str.len" "str"
  | list _ => restOf "seq.extract" "seq.len" "lst"

/-- The term for the sequence of just the first item. -/
def firstTerm : Reversible → Term
  | string => .app (.symbol "str.substr") [.symbol "str", .numeral 0, .numeral 1]
  | list _ => .app (.symbol "seq.unit") [.app (.symbol "seq.nth") [.symbol "lst", .numeral 0]]

/-- The function that puts sequences after each other. -/
def joining : Reversible → String
  | string => "str.++"
  | list _ => "seq.++"

section

variable (what : Reversible) (name : String)

theorem name_definition : (what.definition name).name = name := by
  cases what <;> rfl

theorem parameters_definition :
    (what.definition name).parameters = [(what.parameter, what.kind.sort)] := by
  cases what <;> rfl

theorem result_definition : (what.definition name).result = what.kind.sort := by
  cases what <;> rfl

theorem term_body : (what.definition name).body.term =
    .app (.symbol "ite")
      [.app (.symbol "=") [.symbol what.parameter, what.emptyTerm], what.emptyTerm,
        .app (.symbol what.joining) [.app (.symbol name) [what.restTerm], what.firstTerm]] := by
  cases what <;> rfl

end

/-! ### What the parts of the body denote -/

section

variable {S : OpenSorts} {P : Interpretation (Datum S.withSlices.Carrier) → Prop}
  {what : Reversible} {xs : List (what.Item S.withSlices.Carrier)}

theorem denotes_emptyTerm (what : Reversible) :
    Term.Denotes S.withSlices P what.emptyTerm (what.sequence []) := by
  cases what with
  | string => exact .quoted rfl
  | list k => exact .ascribed rfl

/-- The number of items behind the first one is one less than their number; this is negative for the
empty sequence, which does not have any rest. -/
theorem denotes_restTerm
    (hx : Term.Denotes S.withSlices P (.symbol what.parameter) (what.sequence xs)) :
    Term.Denotes S.withSlices P what.restTerm (what.sequence xs.tail) := by
  rw [← slice_behind_first]
  cases what with
  | string => exact .substring hx (.numeral 1) (.difference (.length hx) (.numeral 1))
  | list k => exact .extract hx (.numeral 1) (.difference (.sequenceLength hx) (.numeral 1))

/-- What stands for the first item. The empty list has some item there, the empty string has
none. -/
def firstItems (S : OpenSorts) : (what : Reversible) → List (what.Item S.withSlices.Carrier) →
    List (what.Item S.withSlices.Carrier)
  | string, cs => cs.take 1
  | list k, xs => [S.withSlices.nth (d := k.domain) xs 0]

theorem firstItems_cons (x : what.Item S.withSlices.Carrier)
    (xs : List (what.Item S.withSlices.Carrier)) : what.firstItems S (x :: xs) = [x] := by
  cases what with
  | string => rfl
  | list k =>
    exact congrArg (fun x => [x]) (S.withSlices.nth_ofNat (d := k.domain) (Nat.succ_pos _))

theorem denotes_firstTerm
    (hx : Term.Denotes S.withSlices P (.symbol what.parameter) (what.sequence xs)) :
    Term.Denotes S.withSlices P what.firstTerm (what.sequence (what.firstItems S xs)) := by
  cases what with
  | string =>
    rw [firstItems, ← slice_first]
    exact .substring hx (.numeral 0) (.numeral 1)
  | list k => exact .unit (.nth hx (.numeral 0))

theorem denotes_joining {t u : Term} {ys : List (what.Item S.withSlices.Carrier)}
    (ht : Term.Denotes S.withSlices P t (what.sequence xs))
    (hu : Term.Denotes S.withSlices P u (what.sequence ys)) :
    Term.Denotes S.withSlices P (.app (.symbol what.joining) [t, u])
      (what.sequence (xs ++ ys)) := by
  cases what with
  | string => exact .join ht hu
  | list k => exact .append ht hu

/-- What the body makes of a sequence, and of what the call in it gives. -/
def step {β : Type} : List β → List β → List β
  | [], _ => []
  | x :: _, ys => ys ++ [x]

theorem step_tail_reverse {β : Type} (xs : List β) : step xs xs.tail.reverse = xs.reverse := by
  cases xs with
  | nil => rfl
  | cons x xs => exact List.reverse_cons.symm

/-- The body denotes a sequence whatever the call does, as long as it gives a sequence. -/
theorem denotes_body {name : String} {ys : List (what.Item S.withSlices.Carrier)}
    (hx : Term.Denotes S.withSlices P (.symbol what.parameter) (what.sequence xs))
    (hcall : Term.Denotes S.withSlices P (.app (.symbol name) [what.restTerm])
      (what.sequence ys)) :
    Term.Denotes S.withSlices P (what.definition name).body.term
      (what.sequence (step xs ys)) := by
  have hempty := denotes_emptyTerm (S := S) (P := P) what
  have htest := hx.equation hempty (sameSort_sequence _ _)
  have hchoice := htest.choice hempty (denotes_joining hcall (denotes_firstTerm hx))
    (sameSort_sequence _ _)
  rw [term_body]
  cases xs with
  | nil => simpa [step] using hchoice
  | cons x xs => simpa [step, sequence_injective.eq_iff, firstItems_cons] using hchoice

end

/-! ### The equation for a function -/

/-- Whether a name can be the one of a reversal function: inside of the definition it stands neither
for the parameter nor for a function of the theory. -/
structure Admits (what : Reversible) (S : OpenSorts) (name : String) : Prop where
  ne_parameter : name ≠ what.parameter
  not_knows : ¬S.Knows name

theorem parameter_eq (what : Reversible) : what.parameter = "str" ∨ what.parameter = "lst" := by
  cases what with
  | string => exact .inl rfl
  | list k => exact .inr rfl

theorem not_knows_parameter (S : OpenSorts) (what : Reversible) : ¬S.Knows what.parameter := by
  rcases what.parameter_eq with hparameter | hparameter
  all_goals
    rw [hparameter]
    rintro (h | h | h)
    · exact absurd (Theory.head?_of_mem_symbols h) (by decide)
    · exact OpenSorts.not_isDataName (by rw [OpenSorts.keys_symbols]; decide) (by decide)
        (by decide) h
    · exact absurd (Datum.mem_keys_slicing h) (by decide)

/-- The names that scripts choose are possible. -/
theorem admits_reversalName (S : OpenSorts) (what : Reversible) (i : Nat) :
    what.Admits S (reversalName i) := by
  have hhead : (reversalName i).toList.head? = some 's' := by simp [reversalName]
  -- The letter tells the name from those of the functions on rationals, and from all others.
  have hletter : (reversalName i).toList[6]? = some 'v' := by simp [reversalName]
  refine ⟨?_, ?_⟩
  · intro h
    rw [h] at hletter
    rcases what.parameter_eq with hparameter | hparameter <;> rw [hparameter] at hletter <;>
      exact absurd hletter (by decide)
  · rintro (h | h | h)
    · exact (Theory.head?_of_mem_symbols h).1 hhead
    · have hkeys : ∀ key ∈ S.withSlices.symbols.map Prod.fst, key.toList[6]? ≠ some 'v' := by
        rw [OpenSorts.keys_symbols]
        decide
      exact OpenSorts.not_isDataName (fun hmem => hkeys _ hmem hletter) (by simp [hhead])
        (by simp [hhead]) h
    · rcases Datum.mem_keys_slicing h with h | h | h <;> rw [h] at hletter <;>
        exact absurd hletter (by decide)

section

variable {S : OpenSorts} {what : Reversible} {name : String}
  {I : Interpretation (Datum S.withSlices.Carrier)}
  {f : Element.Function (Datum S.withSlices.Carrier)}

/-- The interpretation of the names inside of a definition, for a sequence as its argument. -/
def inside (what : Reversible) (name : String) (I : Interpretation (Datum S.withSlices.Carrier))
    (f : Element.Function (Datum S.withSlices.Carrier))
    (xs : List (what.Item S.withSlices.Carrier)) : Interpretation (Datum S.withSlices.Carrier) :=
  (I.bind name f).bindAll [what.parameter] [(what.sequence xs).element]

theorem eval_parameter (xs : List (what.Item S.withSlices.Carrier)) :
    Term.eval S.withSlices.theory (inside what name I f xs) (.symbol what.parameter) =
      some (what.sequence xs).element := by
  have hopen : ∀ n ∈ [what.parameter], S.withSlices.theory.function (.symbol n) [] = none := by
    rw [List.forall_mem_singleton]
    exact OpenSorts.function_of_not_knows (not_knows_parameter S what) []
  have hvalues : Term.evalAll S.withSlices.theory (inside what name I f xs)
      ([what.parameter].map .symbol) = some [(what.sequence xs).element] :=
    Term.evalAll_symbols_bindAll (List.nodup_singleton _) rfl hopen
  exact (List.forall₂_cons.mp (Term.evalAll_eq_some_iff.mp hvalues)).1

theorem apply_inside (hname : what.Admits S name) (xs : List (what.Item S.withSlices.Carrier))
    (es : List (Element (Datum S.withSlices.Carrier))) :
    S.withSlices.theory.apply (inside what name I f xs) (.symbol name) es = f es := by
  have hother : name ∉ [what.parameter] := by simpa using hname.ne_parameter
  rw [OpenSorts.apply_of_not_knows hname.not_knows, inside,
    Interpretation.bindAll_of_not_mem _ _ hother, Interpretation.bind_self]

theorem eval_restTerm (xs : List (what.Item S.withSlices.Carrier)) :
    Term.eval S.withSlices.theory (inside what name I f xs) what.restTerm =
      some (what.sequence xs.tail).element := by
  refine denotes_restTerm (P := (· = inside what name I f xs)) ?_ _ rfl
  rintro _ rfl
  exact eval_parameter xs

/-- What the body of a definition computes, from what the function gives for the rest. -/
theorem eval_body (hname : what.Admits S name) {xs ys : List (what.Item S.withSlices.Carrier)}
    (hrest : f [(what.sequence xs.tail).element] = some (what.sequence ys).element) :
    (what.definition name).body.term.eval S.withSlices.theory (inside what name I f xs) =
      some (what.sequence (step xs ys)).element := by
  refine denotes_body (P := (· = inside what name I f xs)) ?_ ?_ _ rfl
  · rintro _ rfl
    exact eval_parameter xs
  · rintro _ rfl
    have hoperands : Term.evalAll S.withSlices.theory (inside what name I f xs) [what.restTerm] =
        some [(what.sequence xs.tail).element] :=
      Term.evalAll_eq_some_iff.mpr (.cons (eval_restTerm xs) .nil)
    exact (Term.eval_app_of_evalAll hoperands).trans ((apply_inside hname xs _).trans hrest)

/-- The arguments of a definition are the sequences of its kind. -/
theorem contains_parameters_iff {es : List (Element (Datum S.withSlices.Carrier))} :
    List.Forall₂ S.withSlices.theory.Contains ((what.definition name).parameters.map Prod.snd) es ↔
      ∃ xs, es = [(what.sequence xs).element] := by
  rw [parameters_definition, List.map_singleton, List.forall₂_cons_left_iff]
  constructor
  · rintro ⟨e, rest, he, hrest, rfl⟩
    obtain rfl := List.forall₂_nil_left_iff.mp hrest
    obtain ⟨xs, rfl⟩ := (contains_iff S.withSlices.hasDomains_theory).mp he
    exact ⟨xs, rfl⟩
  · rintro ⟨xs, rfl⟩
    exact ⟨_, [], (contains_iff S.withSlices.hasDomains_theory).mpr ⟨xs, rfl⟩, .nil, rfl⟩

/-- The functions on the sorts of a definition take sequences to sequences, and are undefined for
everything else. -/
theorem isFunction_iff :
    S.withSlices.theory.IsFunction ((what.definition name).parameters.map Prod.snd)
        (what.definition name).result f ↔
      (∀ xs, ∃ ys, f [(what.sequence xs).element] = some (what.sequence ys).element) ∧
        ∀ es, (∀ xs, es ≠ [(what.sequence xs).element]) → f es = none := by
  simp only [Theory.IsFunction, contains_parameters_iff, result_definition,
    contains_iff S.withSlices.hasDomains_theory, not_exists]
  constructor
  · intro hf
    refine ⟨fun xs => ?_, fun es hes => (hf es).2 hes⟩
    obtain ⟨_, he, ys, rfl⟩ := (hf _).1 ⟨xs, rfl⟩
    exact ⟨ys, he⟩
  · rintro ⟨htotal, hundefined⟩ es
    refine ⟨?_, hundefined es⟩
    rintro ⟨xs, rfl⟩
    obtain ⟨ys, hys⟩ := htotal xs
    exact ⟨_, hys, ys, rfl⟩

/-- A definition holds for a function that gives for each sequence what the body does. -/
theorem holdsIn_iff (hname : what.Admits S name) :
    (what.definition name).HoldsIn S.withSlices.theory (I.bind name f) ↔
      ∀ xs, f [(what.sequence xs).element] =
        (what.definition name).body.term.eval S.withSlices.theory (inside what name I f xs) := by
  have happly (es : List (Element (Datum S.withSlices.Carrier))) :
      S.withSlices.theory.apply (I.bind name f) (.symbol name) es = f es := by
    rw [OpenSorts.apply_of_not_knows hname.not_knows, Interpretation.bind_self]
  have hnames : (what.definition name).parameters.map Prod.fst = [what.parameter] := by
    rw [parameters_definition, List.map_singleton]
  rw [FunctionDefinition.HoldsIn, hnames, name_definition]
  simp only [contains_parameters_iff, happly]
  constructor
  · exact fun hholds xs => hholds _ ⟨xs, rfl⟩
  · rintro hholds _ ⟨xs, rfl⟩
    exact hholds xs

/-- A definition holds for the functions that reverse all sequences, and no others. -/
theorem isSolution_iff (hname : what.Admits S name) :
    (what.definition name).IsSolution S.withSlices.theory I f ↔
      (∀ xs, f [(what.sequence xs).element] = some (what.sequence xs.reverse).element) ∧
        ∀ es, (∀ xs, es ≠ [(what.sequence xs).element]) → f es = none := by
  rw [FunctionDefinition.IsSolution, name_definition, isFunction_iff, holdsIn_iff hname]
  constructor
  · rintro ⟨⟨htotal, hundefined⟩, hholds⟩
    refine ⟨fun xs => ?_, hundefined⟩
    -- The call gives the reversal of the rest by induction; that of the empty rest is not used.
    induction xs with
    | nil =>
      obtain ⟨ys, hys⟩ := htotal []
      exact (hholds []).trans (eval_body hname hys)
    | cons x xs ih =>
      have hrest : f [(what.sequence (x :: xs).tail).element] =
          some (what.sequence xs.reverse).element := ih
      rw [List.reverse_cons]
      exact (hholds (x :: xs)).trans (eval_body hname hrest)
  · rintro ⟨hreverses, hundefined⟩
    refine ⟨⟨fun xs => ⟨xs.reverse, hreverses xs⟩, hundefined⟩, fun xs => ?_⟩
    rw [hreverses xs, eval_body hname (hreverses xs.tail), step_tail_reverse]

/-! ### The reversal -/

open Classical in
/-- The function that reverses sequences. -/
noncomputable def reversal {C : SortExpr → Type} (what : Reversible) : Element.Function (Datum C) :=
  fun es =>
    if h : ∃ xs, es = [(what.sequence xs).element] then
      some (what.sequence h.choose.reverse).element
    else none

theorem reversal_sequence (xs : List (what.Item S.withSlices.Carrier)) :
    what.reversal [(what.sequence xs).element] = some (what.sequence xs.reverse).element := by
  have h : ∃ ys, [(what.sequence xs).element] = [(what.sequence ys).element] := ⟨xs, rfl⟩
  have hchoice : xs = h.choose :=
    element_sequence_inj.mp (List.singleton_inj.mp h.choose_spec)
  rw [reversal, dif_pos h, ← hchoice]

/-- A definition holds for the reversal only. -/
theorem isSolution_iff_eq_reversal (hname : what.Admits S name) :
    (what.definition name).IsSolution S.withSlices.theory I f ↔ f = what.reversal := by
  have hundefined : ∀ es, (∀ xs, es ≠ [(what.sequence xs).element]) →
      (what.reversal es : Option (Element (Datum S.withSlices.Carrier))) = none :=
    fun es hes => dif_neg (not_exists.mpr hes)
  rw [isSolution_iff hname]
  constructor
  · rintro ⟨hreverses, hnone⟩
    funext es
    by_cases hes : ∃ xs, es = [(what.sequence xs).element]
    · obtain ⟨xs, rfl⟩ := hes
      rw [hreverses, reversal_sequence]
    · rw [hnone es (not_exists.mp hes), hundefined es (not_exists.mp hes)]
  · rintro rfl
    exact ⟨reversal_sequence, hundefined⟩

/-- There is one call in the body, on the rest of the sequence. -/
theorem calls_body (hname : what.Admits S name) :
    (what.definition name).body.term.calls name = [[what.restTerm]] := by
  -- The theory knows everything else that the body calls, but not the new name.
  have hne {other : String} (h : S.Knows other) : other ≠ name :=
    fun heq => hname.not_knows (heq ▸ h)
  have hite : "ite" ≠ name := hne (.standard (by simp [Theory.symbols, Theory.core]))
  have hequal : "=" ≠ name := hne (.standard (by simp [Theory.symbols, Theory.core]))
  have hminus : "-" ≠ name := hne (.standard (by simp [Theory.symbols, Theory.integers]))
  have hdata {other : String} (h : other ∈ S.withSlices.symbols.map Prod.fst) : other ≠ name :=
    hne (.data (.symbol h))
  have hslicing {other : String} (h : other ∈ (Datum.slicing S.withSlices.Carrier).map Prod.fst) :
      other ≠ name := hne (.slicing h)
  rw [term_body]
  cases what with
  | string =>
    have hlength : "str.len" ≠ name := hdata (by simp [OpenSorts.keys_symbols])
    have hpart : "str.substr" ≠ name := hslicing (by simp [Datum.slicing])
    have hjoining : "str.++" ≠ name := hslicing (by simp [Datum.slicing])
    simp [Term.calls, Term.callsAll, Term.name?, joining, emptyTerm, restTerm, firstTerm, restOf,
      hite, hequal, hminus, hlength, hpart, hjoining]
  | list k =>
    have hlength : "seq.len" ≠ name := hdata (by simp [OpenSorts.keys_symbols])
    have hpart : "seq.extract" ≠ name := hslicing (by simp [Datum.slicing])
    have hjoining : "seq.++" ≠ name := hdata (by simp [OpenSorts.keys_symbols])
    have hunit : "seq.unit" ≠ name := hdata (by simp [OpenSorts.keys_symbols])
    have hnth : "seq.nth" ≠ name := hdata (by simp [OpenSorts.keys_symbols])
    simp [Term.calls, Term.callsAll, Term.name?, joining, emptyTerm, restTerm, firstTerm, restOf,
      hite, hequal, hminus, hlength, hpart, hjoining, hunit, hnth]

end

/-- Whatever a reversal function is called, as long as its name stands for nothing else inside of
the definition: exactly one function satisfies the definition, that function reverses all sequences,
and for a sequence that is not empty, the body calls it on a shorter one. The names that scripts
choose are among those. -/
theorem definition_reverses (S : OpenSorts) (what : Reversible)
    (I : Interpretation (Datum S.withSlices.Carrier)) :
    (∀ i, what.Admits S (reversalName i)) ∧
      ∀ name, what.Admits S name →
        (∃! f, (what.definition name).IsSolution S.withSlices.theory I f) ∧
        (∀ f, (what.definition name).IsSolution S.withSlices.theory I f →
          ∀ xs, f [(what.sequence xs).element] = some (what.sequence xs.reverse).element) ∧
        ((what.definition name).body.term.calls name ≠ [] ∧
          ∀ ts ∈ (what.definition name).body.term.calls name, ∀ f xs, xs ≠ [] →
            ∃ ys, ys.length < xs.length ∧
              Term.evalAll S.withSlices.theory (inside what name I f xs) ts =
                some [(what.sequence ys).element]) := by
  refine ⟨admits_reversalName S what, fun name hname => ⟨?_, ?_, ?_⟩⟩
  · simp only [isSolution_iff_eq_reversal hname]
    exact existsUnique_eq
  · exact fun f hf => ((isSolution_iff hname).mp hf).1
  · rw [calls_body hname, List.forall_mem_singleton]
    refine ⟨List.cons_ne_nil _ _, fun f xs hxs => ⟨xs.tail, ?_, ?_⟩⟩
    · rw [List.length_tail]
      exact Nat.sub_lt (List.length_pos_iff.mpr hxs) Nat.one_pos
    · exact Term.evalAll_eq_some_iff.mpr (.cons (eval_restTerm xs) .nil)

/-- A list of two texts, reversed by the first function that a script names. -/
theorem definition_reverses_twoTexts :
    (list .string).Admits OpenSorts.decimals (reversalName 0) ∧
      ∃ f, ((list .string).definition (reversalName 0)).IsSolution
          OpenSorts.decimals.withSlices.theory (fun _ _ => none) f ∧
        f [Datum.element ⟨.list .text, [[97], [98, 99]]⟩] =
          some (Datum.element ⟨.list .text, [[98, 99], [97]]⟩) := by
  obtain ⟨hadmits, hall⟩ := definition_reverses OpenSorts.decimals (list .string) fun _ _ => none
  obtain ⟨⟨f, hf, -⟩, hreverses, -⟩ := hall (reversalName 0) (hadmits 0)
  exact ⟨hadmits 0, f, hf, hreverses f hf [[97], [98, 99]]⟩

end Reversible

end SolverScript
