import SolverScript.Proofs.Semantics.DataLiterals

/-!
# Parts of texts and sequences

The functions that put texts after each other, and those that take a part out of a text or a
sequence. A part is given by the position that it starts at and by how long it may be. It ends with
the whole at the latest, and is empty if it would start outside or has no length.

## Main definitions

* `slice` - a part of a list
* `OpenSorts.withSlices` - the theory of data with the functions on parts
* `OpenSorts.Knows` - the names of the functions that this theory has

## Main results

* `slice_behind_first`, `slice_first` - the parts that a list starts with and goes on with
* `OpenSorts.apply_of_not_knows` - all other names are left to the interpretation
* `Term.Denotes.substring`, `Term.Denotes.extract`, `Term.Denotes.join` - applications of the
  functions on parts
-/

namespace SolverScript

/-- The elements of a list from a position on, up to a number of them. There are none if the list
has no such position, or if the number is not positive. -/
def slice {β : Type} (xs : List β) (start count : Int) : List β :=
  if 0 ≤ start ∧ start < xs.length ∧ 0 < count then (xs.drop start.toNat).take count.toNat else []

/-- Everything behind the first element. The empty list has no position one, so that the number of
elements, which is negative then, does not matter. -/
theorem slice_behind_first {β : Type} (xs : List β) : slice xs 1 (xs.length - 1) = xs.tail := by
  cases xs with
  | nil => rfl
  | cons x xs =>
    rw [slice]
    split
    · have hcount : (((x :: xs).length : Int) - 1).toNat = xs.length := by simp
      rw [hcount]
      exact List.take_length
    · next hoff =>
      have hempty : xs = [] := by
        rw [← List.length_eq_zero_iff]
        rw [List.length_cons] at hoff
        omega
      rw [hempty]
      rfl

theorem slice_first {β : Type} (xs : List β) : slice xs 0 1 = xs.take 1 := by
  cases xs with
  | nil => rfl
  | cons x xs =>
    rw [slice, if_pos ⟨Int.le_refl 0, by simp, Int.one_pos⟩]
    rfl

/-- Two texts after each other. -/
def Datum.join? {C : SortExpr → Type} : Datum C → Datum C → Option (Datum C)
  | ⟨.text, cs⟩, ⟨.text, ds⟩ => some ⟨.text, List.append cs ds⟩
  | _, _ => none

/-- The functions that join texts and take texts and sequences apart. -/
def Datum.slicing (C : SortExpr → Type) :
    List (String × (List (Datum C) → Option (Datum C))) :=
  [("str.++", fun as => match as with
      | a :: b :: rest => (b :: rest).foldlM join? a
      | _ => none),
    ("str.substr", fun as => match as with
      | [⟨.text, cs⟩, ⟨.int, start⟩, ⟨.int, count⟩] => some ⟨.text, slice cs start count⟩
      | _ => none),
    ("seq.extract", fun as => match as with
      | [⟨.list d, xs⟩, ⟨.int, start⟩, ⟨.int, count⟩] => some ⟨.list d, slice xs start count⟩
      | _ => none)]

theorem Datum.mem_keys_slicing {C : SortExpr → Type} {name : String}
    (h : name ∈ (slicing C).map Prod.fst) :
    name = "str.++" ∨ name = "str.substr" ∨ name = "seq.extract" := by
  simpa [slicing] using h

namespace OpenSorts

/-- The values that are there, with the functions on parts and no others that were left open. -/
def withSlices (S : OpenSorts) : OpenSorts where
  Carrier := S.Carrier
  unspecified := S.unspecified
  function head es :=
    match head with
    | .symbol name =>
      (((Datum.slicing S.Carrier).lookup name).bind fun f => f (es.map Datum.ofElement)).map
        Datum.element
    | _ => none
  leaves_bound name h := by
    obtain ⟨c, hlast, hdigit⟩ := h.exists_getLast?
    have hnone : (Datum.slicing S.Carrier).lookup name = none := by
      refine lookup_of_not_mem_keys fun hname => ?_
      -- Bound names end in a digit, the names of these functions do not.
      have hkeys : ∀ key ∈ (Datum.slicing S.Carrier).map Prod.fst, ∀ c,
          key.toList.getLast? = some c → c.isDigit = false := by
        simp [Datum.slicing]
      rw [hkeys name hname c hlast] at hdigit
      cases hdigit
    exact congrArg (fun f => (f.bind fun f => f []).map Datum.element) hnone

/-- The names of the functions of the theory with the functions on parts. -/
inductive Knows (S : OpenSorts) (name : String) : Prop
  | standard (h : name ∈ (Theory.symbols (α := Datum S.Carrier)).map Prod.fst)
  | data (h : S.withSlices.IsDataName name)
  | slicing (h : name ∈ (Datum.slicing S.Carrier).map Prod.fst)

variable {S : OpenSorts} {name : String}

/-- The only functions that are left open are those on parts. -/
theorem function_withSlices (es : List (Element (Datum S.withSlices.Carrier))) :
    S.withSlices.function (.symbol name) es =
      (((Datum.slicing S.withSlices.Carrier).lookup name).bind fun f =>
        f (es.map Datum.ofElement)).map Datum.element := rfl

theorem function_of_not_knows (h : ¬S.Knows name)
    (es : List (Element (Datum S.withSlices.Carrier))) :
    S.withSlices.theory.function (.symbol name) es = none := by
  have hstandard := Theory.standard_symbol_of_not_mem S.withSlices.theory.carrier
    (fun hname => h (.standard hname)) es
  have hdata : ¬S.withSlices.IsDataName name := fun hname => h (.data hname)
  have hslicing : (Datum.slicing S.withSlices.Carrier).lookup name = none :=
    lookup_of_not_mem_keys fun hname => h (.slicing hname)
  rw [function_of_open (not_isDataHead_symbol hdata) hstandard, function_withSlices, hslicing,
    Option.bind_none, Option.map_none]

/-- A name that the theory does not know is left to the interpretation. -/
theorem apply_of_not_knows (h : ¬S.Knows name)
    (J : Interpretation (Datum S.withSlices.Carrier))
    (es : List (Element (Datum S.withSlices.Carrier))) :
    S.withSlices.theory.apply J (.symbol name) es = J name es := by
  simp only [Theory.apply, Term.name?, function_of_not_knows h, Option.none_or]

/-- The functions on parts have names of their own. -/
theorem not_isDataName_of_slicing (h : name ∈ (Datum.slicing S.withSlices.Carrier).map Prod.fst) :
    ¬S.withSlices.IsDataName name := by
  have hkeys := Datum.mem_keys_slicing h
  refine not_isDataName ?_ ?_ ?_
  · rw [keys_symbols]
    rcases hkeys with rfl | rfl | rfl <;> decide
  · rcases hkeys with rfl | rfl | rfl <;> decide
  · rcases hkeys with rfl | rfl | rfl <;> decide

/-- The functions on parts are those that were defined. -/
theorem function_slicing
    {f : List (Datum S.withSlices.Carrier) → Option (Datum S.withSlices.Carrier)}
    (hname : (Datum.slicing S.withSlices.Carrier).lookup name = some f)
    (as : List (Datum S.withSlices.Carrier)) :
    S.withSlices.theory.function (.symbol name) (as.map Datum.element) =
      (f as).map Datum.element := by
  have hkey := mem_keys_of_lookup hname
  have hstandard : (Theory.standard S.withSlices.theory.carrier).function (.symbol name)
      (as.map Datum.element) = none := by
    rcases Datum.mem_keys_slicing hkey with rfl | rfl | rfl <;> rfl
  rw [function_of_open (not_isDataHead_symbol (not_isDataName_of_slicing hkey)) hstandard,
    function_withSlices, hname, Option.bind_some, Datum.map_ofElement_element]

end OpenSorts

namespace Term.Denotes

variable {S : OpenSorts} {P : Interpretation (Datum S.withSlices.Carrier) → Prop} {t u v : Term}

/-- An application of a function on parts. -/
theorem slicing {name : String} {ts : List Term} {as : List (Datum S.withSlices.Carrier)}
    {a : Datum S.withSlices.Carrier}
    {f : List (Datum S.withSlices.Carrier) → Option (Datum S.withSlices.Carrier)}
    (hname : (Datum.slicing S.withSlices.Carrier).lookup name = some f)
    (hts : List.Forall₂ (Denotes S.withSlices P) ts as) (h : f as = some a) :
    Denotes S.withSlices P (.app (.symbol name) ts) a := by
  refine app (fun _ => by simp) hts ?_
  rw [OpenSorts.function_slicing hname, h, Option.map_some]

theorem join {cs ds : List CodePoint} (ht : Denotes S.withSlices P t ⟨.text, cs⟩)
    (hu : Denotes S.withSlices P u ⟨.text, ds⟩) :
    Denotes S.withSlices P (.app (.symbol "str.++") [t, u]) ⟨.text, List.append cs ds⟩ :=
  slicing rfl (.cons ht (.cons hu .nil)) rfl

theorem substring {cs : List CodePoint} {start count : Int}
    (ht : Denotes S.withSlices P t ⟨.text, cs⟩) (hu : Denotes S.withSlices P u ⟨.int, start⟩)
    (hv : Denotes S.withSlices P v ⟨.int, count⟩) :
    Denotes S.withSlices P (.app (.symbol "str.substr") [t, u, v])
      ⟨.text, slice cs start count⟩ :=
  slicing rfl (.cons ht (.cons hu (.cons hv .nil))) rfl

theorem extract {d : Domain} {xs : List (d.Model S.withSlices.Carrier)} {start count : Int}
    (ht : Denotes S.withSlices P t ⟨.list d, xs⟩) (hu : Denotes S.withSlices P u ⟨.int, start⟩)
    (hv : Denotes S.withSlices P v ⟨.int, count⟩) :
    Denotes S.withSlices P (.app (.symbol "seq.extract") [t, u, v])
      ⟨.list d, slice xs start count⟩ :=
  slicing rfl (.cons ht (.cons hu (.cons hv .nil))) rfl

end Term.Denotes

/-! ### Functions that every theory of data has -/

namespace Term.Denotes

variable {S : OpenSorts} {P : Interpretation (Datum S.Carrier) → Prop} {t u c : Term}

/-- Two sequences after each other. -/
theorem append {d : Domain} {xs ys : List (d.Model S.Carrier)} (ht : Denotes S P t ⟨.list d, xs⟩)
    (hu : Denotes S P u ⟨.list d, ys⟩) :
    Denotes S P (.app (.symbol "seq.++") [t, u]) ⟨.list d, List.append xs ys⟩ :=
  symbol rfl rfl (.cons ht (.cons hu .nil))
    (congrArg (fun a => a.bind some) (Datum.append?_list d xs ys))

theorem difference {m n : Int} (ht : Denotes S P t ⟨.int, m⟩) (hu : Denotes S P u ⟨.int, n⟩) :
    Denotes S P (.app (.symbol "-") [t, u]) ⟨.int, m - n⟩ :=
  standard rfl (.cons ht (.cons hu .nil)) rfl

variable {a b : Datum S.Carrier}

open Classical in
/-- An equation between data of one sort. -/
theorem equation (ht : Denotes S P t a) (hu : Denotes S P u b)
    (hsort : a.element.sameSort b.element = true) :
    Denotes S P (.app (.symbol "=") [t, u]) (.ofBool (decide (a = b))) := by
  refine standard rfl (.cons ht (.cons hu .nil)) ((relation_equal hsort).trans ?_)
  simp only [Datum.element_injective.eq_iff]
  rfl

/-- A case distinction between data of one sort. -/
theorem choice {q : Bool} (hc : Denotes S P c (.ofBool q)) (ht : Denotes S P t a)
    (hu : Denotes S P u b) (hsort : a.element.sameSort b.element = true) :
    Denotes S P (.app (.symbol "ite") [c, t, u]) (if q then a else b) := by
  refine standard rfl (.cons hc (.cons ht (.cons hu .nil))) ?_
  rw [apply_ite Datum.element]
  exact if_pos hsort

end Term.Denotes

end SolverScript
