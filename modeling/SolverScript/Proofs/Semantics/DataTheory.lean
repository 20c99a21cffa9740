import SolverScript.Encoding.Composite
import SolverScript.Proofs.Semantics.Constants
import SolverScript.Proofs.Semantics.Domain
import SolverScript.Script.RationalFunction

/-!
# The theory of characters, lists, sets, tuples, optionals and sums

The standard theory is extended by the functions on texts and sequences, by arrays of truth values,
and by the datatypes that a script declares. The target language does not say what the element of a
sequence is behind its end, nor what an accessor gives for a value of another constructor; that is
left open here, and so are the basic sorts with their functions.

## Main definitions

* `OpenSorts` - what is left open, with `OpenSorts.theory` for the theory over it
* `Term.Denotes` - whether a term denotes a datum in all interpretations of a class
-/

namespace SolverScript

/-- The names that invariants bind, at a given depth or further inside. -/
inductive IsBoundName (depth : Nat) : String → Prop
  | position {inner : Nat} (h : depth ≤ inner) : IsBoundName depth ("seq" ++ Nat.repr inner)
  | member {inner : Nat} (h : depth ≤ inner) : IsBoundName depth ("set" ++ Nat.repr inner)

namespace IsBoundName

variable {name : String} {depth : Nat}

theorem mono {outer : Nat} (h : IsBoundName depth name) (hle : outer ≤ depth) :
    IsBoundName outer name := by
  cases h with
  | position h => exact .position (Nat.le_trans hle h)
  | member h => exact .member (Nat.le_trans hle h)

theorem head?_eq (h : IsBoundName depth name) : name.toList.head? = some 's' := by
  cases h <;> simp

theorem exists_getLast? (h : IsBoundName depth name) :
    ∃ c, name.toList.getLast? = some c ∧ c.isDigit = true := by
  have hrepr : ∀ (sort : String) (n : Nat), ∃ c,
      (sort ++ Nat.repr n).toList.getLast? = some c ∧ c.isDigit = true := by
    intro sort n
    have hne : Nat.toDigits 10 n ≠ [] := Nat.toDigits_ne_nil
    refine ⟨(Nat.toDigits 10 n).getLast hne, ?_, ?_⟩
    · rw [String.toList_append, Nat.toList_repr, List.getLast?_append_of_ne_nil _ hne,
        List.getLast?_eq_some_getLast hne]
    · exact Nat.isDigit_of_mem_toDigits (by decide) (by decide) (List.getLast_mem hne)
  cases h with
  | position => exact hrepr _ _
  | member => exact hrepr _ _

/-- The variable of a quantifier is not bound again inside of it. -/
theorem not_position (depth : Nat) : ¬IsBoundName (depth + 1) ("seq" ++ Nat.repr depth) := by
  intro h
  generalize hname : "seq" ++ Nat.repr depth = name at h
  cases h with
  | @position inner h =>
    have hrepr : Nat.repr depth = Nat.repr inner := by simpa using hname
    have := Numeral.repr_injective hrepr
    omega
  | member => simp [← String.toList_inj] at hname

theorem not_member (depth : Nat) : ¬IsBoundName (depth + 1) ("set" ++ Nat.repr depth) := by
  intro h
  generalize hname : "set" ++ Nat.repr depth = name at h
  cases h with
  | position => simp [← String.toList_inj] at hname
  | @member inner h =>
    have hrepr : Nat.repr depth = Nat.repr inner := by simpa using hname
    have := Numeral.repr_injective hrepr
    omega

end IsBoundName

/-- What the theory of data leaves open: the values of the basic sorts, the results of functions
where they are not specified, and further functions. The names that invariants bind are not names of
such functions. -/
structure OpenSorts where
  Carrier : SortExpr → Type
  unspecified : String → List (Datum Carrier) → (d : Domain) → d.Model Carrier
  function : Term → Element.Function (Datum Carrier)
  leaves_bound : ∀ name, IsBoundName 0 name → function (.symbol name) [] = none

/-- Rational numbers for the values of all basic sorts; decimals are reals among them. -/
def OpenSorts.decimals : OpenSorts where
  Carrier _ := Rat
  unspecified _ _ := Domain.default fun _ => (0 : Rat)
  function head es :=
    match head, es with
    | .decimal n, [] => some (.other ⟨.basic (Kind.sort .real), (n : Rat)⟩)
    | _, _ => none
  leaves_bound _ _ := rfl

theorem Theory.standard_symbol {α : Type} (carrier : SortExpr → α → Prop) (name : String)
    (es : List (Element α)) : (standard carrier).function (.symbol name) es =
      (symbols.lookup name).bind fun f => f es := rfl

theorem Theory.standard_symbol_of_not_mem {α : Type} (carrier : SortExpr → α → Prop)
    {name : String} (h : name ∉ (symbols (α := α)).map Prod.fst) (es : List (Element α)) :
    (standard carrier).function (.symbol name) es = none := by
  rw [standard_symbol, lookup_of_not_mem_keys h, Option.bind_none]

/-- Two sequences of one domain after each other. -/
noncomputable def Datum.append? {C : SortExpr → Type} : Datum C → Datum C → Option (Datum C)
  | ⟨.list d, xs⟩, b => (b.as? (.list d)).map fun ys => ⟨.list d, List.append xs ys⟩
  | _, _ => none

theorem Datum.append?_list {C : SortExpr → Type} (d : Domain) (xs ys : List (d.Model C)) :
    append? (⟨.list d, xs⟩ : Datum C) ⟨.list d, ys⟩ = some ⟨.list d, List.append xs ys⟩ := by
  have hys : as? (.list d) (⟨.list d, ys⟩ : Datum C) = some ys := as?_self _
  exact congrArg (Option.map fun ys => (⟨.list d, List.append xs ys⟩ : Datum C)) hys

namespace OpenSorts

variable (S : OpenSorts)

/-- The element of a sequence at a position. -/
def nth {d : Domain} (xs : List (d.Model S.Carrier)) (i : Int) : d.Model S.Carrier :=
  if h : 0 ≤ i ∧ i.toNat < xs.length then xs[i.toNat]
  else S.unspecified "seq.nth" [⟨.list d, xs⟩, ⟨.int, i⟩] d

theorem nth_ofNat {d : Domain} {xs : List (d.Model S.Carrier)} {n : Nat} (hn : n < xs.length) :
    S.nth xs (Int.ofNat n) = xs[n] :=
  dif_pos ⟨Int.natCast_nonneg n, hn⟩

/-- The value of an optional. -/
def getJust {d : Domain} (o : Option (d.Model S.Carrier)) : d.Model S.Carrier :=
  o.getD (S.unspecified Composite.maybeAccessor [⟨.maybe d, o⟩] d)

/-- The left value of a sum. -/
def getLeft {l r : Domain} (s : l.Model S.Carrier ⊕ r.Model S.Carrier) : l.Model S.Carrier :=
  s.getLeft?.getD (S.unspecified (Composite.sideAccessor false) [⟨.either l r, s⟩] l)

/-- The right value of a sum. -/
def getRight {l r : Domain} (s : l.Model S.Carrier ⊕ r.Model S.Carrier) : r.Model S.Carrier :=
  s.getRight?.getD (S.unspecified (Composite.sideAccessor true) [⟨.either l r, s⟩] r)

open Classical in
/-- The functions that have names, apart from those of tuples. -/
noncomputable def symbols :
    List (String × (List (Datum S.Carrier) → Option (Datum S.Carrier))) :=
  [("str.len", fun as => match as with
      | [⟨.text, cs⟩] => some ⟨.int, Int.ofNat (List.length cs)⟩
      | _ => none),
    ("seq.unit", fun as => match as with
      | [⟨d, x⟩] => some ⟨.list d, [x]⟩
      | _ => none),
    ("seq.++", fun as => match as with
      | a :: b :: rest => (b :: rest).foldlM Datum.append? a
      | _ => none),
    ("seq.len", fun as => match as with
      | [⟨.list _, xs⟩] => some ⟨.int, Int.ofNat (List.length xs)⟩
      | _ => none),
    ("seq.nth", fun as => match as with
      | [⟨.list d, xs⟩, ⟨.int, i⟩] => some ⟨d, S.nth xs i⟩
      | _ => none),
    ("select", fun as => match as with
      | [⟨.set d, f⟩, a] => (a.as? d).map fun x => ⟨.bool, f x⟩
      | _ => none),
    ("store", fun as => match as with
      | [⟨.set d, f⟩, a, ⟨.bool, b⟩] => (a.as? d).map fun x => ⟨.set d, Function.update f x b⟩
      | _ => none),
    (RationalFunction.constructor, fun as => match as with
      | [⟨.int, m⟩, ⟨.int, n⟩] => some ⟨.rational, (m, n)⟩
      | _ => none),
    (RationalFunction.numerator, fun as => match as with
      | [⟨.rational, q⟩] => some ⟨.int, Prod.fst q⟩
      | _ => none),
    (RationalFunction.denominator, fun as => match as with
      | [⟨.rational, q⟩] => some ⟨.int, Prod.snd q⟩
      | _ => none),
    (Composite.maybeAccessor, fun as => match as with
      | [⟨.maybe d, o⟩] => some ⟨d, S.getJust o⟩
      | _ => none),
    (Composite.sideAccessor false, fun as => match as with
      | [⟨.either l _, s⟩] => some ⟨l, S.getLeft s⟩
      | _ => none),
    (Composite.sideAccessor true, fun as => match as with
      | [⟨.either _ r, s⟩] => some ⟨r, S.getRight s⟩
      | _ => none)]

/-- The empty tuple, and the projections of the others. -/
def tuples (name : String) : List (Datum S.Carrier) → Option (Datum S.Carrier)
  | [] => if name = "mkSBVTuple0" then some ⟨.tuple [], ()⟩ else none
  | [⟨.tuple ds, xs⟩] =>
    ((List.range ds.length).find? fun i => name == Composite.projection (i + 1) ds.length).bind
      (Datum.component? ds xs)
  | _ => none

/-- The functions that are written with the sort of their result. -/
noncomputable def ascribed (name : String) :
    Domain → List (Datum S.Carrier) → Option (Datum S.Carrier)
  | .list d, [] => if name = "seq.empty" then some ⟨.list d, []⟩ else none
  | .set d, [⟨.bool, b⟩] => if name = "const" then some ⟨.set d, fun _ => b⟩ else none
  | .tuple ds, as =>
    if name = "mkSBVTuple" ++ Nat.repr ds.length then
      (Datum.asTuple? ds as).map fun xs => ⟨.tuple ds, xs⟩
    else none
  | .maybe d, [] =>
    if name = Composite.maybeConstructor false then some ⟨.maybe d, none⟩ else none
  | .maybe d, [a] =>
    if name = Composite.maybeConstructor true then (a.as? d).map fun x => ⟨.maybe d, some x⟩
    else none
  | .either l r, [a] =>
    if name = Composite.sideConstructor false then
      (a.as? l).map fun x => ⟨.either l r, Sum.inl x⟩
    else if name = Composite.sideConstructor true then
      (a.as? r).map fun x => ⟨.either l r, Sum.inr x⟩
    else none
  | _, _ => none

/-- Whether a value was made by a given constructor. -/
def isMadeBy (constructor : String) : Datum S.Carrier → Option Bool
  | ⟨.maybe _, o⟩ =>
    if constructor = Composite.maybeConstructor true then some (Option.isSome o)
    else if constructor = Composite.maybeConstructor false then some (Option.isNone o)
    else none
  | ⟨.either _ _, s⟩ =>
    if constructor = Composite.sideConstructor false then some (Sum.isLeft s)
    else if constructor = Composite.sideConstructor true then some (Sum.isRight s)
    else none
  | _ => none

open Classical in
/-- The functions on data. -/
noncomputable def functionOnData :
    Term → List (Datum S.Carrier) → Option (Datum S.Carrier)
  | .quoted characters, [] =>
    (readText? (Term.quoted characters).render.toList).map fun cs => ⟨.text, cs⟩
  | .symbol name, as => ((S.symbols.lookup name).bind fun f => f as).or (S.tuples name as)
  | .ascribed name sort, as => S.ascribed name sort.domain as
  | .tester constructor (some (_, sort)), [a] =>
    if a.domain = sort.domain then (S.isMadeBy constructor a).map fun b => ⟨.bool, b⟩ else none
  | _, _ => none

theorem functionOnData_symbol (name : String) (as : List (Datum S.Carrier)) :
    S.functionOnData (.symbol name) as =
      ((S.symbols.lookup name).bind fun f => f as).or (S.tuples name as) := rfl

/-- The names of the functions on data. -/
inductive IsDataName (S : OpenSorts) : String → Prop
  | symbol {name : String} (h : name ∈ S.symbols.map Prod.fst) : IsDataName S name
  | emptyTuple : IsDataName S "mkSBVTuple0"
  | projection (position arity : Nat) : IsDataName S (Composite.projection position arity)

/-- The heads that stand for functions on data. -/
inductive IsDataHead (S : OpenSorts) : Term → Prop
  | quoted (characters : List Char) : IsDataHead S (.quoted characters)
  | ascribed (name : String) (sort : SortExpr) : IsDataHead S (.ascribed name sort)
  | tester (constructor : String) (signature : Option (List SortExpr × SortExpr)) :
    IsDataHead S (.tester constructor signature)
  | symbol {name : String} (h : S.IsDataName name) : IsDataHead S (.symbol name)

open Classical in
/-- The standard theory, extended by the functions on data and by those that are left open. -/
noncomputable def theory : Theory (Datum S.Carrier) where
  carrier s a := a.domain = s.domain
  function head es :=
    ((Theory.standard fun s a => a.domain = s.domain).function head es).or
      (if S.IsDataHead head then
        (S.functionOnData head (es.map Datum.ofElement)).map Datum.element
      else S.function head es)

open Classical in
theorem function_theory (head : Term) (es : List (Element (Datum S.Carrier))) :
    S.theory.function head es =
      ((Theory.standard S.theory.carrier).function head es).or
        (if S.IsDataHead head then
          (S.functionOnData head (es.map Datum.ofElement)).map Datum.element
        else S.function head es) := rfl

theorem hasDomains_theory : S.theory.HasDomains := fun _ _ => Iff.rfl

variable {S}

theorem function_of_standard {head : Term} {es : List (Element (Datum S.Carrier))}
    {e : Element (Datum S.Carrier)}
    (h : (Theory.standard S.theory.carrier).function head es = some e) :
    S.theory.function head es = some e := by
  rw [function_theory, h, Option.some_or]

/-- A function on data is the one that was defined, if the standard theory has none. -/
theorem function_eq {head : Term} (hhead : S.IsDataHead head) (as : List (Datum S.Carrier))
    (hstandard : (Theory.standard S.theory.carrier).function head (as.map Datum.element) = none) :
    S.theory.function head (as.map Datum.element) =
      (S.functionOnData head as).map Datum.element := by
  rw [function_theory, hstandard, Option.none_or, if_pos hhead, Datum.map_ofElement_element]

/-- A function is the one that was left open, if it is neither one on data nor a standard one. -/
theorem function_of_open {head : Term} {es : List (Element (Datum S.Carrier))}
    (hhead : ¬S.IsDataHead head)
    (hstandard : (Theory.standard S.theory.carrier).function head es = none) :
    S.theory.function head es = S.function head es := by
  rw [function_theory, hstandard, Option.none_or, if_neg hhead]

/-! ### Names of functions on data -/

theorem keys_symbols : S.symbols.map Prod.fst =
    ["str.len", "seq.unit", "seq.++", "seq.len", "seq.nth", "select", "store",
      RationalFunction.constructor, RationalFunction.numerator, RationalFunction.denominator,
      Composite.maybeAccessor, Composite.sideAccessor false, Composite.sideAccessor true] := rfl

/-- Names with other first letters than those of tuples are fixed if they are names of functions on
data. -/
theorem not_isDataName {name : String} (hkeys : name ∉ S.symbols.map Prod.fst)
    (hempty : name.toList.head? ≠ some 'm') (hprojection : name.toList.head? ≠ some 'p') :
    ¬S.IsDataName name := by
  rintro (h | _ | _)
  · exact hkeys h
  · exact hempty rfl
  · exact hprojection (by simp [Composite.projection])

theorem not_isDataHead_symbol {name : String} (h : ¬S.IsDataName name) :
    ¬S.IsDataHead (.symbol name) := by
  rintro (_ | _ | _ | hname)
  exact h hname

/-! ### Bound names -/

theorem not_isBoundName {name : String} (h : S.IsDataName name) (depth : Nat) :
    ¬IsBoundName depth name := by
  intro hbound
  have hhead := hbound.head?_eq
  obtain ⟨c, hlast, hdigit⟩ := hbound.exists_getLast?
  cases h with
  | symbol h =>
    -- No function that is called by a fixed name has a digit at the end of it.
    have hkeys : ∀ key ∈ S.symbols.map Prod.fst, ∀ c, key.toList.getLast? = some c →
        c.isDigit = false := by
      simp [keys_symbols, RationalFunction.constructor, RationalFunction.numerator,
        RationalFunction.denominator, Composite.maybeAccessor, Composite.sideAccessor]
    rw [hkeys name h c hlast] at hdigit
    cases hdigit
  | emptyTuple => exact absurd hhead (by decide)
  | projection => simp [Composite.projection] at hhead

/-- What a bound name means is left to what binds it. -/
theorem function_of_isBoundName {name : String} {depth : Nat} (h : IsBoundName depth name) :
    S.theory.function (.symbol name) [] = none := by
  -- Bound names start with a letter that no name of the standard theory starts with.
  have hstandard := Theory.standard_symbol_of_not_mem S.theory.carrier
    (fun hname => (Theory.head?_of_mem_symbols hname).1 h.head?_eq) []
  have hdata : ¬S.IsDataName name := fun hname => not_isBoundName hname depth h
  rw [function_of_open (not_isDataHead_symbol hdata) hstandard]
  exact S.leaves_bound name (h.mono (Nat.zero_le _))

/-! ### Projections from tuples -/

/-- A list of functions has no projection if none of their names starts like one. -/
theorem lookup_projection_eq_none {β : Type} {table : List (String × β)}
    (h : ∀ key ∈ table.map Prod.fst, key.toList.head? ≠ some 'p') (position arity : Nat) :
    table.lookup (Composite.projection position arity) = none := by
  exact lookup_of_not_mem_keys fun hname => h _ hname (by simp [Composite.projection])

theorem lookup_projection_standard (position arity : Nat) :
    (Theory.symbols (α := Datum S.Carrier)).lookup (Composite.projection position arity) = none :=
  lookup_projection_eq_none
    (by simp [Theory.symbols, Theory.core, Theory.integers, Theory.bitVectors]) position arity

theorem lookup_projection (position arity : Nat) :
    S.symbols.lookup (Composite.projection position arity) = none :=
  lookup_projection_eq_none (by rw [keys_symbols]; decide) position arity

theorem projection_injective (arity : Nat) :
    Function.Injective fun position => Composite.projection position arity := by
  intro i j h
  have hrepr : Nat.repr i = Nat.repr j := by simpa [Composite.projection] using h
  exact Numeral.repr_injective hrepr

theorem tuples_projection {ds : List Domain} {xs : Domain.Models S.Carrier ds} {i : Nat}
    {a : Datum S.Carrier} (h : Datum.component? ds xs i = some a) :
    S.tuples (Composite.projection (i + 1) ds.length) [⟨.tuple ds, xs⟩] = some a := by
  have hi := Datum.lt_length_of_component? h
  have hfind : ((List.range ds.length).find? fun j =>
      Composite.projection (i + 1) ds.length == Composite.projection (j + 1) ds.length) =
        some i := by
    rw [List.find?_range_eq_some]
    refine ⟨by simp, by simpa using hi, fun j hj => ?_⟩
    have hne : i + 1 ≠ j + 1 := by omega
    simpa using (projection_injective _).ne hne
  exact (congrArg (Option.bind · (Datum.component? ds xs)) hfind).trans h

end OpenSorts

namespace Term

variable {S : OpenSorts} {P : Interpretation (Datum S.Carrier) → Prop}

/-- Whether a term denotes a datum in all interpretations of a class. -/
def Denotes (S : OpenSorts) (P : Interpretation (Datum S.Carrier) → Prop) (t : Term)
    (a : Datum S.Carrier) : Prop :=
  ∀ J, P J → t.eval S.theory J = some a.element

namespace Denotes

/-- An application denotes what its head gives for what the operands denote. -/
theorem app {head : Term} (hhead : ∀ id, head ≠ .node id) {ts : List Term}
    {as : List (Datum S.Carrier)} {a : Datum S.Carrier} (hts : List.Forall₂ (Denotes S P) ts as)
    (h : S.theory.function head (as.map Datum.element) = some a.element) :
    Denotes S P (.app head ts) a := by
  intro J hJ
  have hoperands : evalAll S.theory J ts = some (as.map Datum.element) := by
    rw [evalAll_eq_some_iff, List.forall₂_map_right_iff]
    exact hts.imp fun _ _ ht => ht J hJ
  rw [eval_app_of_evalAll hoperands]
  cases head with
  | node id => exact absurd rfl (hhead id)
  | symbol name => simp only [Theory.apply, name?, h, Option.some_or]
  | _ => exact h

/-- An application of a function of the standard theory. -/
theorem standard {name : String} {f : Element.Function (Datum S.Carrier)} {ts : List Term}
    {as : List (Datum S.Carrier)} {a : Datum S.Carrier}
    (hname : Theory.symbols.lookup name = some f) (hts : List.Forall₂ (Denotes S P) ts as)
    (h : f (as.map Datum.element) = some a.element) : Denotes S P (.app (.symbol name) ts) a := by
  refine app (fun _ => by simp) hts (OpenSorts.function_of_standard ?_)
  rw [Theory.standard_symbol, hname, Option.bind_some, h]

/-- An application of a function on data. -/
theorem data {head : Term} (hhead : S.IsDataHead head) {ts : List Term}
    {as : List (Datum S.Carrier)} {a : Datum S.Carrier} (hts : List.Forall₂ (Denotes S P) ts as)
    (hstandard : (Theory.standard S.theory.carrier).function head (as.map Datum.element) = none)
    (h : S.functionOnData head as = some a) : Denotes S P (.app head ts) a := by
  refine app (fun _ => ?_) hts ?_
  · rintro rfl
    cases hhead
  · rw [OpenSorts.function_eq hhead as hstandard, h, Option.map_some]

/-- An application of a function on data that has a name. -/
theorem symbol {name : String} {ts : List Term} {as : List (Datum S.Carrier)}
    {a : Datum S.Carrier} {f : List (Datum S.Carrier) → Option (Datum S.Carrier)}
    (hstandard : (Theory.symbols (α := Datum S.Carrier)).lookup name = none)
    (hname : S.symbols.lookup name = some f) (hts : List.Forall₂ (Denotes S P) ts as)
    (h : f as = some a) : Denotes S P (.app (.symbol name) ts) a := by
  refine data (.symbol (.symbol (mem_keys_of_lookup hname))) hts ?_ ?_
  · rw [Theory.standard_symbol, hstandard, Option.bind_none]
  · rw [OpenSorts.functionOnData_symbol, hname, Option.bind_some, h, Option.some_or]

theorem ofBool (b : Bool) : Denotes S P (Term.ofBool b) (.ofBool b) := by
  intro J _
  have hfunction : S.theory.function (Term.ofBool b) [] = some (.bool b) :=
    OpenSorts.function_of_standard (by cases b <;> rfl)
  exact congrArg (Option.or · _) hfunction

theorem numeral (n : Nat) : Denotes S P (.numeral n) ⟨.int, Int.ofNat n⟩ := by
  intro J _
  refine OpenSorts.function_of_standard ?_
  exact readLiteral?_numeral n

variable {t : Term}

theorem length {cs : List CodePoint} (ht : Denotes S P t ⟨.text, cs⟩) :
    Denotes S P (.app (.symbol "str.len") [t]) ⟨.int, Int.ofNat cs.length⟩ :=
  symbol rfl rfl (.cons ht .nil) rfl

theorem denominator {q : Int × Int} (ht : Denotes S P t ⟨.rational, q⟩) :
    Denotes S P (.app (.symbol RationalFunction.denominator) [t]) ⟨.int, q.2⟩ :=
  symbol rfl rfl (.cons ht .nil) rfl

section

variable {d : Domain} {xs : List (d.Model S.Carrier)}

theorem sequenceLength (ht : Denotes S P t ⟨.list d, xs⟩) :
    Denotes S P (.app (.symbol "seq.len") [t]) ⟨.int, Int.ofNat xs.length⟩ :=
  symbol rfl rfl (.cons ht .nil) rfl

theorem nth (ht : Denotes S P t ⟨.list d, xs⟩) {u : Term} {i : Int}
    (hu : Denotes S P u ⟨.int, i⟩) :
    Denotes S P (.app (.symbol "seq.nth") [t, u]) ⟨d, S.nth xs i⟩ :=
  symbol rfl rfl (.cons ht (.cons hu .nil)) rfl

theorem select {f : d.Model S.Carrier → Bool} (ht : Denotes S P t ⟨.set d, f⟩) {u : Term}
    {x : d.Model S.Carrier} (hu : Denotes S P u ⟨d, x⟩) :
    Denotes S P (.app (.symbol "select") [t, u]) ⟨.bool, f x⟩ :=
  symbol rfl rfl (.cons ht (.cons hu .nil)) (congrArg (Option.map _) (Datum.as?_self x))

theorem getJust {o : Option (d.Model S.Carrier)} (ht : Denotes S P t ⟨.maybe d, o⟩) :
    Denotes S P (.app (.symbol Composite.maybeAccessor) [t]) ⟨d, S.getJust o⟩ :=
  symbol rfl rfl (.cons ht .nil) rfl

end

section

variable {l r : Domain} {s : l.Model S.Carrier ⊕ r.Model S.Carrier}

theorem getLeft (ht : Denotes S P t ⟨.either l r, s⟩) :
    Denotes S P (.app (.symbol (Composite.sideAccessor false)) [t]) ⟨l, S.getLeft s⟩ :=
  symbol rfl rfl (.cons ht .nil) rfl

theorem getRight (ht : Denotes S P t ⟨.either l r, s⟩) :
    Denotes S P (.app (.symbol (Composite.sideAccessor true)) [t]) ⟨r, S.getRight s⟩ :=
  symbol rfl rfl (.cons ht .nil) rfl

end

/-- The test for a constructor. -/
theorem tester {constructor : String} {parameters : List Kind} {whole : Kind}
    {x : whole.domain.Model S.Carrier} {b : Bool} (ht : Denotes S P t ⟨whole.domain, x⟩)
    (h : S.isMadeBy constructor ⟨whole.domain, x⟩ = some b) :
    Denotes S P (.app (Composite.testerWithSignature constructor parameters whole) [t])
      ⟨.bool, b⟩ := by
  refine data (.tester _ _) (.cons ht .nil) rfl ?_
  exact (if_pos whole.domain_sort.symm).trans (congrArg (Option.map _) h)

/-- A projection from a tuple. -/
theorem projection {ds : List Domain} {xs : Domain.Models S.Carrier ds}
    (ht : Denotes S P t ⟨.tuple ds, xs⟩) {i : Nat} {a : Datum S.Carrier}
    (h : Datum.component? ds xs i = some a) :
    Denotes S P (.app (.symbol (Composite.projection (i + 1) ds.length)) [t]) a := by
  refine data (.symbol (.projection (i + 1) ds.length)) (.cons ht .nil) ?_ ?_
  · rw [Theory.standard_symbol, OpenSorts.lookup_projection_standard, Option.bind_none]
  · rw [OpenSorts.functionOnData_symbol, OpenSorts.lookup_projection, Option.bind_none,
      Option.none_or]
    exact OpenSorts.tuples_projection h

end Denotes

end Term

end SolverScript
