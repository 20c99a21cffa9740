import SolverScript.Proofs.Script.Partition
import SolverScript.Proofs.Script.TableLookup
import SolverScript.Proofs.Semantics.Locality

/-!
# Places in tables

Every element of a table is written at the literal of its position. A truth value has room for two
positions and a bit-vector for as many as it has values; beyond that the literals start again, and
two equations are about one place of the table. They contradict each other if the elements differ.
As long as every position has a place of its own, some function satisfies all equations, whatever
the elements are, and whichever of the leading nodes they depend on.

## Main definitions

* `Kind.HasPlaces` - whether so many positions have different elements of an index kind
* `TableSetup.HasDistinctPlaces` - the literals of different positions denote different elements
* `TableSetup.IsEnvironment` - interpretations of everything but the table
* `TableSetup.IsConsistent` - some function satisfies the equations in each environment

## Main results

* `TableSetup.isConsistent_iff` - tables of some length are consistent just if all positions have
  places, and so are their literals different
-/

namespace SolverScript

/-! ### Positions of an index kind -/

namespace Kind

/-- The kinds that have a literal for each position and a theory that says what it denotes. -/
inductive IsDiscrete : Kind → Prop
  | bool : IsDiscrete .bool
  | bounded (signed : Bool) (width : Width) : IsDiscrete (.bounded signed width)
  | unbounded : IsDiscrete .unbounded

/-- Whether there are as many elements of an index kind as positions. -/
def HasPlaces (k : Kind) (length : Nat) : Prop :=
  match k with
  | bool => length ≤ 2
  | bounded _ width => length ≤ 2 ^ width.bits
  | _ => True

end Kind

namespace Element

variable {α : Type} {T : Theory α} {k : Kind}

/-- Every position has an element. -/
theorem exists_ofInt?_position (T : Theory α) (hk : k.IsDiscrete) (n : Int) :
    ∃ e, ofInt? k n = some e ∧ T.Contains k.sort e := by
  cases hk with
  | bool => exact ⟨_, rfl, .bool _⟩
  | bounded => exact ⟨_, rfl, .bits _⟩
  | unbounded => exact ⟨_, rfl, .int _⟩

/-- Positions that have places have different ones. -/
theorem eq_of_ofInt?_eq {length : Nat} (hplaces : k.HasPlaces length) {i j : Nat} (hi : i < length)
    (hj : j < length) {e : Element α} (hi' : ofInt? k i = some e) (hj' : ofInt? k j = some e) :
    i = j := by
  cases k with
  | bool =>
    have hlength : length ≤ 2 := hplaces
    have hsame := Element.bool.inj (Option.some.inj (hi'.trans hj'.symm))
    have hzero : (i : Int) = 0 ↔ (j : Int) = 0 := by simpa [bne] using hsame
    omega
  | bounded signed width =>
    have hlength : length ≤ 2 ^ width.bits := hplaces
    obtain ⟨-, hbits⟩ := Element.bits.inj (Option.some.inj (hi'.trans hj'.symm))
    have hmod := congrArg BitVec.toNat (eq_of_heq hbits)
    rw [BitVec.ofInt_natCast, BitVec.ofInt_natCast, BitVec.toNat_ofNat, BitVec.toNat_ofNat,
      Nat.mod_eq_of_lt (Nat.lt_of_lt_of_le hi hlength),
      Nat.mod_eq_of_lt (Nat.lt_of_lt_of_le hj hlength)] at hmod
    exact hmod
  | unbounded => exact Int.ofNat.inj (Element.int.inj (Option.some.inj (hi'.trans hj'.symm)))
  | _ => cases hi'

/-- Of more positions than there are places, two have the same. -/
theorem exists_common_place (T : Theory α) (hk : k.IsDiscrete) {length : Nat}
    (hplaces : ¬k.HasPlaces length) :
    ∃ (i j : Nat) (e : Element α), i < length ∧ j < length ∧ i ≠ j ∧ ofInt? k i = some e ∧
      ofInt? k j = some e ∧ T.Contains k.sort e := by
  cases hk with
  | bool =>
    -- From the second position on, all of them are at true.
    have hlength : ¬length ≤ 2 := hplaces
    exact ⟨1, 2, .bool true, by omega, by omega, by decide, rfl, rfl, .bool true⟩
  | bounded signed width =>
    -- Behind the last value, the first one comes again.
    have hlength : ¬length ≤ 2 ^ width.bits := hplaces
    have hpositive := Nat.two_pow_pos width.bits
    have hbits : BitVec.ofInt width.bits ((2 ^ width.bits : Nat) : Int) =
        BitVec.ofInt width.bits ((0 : Nat) : Int) := by
      rw [BitVec.ofInt_natCast, BitVec.ofInt_natCast, ← BitVec.toNat_inj, BitVec.toNat_ofNat,
        BitVec.toNat_ofNat, Nat.mod_self, Nat.zero_mod]
    exact ⟨0, 2 ^ width.bits, _, by omega, by omega, by omega, rfl,
      congrArg (fun b => some (Element.bits width.bits b)) hbits, .bits _⟩
  | unbounded => exact absurd trivial hplaces

end Element

namespace TableSetup

variable {α : Type} {carrier : SortExpr → α → Prop}

/-- The literals of different positions denote different elements of the index kind. -/
def HasDistinctPlaces (carrier : SortExpr → α → Prop) (config : Config) (table : Table) : Prop :=
  ∀ i < table.elements.length, ∀ j < table.elements.length, i ≠ j →
    ∃ t u a b, literal config table i = .ok t ∧ literal config table j = .ok u ∧
      (Theory.standard carrier).Contains table.indexKind.sort a ∧
      (Theory.standard carrier).Contains table.indexKind.sort b ∧ a ≠ b ∧
      ∀ I, t.eval (.standard carrier) I = some a ∧ u.eval (.standard carrier) I = some b

/-- The sorts of the nodes that a table takes before its index. -/
def leadingSorts (s : TableSetup) (universals : List Node) : List SortExpr :=
  (s.head universals).leading.map fun n => n.kind.sort

/-- Interpretations of all names but the table's, one for all values of the leading nodes: the nodes
have these values, and the elements of the table are elements of its result kind, which has some. -/
structure IsEnvironment (T : Theory α) (skolems : SkolemMap) (universals : List Node)
    (s : TableSetup) (K : List (Element α) → Interpretation α) : Prop where
  leading : ∀ us, List.Forall₂ T.Contains (s.leadingSorts universals) us →
    Term.evalAll T (K us) ((s.head universals).leading.map Node.term) = some us
  element : ∀ us, List.Forall₂ T.Contains (s.leadingSorts universals) us →
    ∀ n ∈ s.table.elements, ∃ e, (skolems.nodeTerm n).eval T (K us) = some e ∧
      T.Contains s.table.resultKind.sort e
  result : ∃ e, T.Contains s.table.resultKind.sort e

/-- Whatever the elements are, some function satisfies all equations of a table. -/
def IsConsistent (T : Theory α) (skolems : SkolemMap) (universals : List Node) (s : TableSetup) :
    Prop :=
  ∀ K, s.IsEnvironment T skolems universals K →
    ∃ f, T.IsFunction (s.leadingSorts universals ++ [s.table.indexKind.sort])
        s.table.resultKind.sort f ∧
      ∀ us, List.Forall₂ T.Contains (s.leadingSorts universals) us → ∀ q ∈ s.equations,
        q.eval T ((K us).bind (s.head universals).symbol f) = some (.bool true)

/-- The name of a table is not the one of a node. -/
theorem agreesOnNames_bind_tableName {I : Interpretation α} {id : Int} (f : Element.Function α)
    {t : Term} (ht : t.Over fun x => ∃ id, x = .node id) :
    (I.bind (tableName id) f).AgreesOnNames t.names I where
  function h := by
    obtain ⟨_, hnode⟩ := ht _ h
    cases hnode
  node _ := I.bind_of_ne f (nodeName_ne_tableName _ _)

theorem eval_nodeTerm_bind {T : Theory α} {I : Interpretation α} (id : Int)
    (f : Element.Function α) (skolems : SkolemMap) (n : Node) :
    (skolems.nodeTerm n).eval T (I.bind (tableName id) f) = (skolems.nodeTerm n).eval T I :=
  Term.eval_congr (agreesOnNames_bind_tableName f
    (SkolemMap.over_nodeTerm.mpr fun m _ => ⟨m.id, rfl⟩))

theorem evalAll_leading_bind {T : Theory α} {I : Interpretation α} (id : Int)
    (f : Element.Function α) (ns : List Node) :
    Term.evalAll T (I.bind (tableName id) f) (ns.map Node.term) =
      Term.evalAll T I (ns.map Node.term) := by
  refine Term.evalAll_congr (List.forall_mem_map.mpr fun n _ => ?_)
  refine Term.eval_congr (agreesOnNames_bind_tableName f fun x hx => ⟨n.id, ?_⟩)
  exact List.mem_singleton.mp hx

variable {config : Config} {skolems : SkolemMap} {universals : List Node} {constants : Constants}
  {table : Table} {s : TableSetup}

/-- A table is set up as it is. -/
theorem table_of_ofTable (hs : ofTable config skolems universals constants table = .ok s) :
    s.table = table := by
  obtain ⟨-, -, htable, -⟩ := exists_entries hs
  exact htable

/-! ### Literals of positions -/

/-- The literal of a position denotes the element of the position. -/
theorem exists_literal (config : Config) (table : Table) (carrier : SortExpr → α → Prop) {i : Nat}
    {e : Element α}
    (he : Element.ofInt? table.indexKind i = some e) :
    ∃ t, literal config table i = .ok t ∧ ∀ I, t.eval (.standard carrier) I = some e := by
  obtain ⟨t, ht, -⟩ := Scope.eval_constantTerm { config } carrier (fun _ _ => none) he
  refine ⟨t, ht, fun I => ?_⟩
  obtain ⟨u, hu, heval⟩ := Scope.eval_constantTerm { config } carrier I he
  obtain rfl : t = u := Except.ok.inj (ht.symm.trans hu)
  exact heval

theorem hasDistinctPlaces_of_hasPlaces (hk : table.indexKind.IsDiscrete)
    (hplaces : table.indexKind.HasPlaces table.elements.length) :
    HasDistinctPlaces carrier config table := by
  intro i hi j hj hne
  obtain ⟨a, ha, haContains⟩ := Element.exists_ofInt?_position (.standard carrier) hk i
  obtain ⟨b, hb, hbContains⟩ := Element.exists_ofInt?_position (.standard carrier) hk j
  obtain ⟨t, ht, heval⟩ := exists_literal config table carrier ha
  obtain ⟨u, hu, hevalOther⟩ := exists_literal config table carrier hb
  refine ⟨t, u, a, b, ht, hu, haContains, hbContains, ?_, fun I => ⟨heval I, hevalOther I⟩⟩
  rintro rfl
  exact hne (Element.eq_of_ofInt?_eq hplaces hi hj ha hb)

/-! ### Functions that satisfy the equations -/

open Classical in
/-- What a table is at an element of its index kind: what the node at that position denotes, and a
default if there is no such position. -/
noncomputable def valueAt (T : Theory α) (skolems : SkolemMap) (table : Table)
    (I : Interpretation α) (default e : Element α) : Element α :=
  if h : ∃ n, ∃ i : Nat, table.elements[i]? = some n ∧
      Element.ofInt? table.indexKind i = some e then
    ((skolems.nodeTerm h.choose).eval T I).getD default
  else default

open Classical in
/-- A table as a function of the values of its leading nodes and an index. -/
noncomputable def function (T : Theory α) (skolems : SkolemMap) (universals : List Node)
    (s : TableSetup) (K : List (Element α) → Interpretation α) (default : Element α) :
    Element.Function α := fun es =>
  if List.Forall₂ T.Contains (s.leadingSorts universals ++ [s.table.indexKind.sort]) es then
    es.getLast?.map (valueAt T skolems s.table (K es.dropLast) default)
  else none

/-- With places for all positions, a table is at the element of a position what the node there
denotes. -/
theorem valueAt_eq {T : Theory α} {I : Interpretation α} (default : Element α)
    (hplaces : table.indexKind.HasPlaces table.elements.length) {i : Nat} {n : Node}
    (hn : table.elements[i]? = some n) {e b : Element α}
    (he : Element.ofInt? table.indexKind i = some e) (hb : (skolems.nodeTerm n).eval T I = some b) :
    valueAt T skolems table I default e = b := by
  -- The position that is chosen has the same place, and so it is the given one.
  have hposition : ∃ n, ∃ i : Nat, table.elements[i]? = some n ∧
      Element.ofInt? table.indexKind i = some e := ⟨n, i, hn, he⟩
  obtain ⟨j, hj, hej⟩ := hposition.choose_spec
  obtain rfl : i = j := Element.eq_of_ofInt?_eq hplaces (List.getElem?_eq_some_iff.mp hn).1
    (List.getElem?_eq_some_iff.mp hj).1 he hej
  have hchoose : hposition.choose = n := Option.some.inj (hj.symm.trans hn)
  rw [valueAt, dif_pos hposition, hchoose, hb, Option.getD_some]

theorem contains_valueAt {T : Theory α} {K : List (Element α) → Interpretation α}
    (hK : s.IsEnvironment T skolems universals K) {us : List (Element α)}
    (hus : List.Forall₂ T.Contains (s.leadingSorts universals) us) {default : Element α}
    (hdefault : T.Contains s.table.resultKind.sort default) (e : Element α) :
    T.Contains s.table.resultKind.sort (valueAt T skolems s.table (K us) default e) := by
  unfold valueAt
  split
  · next h =>
    obtain ⟨i, hi, -⟩ := h.choose_spec
    obtain ⟨b, hb, hcontains⟩ := hK.element us hus h.choose (List.mem_of_getElem? hi)
    rw [hb]
    exact hcontains
  · exact hdefault

theorem function_append {T : Theory α} {K : List (Element α) → Interpretation α}
    {default : Element α} {us : List (Element α)} {e : Element α}
    (hes : List.Forall₂ T.Contains (s.leadingSorts universals ++ [s.table.indexKind.sort])
      (us ++ [e])) :
    function T skolems universals s K default (us ++ [e]) =
      some (valueAt T skolems s.table (K us) default e) := by
  rw [function, if_pos hes, List.getLast?_concat, List.dropLast_concat, Option.map_some]

theorem exists_of_forall₂_concat {β γ : Type} {R : β → γ → Prop} {bs : List β} {b : β}
    {cs : List γ} (h : List.Forall₂ R (bs ++ [b]) cs) :
    ∃ front c, cs = front ++ [c] ∧ List.Forall₂ R bs front ∧ R b c := by
  induction bs generalizing cs with
  | nil =>
    obtain ⟨c, cs, hc, hnil, rfl⟩ := List.forall₂_cons_left_iff.mp h
    obtain rfl := List.forall₂_nil_left_iff.mp hnil
    exact ⟨[], c, rfl, .nil, hc⟩
  | cons a bs ih =>
    obtain ⟨d, ds, ha, hrest, rfl⟩ := List.forall₂_cons_left_iff.mp h
    obtain ⟨front, c, rfl, hfront, hc⟩ := ih hrest
    exact ⟨d :: front, c, rfl, .cons ha hfront, hc⟩

theorem isFunction_function {T : Theory α} {K : List (Element α) → Interpretation α}
    (hK : s.IsEnvironment T skolems universals K) {default : Element α}
    (hdefault : T.Contains s.table.resultKind.sort default) :
    T.IsFunction (s.leadingSorts universals ++ [s.table.indexKind.sort]) s.table.resultKind.sort
      (function T skolems universals s K default) := by
  refine fun es => ⟨fun hes => ?_, fun hes => if_neg hes⟩
  obtain ⟨us, e, rfl, hus, -⟩ := exists_of_forall₂_concat hes
  exact ⟨_, function_append hes, contains_valueAt hK hus hdefault e⟩

/-- With places for all positions, the equations of a table contradict each other in no
environment. -/
theorem isConsistent_of_hasPlaces (hk : table.indexKind.IsDiscrete)
    (hplaces : table.indexKind.HasPlaces table.elements.length)
    (hs : ofTable config skolems universals constants table = .ok s) :
    s.IsConsistent (.standard carrier) skolems universals := by
  obtain rfl := table_of_ofTable hs
  intro K hK
  obtain ⟨default, hdefault⟩ := hK.result
  refine ⟨function (.standard carrier) skolems universals s K default,
    isFunction_function hK hdefault, fun us hus q hq => ?_⟩
  obtain ⟨i, n, index, hn, hindex, rfl⟩ := (mem_equations_iff hs).mp hq
  obtain ⟨e, he, heContains⟩ := Element.exists_ofInt?_position (.standard carrier) hk i
  obtain ⟨b, hb, hbContains⟩ := hK.element us hus n (List.mem_of_getElem? hn)
  obtain ⟨t, ht, heval⟩ := exists_literal config s.table carrier he
  obtain rfl : index = t := Except.ok.inj (hindex.symm.trans ht)
  have hsymbol : (s.head universals).symbol = tableName s.table.id := rfl
  rw [hsymbol]
  -- Neither the leading nodes nor the elements are called like the table, so they denote what they
  -- denote in the environment.
  set f := function (.standard carrier) skolems universals s K default with hf
  have hleading := (evalAll_leading_bind s.table.id f (s.head universals).leading).trans
    (hK.leading us hus)
  have hat := TableHead.eval_at hsymbol hleading (heval _)
  rw [hsymbol, Interpretation.bind_self, hf,
    function_append (List.rel_append hus (.cons heContains .nil))] at hat
  have hnode := (eval_nodeTerm_bind s.table.id f skolems n).trans hb
  have hvalue := contains_valueAt hK hus hdefault e
  exact (Term.eval_equation_iff hat hnode (hvalue.sameSort hbContains)).mpr
    (valueAt_eq default hplaces hn he hb)

/-! ### Positions without a place -/

/-- Tables with a discrete index kind can be set up. -/
theorem exists_ofTable_of_isDiscrete (config : Config) (skolems : SkolemMap)
    (universals : List Node) (constants : Constants) (hk : table.indexKind.IsDiscrete) :
    ∃ s, ofTable config skolems universals constants table = .ok s := by
  cases hs : ofTable config skolems universals constants table with
  | ok s => exact ⟨s, rfl⟩
  | error e =>
    obtain ⟨-, -, hnumeric⟩ := ofTable_eq_error_iff.mp hs
    generalize table.indexKind = k at hk hnumeric
    cases hk <;> cases hnumeric

/-- Two positions with one place have literals of one element. -/
theorem not_hasDistinctPlaces {i j : Nat} (hi : i < table.elements.length)
    (hj : j < table.elements.length) (hne : i ≠ j) {e : Element α}
    (hei : Element.ofInt? table.indexKind i = some e)
    (hej : Element.ofInt? table.indexKind j = some e) :
    ¬HasDistinctPlaces carrier config table := by
  intro h
  obtain ⟨t, u, a, b, ht, hu, -, -, hab, heval⟩ := h i hi j hj hne
  obtain ⟨t', ht', hevali⟩ := exists_literal config table carrier hei
  obtain ⟨u', hu', hevalj⟩ := exists_literal config table carrier hej
  obtain rfl : t' = t := Except.ok.inj (ht'.symm.trans ht)
  obtain rfl : u' = u := Except.ok.inj (hu'.symm.trans hu)
  obtain ⟨ha, hb⟩ := heval fun _ _ => none
  have hae := ha.symm.trans (hevali _)
  have hbe := hb.symm.trans (hevalj _)
  exact hab (Option.some.inj (hae.trans hbe.symm))

end TableSetup

/-- A table of truth values that are all false, but for one position. -/
def Table.trueAt (k : Kind) (length j : Nat) : Table :=
  ⟨0, k, .bool, (List.range length).map fun i => Node.ofBool (i == j)⟩

theorem Table.length_trueAt (k : Kind) (length j : Nat) :
    (Table.trueAt k length j).elements.length = length := by
  simp [Table.trueAt]

namespace TableSetup

variable {α : Type} {carrier : SortExpr → α → Prop} {s : TableSetup} {k : Kind} {length : Nat}

theorem head_trueAt {j : Nat} (hs : ofTable {} [] [] [] (Table.trueAt k length j) = .ok s) :
    s.head [] = ⟨tableName 0, []⟩ := by
  rw [head, table_of_ofTable hs, ite_self]
  rfl

/-- Truth values need nothing from an interpretation. -/
theorem isEnvironment_trueAt {j : Nat}
    (hs : ofTable {} [] [] [] (Table.trueAt k length j) = .ok s) :
    s.IsEnvironment (.standard carrier) [] [] fun _ _ _ => none where
  leading us hus := by
    rw [leadingSorts, head_trueAt hs] at hus
    obtain rfl := List.forall₂_nil_left_iff.mp hus
    rw [head_trueAt hs]
    rfl
  element us _ n hn := by
    rw [table_of_ofTable hs] at hn ⊢
    obtain ⟨i, -, rfl⟩ := List.mem_map.mp hn
    exact ⟨_, Term.eval_ofBool_term _, .bool _⟩
  result := by
    rw [table_of_ofTable hs]
    exact ⟨_, .bool true⟩

/-- A function that satisfies the equations is at the place of a position what the element is. -/
theorem eq_of_equations_trueAt {i j : Nat} (hi : i < length) {e : Element α}
    (he : Element.ofInt? k i = some e)
    (hs : ofTable {} [] [] [] (Table.trueAt k length j) = .ok s) {f : Element.Function α}
    (hequations : ∀ q ∈ s.equations, q.eval (.standard carrier)
      (Interpretation.bind (fun _ _ => none) (tableName 0) f) = some (.bool true))
    {a : Element α} (ha : f [e] = some a)
    (hbool : (Theory.standard carrier).Contains Kind.bool.sort a) :
    a = .bool (i == j) := by
  obtain ⟨t, ht, heval⟩ := exists_literal {} (Table.trueAt k length j) carrier he
  have hn : (Table.trueAt k length j).elements[i]? = some (Node.ofBool (i == j)) := by
    simp [Table.trueAt, hi]
  have hequation := hequations _ ((mem_equations_iff hs).mpr ⟨i, _, t, hn, ht, rfl⟩)
  rw [head_trueAt hs] at hequation
  have hsymbol : (⟨tableName 0, []⟩ : TableHead).symbol = tableName 0 := rfl
  have hat := TableHead.eval_at hsymbol rfl
    (heval (Interpretation.bind (fun _ _ => none) (tableName 0) f))
  rw [Interpretation.bind_self, List.nil_append, ha] at hat
  exact (Term.eval_equation_iff hat (Term.eval_ofBool_term _)
    (hbool.sameSort (.bool (i == j)))).mp hequation

/-- If a true and a false element of a table have one place, no function satisfies all equations. -/
theorem not_isConsistent_trueAt {i j : Nat} (hi : i < length) (hj : j < length) (hne : i ≠ j)
    {e : Element α} (he : (Theory.standard carrier).Contains k.sort e)
    (hei : Element.ofInt? k i = some e) (hej : Element.ofInt? k j = some e)
    (hs : ofTable {} [] [] [] (Table.trueAt k length j) = .ok s) :
    ¬s.IsConsistent (.standard carrier) [] [] := by
  intro h
  obtain ⟨f, hf, hequations⟩ := h _ (isEnvironment_trueAt hs)
  rw [leadingSorts, head_trueAt hs] at hf hequations
  rw [table_of_ofTable hs] at hf
  obtain ⟨a, ha, hbool⟩ := (hf [e]).1 (.cons he .nil)
  have hfalse := eq_of_equations_trueAt hi hei hs (hequations [] .nil) ha hbool
  have htrue := eq_of_equations_trueAt hj hej hs (hequations [] .nil) ha hbool
  have hsame := Element.bool.inj (hfalse.symm.trans htrue)
  simp [hne] at hsame

/-- Tables with a discrete index kind have literals of different elements for all positions, and are
consistent, just if there are places for so many positions. -/
theorem isConsistent_iff (carrier : SortExpr → α → Prop) (hk : k.IsDiscrete) (length : Nat) :
    ((∀ (config : Config) (table : Table), table.indexKind = k →
        table.elements.length = length → HasDistinctPlaces carrier config table) ↔
      k.HasPlaces length) ∧
    ((∀ (config : Config) (skolems : SkolemMap) (universals : List Node) (constants : Constants)
        (table : Table), table.indexKind = k → table.elements.length = length →
        ∃ s, ofTable config skolems universals constants table = .ok s ∧
          s.IsConsistent (.standard carrier) skolems universals) ↔
      k.HasPlaces length) := by
  constructor
  · constructor
    · intro hall
      by_contra hplaces
      obtain ⟨i, j, e, hi, hj, hne, hei, hej, -⟩ :=
        Element.exists_common_place (.standard carrier) hk hplaces
      have hlength := Table.length_trueAt k length j
      exact not_hasDistinctPlaces (hlength.symm ▸ hi) (hlength.symm ▸ hj) hne hei hej
        (hall {} _ rfl hlength)
    · rintro hplaces config table rfl rfl
      exact hasDistinctPlaces_of_hasPlaces hk hplaces
  · constructor
    · intro hall
      by_contra hplaces
      obtain ⟨i, j, e, hi, hj, hne, hei, hej, he⟩ :=
        Element.exists_common_place (.standard carrier) hk hplaces
      -- Two indices at one place contradict each other if only one of their elements is true.
      obtain ⟨s, hs, hconsistent⟩ := hall {} [] [] [] _ rfl (Table.length_trueAt k length j)
      exact not_isConsistent_trueAt hi hj hne he hei hej hs hconsistent
    · rintro hplaces config skolems universals constants table rfl rfl
      obtain ⟨s, hs⟩ := exists_ofTable_of_isDiscrete config skolems universals constants hk
      exact ⟨s, hs, isConsistent_of_hasPlaces hk hplaces hs⟩

/-- Two hundred elements have places among the signed bytes, half of them at negative ones. -/
theorem isConsistent_signedByte :
    ∃ s, ofTable {} [] [] [] (Table.trueAt .signedByte 200 7) = .ok s ∧
      s.IsConsistent (.standard fun _ (_ : Empty) => False) [] [] :=
  (isConsistent_iff (fun _ (_ : Empty) => False) (.bounded true ⟨8, by decide⟩) 200).2.mpr
    (by decide : 200 ≤ 2 ^ 8) {} [] [] [] _ rfl rfl

/-- Three elements have no places among the truth values: the second and the third one are both at
true, and no function is different elements there. -/
theorem not_isConsistent_threeTruths :
    ∃ s, ofTable {} [] [] [] (Table.trueAt .bool 3 1) = .ok s ∧
      s.equations.map Term.render =
        ["(= (table0 false) false)", "(= (table0 true) true)", "(= (table0 true) false)"] ∧
      ¬HasDistinctPlaces (fun _ (_ : Empty) => False) {} s.table ∧
      ¬s.IsConsistent (.standard fun _ (_ : Empty) => False) [] [] := by
  obtain ⟨s, hs⟩ : ∃ s, ofTable {} [] [] [] (Table.trueAt .bool 3 1) = .ok s := ⟨_, rfl⟩
  refine ⟨s, hs, ?_, ?_, ?_⟩
  · obtain rfl := Except.ok.inj hs
    rfl
  · obtain rfl := Except.ok.inj hs
    have hone : 1 < (Table.trueAt .bool 3 1).elements.length := by decide
    have htwo : 2 < (Table.trueAt .bool 3 1).elements.length := by decide
    exact not_hasDistinctPlaces hone htwo (by decide) rfl rfl
  · have hone : 1 < 3 := by decide
    have htwo : 2 < 3 := by decide
    exact not_isConsistent_trueAt htwo hone (by decide) (.bool true) rfl rfl hs

end TableSetup

end SolverScript
