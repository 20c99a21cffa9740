import SolverScript.Proofs.Encoding.RangeCheck
import SolverScript.Proofs.Script.TableEquations
import SolverScript.Proofs.Semantics.Script

/-!
# Look-ups in tables

The equations of a table say what it is at the literals of its positions, and a look-up applies it
to an index. Together they mean the table that the program has: the element at an index inside of
it, and the default elsewhere. This is so as long as the length of the table has a place among the
integers of a signed index kind. Beyond it the range check compares with a negative length, or is
left out because the index kind has no more values than the table has elements, though half of them
are negative.

## Main definitions

* `Table.nodeAt` - the node that a look-up is meant to find
* `Lookup.IsIn` - a look-up in a table of a script
* `Lookup.HasMeaning` - an interpretation that satisfies the equations of the table

## Main results

* `Scope.lookup_eval_iff` - look-ups find the right node just for the admitted lengths
-/

namespace SolverScript

variable {α : Type} {carrier : SortExpr → α → Prop}

/-! ### The meaning of a look-up -/

/-- The node that a look-up is meant to find: the element at the index, or the default. -/
def Table.nodeAt (table : Table) (default : Node) (v : Int) : Node :=
  (if v < 0 then none else table.elements[v.toNat]?).getD default

/-- A look-up in a table of a script. It is about the index kind and the length of the table, and is
written with the head that the equations of the table have. -/
structure Lookup.IsIn (scope : Scope) (l : Lookup) (s : TableSetup) : Prop where
  setup : ∃ universals constants,
    TableSetup.ofTable scope.config scope.skolems universals constants s.table = .ok s ∧
      scope.tables.head l.table = s.head universals
  indexKind : l.indexKind = s.table.indexKind
  index : l.index.kind = s.table.indexKind
  length : l.length = s.table.elements.length

/-- An interpretation in which a look-up has a meaning: the table is a function that satisfies its
equations, and the index denotes an element of the integer `v`. -/
structure Lookup.HasMeaning (T : Theory α) (I : Interpretation α) (scope : Scope) (l : Lookup)
    (s : TableSetup) (v : Int) : Prop where
  leading : ∃ us, Term.evalAll T I ((scope.tables.head l.table).leading.map Node.term) = some us ∧
    List.Forall₂ T.Contains ((scope.tables.head l.table).leading.map fun n => n.kind.sort) us
  isFunction : T.IsFunction
    ((scope.tables.head l.table).leading.map (fun n => n.kind.sort) ++ [s.table.indexKind.sort])
    s.table.resultKind.sort (I (scope.tables.head l.table).symbol)
  equation : ∀ q ∈ s.equations, q.eval T I = some (.bool true)
  element : ∀ n ∈ s.table.elements,
    ∃ e, (scope.nodeTerm n).eval T I = some e ∧ T.Contains s.table.resultKind.sort e
  default : ∃ e, (scope.nodeTerm l.default).eval T I = some e ∧
    T.Contains s.table.resultKind.sort e
  index : ∃ e, (scope.nodeTerm l.index).eval T I = some e ∧
    T.Contains s.table.indexKind.sort e ∧ e.read s.table.indexKind.isSigned = v

/-- The standard theory has no function that is called like a table. -/
theorem Term.lookup_tableName (id : Int) :
    (Theory.symbols (α := α)).lookup (tableName id) = none := by
  have hkeys : ∀ key ∈ (Theory.symbols (α := α)).map Prod.fst,
      key.toList.take 5 ≠ ['t', 'a', 'b', 'l', 'e'] := by
    simp [Theory.symbols, Theory.core, Theory.integers, Theory.bitVectors]
  exact lookup_of_not_mem_keys fun hname => hkeys _ hname (by simp [tableName])

/-- The application of a table to its leading nodes and an index. -/
theorem TableHead.eval_at {I : Interpretation α} {head : TableHead} {id : Int}
    (hsymbol : head.symbol = tableName id) {us : List (Element α)} {e : Element α} {t : Term}
    (hleading : Term.evalAll (.standard carrier) I (head.leading.map Node.term) = some us)
    (ht : t.eval (.standard carrier) I = some e) :
    (head.at t).eval (.standard carrier) I = I head.symbol (us ++ [e]) := by
  have hall : Term.evalAll (.standard carrier) I (head.leading.map Node.term ++ [t]) =
      some (us ++ [e]) :=
    Term.evalAll_eq_some_iff.mpr (List.rel_append (Term.evalAll_eq_some_iff.mp hleading)
      (.cons ht .nil))
  rw [TableHead.at, Term.eval_app_of_evalAll hall]
  simp [Theory.apply, Term.name?, Theory.standard, hsymbol, Term.lookup_tableName]

namespace Lookup.HasMeaning

variable {I : Interpretation α} {scope : Scope} {l : Lookup} {s : TableSetup} {v : Int}

/-- The table has an element of its result kind at every index. -/
theorem exists_eval_at (h : l.HasMeaning (.standard carrier) I scope s v)
    (hl : l.IsIn scope s) {e : Element α}
    (he : (Theory.standard carrier).Contains s.table.indexKind.sort e) :
    ∃ a, (Theory.standard carrier).Contains s.table.resultKind.sort a ∧
      ∀ t : Term, t.eval (.standard carrier) I = some e →
        ((scope.tables.head l.table).at t).eval (.standard carrier) I = some a := by
  obtain ⟨us, hus, hcontains⟩ := h.leading
  obtain ⟨universals, constants, -, hhead⟩ := hl.setup
  obtain ⟨a, ha, haContains⟩ := (h.isFunction (us ++ [e])).1
    (List.rel_append hcontains (.cons he .nil))
  refine ⟨a, haContains, fun t ht => ?_⟩
  have hsymbol : (scope.tables.head l.table).symbol = tableName s.table.id := by
    rw [hhead]
    rfl
  rw [TableHead.eval_at hsymbol hus ht, ha]

/-- At the literal of a position the table is the element there. -/
theorem eval_at_eq_element (h : l.HasMeaning (.standard carrier) I scope s v)
    (hl : l.IsIn scope s) {i : Nat} {n : Node} (hn : s.table.elements[i]? = some n)
    {e a : Element α} (he : Element.ofInt? s.table.indexKind i = some e)
    (ha : (Theory.standard carrier).Contains s.table.resultKind.sort a)
    (hat : ∀ t : Term, t.eval (.standard carrier) I = some e →
      ((scope.tables.head l.table).at t).eval (.standard carrier) I = some a) :
    (scope.nodeTerm n).eval (.standard carrier) I = some a := by
  obtain ⟨universals, constants, hsetup, hhead⟩ := hl.setup
  obtain ⟨index, hindex, hindexEval⟩ :=
    scope.eval_constantTerm carrier I he
  obtain ⟨b, hb, hbContains⟩ := h.element n (List.mem_of_getElem? hn)
  have hequation := h.equation _
    ((TableSetup.mem_equations_iff hsetup).mpr ⟨i, n, index, hn, hindex, rfl⟩)
  rw [TableSetup.equation, ← hhead] at hequation
  rw [(Term.eval_equation_iff (hat index hindexEval) hb (ha.sameSort hbContains)).mp hequation]
  exact hb

end Lookup.HasMeaning

/-- A look-up finds the right node in a table of an admitted length. -/
theorem Scope.exists_lookup_of_admitsLength {I : Interpretation α} {scope : Scope} {l : Lookup}
    {s : TableSetup} {v : Int} (operation : Operation) (hk : s.table.indexKind.IsIndex)
    (hadmits : s.table.indexKind.AdmitsLength s.table.elements.length) (hl : l.IsIn scope s)
    (h : l.HasMeaning (.standard carrier) I scope s v) :
    ∃ t, scope.lookup l operation = .ok t ∧ t.eval (.standard carrier) I =
      (scope.nodeTerm (s.table.nodeAt l.default v)).eval (.standard carrier) I := by
  obtain ⟨e, heval, he, rfl⟩ := h.index
  obtain ⟨d, hd, hdContains⟩ := h.default
  obtain ⟨a, haContains, hat⟩ := h.exists_eval_at hl he
  have hread := Element.ofInt?_read_of_contains hk he
  have hindex := hl.index
  rw [← hl.indexKind] at hk hadmits hread he hindex
  rw [← hl.length] at hadmits
  obtain ⟨t, ht, hvalue⟩ := scope.exists_eval_lookup operation hk hindex he heval
    hdContains hd haContains (hat _ heval)
  refine ⟨t, ht, ?_⟩
  rw [hvalue, if_congr (Scope.isOutside_iff hk hadmits hread) rfl rfl, hl.length, ← hl.indexKind]
  generalize hv : e.read l.indexKind.isSigned = v at hread
  unfold Table.nodeAt
  -- A negative index is outside; another one is, if it is at least the length.
  by_cases hnegative : v < 0
  · simp [hnegative, hd]
  · cases hn : s.table.elements[v.toNat]? with
    | none =>
      have hlong : (s.table.elements.length : Int) ≤ v := by
        have := List.getElem?_eq_none_iff.mp hn
        omega
      simp [hnegative, hlong, hd]
    | some n =>
      have hshort : ¬(s.table.elements.length : Int) ≤ v := by
        have := (List.getElem?_eq_some_iff.mp hn).1
        omega
      have hnat : ((v.toNat : Nat) : Int) = v := by omega
      rw [hl.indexKind] at hread
      have helement := h.eval_at_eq_element hl hn (hnat.symm ▸ hread) haContains hat
      simp [hnegative, hshort, helement]

/-! ### Lengths that are not admitted -/

/-- A table of truth values that are all false. -/
def Table.allFalse (k : Kind) (length : Nat) : Table :=
  ⟨0, k, .bool, List.replicate length (Node.ofBool false)⟩

/-- A look-up in a table of false truth values, with a true default. -/
def Lookup.inAllFalse (k : Kind) (length : Nat) : Lookup :=
  ⟨0, k, .bool, length, ⟨0, k⟩, Node.ofBool true⟩

open Classical in
/-- The interpretation in which the first table is always false, and all nodes are one element. -/
noncomputable def Interpretation.allFalse (T : Theory α) (k : Kind) (e : Element α) :
    Interpretation α := fun name =>
  if name = tableName 0 then
    fun es => if List.Forall₂ T.Contains [k.sort] es then some (.bool false) else none
  else e.constant

theorem Interpretation.isFunction_allFalse {T : Theory α} {k : Kind} {e : Element α} :
    T.IsFunction [k.sort] Kind.bool.sort (allFalse T k e (tableName 0)) := by
  intro es
  rw [allFalse, if_pos rfl]
  exact ⟨fun hes => ⟨.bool false, if_pos hes, .bool false⟩, fun hes => if_neg hes⟩

/-- Tables with an index kind can be set up. -/
theorem TableSetup.exists_ofTable (config : Config) (skolems : SkolemMap) (universals : List Node)
    (constants : Constants) {table : Table} (hk : table.indexKind.IsIndex) :
    ∃ s, TableSetup.ofTable config skolems universals constants table = .ok s ∧
      s.table = table := by
  have hindexed : ∀ i ns, ∃ entries, indexed config table i ns = .ok entries := by
    intro i ns
    induction ns generalizing i with
    | nil => exact ⟨[], rfl⟩
    | cons n ns ih =>
      obtain ⟨entries, hentries⟩ := ih (i + 1)
      obtain ⟨e, he, -⟩ := Scope.exists_ofInt?_bound (α := Empty) hk i
      obtain ⟨index, hindex, -⟩ := Scope.eval_constantTerm { config } (fun _ _ => False)
        (fun _ _ => none) he
      obtain ⟨v, hv, hindex⟩ := bind_eq_ok_iff.mp hindex
      exact ⟨(index, n) :: entries, bind_eq_ok_iff.mpr ⟨v, hv, bind_eq_ok_iff.mpr
        ⟨index, hindex, bind_eq_ok_iff.mpr ⟨entries, hentries, rfl⟩⟩⟩⟩
  obtain ⟨entries, hentries⟩ := hindexed 0 table.elements
  exact ⟨_, bind_eq_ok_iff.mpr ⟨entries, hentries, rfl⟩, rfl⟩

/-- The table of false truth values is false at every index. -/
theorem TableHead.eval_at_allFalse {k : Kind} (hk : k.IsIndex) {n : Int} {a e : Element α}
    (ha : Element.ofInt? k n = some a) {t : Term}
    (ht : t.eval (.standard carrier) (Interpretation.allFalse (.standard carrier) k e) = some a) :
    ((⟨tableName 0, []⟩ : TableHead).at t).eval (.standard carrier)
      (Interpretation.allFalse (.standard carrier) k e) = some (.bool false) := by
  have hleading : Term.evalAll (.standard carrier)
      (Interpretation.allFalse (.standard carrier) k e) [] = some [] := rfl
  rw [TableHead.eval_at rfl hleading ht, Interpretation.allFalse, if_pos rfl]
  exact if_pos (.cons (Element.contains_of_ofInt? hk ha) .nil)

/-- Nodes other than the truth values are the given element. -/
theorem Lookup.eval_index_allFalse {k : Kind} {length : Nat} {e : Element α} :
    (({} : Scope).nodeTerm (inAllFalse k length).index).eval (.standard carrier)
      (Interpretation.allFalse (.standard carrier) k e) = some e := by
  have hname : nodeName 0 ≠ tableName 0 := nodeName_ne_tableName 0 0
  have hnode : (({} : Scope).nodeTerm ⟨0, k⟩) = .node 0 := rfl
  rw [inAllFalse, hnode, Term.eval_node (by decide) (by decide), Interpretation.allFalse,
    if_neg hname]
  rfl

/-- A look-up in a table of false truth values has a meaning at every index. -/
theorem Lookup.hasMeaning_allFalse {k : Kind} (hk : k.IsIndex) {length : Nat} {s : TableSetup}
    (hs : TableSetup.ofTable {} [] [] [] (Table.allFalse k length) = .ok s)
    (htable : s.table = Table.allFalse k length) {n : Int} {e : Element α}
    (he : Element.ofInt? k n = some e) :
    (Lookup.inAllFalse k length).HasMeaning (.standard carrier)
      (Interpretation.allFalse (.standard carrier) k e) {} s (e.read k.isSigned) := by
  have hnode : ∀ b, (({} : Scope).nodeTerm (Node.ofBool b)).eval (.standard carrier)
      (Interpretation.allFalse (.standard carrier) k e) = some (.bool b) :=
    fun b => Term.eval_ofBool_term b
  have helements : ∀ m ∈ s.table.elements, m = Node.ofBool false := by
    rw [htable]
    exact fun m hm => List.eq_of_mem_replicate hm
  refine ⟨⟨[], rfl, .nil⟩, ?_, ?_, ?_, ⟨_, hnode true, ?_⟩, ⟨e, ?_, ?_, ?_⟩⟩
  · rw [htable]
    exact Interpretation.isFunction_allFalse
  · intro q hq
    obtain ⟨i, m, index, hm, hindex, rfl⟩ := (TableSetup.mem_equations_iff hs).mp hq
    have hfalse := helements m (htable ▸ List.mem_of_getElem? hm)
    obtain ⟨a, ha, -⟩ := Scope.exists_ofInt?_bound (α := α) hk i
    obtain ⟨index', hindex', heval⟩ := Scope.eval_constantTerm {} carrier
      (Interpretation.allFalse (.standard carrier) k e) ha
    obtain rfl : index' = index := Except.ok.inj (hindex'.symm.trans hindex)
    have hhead : s.head [] = ⟨tableName 0, []⟩ := by
      rw [TableSetup.head, htable]
      simp [Table.allFalse]
    rw [TableSetup.equation, hhead, hfalse]
    have hat := TableHead.eval_at_allFalse hk ha heval
    exact (Term.eval_equation_iff hat (hnode false) rfl).mpr rfl
  · intro m hm
    rw [helements m hm, htable]
    exact ⟨_, hnode false, .bool _⟩
  · rw [htable]
    exact .bool _
  · exact eval_index_allFalse
  · rw [htable]
    exact Element.contains_of_ofInt? hk he
  · rw [htable]
    rfl

theorem Lookup.isIn_allFalse {k : Kind} {length : Nat} {s : TableSetup}
    (hs : TableSetup.ofTable {} [] [] [] (Table.allFalse k length) = .ok s)
    (htable : s.table = Table.allFalse k length) :
    (Lookup.inAllFalse k length).IsIn {} s where
  setup := by
    refine ⟨[], [], htable ▸ hs, ?_⟩
    rw [TableSetup.head, htable, ite_self]
    rfl
  indexKind := by rw [htable]; rfl
  index := by rw [htable]; rfl
  length := by simp [htable, inAllFalse, Table.allFalse]

/-- A look-up in a table of false truth values tells whether its check finds the index outside,
where it should tell whether the index is outside. -/
theorem Lookup.exists_eval_inAllFalse (carrier : SortExpr → α → Prop) {k : Kind} (hk : k.IsIndex)
    (length : Nat) (operation : Operation) {n : Int} {e : Element α}
    (he : Element.ofInt? k n = some e) :
    (∃ t, ({} : Scope).lookup (inAllFalse k length) operation = .ok t ∧
      t.eval (.standard carrier) (Interpretation.allFalse (.standard carrier) k e) =
        some (.bool (decide (k.isChecked length ∧
          (e.read k.isSigned < 0 ∨ k.bound length ≤ e.read k.isSigned))))) ∧
      (({} : Scope).nodeTerm ((Table.allFalse k length).nodeAt (Node.ofBool true)
          (e.read k.isSigned))).eval (.standard carrier)
          (Interpretation.allFalse (.standard carrier) k e) =
        some (.bool (decide (e.read k.isSigned < 0 ∨ (length : Int) ≤ e.read k.isSigned))) := by
  have hnode : ∀ b, (({} : Scope).nodeTerm (Node.ofBool b)).eval (.standard carrier)
      (Interpretation.allFalse (.standard carrier) k e) = some (.bool b) :=
    fun b => Term.eval_ofBool_term b
  constructor
  · obtain ⟨t, ht, hvalue⟩ := ({} : Scope).exists_eval_lookup (l := inAllFalse k length)
      operation hk rfl (s := Kind.bool.sort) (Element.contains_of_ofInt? hk he)
      eval_index_allFalse (.bool true) (hnode true) (.bool false)
      (TableHead.eval_at_allFalse hk he eval_index_allFalse)
    refine ⟨t, ht, hvalue.trans ?_⟩
    rw [Option.some.injEq]
    by_cases hcheck : k.isChecked length ∧
        (e.read k.isSigned < 0 ∨ k.bound length ≤ e.read k.isSigned)
    · rw [decide_eq_true hcheck]
      exact if_pos hcheck
    · rw [decide_eq_false hcheck]
      exact if_neg hcheck
  · have hfind : (Table.allFalse k length).nodeAt (Node.ofBool true) (e.read k.isSigned) =
        Node.ofBool (decide (e.read k.isSigned < 0 ∨ (length : Int) ≤ e.read k.isSigned)) := by
      generalize e.read k.isSigned = v
      by_cases hnegative : v < 0
      · simp [Table.nodeAt, hnegative]
      · by_cases hlong : (length : Int) ≤ v
        · have hnone : length ≤ v.toNat := by omega
          simp [Table.nodeAt, Table.allFalse, hnegative, hlong, Nat.not_lt.mpr hnone]
        · have hsome : v.toNat < length := by omega
          simp [Table.nodeAt, Table.allFalse, hnegative, hlong, hsome]
    rw [hfind, hnode]

/-- Look-ups in tables of some length find the right node, for all elements, defaults and indices,
just if the length is admitted by the kind of the index. -/
theorem Scope.lookup_eval_iff (carrier : SortExpr → α → Prop) {k : Kind} (hk : k.IsIndex)
    (length : Nat) :
    (∀ (scope : Scope) (l : Lookup) (s : TableSetup) (operation : Operation)
        (I : Interpretation α) (v : Int),
      s.table.indexKind = k → s.table.elements.length = length → l.IsIn scope s →
        l.HasMeaning (.standard carrier) I scope s v →
          ∃ t, scope.lookup l operation = .ok t ∧ t.eval (.standard carrier) I =
            (scope.nodeTerm (s.table.nodeAt l.default v)).eval (.standard carrier) I) ↔
      k.AdmitsLength length := by
  constructor
  · intro hall
    by_contra hadmits
    -- There is an index whose check is wrong. A table in which the default can be told from the
    -- elements shows it.
    obtain ⟨n, e, he, hwrong⟩ := Scope.exists_not_isOutside_iff (α := α) hk hadmits
    obtain ⟨s, hs, htable⟩ := TableSetup.exists_ofTable {} [] [] []
      (show (Table.allFalse k length).indexKind.IsIndex from hk)
    obtain ⟨t, ht, hvalue⟩ := hall {} (Lookup.inAllFalse k length) s ⟨.and, []⟩
      (Interpretation.allFalse (.standard carrier) k e) (e.read k.isSigned)
      (by rw [htable]; rfl) (by simp [htable, Table.allFalse]) (Lookup.isIn_allFalse hs htable)
      (Lookup.hasMeaning_allFalse hk hs htable he)
    obtain ⟨⟨t', ht', hvalue'⟩, hexpected⟩ :=
      Lookup.exists_eval_inAllFalse carrier hk length ⟨.and, []⟩ he
    obtain rfl : t = t' := Except.ok.inj (ht.symm.trans ht')
    rw [htable] at hvalue
    rw [hvalue'] at hvalue
    have hboth := hvalue.trans hexpected
    simp only [Option.some.injEq, Element.bool.injEq, decide_eq_decide] at hboth
    -- Both sides are truth values: what the check says, and what it should say.
    exact hwrong hboth
  · intro hadmits scope l s operation I v hindex hlength hl h
    rw [← hindex] at hk hadmits
    rw [← hlength] at hadmits
    exact exists_lookup_of_admitsLength operation hk hadmits hl h

/-- The kind of bytes with a sign. -/
abbrev Kind.signedByte : Kind := .bounded true ⟨8, by decide⟩

/-- In a table of three false truth values, the look-up at one finds a false one. -/
theorem Scope.lookup_three_elements :
    ∃ t, ({} : Scope).lookup (Lookup.inAllFalse .signedByte 3) ⟨.and, []⟩ = .ok t ∧
      t.eval (.standard fun _ (_ : Empty) => False)
        (Interpretation.allFalse (.standard fun _ _ => False) .signedByte (.bits 8 1)) =
          some (.bool false) := by
  obtain ⟨s, hs, htable⟩ := TableSetup.exists_ofTable {} [] [] []
    (show (Table.allFalse .signedByte 3).indexKind.IsIndex from .bounded _ _)
  obtain ⟨t, ht, hvalue⟩ := (lookup_eval_iff (fun _ (_ : Empty) => False)
    (.bounded true ⟨8, by decide⟩) 3).mpr (by decide : 3 < 2 ^ 7) {} _ s ⟨.and, []⟩ _ 1
    (by rw [htable]; rfl) (by rw [htable]; rfl) (Lookup.isIn_allFalse hs htable)
    (Lookup.hasMeaning_allFalse (n := 1) (.bounded _ _) hs htable rfl)
  refine ⟨t, ht, hvalue.trans ?_⟩
  rw [htable]
  exact Term.eval_ofBool_term false

/-- In a table of one hundred and twenty-eight false truth values, the look-up at zero finds the
default, because the length is read as a negative number. -/
theorem Scope.lookup_wraps :
    ∃ s, TableSetup.ofTable {} [] [] [] (Table.allFalse .signedByte 128) = .ok s ∧
      (Lookup.inAllFalse .signedByte 128).IsIn {} s ∧
      (Lookup.inAllFalse .signedByte 128).HasMeaning (.standard fun _ (_ : Empty) => False)
        (Interpretation.allFalse (.standard fun _ _ => False) .signedByte (.bits 8 0)) {} s 0 ∧
      ∃ t, ({} : Scope).lookup (Lookup.inAllFalse .signedByte 128) ⟨.and, []⟩ = .ok t ∧
        t.eval (.standard fun _ (_ : Empty) => False)
          (Interpretation.allFalse (.standard fun _ _ => False) .signedByte (.bits 8 0)) ≠
        (({} : Scope).nodeTerm (s.table.nodeAt (Node.ofBool true) 0)).eval
          (.standard fun _ (_ : Empty) => False)
          (Interpretation.allFalse (.standard fun _ _ => False) .signedByte (.bits 8 0)) := by
  obtain ⟨s, hs, htable⟩ := TableSetup.exists_ofTable {} [] [] []
    (show (Table.allFalse .signedByte 128).indexKind.IsIndex from .bounded _ _)
  obtain ⟨⟨t, ht, hvalue⟩, hexpected⟩ := Lookup.exists_eval_inAllFalse
    (fun _ (_ : Empty) => False) (k := .signedByte) (n := 0) (.bounded _ _) 128 ⟨.and, []⟩ rfl
  refine ⟨s, hs, Lookup.isIn_allFalse hs htable,
    Lookup.hasMeaning_allFalse (n := 0) (.bounded _ _) hs htable rfl, t, ht, fun heq => ?_⟩
  rw [htable] at heq
  have hbool := Element.bool.inj (Option.some.inj (hvalue.symm.trans (heq.trans hexpected)))
  exact absurd hbool (by decide)

end SolverScript
