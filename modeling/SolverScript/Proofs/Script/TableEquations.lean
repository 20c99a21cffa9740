import SolverScript.Proofs.Results
import SolverScript.Script.Entity

/-!
# Equations of tables

A table is set up by one equation for each of its elements. All of them apply the table in the same
way, to the universal nodes if one of the elements has to wait for them.

## Main definitions

* `TableSetup.head` - how a table is applied
* `TableSetup.equation` - the equation of a table at one position

## Main results

* `TableSetup.mem_equations_iff` - the equations of a table are those of its positions
* `TableSetup.isConstant_iff` - which tables wait
-/

namespace SolverScript

namespace TableSetup

variable {config : Config} {skolems : SkolemMap} {universals : List Node} {constants : Constants}
  {table : Table}

/-- The literal of a position at the index kind of a table. -/
def literal (config : Config) (table : Table) (i : Nat) : Except Failure Term :=
  Value.constant table.indexKind i >>= fun v => v.term config.roundingMode

/-- Positions are paired with the elements there. -/
theorem indexed_spec {i : Nat} {ns : List Node} {entries : List (Term × Node)}
    (h : indexed config table i ns = .ok entries) :
    (∀ j n, ns[j]? = some n →
        ∃ index, literal config table (i + j) = .ok index ∧ (index, n) ∈ entries) ∧
      ∀ entry ∈ entries, ∃ j, ns[j]? = some entry.2 ∧
        literal config table (i + j) = .ok entry.1 := by
  induction ns generalizing i entries with
  | nil =>
    cases h
    exact ⟨by simp, by simp⟩
  | cons n ns ih =>
    unfold indexed at h
    obtain ⟨v, hv, h⟩ := bind_eq_ok_iff.mp h
    obtain ⟨index, hindex, h⟩ := bind_eq_ok_iff.mp h
    obtain ⟨rest, hrest, h⟩ := bind_eq_ok_iff.mp h
    obtain rfl := Except.ok.inj h
    have hliteral : literal config table i = .ok index := bind_eq_ok_iff.mpr ⟨v, hv, hindex⟩
    obtain ⟨hpositions, hentries⟩ := ih hrest
    -- Indices are counted from the given one on, so that the tail starts one later.
    constructor
    · intro j m hm
      cases j with
      | zero =>
        obtain rfl : n = m := by simpa using hm
        exact ⟨index, hliteral, List.mem_cons_self⟩
      | succ j =>
        obtain ⟨index', hindex', hmem⟩ := hpositions j m (by simpa using hm)
        refine ⟨index', ?_, List.mem_cons_of_mem _ hmem⟩
        rwa [Nat.add_assoc, Nat.add_comm 1 j] at hindex'
    · intro entry hentry
      rcases List.mem_cons.mp hentry with rfl | hentry
      · exact ⟨0, rfl, hliteral⟩
      · obtain ⟨j, hj, hindex'⟩ := hentries entry hentry
        refine ⟨j + 1, by simpa using hj, ?_⟩
        rwa [Nat.add_assoc, Nat.add_comm 1 j] at hindex'

/-- The equation of a table at one position. -/
def equation (skolems : SkolemMap) (head : TableHead) (index : Term) (n : Node) : Term :=
  .app (.symbol "=") [head.at index, skolems.nodeTerm n]

/-- How a table is written, once it is known which universal nodes it takes. -/
def head (s : TableSetup) (universals : List Node) : TableHead :=
  ⟨tableName s.table.id, if s.isConstant then [] else universals⟩

/-- A set-up is made from the elements of the table: those that are known from the start come first,
and if there are others the table waits. -/
theorem exists_entries {s : TableSetup}
    (h : ofTable config skolems universals constants table = .ok s) :
    ∃ entries, indexed config table 0 table.elements = .ok entries ∧ s.table = table ∧
      (s.isConstant = true ↔ ∀ entry ∈ entries, constants.fixes entry.2 = true) ∧
      s.equations = (entries.filter (fun entry => constants.fixes entry.2) ++
        entries.filter (fun entry => !constants.fixes entry.2)).map fun entry =>
          equation skolems (s.head universals) entry.1 entry.2 := by
  unfold ofTable at h
  obtain ⟨entries, hentries, h⟩ := bind_eq_ok_iff.mp h
  simp only [List.partition_eq_filter_filter] at h
  cases h
  refine ⟨entries, hentries, rfl, ?_, rfl⟩
  simp [List.filter_eq_nil_iff]

/-- The equations of a table are those of its positions. -/
theorem mem_equations_iff {s : TableSetup}
    (h : ofTable config skolems universals constants table = .ok s) {q : Term} :
    q ∈ s.equations ↔ ∃ i n index, table.elements[i]? = some n ∧
      literal config table i = .ok index ∧ q = equation skolems (s.head universals) index n := by
  obtain ⟨entries, hentries, -, -, hequations⟩ := exists_entries h
  obtain ⟨hpositions, hmem⟩ := indexed_spec hentries
  simp only [Nat.zero_add] at hpositions hmem
  -- Sorting the entries by whether they are known keeps all of them.
  have hsplit : ∀ entry, entry ∈ entries.filter (fun entry => constants.fixes entry.2) ++
      entries.filter (fun entry => !constants.fixes entry.2) ↔ entry ∈ entries := by
    intro entry
    rw [List.mem_append, List.mem_filter, List.mem_filter]
    cases constants.fixes entry.2 <;> simp
  rw [hequations]
  constructor
  · intro hq
    obtain ⟨⟨index, n⟩, hentry, rfl⟩ := List.mem_map.mp hq
    obtain ⟨i, hi, hindex⟩ := hmem _ ((hsplit _).mp hentry)
    exact ⟨i, n, index, hi, hindex, rfl⟩
  · rintro ⟨i, n, index, hi, hindex, rfl⟩
    obtain ⟨index', hindex', hentry⟩ := hpositions i n hi
    obtain rfl : index = index' := Except.ok.inj (hindex.symm.trans hindex')
    exact List.mem_map.mpr ⟨(index, n), (hsplit _).mpr hentry, rfl⟩

/-- A table waits just if one of its elements is not known from the start. -/
theorem isConstant_iff {s : TableSetup}
    (h : ofTable config skolems universals constants table = .ok s) :
    s.isConstant = true ↔ ∀ n ∈ table.elements, constants.fixes n = true := by
  obtain ⟨entries, hentries, -, hconstant, -⟩ := exists_entries h
  obtain ⟨hpositions, hmem⟩ := indexed_spec hentries
  rw [hconstant]
  constructor
  · intro hfixed n hn
    obtain ⟨i, hi⟩ := List.mem_iff_getElem?.mp hn
    obtain ⟨index, -, hentry⟩ := hpositions i n hi
    exact hfixed _ hentry
  · intro hfixed entry hentry
    obtain ⟨i, hi, -⟩ := hmem entry hentry
    exact hfixed _ (List.mem_of_getElem? hi)

end TableSetup

end SolverScript
