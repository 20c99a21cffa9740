import SolverScript.Proofs.Problem.Nodes
import SolverScript.Proofs.Script.TableEquations
import SolverScript.Proofs.Script.Vocabulary

/-!
# Names that occur in the set-up of tables and arrays

A table or an array is declared first. Then its initializers are defined one by one, then all of
them together, and the last symbol is asserted; each of these commands mentions what the ones before
it have introduced. The equations mention the elements of the entity.

## Main results

* `Initializer.along_parts`, `Initializer.along_setup` - the initializers of an entity
* `TableSetup.over_equations` - the equations of a table mention its elements
* `TableSetup.along_constantCommands` - a table of known elements is set up at once
* `ArraySetup.eq_of_free`, `ArraySetup.exists_of_derived` - the commands of an array
-/

namespace SolverScript

variable {W : List String → Name → Prop} {known : List String} {V : Name → Prop}

/-- The term of a node mentions the node and what it depends on. -/
theorem SkolemMap.over_nodeTerm {skolems : SkolemMap} {n : Node} :
    (skolems.nodeTerm n).Over V ↔ ∀ m ∈ skolems.mentioned n, V (.node m.id) := by
  unfold nodeTerm mentioned
  cases skolems.dependencies? n <;> simp [Node.term]

theorem tableName_eq (id : Int) :
    tableName id = (GeneratedSymbol.entity (.table id) .itself).name :=
  (String.append_empty).symm

theorem arrayName_eq (id : Int) :
    arrayName id = (GeneratedSymbol.entity (.array id) .itself).name :=
  (String.append_empty).symm

/-! ### Initializers -/

namespace Initializer

theorem name_eq (e : Entity) : name e.name = (GeneratedSymbol.entity e .initializer).name := rfl

theorem partName_eq (e : Entity) (i : Nat) :
    partName e.name i = (GeneratedSymbol.entity e (.numbered i)).name :=
  String.append_assoc.trans String.append_assoc

@[simp] theorem declares_part (entity : String) (i : Nat) (equation : Term) :
    (part entity i equation).declares = [partName entity i] := rfl

theorem fits_part (hW : Scoping W) (e : Entity) (i : Nat) {equation : Term}
    (hequation : equation.Over (W known)) : (part e.name i equation).Fits W known := by
  rw [part, partName_eq]
  exact hW.fits_defineFun _ (Kind.over_sort (hW.vocabulary known) Kind.over_bool) hequation

theorem along_parts (hW : Scoping W) (e : Entity) (i : Nat) {equations : List Term}
    (hequations : ∀ q ∈ equations, q.Over (W known)) :
    Script.Along (Command.Fits W) known (parts e.name i equations) := by
  exact hW.along_of_fits (forall_mem_parts fun j q hq => fits_part hW e j (hequations q hq))

theorem declared_parts (entity : String) (i : Nat) (equations : List Term) :
    Script.declared (parts entity i equations) =
      (List.range' i equations.length).map (partName entity) := by
  induction equations generalizing i with
  | nil => rfl
  | cons q qs ih =>
    simp only [parts, Script.declared_cons, ih, List.length_cons, List.range'_succ, List.map_cons]
    rfl

/-- All initializers together are asserted after they have been defined one by one. -/
theorem along_setup (hW : Scoping W) (e : Entity) {count : Nat}
    (hparts : ∀ i < count, partName e.name i ∈ known) :
    Script.Along (Command.Fits W) known (setup e.name count) := by
  have hV := hW.vocabulary known
  have hpart : ∀ i < count, (Term.symbol (partName e.name i)).Over (W known) := by
    intro i hi
    have hknown := hparts i hi
    rw [partName_eq] at hknown ⊢
    exact Term.over_symbol.mpr (hW.symbol _ hknown)
  have hwhole : ∀ {value : Term} {remark : String}, value.Over (W known) →
      (Command.defineFun (name e.name) Kind.bool.sort value remark).Fits W known :=
    fun hvalue => hW.fits_defineFun (.entity e .initializer) (Kind.over_sort hV Kind.over_bool) hvalue
  have hrequired : (Command.assert (.symbol (name e.name))).Fits W (known ++ [name e.name]) := by
    rw [name_eq, Command.fits_assert, Term.over_symbol]
    exact hW.symbol _ (by simp)
  unfold setup
  dsimp only
  split
  · exact ⟨hwhole (hV.over_ofBool true), trivial⟩
  · exact ⟨hwhole (hpart 0 (by omega)), hrequired, trivial⟩
  · refine ⟨hwhole (Term.over_apply.mpr ⟨by simp [hV.function], List.forall_mem_map.mpr ?_⟩),
      hrequired, trivial⟩
    exact fun i hi => hpart i (List.mem_range.mp hi)

@[simp] theorem declared_setup (entity : String) (count : Nat) :
    Script.declared (setup entity count) = [name entity] := by
  unfold setup
  dsimp only
  split <;> rfl

end Initializer

/-! ### Tables -/

namespace TableSetup

variable {config : Config} {skolems : SkolemMap} {universals : List Node} {constants : Constants}
  {table : Table} {s : TableSetup}

/-- The equations of a table mention the table, what it takes, and its elements. -/
theorem over_equations (hV : Vocabulary V)
    (h : ofTable config skolems universals constants table = .ok s)
    (htable : V (.function (tableName table.id)))
    (huniversals : s.isConstant = false → ∀ n ∈ universals, V (.node n.id))
    (helements : ∀ n ∈ table.elements, (skolems.nodeTerm n).Over V) :
    ∀ q ∈ s.equations, q.Over V := by
  intro q hq
  obtain ⟨i, n, index, hi, hindex, rfl⟩ := (mem_equations_iff h).mp hq
  obtain ⟨-, -, rfl, -⟩ := exists_entries h
  obtain ⟨v, hv, hindex⟩ := bind_eq_ok_iff.mp hindex
  have helement := helements n (List.mem_of_getElem? hi)
  have hindex := Value.over_term hV (Value.over_of_constant hv) hindex
  have hleading : ∀ m ∈ (s.head universals).leading, V (.node m.id) := by
    unfold head
    split
    · simp
    · next hwaits => exact huniversals (by simpa using hwaits)
  have hat := Scope.over_at.mpr ⟨htable, hleading, hindex⟩
  simp [equation, hV.function, helement, hat]

theorem fits_declaration (hW : Scoping W) (hindex : table.indexKind.Over (W known))
    (hresult : table.resultKind.Over (W known)) : (declaration table).Fits W known := by
  have hV := hW.vocabulary known
  rw [declaration, tableName_eq]
  exact hW.fits_declareFun _ (by simpa using Kind.over_sort hV hindex) (Kind.over_sort hV hresult)

theorem fits_deferredDeclaration (hW : Scoping W)
    (huniversals : ∀ n ∈ universals, n.kind.Over (W known))
    (hindex : table.indexKind.Over (W known)) (hresult : table.resultKind.Over (W known)) :
    (deferredDeclaration universals table).Fits W known := by
  have hV := hW.vocabulary known
  rw [deferredDeclaration, tableName_eq]
  refine hW.fits_declareFun _ ?_ (Kind.over_sort hV hresult)
  rw [List.forall_mem_append, List.forall_mem_map]
  exact ⟨fun n hn => Kind.over_sort hV (huniversals n hn), by simpa using Kind.over_sort hV hindex⟩

/-- The initializers of a table come after the table and the elements. -/
theorem along_initializers (hW : Scoping W) (hequations : ∀ q ∈ s.equations, q.Over (W known)) :
    Script.Along (Command.Fits W) known s.initializers := by
  rw [initializers, Script.along_append]
  refine ⟨Initializer.along_parts hW (.table s.table.id) 0 hequations, ?_⟩
  refine Initializer.along_setup hW (.table s.table.id) fun i hi => ?_
  rw [Initializer.declared_parts]
  exact List.mem_append_right _ (List.mem_map_of_mem (by simpa using hi))

theorem declared_initializers (s : TableSetup) :
    Script.declared s.initializers =
      (List.range' 0 s.equations.length).map (Initializer.partName (tableName s.table.id)) ++
        [Initializer.name (tableName s.table.id)] := by
  rw [initializers, Script.declared_append, Initializer.declared_parts, Initializer.declared_setup]

/-- A table of known elements is declared and then set up at once. -/
theorem along_constantCommands (hW : Scoping W)
    (h : ofTable config skolems universals constants table = .ok s)
    (hconstant : s.isConstant = true) (hindex : table.indexKind.Over (W known))
    (hresult : table.resultKind.Over (W known))
    (helements : ∀ n ∈ table.elements, (skolems.nodeTerm n).Over (W known)) :
    Script.Along (Command.Fits W) known s.constantCommands := by
  obtain ⟨-, -, rfl, -⟩ := exists_entries h
  refine ⟨fits_declaration hW hindex hresult, along_initializers hW ?_⟩
  change ∀ q ∈ s.equations, q.Over (W (known ++ [tableName s.table.id]))
  refine over_equations (hW.vocabulary _) h ?_ (by simp [hconstant]) fun n hn =>
    hW.over_mono (List.subset_append_left _ _) (helements n hn)
  rw [tableName_eq]
  exact hW.symbol _ (by simp)

end TableSetup

/-! ### Arrays -/

namespace ArrayContext

/-- The arrays that an array is made from. -/
def sources : ArrayContext → List Int
  | free _ => []
  | mutate base _ _ => [base]
  | merge _ thenArray elseArray => [thenArray, elseArray]

/-- The nodes that the declaration of an array mentions: the initial value of all elements, unless
its literal is written out. -/
def initialNodes (constants : Constants) : ArrayContext → List Node
  | free initializer => initializer.toList.filter fun n => (constants.value? n).isNone
  | _ => []

/-- Whether an array is made from others. -/
def isDerived (context : ArrayContext) : Bool := !context.sources.isEmpty

end ArrayContext

namespace ArraySetup

variable {config : Config} {constants : Constants} {skolems : SkolemMap} {a : ArrayDatum}

/-- The name of an array and of what belongs to it. -/
abbrev entity (a : ArrayDatum) : Entity := .array a.id

theorem eq_of_nodeTerm {isTopLevel : Bool} {n : Node} {t : Term}
    (h : nodeTerm isTopLevel constants skolems n = .ok t) : t = skolems.nodeTerm n := by
  unfold nodeTerm at h
  split at h <;> cases h
  rfl

theorem declares_declaration {term : Node → Except Failure Term} {c : Command}
    (h : declaration config constants term a = .ok c) : c.declares = [arrayName a.id] := by
  obtain ⟨value, rfl⟩ | rfl := declaration_cases h <;> rfl

/-- The declaration of an array mentions its kinds and its initial value. -/
theorem names_declaration_iff (hV : Vocabulary V) (hdomain : a.domain.Over V)
    (hrange : a.range.Over V) (hvalues : ∀ c ∈ constants, c.value.Over V) {isTopLevel : Bool}
    {c : Command}
    (h : declaration config constants (nodeTerm isTopLevel constants skolems) a = .ok c) :
    (∀ x ∈ c.names, V x) ↔
      ∀ n ∈ a.context.initialNodes constants, (skolems.nodeTerm n).Over V := by
  have hsort : (SortExpr.array a.domain a.range).Over V := by
    simp [SortExpr.array, hV.builtin, Kind.over_sort hV hdomain, Kind.over_sort hV hrange]
  have hplain : ∀ x ∈ (Command.declareFun (arrayName a.id) []
      (SortExpr.array a.domain a.range) "").names, V x := hsort
  have hdefined : ∀ value : Term, (∀ x ∈ (Command.defineFun (arrayName a.id)
      (SortExpr.array a.domain a.range) (.app (.ascribed "const"
        (SortExpr.array a.domain a.range)) [value]) "").names, V x) ↔ value.Over V := by
    intro value
    have hvalue : (Term.app (.ascribed "const" (SortExpr.array a.domain a.range))
        [value]).Over V ↔ value.Over V := by simp [hV.function, hsort]
    rw [Command.names, List.forall_mem_append, ← hvalue]
    exact and_iff_right hsort
  -- Only an initial value that is not a constant brings a node into the declaration.
  unfold declaration at h
  cases hcontext : a.context with
  | free initializer? =>
    cases initializer? with
    | none =>
      simp only [hcontext] at h
      split at h <;> cases h
      exact iff_of_true hplain (by simp [ArrayContext.initialNodes])
    | some initializer =>
      simp only [hcontext] at h
      cases hvalue? : constants.value? initializer with
      | some v =>
        rw [hvalue?] at h
        obtain ⟨value, hvalue, h⟩ := bind_eq_ok_iff.mp h
        cases h
        obtain ⟨d, hd, rfl⟩ := Option.map_eq_some_iff.mp hvalue?
        have hliteral := Value.over_term hV (hvalues d (List.mem_of_find?_eq_some hd)) hvalue
        refine (hdefined value).trans (iff_of_true hliteral ?_)
        simp [ArrayContext.initialNodes, hvalue?]
      | none =>
        rw [hvalue?] at h
        obtain ⟨value, hvalue, h⟩ := bind_eq_ok_iff.mp h
        cases h
        obtain rfl := eq_of_nodeTerm hvalue
        refine (hdefined _).trans ?_
        simp [ArrayContext.initialNodes, hvalue?]
  | mutate | merge =>
    simp only [hcontext] at h
    cases h
    exact iff_of_true hplain (by simp [ArrayContext.initialNodes])

/-- The equation of an array mentions the array, the arrays that it is made from, and the nodes that
decide how. -/
theorem over_equation?_iff (hV : Vocabulary V) {isTopLevel : Bool} {q : Term}
    (h : equation? (nodeTerm isTopLevel constants skolems) a = .ok (some q)) :
    q.Over V ↔ (∀ id ∈ a.id :: a.context.sources, V (.function (arrayName id))) ∧
      ∀ n ∈ dependencies a.context, (skolems.nodeTerm n).Over V := by
  unfold equation? at h
  cases hcontext : a.context with
  | free => simp [hcontext] at h
  | mutate base index value =>
    simp only [hcontext] at h
    obtain ⟨i, hi, h⟩ := bind_eq_ok_iff.mp h
    obtain ⟨v, hv, h⟩ := bind_eq_ok_iff.mp h
    cases h
    obtain rfl := eq_of_nodeTerm hi
    obtain rfl := eq_of_nodeTerm hv
    simp [ArrayContext.sources, dependencies, hV.function, and_assoc]
  | merge condition thenArray elseArray =>
    simp only [hcontext] at h
    obtain ⟨c, hc, h⟩ := bind_eq_ok_iff.mp h
    cases h
    obtain rfl := eq_of_nodeTerm hc
    simp [ArrayContext.sources, dependencies, hV.function]
    tauto

theorem equation?_eq_none_iff {term : Node → Except Failure Term} {q? : Option Term}
    (h : equation? term a = .ok q?) : q? = none ↔ a.context.sources = [] := by
  unfold equation? at h
  cases hcontext : a.context with
  | free => simp_all [ArrayContext.sources]
  | mutate base index value =>
    simp only [hcontext] at h
    obtain ⟨i, hi, h⟩ := bind_eq_ok_iff.mp h
    obtain ⟨v, hv, h⟩ := bind_eq_ok_iff.mp h
    cases h
    simp [ArrayContext.sources]
  | merge condition thenArray elseArray =>
    simp only [hcontext] at h
    obtain ⟨c, hc, h⟩ := bind_eq_ok_iff.mp h
    cases h
    simp [ArrayContext.sources]

/-- The commands of an array that is made from others: the equation between them is an initializer
that is defined with the declaration, or waits if it is not about constants only. -/
theorem exists_of_derived {isQuantified : Bool} {s : ArraySetup} (hsources : a.context.sources ≠ [])
    (h : ofArray config isQuantified constants skolems a = .ok s) :
    ∃ isTopLevel declared q,
      declaration config constants (nodeTerm isTopLevel constants skolems) a = .ok declared ∧
      equation? (nodeTerm isTopLevel constants skolems) a = .ok (some q) ∧
      s = ⟨a, (dependencies a.context).all constants.fixes,
        if (dependencies a.context).all constants.fixes then
          [declared, Initializer.part (arrayName a.id) 0 q] else [declared],
        if (dependencies a.context).all constants.fixes then []
          else [Initializer.part (arrayName a.id) 0 q],
        Initializer.setup (arrayName a.id) 1⟩ := by
  unfold ofArray at h
  obtain ⟨declared, hdeclared, h⟩ := bind_eq_ok_iff.mp h
  obtain ⟨q?, hq, h⟩ := bind_eq_ok_iff.mp h
  cases q? with
  | none => exact absurd ((equation?_eq_none_iff hq).mp rfl) hsources
  | some q =>
    refine ⟨_, declared, q, hdeclared, hq, ?_⟩
    dsimp only at h
    split at h <;> cases h <;> simp_all

theorem exists_of_free {isQuantified : Bool} {s : ArraySetup} (hsources : a.context.sources = [])
    (h : ofArray config isQuantified constants skolems a = .ok s) :
    ∃ isTopLevel declared,
      declaration config constants (nodeTerm isTopLevel constants skolems) a = .ok declared ∧
      s = ⟨a, true, [declared], [],
        if isQuantified then [] else Initializer.setup (arrayName a.id) 0⟩ := by
  unfold ofArray at h
  obtain ⟨declared, hdeclared, h⟩ := bind_eq_ok_iff.mp h
  obtain ⟨q?, hq, h⟩ := bind_eq_ok_iff.mp h
  obtain rfl := (equation?_eq_none_iff hq).mpr hsources
  cases h
  exact ⟨_, declared, hdeclared, rfl⟩

end ArraySetup

end SolverScript
