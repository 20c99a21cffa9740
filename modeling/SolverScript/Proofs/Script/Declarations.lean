import SolverScript.Proofs.Script.CommandForms
import SolverScript.Proofs.Script.Definitions

/-!
# Declarations of inputs and constants

Inputs are declared and take any value, or any function of the nodes that they depend on; constants
are defined as their literals. Neither touches the names of other nodes.

## Main results

* `Script.runs_iff_of_declarations` - the runs of declarations
* `Declaration.exists_run_constants` - the run of the definitions of constants
-/

namespace SolverScript

variable {α : Type}

/-! ### Declarations -/

/-- Commands that declare a function or do nothing. -/
def Command.IsDeclaration (c : Command) : Prop :=
  c.IsInert ∨ ∃ name domain range remark, c = declareFun name domain range remark

/-- After declarations, the declared names stand for functions of their sorts, and nothing else is
known about them. Other names are left alone. -/
theorem Script.runs_iff_of_declarations {T : Theory α} {cs : List Command}
    (hcs : ∀ c ∈ cs, c.IsDeclaration) (hnames : (cs.filterMap Command.introduced?).Nodup)
    {I J : Interpretation α} :
    Runs T cs I J ↔ (∀ name ∉ cs.filterMap Command.introduced?, J name = I name) ∧
      ∀ name domain range remark, .declareFun name domain range remark ∈ cs →
        T.IsFunction domain range (J name) := by
  induction cs generalizing I with
  | nil =>
    rw [runs_nil]
    constructor
    · rintro rfl
      simp
    · rintro ⟨hframe, -⟩
      exact funext fun name => hframe name (by simp)
  | cons c cs ih =>
    obtain ⟨hc, hrest⟩ := List.forall_mem_cons.mp hcs
    rw [runs_cons]
    rcases hc with hc | ⟨name, domain, range, remark, rfl⟩
    · rw [List.filterMap_cons_none hc.introduced?] at hnames ⊢
      simp only [hc.runs_iff, exists_eq_left, ih hrest hnames]
      have hne : ∀ name domain range remark, Command.declareFun name domain range remark ≠ c := by
        rintro name domain range remark rfl
        exact hc
      simp [hne]
    · have hsome : (Command.declareFun name domain range remark).introduced? = some name := rfl
      rw [List.filterMap_cons_some hsome] at hnames ⊢
      obtain ⟨hname, hnames⟩ := List.nodup_cons.mp hnames
      simp only [Command.Runs, ih hrest hnames]
      -- No later command has this name, so the function that it gets here stays to the end.
      constructor
      · rintro ⟨_, ⟨f, hf, rfl⟩, hframe, hfunctions⟩
        refine ⟨fun other hother => ?_, ?_⟩
        · rw [List.mem_cons, not_or] at hother
          rw [hframe other hother.2, Interpretation.bind_of_ne _ _ hother.1]
        · intro other domain' range' remark' hmem
          rcases List.mem_cons.mp hmem with heq | hmem
          · cases heq
            rw [hframe name hname, Interpretation.bind_self]
            exact hf
          · exact hfunctions other domain' range' remark' hmem
      · rintro ⟨hframe, hfunctions⟩
        refine ⟨_, ⟨J name, hfunctions name domain range remark List.mem_cons_self, rfl⟩, ?_, ?_⟩
        · intro other hother
          by_cases heq : other = name
          · rw [heq, Interpretation.bind_self]
          · rw [hframe other (by simp [heq, hother]), Interpretation.bind_of_ne _ _ heq]
        · intro other domain' range' remark' hmem
          exact hfunctions other domain' range' remark' (List.mem_cons_of_mem _ hmem)

/-- The last kind of a signature is that of the result. -/
theorem Declaration.splitSignature?_append (ks : List Kind) (k : Kind) :
    splitSignature? (ks ++ [k]) = some (ks, k) := by
  cases ks with
  | nil => rfl
  | cons l ks =>
    have hlast : (l :: (ks ++ [k])).getLastD l = k := by
      rw [← List.cons_append, List.getLastD_concat]
    have hinit : (l :: (ks ++ [k])).dropLast = l :: ks := by
      rw [← List.cons_append, List.dropLast_concat]
    simp only [List.cons_append, splitSignature?, hlast, hinit]

/-- A symbol whose result is a truth value or a bit-vector is declared without invariants. -/
theorem Declaration.symbol_of_isWord (name remark : String) (ks : List Kind) {k : Kind}
    (hk : k.IsWord) :
    Declaration.symbol name (ks ++ [k]) remark =
      .ok [.declareFun name (ks.map Kind.sort) k.sort remark] := by
  have hplain : k.containsCharOrRational = false := by
    cases hk <;> rfl
  simp [Declaration.symbol, splitSignature?_append, hplain]

/-! ### Constants -/

/-- The element of a constant that was made from an integer. -/
theorem Constant.exists_element {c : Constant} (hk : c.node.kind.IsWord)
    (hc : ∃ i, Value.ofInteger c.node.kind i = .ok c.value) :
    ∃ e : Element α, c.value.element? = some e ∧ e.OfKind c.node.kind := by
  obtain ⟨i, hi⟩ := hc
  rw [Value.element?_of_ofInteger hi]
  exact Element.exists_ofInt? hk i

/-- Only the name of a constant gets a meaning when it is defined. -/
theorem Declaration.introduced?_of_constant {config : Config} {c : Constant} {ds : List Command}
    (hds : Declaration.constant config c = .ok ds) {d : Command} (hd : d ∈ ds) {name : String}
    (hname : d.introduced? = some name) : name = c.node.name := by
  rcases constant_cases hds with ⟨-, rfl⟩ | ⟨-, t, -, rfl⟩
  · cases hd
  · exact introduced?_of_defined hd hname

/-- The definition of a constant; a truth value needs none. -/
theorem Declaration.exists_run_constant (carrier : SortExpr → α → Prop) {config : Config}
    {c : Constant} {ds : List Command} (hds : Declaration.constant config c = .ok ds)
    {e : Element α} (he : c.value.element? = some e) (hkind : e.OfKind c.node.kind)
    (I : Interpretation α) :
    ∃ J, (∀ K, Script.Runs (.standard carrier) ds I K ↔ K = J) ∧
      (¬c.node.IsReserved → J c.node.name = e.constant) := by
  have hreserved : c.node.IsReserved ↔ (c.node.isTrue || c.node.isFalse) = true := by
    simp [Node.IsReserved, Node.isTrue, Node.isFalse]
  rcases constant_cases hds with ⟨htruth, rfl⟩ | ⟨htruth, t, ht, rfl⟩
  · exact ⟨I, fun K => Script.runs_nil, fun h => absurd (hreserved.mpr htruth) h⟩
  · have hnot : ¬c.node.IsReserved := by simp [hreserved, htruth]
    refine ⟨I.bind c.node.name e.constant, fun K => ?_, fun _ => Interpretation.bind_self ..⟩
    exact runs_defined_iff hnot hkind (Value.eval_term ht he) fun _ => Value.eval_term ht he

/-- Constants have a single run, after which their names stand for their elements. -/
theorem Declaration.exists_run_constants (carrier : SortExpr → α → Prop) {config : Config}
    {cs : Constants} {ds : List Command}
    (hds : commandsOf (Declaration.constant config) cs = .ok ds)
    (hword : ∀ c ∈ cs, c.node.kind.IsWord)
    (hvalue : ∀ c ∈ cs, ∃ i, Value.ofInteger c.node.kind i = .ok c.value)
    (hids : (cs.map (·.node.id)).Nodup) (I : Interpretation α) :
    ∃ J, (∀ K, Script.Runs (.standard carrier) ds I K ↔ K = J) ∧
      ∀ c ∈ cs, ¬c.node.IsReserved → ∃ e, c.value.element? = some e ∧
        J c.node.name = e.constant := by
  induction cs generalizing I ds with
  | nil =>
    cases hds
    exact ⟨I, fun K => Script.runs_nil, by simp⟩
  | cons c cs ih =>
    obtain ⟨first, rest, hfirst, hrest, rfl⟩ := commandsOf_cons.mp hds
    obtain ⟨hwordc, hword⟩ := List.forall_mem_cons.mp hword
    obtain ⟨hvaluec, hvalue⟩ := List.forall_mem_cons.mp hvalue
    obtain ⟨hid, hids⟩ := List.nodup_cons.mp hids
    obtain ⟨e, he, hkind⟩ := c.exists_element (α := α) hwordc hvaluec
    obtain ⟨J, hJ, hname⟩ := exists_run_constant carrier hfirst he hkind I
    obtain ⟨L, hL, hnames⟩ := ih hrest hword hvalue hids J
    refine ⟨L, fun K => ?_, fun d hd hreserved => ?_⟩
    · simp only [Script.runs_append, hJ, exists_eq_left, hL]
    · rcases List.mem_cons.mp hd with rfl | hd
      · refine ⟨e, he, ?_⟩
        rw [((hL L).mpr rfl).eq_of_not_introduced, hname hreserved]
        -- The other constants have other identities, so they do not touch this one.
        intro c' hc' hintroduced
        obtain ⟨d', hd', ds, hds, hmem⟩ := exists_of_mem_commandsOf hrest hc'
        have heq := nodeName_injective (introduced?_of_constant hds hmem hintroduced)
        exact hid (List.mem_map.mpr ⟨d', hd', heq.symm⟩)
      · exact hnames d hd hreserved

/-- Nodes that are not constants keep their elements. -/
theorem Valuation.withConstants_of_not_mem {ν : Valuation α} {cs : Constants} {id : Int}
    (hid : ∀ c ∈ cs, c.node.id ≠ id) : ν.withConstants cs id = ν id := by
  induction cs generalizing ν with
  | nil => rfl
  | cons d cs ih =>
    obtain ⟨hd, hcs⟩ := List.forall_mem_cons.mp hid
    rw [Valuation.withConstants, List.foldl_cons]
    exact (ih hcs).trans (Function.update_of_ne hd.symm _ _)

theorem Valuation.at_withConstants {ν : Valuation α} {cs : Constants} {n : Node}
    (hn : ∀ c ∈ cs, c.node.id ≠ n.id) : (ν.withConstants cs).at n = ν.at n := by
  unfold Valuation.at
  rw [withConstants_of_not_mem hn]

/-- Constants get their elements. -/
theorem Valuation.withConstants_of_mem {ν : Valuation α} {cs : Constants}
    (hids : (cs.map (·.node.id)).Nodup) {c : Constant} (hc : c ∈ cs) :
    ν.withConstants cs c.node.id = c.value.element? := by
  induction cs generalizing ν with
  | nil => cases hc
  | cons d cs ih =>
    obtain ⟨hd, hids⟩ := List.nodup_cons.mp hids
    rw [Valuation.withConstants, List.foldl_cons]
    rcases List.mem_cons.mp hc with rfl | hc
    · have hother : ∀ d ∈ cs, d.node.id ≠ c.node.id := by
        intro d' hd' heq
        exact hd (List.mem_map.mpr ⟨d', hd', heq⟩)
      exact (withConstants_of_not_mem hother).trans (Function.update_self ..)
    · exact ih hids hc

end SolverScript
