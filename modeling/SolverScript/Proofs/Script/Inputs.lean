import SolverScript.Proofs.Script.WordProgram

/-!
# Inputs

An interpretation gives functions to the inputs that are not universal, constant ones or functions
of universal nodes, and a choice of elements for the universal nodes completes it to a valuation of
all inputs. Named inputs that a script does not declare have their meaning from outside of it.

## Main definitions

* `Problem.Interprets` - interpretations of the inputs that are not universal
* `Problem.inputValuation` - the elements of all inputs
* `Interpretation.restrict` - an interpretation of some names only
-/

namespace SolverScript

variable {α : Type} {carrier : SortExpr → α → Prop}

namespace Interpretation

/-- The interpretation in which the names of some nodes mean what they mean in another one. -/
def override (I M : Interpretation α) (ns : List Node) : Interpretation α :=
  fun name => if name ∈ ns.map Node.name then M name else I name

/-- The interpretation of the names of some nodes; other names have no meaning. -/
def restrict (M : Interpretation α) (ns : List Node) : Interpretation α :=
  override (fun _ _ => none) M ns

/-- The names of some nodes mean the same. -/
def AgreesOn (I M : Interpretation α) (ns : List Node) : Prop := ∀ n ∈ ns, I n.name = M n.name

theorem override_of_mem {I M : Interpretation α} {ns : List Node} {n : Node} (hn : n ∈ ns) :
    I.override M ns n.name = M n.name :=
  if_pos (List.mem_map_of_mem hn)

theorem override_of_not_mem {I M : Interpretation α} {ns : List Node} {name : String}
    (hname : name ∉ ns.map Node.name) : I.override M ns name = I name :=
  if_neg hname

end Interpretation

namespace Problem

/-- Interpretations that give functions of their sorts to all inputs that are not universal. -/
def Interprets (T : Theory α) (p : Problem) (M : Interpretation α) : Prop :=
  ∀ d ∈ p.freeInputs, T.IsFunction (d.2.map fun m => m.kind.sort) d.1.kind.sort (M d.1.name)

/-- Elements for the universal nodes, one of its sort for each. -/
def ChoosesUniversals (T : Theory α) (p : Problem) (us : List (Element α)) : Prop :=
  List.Forall₂ T.Contains (p.universals.map fun n => n.kind.sort) us

/-- The elements of the universal nodes. -/
def universalValuation (p : Problem) (us : List (Element α)) : Valuation α :=
  fun id => ((p.universals.zip us).find? fun entry => entry.1.id == id).map Prod.snd

/-- The elements of the inputs. Those that are functions of universal nodes are applied to the
elements of these. -/
def inputValuation (p : Problem) (M : Interpretation α) (us : List (Element α)) : Valuation α :=
  fun id =>
    match p.freeInputs.find? fun d => d.1.id == id with
    | some (n, dependencies) =>
      (dependencies.mapM fun m => p.universalValuation us m.id).bind (M n.name)
    | none => p.universalValuation us id

end Problem

/-- An entry is found by its key when keys are not repeated. -/
theorem find?_eq_some_of_nodup {β : Type} (key : β → Int) {bs : List β} (h : (bs.map key).Nodup)
    {b : β} (hb : b ∈ bs) : bs.find? (fun c => key c == key b) = some b := by
  induction bs with
  | nil => cases hb
  | cons c cs ih =>
    obtain ⟨hc, hcs⟩ := List.nodup_cons.mp h
    rcases List.mem_cons.mp hb with rfl | hb
    · simp
    · have hne : key c ≠ key b := fun heq => hc (heq ▸ List.mem_map_of_mem hb)
      rw [List.find?_cons_of_neg (by simpa using hne)]
      exact ih hcs hb

namespace Problem.IsWordProgram

variable {p : Problem} (hp : p.IsWordProgram)

include hp

/-- An input that is not universal depends on universal ones. -/
theorem mem_universals_of_dependency {d : Node × List Node} (hd : d ∈ p.freeInputs) {m : Node}
    (hm : m ∈ d.2) : m ∈ p.universals :=
  hp.dependency d.1 d.2 (mem_existentials_of_free hd (List.ne_nil_of_mem hm)) m hm

variable {T : Theory α} {M : Interpretation α} {us : List (Element α)}

/-- A universal node has the element that is chosen for it. -/
theorem universalValuation_of_mem (hus : p.ChoosesUniversals T us) {n : Node} {u : Element α}
    (h : (n, u) ∈ p.universals.zip us) : p.universalValuation us n.id = some u := by
  have hlength : p.universals.length = us.length := by
    simpa using List.Forall₂.length_eq hus
  have hkeys : ((p.universals.zip us).map fun entry => entry.1.id).Nodup := by
    have hzip : (p.universals.zip us).map (fun entry => entry.1.id) =
        p.universals.map Node.id := by
      rw [← Function.comp_def Node.id Prod.fst, ← List.map_map,
        List.map_fst_zip (Nat.le_of_eq hlength)]
    rw [hzip]
    exact hp.nodup_universals
  rw [universalValuation, find?_eq_some_of_nodup (fun entry => entry.1.id) hkeys h]
  rfl

/-- Every universal node has an element of its sort. -/
theorem exists_universalValuation (hus : p.ChoosesUniversals T us) {n : Node}
    (hn : n ∈ p.universals) :
    ∃ u, (n, u) ∈ p.universals.zip us ∧ p.universalValuation us n.id = some u ∧
      T.Contains n.kind.sort u := by
  have hus' := List.forall₂_map_left_iff.mp hus
  obtain ⟨i, hi, rfl⟩ := List.getElem_of_mem hn
  have hi' : i < us.length := hus'.length_eq ▸ hi
  have hmem : (p.universals[i], us[i]) ∈ p.universals.zip us :=
    List.mem_iff_getElem.mpr ⟨i, by rw [List.length_zip]; omega, by simp⟩
  exact ⟨us[i], hmem, hp.universalValuation_of_mem hus hmem, List.forall₂_zip hus' hmem⟩

theorem inputValuation_of_universal {n : Node} (hn : n ∈ p.universals) :
    p.inputValuation M us n.id = p.universalValuation us n.id := by
  have hnone : (p.freeInputs.find? fun d => d.1.id == n.id) = none := by
    rw [List.find?_eq_none]
    intro d hd
    simpa using (hp.universal_ne_free hn hd).symm
  rw [inputValuation, hnone]

/-- The element of an input that is not universal: a function applied to the elements of the nodes
that the input depends on. -/
theorem exists_inputValuation_of_free (hM : p.Interprets T M) (hus : p.ChoosesUniversals T us)
    {d : Node × List Node} (hd : d ∈ p.freeInputs) :
    ∃ es e, List.Forall₂ (fun m u => (m, u) ∈ p.universals.zip us) d.2 es ∧
      M d.1.name es = some e ∧ T.Contains d.1.kind.sort e ∧
      p.inputValuation M us d.1.id = some e := by
  obtain ⟨n, dependencies⟩ := d
  -- The elements of the universal nodes that the input depends on are arguments of its sorts.
  have harguments : ∀ ms : List Node, (∀ m ∈ ms, m ∈ p.universals) →
      ∃ es, List.Forall₂ (fun m u => (m, u) ∈ p.universals.zip us) ms es ∧
        (ms.mapM fun m => p.universalValuation us m.id) = some es ∧
        List.Forall₂ T.Contains (ms.map fun m => m.kind.sort) es := by
    intro ms hms
    induction ms with
    | nil => exact ⟨[], .nil, rfl, .nil⟩
    | cons m ms ih =>
      obtain ⟨hm, hms⟩ := List.forall_mem_cons.mp hms
      obtain ⟨u, hmem, hu, hcontains⟩ := hp.exists_universalValuation hus hm
      obtain ⟨es, hes, hmap, hall⟩ := ih hms
      exact ⟨u :: es, .cons hmem hes, by simp [hu, hmap], .cons hcontains hall⟩
  obtain ⟨es, hes, hmap, hall⟩ := harguments dependencies
    fun m hm => hp.mem_universals_of_dependency hd hm
  obtain ⟨e, he, hcontains⟩ := (hM _ hd es).1 hall
  refine ⟨es, e, hes, he, hcontains, ?_⟩
  have hfind := find?_eq_some_of_nodup (fun d => d.1.id) hp.nodup_freeInputs hd
  simp only [inputValuation, hfind, hmap, Option.bind_some]
  exact he

/-! ### Terms of inputs -/

theorem isWord_of_free {d : Node × List Node} (hd : d ∈ p.freeInputs) : d.1.kind.IsWord :=
  hp.isWord _ (List.mem_append_left _ (List.mem_append_left _ (mem_inputNodes_of_free hd)))

/-- The term of a universal node denotes the node's element, where it has been bound to it. -/
theorem exists_eval_of_universal (hus : p.ChoosesUniversals (.standard carrier) us) {n : Node}
    (hn : n ∈ p.universals) {scope : Scope} (hskolems : scope.skolems = p.skolems)
    {L : Interpretation α} (hL : ∀ u, (n, u) ∈ p.universals.zip us → L n.name [] = some u) :
    ∃ e, (p.inputValuation M us).at n = some e ∧ e.OfKind n.kind ∧
      (scope.nodeTerm n).eval (.standard carrier) L = some e := by
  obtain ⟨u, hzip, hvalue, hcontains⟩ := hp.exists_universalValuation hus hn
  have hreserved := hp.not_reserved_of_universal hn
  have hplain : p.skolems.dependencies? n = none := dependencies?_eq_none fun d hd =>
    (hp.universal_ne_free hn (List.mem_append_left _ (List.mem_append_left _ hd))).symm
  have hword : n.kind.IsWord := hp.isWord n
    (List.mem_append_left _ (List.mem_append_left _ (mem_inputNodes_of_universal hn)))
  refine ⟨u, ?_, hcontains.ofKind hword, ?_⟩
  · rw [Valuation.at_of_not_reserved _ hreserved, hp.inputValuation_of_universal hn, hvalue]
  · rw [Node.IsReserved, not_or] at hreserved
    rw [Scope.nodeTerm, hskolems, SkolemMap.nodeTerm, hplain, Node.term,
      Term.eval_node hreserved.1 hreserved.2]
    exact hL u hzip

/-- The term of an input that is not universal denotes the input's element, where the nodes that it
depends on have theirs. -/
theorem exists_eval_of_free (hM : p.Interprets (.standard carrier) M)
    (hus : p.ChoosesUniversals (.standard carrier) us) {d : Node × List Node}
    (hd : d ∈ p.freeInputs) {scope : Scope} (hskolems : scope.skolems = p.skolems)
    {L : Interpretation α} (hL : L d.1.name = M d.1.name)
    (hdependency : ∀ m ∈ d.2, ∀ u, (m, u) ∈ p.universals.zip us → L m.name [] = some u) :
    ∃ e, (p.inputValuation M us).at d.1 = some e ∧ e.OfKind d.1.kind ∧
      (scope.nodeTerm d.1).eval (.standard carrier) L = some e := by
  obtain ⟨es, e, hes, hvalue, hcontains, hinput⟩ := hp.exists_inputValuation_of_free hM hus hd
  have hreserved := hp.not_reserved_of_free hd
  refine ⟨e, by rw [Valuation.at_of_not_reserved _ hreserved, hinput],
    hcontains.ofKind (hp.isWord_of_free hd), ?_⟩
  rw [Node.IsReserved, not_or] at hreserved
  have hall : Term.evalAll (.standard carrier) L (d.2.map Node.term) = some es := by
    rw [Term.evalAll_eq_some_iff, List.forall₂_map_left_iff]
    refine ((List.forall₂_and_left _ _).mpr ⟨fun m hm => hm, hes⟩).imp ?_
    rintro m u ⟨hm, hzip⟩
    have huniversal := hp.not_reserved_of_universal (hp.mem_universals_of_dependency hd hm)
    rw [Node.IsReserved, not_or] at huniversal
    rw [Node.term, Term.eval_node huniversal.1 huniversal.2]
    exact hdependency m hm u hzip
  rw [Scope.nodeTerm, hskolems, SkolemMap.nodeTerm, hp.dependencies?_of_free hd]
  -- The input is written as a symbol, or as an application to the nodes that it depends on.
  by_cases hne : d.2 = []
  · rw [hne] at hes
    cases hes
    rw [if_pos hne]
    exact (Term.eval_node hreserved.1 hreserved.2).trans (hL ▸ hvalue)
  · rw [if_neg hne]
    exact (Term.eval_app_node hreserved.1 hreserved.2 hall).trans (hL ▸ hvalue)

end Problem.IsWordProgram

end SolverScript
