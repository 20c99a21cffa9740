import SolverScript.Proofs.Encoding.Words
import SolverScript.Proofs.Problem.Nodes
import SolverScript.Proofs.Script.Commands
import SolverScript.Proofs.Semantics.Script

/-!
# Definitions of nodes

Assignments become definitions: commands outside of quantifiers, names for terms inside of them. In
both cases they are made one after the other, and each keeps the invariant that the terms of the
nodes that are known so far denote the elements of the nodes. The names of earlier nodes are not
touched by later definitions, not even where a node is written as an application to others.

## Main definitions

* `Scope.Realizes` - the terms of some nodes denote their elements
* `Scope.Extends` - assignments that can be made after some nodes are known

## Main results

* `Scope.Realizes.definitions` - the commands that define nodes
* `Scope.Realizes.localDefinitions` - the names that stand for nodes under quantifiers
-/

namespace SolverScript

variable {α : Type} {carrier : SortExpr → α → Prop}

namespace Scope

/-- The terms of some nodes denote the elements that a valuation gives to the nodes, and those are
of the kinds of the nodes. -/
def Realizes (scope : Scope) (T : Theory α) (I : Interpretation α) (ν : Valuation α)
    (known : List Node) : Prop :=
  ∀ n ∈ known, ∃ e, ν.at n = some e ∧ e.OfKind n.kind ∧ (scope.nodeTerm n).eval T I = some e

/-- Assignments that can be made in order after some nodes are known: each is about known nodes of
the right kinds, and defines a new one. -/
inductive Extends (skolems : SkolemMap) : List Node → List Assignment → Prop
  | nil (known : List Node) : Extends skolems known []
  | cons {known : List Node} {a : Assignment} {rest : List Assignment}
    (operand : ∀ n ∈ a.operation.operands, n ∈ known)
    (hasKind : a.operation.operator.HasKind (a.operation.operands.map Node.kind) a.node.kind)
    (isNew : ∀ n ∈ known, ∀ m ∈ skolems.mentioned n, m.id ≠ a.node.id)
    (isPlain : skolems.dependencies? a.node = none)
    (notReserved : ¬a.node.IsReserved)
    (tail : Extends skolems (a.node :: known) rest) : Extends skolems known (a :: rest)

end Scope

theorem Valuation.at_of_not_reserved (ν : Valuation α) {n : Node} (hn : ¬n.IsReserved) :
    ν.at n = ν n.id := by
  rw [Node.IsReserved, not_or] at hn
  simp [Valuation.at, Node.isTrue, Node.isFalse, hn]

/-- Other nodes are not affected by a change of the valuation at one. -/
theorem Valuation.at_update {ν : Valuation α} {n : Node} {id : Int} (e? : Option (Element α))
    (hn : n.id ≠ id) : Valuation.at (Function.update ν id e?) n = ν.at n := by
  unfold Valuation.at
  rw [Function.update_of_ne hn]

/-- An element of a kind is an element of its sort. -/
theorem Element.OfKind.contains {T : Theory α} {k : Kind} {e : Element α} (he : e.OfKind k) :
    T.Contains k.sort e := by
  cases he with
  | bool b => exact .bool b
  | bounded x => exact .bits x

/-- The elements of the sort of a kind are those of the kind. -/
theorem Theory.Contains.ofKind {T : Theory α} {k : Kind} {e : Element α} (hk : k.IsWord)
    (he : T.Contains k.sort e) : e.OfKind k := by
  generalize hs : k.sort = s at he
  cases hk with
  | bool =>
    cases he with
    | bool b => exact .bool b
    | int => simp [Kind.sort] at hs
    | bits => simp [Kind.sort] at hs
    | other hb => simp [← hs, Kind.sort, SortExpr.isBuiltIn] at hb
  | bounded signed width =>
    cases he with
    | bool => simp [Kind.sort] at hs
    | int => simp [Kind.sort] at hs
    | @bits w b =>
      obtain rfl : width.bits = w := by simpa [Kind.sort] using hs
      exact .bounded b
    | other hb => simp [← hs, Kind.sort, SortExpr.isBuiltIn] at hb

namespace Scope

variable {scope : Scope} {I : Interpretation α} {ν : Valuation α} {known : List Node}

/-- The term of a node is not affected by a new meaning for a name that does not occur in it. -/
theorem eval_nodeTerm_bind {T : Theory α} {n : Node} {id : Int} (f : Element.Function α)
    (hn : ∀ m ∈ scope.skolems.mentioned n, m.id ≠ id) :
    (scope.nodeTerm n).eval T (I.bind (nodeName id) f) = (scope.nodeTerm n).eval T I := by
  obtain ⟨hself, hdependencies⟩ := List.forall_mem_cons.mp hn
  unfold Scope.nodeTerm SkolemMap.nodeTerm
  split
  · next dependencies hskolem =>
    rw [hskolem, Option.getD_some] at hdependencies
    -- A node that depends on others is an application to them, so their names must differ, too.
    have hall : Term.evalAll T (I.bind (nodeName id) f) (dependencies.map Node.term) =
        Term.evalAll T I (dependencies.map Node.term) := by
      apply Term.evalAll_congr
      intro t ht
      obtain ⟨m, hm, rfl⟩ := List.mem_map.mp ht
      exact Term.eval_node_bind f (hdependencies m hm)
    simp only [Term.eval, hall, Node.term, Term.apply_node_bind f hself]
  · exact Term.eval_node_bind f hself

/-- The operands of an operation are realized one by one. -/
theorem Realizes.operands {T : Theory α} {ns : List Node} (h : scope.Realizes T I ν ns) :
    ∃ es, Term.evalAll T I (scope.nodeTerms ns) = some es ∧
      List.Forall₂ (fun n e => Element.OfKind n.kind e) ns es ∧
      ns.mapM ν.operand? = some (Operand.ofNodes ns es) := by
  induction ns with
  | nil => exact ⟨[], rfl, .nil, rfl⟩
  | cons n ns ih =>
    obtain ⟨e, hvalue, hkind, heval⟩ := h n List.mem_cons_self
    obtain ⟨es, hes, hkinds, hoperands⟩ := ih fun m hm => h m (List.mem_cons_of_mem n hm)
    refine ⟨e :: es, ?_, .cons hkind hkinds, ?_⟩
    · exact Term.evalAll_eq_some_iff.mpr (.cons heval (Term.evalAll_eq_some_iff.mp hes))
    · simp [Valuation.operand?, hvalue, hoperands, Operand.ofNodes]

/-- The defining term of an assignment about known nodes denotes the element of the operation. -/
theorem Realizes.eval_definition {operation : Operation} {kind : Kind} {t : Term}
    {label : Option String} (h : scope.Realizes (.standard carrier) I ν known)
    (hoperand : ∀ n ∈ operation.operands, n ∈ known)
    (hop : operation.operator.HasKind (operation.operands.map Node.kind) kind)
    (ht : scope.definition operation = .ok (t, label)) :
    ∃ e, ν.result? kind operation = some e ∧ e.OfKind kind ∧
      t.eval (.standard carrier) I = some e := by
  have hns : scope.Realizes (.standard carrier) I ν operation.operands :=
    fun n hn => h n (hoperand n hn)
  obtain ⟨es, hes, hkinds, hoperands⟩ := hns.operands
  obtain ⟨t', e, hterm, hvalue, hkind, heval⟩ := denotes_of_hasKind hop hes hkinds
  have htt' : t' = t := by
    have := (term_of_definition ht).symm.trans hterm
    exact (Except.ok.inj this).symm
  subst htt'
  exact ⟨e, by rw [Valuation.result?, hoperands]; exact hvalue, hkind, heval⟩

/-- Known nodes are realized as before when another name gets a meaning. -/
theorem Realizes.bind {T : Theory α} {id : Int} (h : scope.Realizes T I ν known)
    (hnew : ∀ n ∈ known, ∀ m ∈ scope.skolems.mentioned n, m.id ≠ id) (f : Element.Function α) :
    scope.Realizes T (I.bind (nodeName id) f) ν known := by
  intro n hn
  obtain ⟨e, hvalue, hkind, heval⟩ := h n hn
  exact ⟨e, hvalue, hkind, by rw [eval_nodeTerm_bind f (hnew n hn), heval]⟩

/-- A new node is realized when its name and its value are given. -/
theorem Realizes.define {n : Node} {e : Element α}
    (h : scope.Realizes (.standard carrier) I ν known)
    (hnew : ∀ k ∈ known, ∀ m ∈ scope.skolems.mentioned k, m.id ≠ n.id)
    (hplain : scope.skolems.dependencies? n = none) (hn : ¬n.IsReserved) (he : e.OfKind n.kind) :
    scope.Realizes (.standard carrier) (I.bind n.name e.constant)
      (Function.update ν n.id (some e)) (n :: known) := by
  intro k hk
  rcases List.mem_cons.mp hk with rfl | hk
  · refine ⟨e, ?_, he, ?_⟩
    · rw [Valuation.at_of_not_reserved _ hn, Function.update_self]
    · rw [Node.IsReserved, not_or] at hn
      rw [Scope.nodeTerm, SkolemMap.nodeTerm, hplain, Node.term, Term.eval_node hn.1 hn.2,
        Node.name, Interpretation.bind_self]
      rfl
  · obtain ⟨e', hvalue, hkind, heval⟩ := h.bind hnew e.constant k hk
    have hother : k.id ≠ n.id := hnew k hk k List.mem_cons_self
    exact ⟨e', by rw [Valuation.at_update _ hother, hvalue], hkind, heval⟩

end Scope

/-- Only the name of the node gets a meaning when the node is defined. -/
theorem Declaration.introduced?_of_defined {c : Capabilities} {n : Node} {value : Term}
    {remark name : String} {command : Command}
    (hcommand : command ∈ Declaration.defined c n value remark)
    (hname : command.introduced? = some name) : name = n.name := by
  unfold Declaration.defined at hcommand
  split at hcommand
  · obtain rfl := List.mem_singleton.mp hcommand
    exact (Option.some.inj hname).symm
  · rcases List.mem_cons.mp hcommand with rfl | hcommand
    · exact (Option.some.inj hname).symm
    · obtain rfl := List.mem_singleton.mp hcommand
      cases hname

/-- A node is defined as a value, by a definition or by a declaration with an equation. The value
must not depend on the node. -/
theorem Declaration.runs_defined_iff {c : Capabilities} {n : Node} {value : Term}
    {remark : String} {e : Element α} {I J : Interpretation α} (hn : ¬n.IsReserved)
    (he : e.OfKind n.kind) (hvalue : value.eval (.standard carrier) I = some e)
    (hbound : ∀ f, value.eval (.standard carrier) (I.bind n.name f) = some e) :
    Script.Runs (.standard carrier) (Declaration.defined c n value remark) I J ↔
      J = I.bind n.name e.constant := by
  rw [Node.IsReserved, not_or] at hn
  unfold Declaration.defined
  split
  · simp only [Script.runs_cons, Script.runs_nil, Command.Runs, hvalue, Option.some.injEq]
    constructor
    · rintro ⟨K, ⟨e', rfl, -, rfl⟩, rfl⟩
      rfl
    · rintro rfl
      exact ⟨_, ⟨e, rfl, he.contains, rfl⟩, rfl⟩
  · simp only [Script.runs_cons, Script.runs_nil, Command.runs_assert_iff]
    have hname : ∀ e' : Element α,
        (n.term).eval (.standard carrier) (I.bind n.name e'.constant) = some e' := by
      intro e'
      rw [Node.term, Term.eval_node hn.1 hn.2, Node.name, Interpretation.bind_self]
      rfl
    -- The declaration admits any element of the sort; the equation leaves one of them.
    constructor
    · rintro ⟨K, ⟨f, hf, rfl⟩, L, ⟨hequation, rfl⟩, rfl⟩
      obtain ⟨e', hcontains, rfl⟩ := Theory.isFunction_nil_iff.mp hf
      have hsort := (hcontains.ofKind he.isWord).sameSort he
      rw [(Term.eval_equation_iff (hname e') (hbound _) hsort).mp hequation]
    · rintro rfl
      exact ⟨_, ⟨e.constant, Theory.isFunction_nil_iff.mpr ⟨e, he.contains, rfl⟩, rfl⟩, _,
        ⟨(Term.eval_equation_iff (hname e) (hbound _) (he.sameSort he)).mpr rfl, rfl⟩, rfl⟩

namespace Scope

variable {scope : Scope} {I : Interpretation α} {ν : Valuation α} {known : List Node}

/-- The definition of one node. -/
theorem Realizes.definition {a : Assignment} {cs : List Command}
    (h : scope.Realizes (.standard carrier) I ν known)
    (hoperand : ∀ n ∈ a.operation.operands, n ∈ known)
    (hop : a.operation.operator.HasKind (a.operation.operands.map Node.kind) a.node.kind)
    (hnew : ∀ n ∈ known, ∀ m ∈ scope.skolems.mentioned n, m.id ≠ a.node.id)
    (hn : ¬a.node.IsReserved) (hcs : scope.definitionCommands a = .ok cs) :
    ∃ e, ν.result? a.node.kind a.operation = some e ∧ e.OfKind a.node.kind ∧
      ∀ J, Script.Runs (.standard carrier) cs I J ↔ J = I.bind a.node.name e.constant := by
  unfold definitionCommands at hcs
  cases ht : scope.definition a.operation with
  | error => simp [ht] at hcs
  | ok definition =>
    obtain ⟨t, label⟩ := definition
    rw [ht] at hcs
    cases hcs
    obtain ⟨e, hvalue, hkind, heval⟩ := h.eval_definition hoperand hop ht
    refine ⟨e, hvalue, hkind, fun J => Declaration.runs_defined_iff hn hkind heval fun f => ?_⟩
    -- The name of the node is new, so the value is the same after the node has been declared.
    obtain ⟨e', hvalue', -, heval'⟩ := (h.bind hnew f).eval_definition hoperand hop ht
    rw [hvalue] at hvalue'
    rw [Node.name, heval', ← hvalue']

/-- Only the names of the nodes get a meaning when nodes are defined. -/
theorem exists_of_introduced?_definition {assignments : List Assignment} {cs : List Command}
    (hcs : commandsOf scope.definitionCommands assignments = .ok cs) {c : Command} (hc : c ∈ cs)
    {name : String} (hname : c.introduced? = some name) :
    ∃ a ∈ assignments, name = a.node.name := by
  obtain ⟨a, ha, ds, hds, hmem⟩ := exists_of_mem_commandsOf hcs hc
  obtain ⟨⟨value, label⟩, -, hds⟩ := bind_eq_ok_iff.mp hds
  cases hds
  exact ⟨a, ha, Declaration.introduced?_of_defined hmem hname⟩

/-- Definitions have a single run, after which all nodes are realized. -/
theorem Realizes.definitions {assignments : List Assignment}
    (hext : Extends scope.skolems known assignments) {I : Interpretation α} {ν : Valuation α}
    (h : scope.Realizes (.standard carrier) I ν known) {cs : List Command}
    (hcs : commandsOf scope.definitionCommands assignments = .ok cs) :
    ∃ J, (∀ K, Script.Runs (.standard carrier) cs I K ↔ K = J) ∧
      scope.Realizes (.standard carrier) J (ν.evaluate assignments)
        ((assignments.map Assignment.node).reverse ++ known) := by
  induction hext generalizing I ν cs with
  | nil known =>
    cases hcs
    exact ⟨I, fun K => Script.runs_nil, h⟩
  | @cons known a rest hoperand hop hnew hplain hn _ ih =>
    obtain ⟨ds, es, hds, hes, rfl⟩ := commandsOf_cons.mp hcs
    obtain ⟨e, hvalue, hkind, hruns⟩ := h.definition hoperand hop hnew hn hds
    have hassign : ν.assign a = Function.update ν a.node.id (some e) := by
      rw [Valuation.assign, hvalue]
    -- The run of the rest starts where the first node has its element.
    obtain ⟨J, hJ, hrealizes⟩ := ih (h.define hnew hplain hn hkind) hes
    refine ⟨J, fun K => ?_, ?_⟩
    · simp only [Script.runs_append, hruns, exists_eq_left, hJ]
    · rw [Valuation.evaluate, List.foldl_cons, hassign, List.map_cons, List.reverse_cons,
        List.append_assoc]
      exact hrealizes

/-- The definition of one node under quantifiers. -/
theorem localDefinition_eq_ok {a : Assignment} {d : LocalDefinition}
    (hd : scope.localDefinition a = .ok d) :
    d.node = a.node ∧ ∃ label, scope.definition a.operation = .ok (d.value, label) := by
  unfold localDefinition at hd
  cases ht : scope.definition a.operation with
  | error => simp [ht] at hd
  | ok definition =>
    rw [ht] at hd
    cases hd
    exact ⟨rfl, _, rfl⟩

/-- A formula under local definitions means what it means where all nodes are realized. -/
theorem Realizes.localDefinitions {assignments : List Assignment}
    (hext : Extends scope.skolems known assignments) {I : Interpretation α} {ν : Valuation α}
    (h : scope.Realizes (.standard carrier) I ν known) {ds : List LocalDefinition}
    (hds : assignments.mapM scope.localDefinition = .ok ds) :
    ∃ J, (∀ body : Term,
        (QuantifiedBlock.withDefinitions ds body).eval (.standard carrier) I =
          body.eval (.standard carrier) J) ∧
      scope.Realizes (.standard carrier) J (ν.evaluate assignments)
        ((assignments.map Assignment.node).reverse ++ known) := by
  induction hext generalizing I ν ds with
  | nil known =>
    cases hds
    exact ⟨I, fun body => rfl, h⟩
  | @cons known a rest hoperand hop hnew hplain hn _ ih =>
    obtain ⟨d, ds', hd, hrest, rfl⟩ := List.forall₂_cons_left_iff.mp (mapM_eq_ok_iff.mp hds)
    obtain ⟨hnode, label, ht⟩ := localDefinition_eq_ok hd
    obtain ⟨e, hvalue, hkind, heval⟩ := h.eval_definition hoperand hop ht
    have hassign : ν.assign a = Function.update ν a.node.id (some e) := by
      rw [Valuation.assign, hvalue]
    obtain ⟨J, hJ, hrealizes⟩ := ih (h.define hnew hplain hn hkind) (mapM_eq_ok_iff.mpr hrest)
    -- A binding changes the interpretation at its node, and the rest is evaluated there.
    refine ⟨J, fun body => ?_, ?_⟩
    · rw [← hJ body]
      simp [QuantifiedBlock.withDefinitions, Term.eval, Term.evalAll, heval, hnode,
        Interpretation.bindAll]
    · rw [Valuation.evaluate, List.foldl_cons, hassign, List.map_cons, List.reverse_cons,
        List.append_assoc]
      exact hrealizes

end Scope

end SolverScript
