import Mathlib.Data.List.Forall2
import SolverScript.Proofs.Semantics.Names
import SolverScript.Proofs.Semantics.Theory

/-!
# Evaluation of terms

A term is evaluated in a theory and an interpretation of the names that a script declares, defines
or binds. The symbol of a node is a name like any other. Names that the theory knows cannot be given
another meaning.

## Main definitions

* `Interpretation` - functions by their names, with `Interpretation.bind`
* `Term.eval` - the element that a term denotes; `none` if it denotes nothing

## Main results

* `Term.eval_node`, `Term.eval_app_node` - the standard theory leaves nodes to the interpretation
* `Term.eval_app_symbol`, `Term.eval_app_indexed` - applications of the functions of the standard
  theory
-/

namespace SolverScript

/-- The functions that names stand for; a constant is a function of no arguments. -/
abbrev Interpretation (α : Type) := String → Element.Function α

/-- The function that gives an element for no arguments. -/
def Element.constant {α : Type} (e : Element α) : Element.Function α := fun es =>
  if es.isEmpty then some e else none

namespace Interpretation

variable {α : Type}

/-- The interpretation with a new meaning for one name. -/
def bind (I : Interpretation α) (name : String) (f : Element.Function α) : Interpretation α :=
  fun other => if other = name then f else I other

/-- The interpretation with new meanings for some names; a later one replaces an earlier one. -/
def bindAll (I : Interpretation α) : List String → List (Element α) → Interpretation α
  | name :: names, e :: es => (I.bind name e.constant).bindAll names es
  | _, _ => I

@[simp] theorem bind_self (I : Interpretation α) (name : String) (f : Element.Function α) :
    I.bind name f name = f := by
  simp [bind]

theorem bind_of_ne (I : Interpretation α) {name other : String} (f : Element.Function α)
    (h : other ≠ name) : I.bind name f other = I other := by
  simp [bind, h]

/-- Other names mean what they meant before. -/
theorem bindAll_of_not_mem (I : Interpretation α) {names : List String} (es : List (Element α))
    {name : String} (hname : name ∉ names) : I.bindAll names es name = I name := by
  induction names generalizing I es with
  | nil => rfl
  | cons other names ih =>
    obtain ⟨hother, hnames⟩ := List.ne_and_not_mem_of_not_mem_cons hname
    cases es with
    | nil => rfl
    | cons e es => rw [bindAll, ih _ es hnames, bind_of_ne _ _ hother]

/-- Different names are bound to their elements. -/
theorem bindAll_of_mem_zip (I : Interpretation α) {names : List String} {es : List (Element α)}
    (hnames : names.Nodup) {name : String} {e : Element α} (h : (name, e) ∈ names.zip es) :
    I.bindAll names es name = e.constant := by
  induction names generalizing I es with
  | nil => cases h
  | cons other names ih =>
    obtain ⟨hother, hnames⟩ := List.nodup_cons.mp hnames
    cases es with
    | nil => cases h
    | cons d es =>
      rw [bindAll]
      rcases List.mem_cons.mp h with heq | h
      · cases heq
        rw [bindAll_of_not_mem _ _ hother, bind_self]
      · exact ih _ hnames h

end Interpretation

/-- The name behind a symbol or the symbol of a node. -/
def Term.name? : Term → Option String
  | .symbol text => some text
  | .node id => some (nodeName id)
  | _ => none

variable {α : Type}

/-- The function that the head of an application stands for. -/
def Theory.apply (T : Theory α) (I : Interpretation α) (head : Term) : Element.Function α :=
  fun es =>
    match head.name? with
    | some name => (T.function (.symbol name) es).or (I name es)
    | none => T.function head es

namespace Term

open Classical in
mutual

/-- The element that a term denotes. Terms side by side denote nothing. -/
noncomputable def eval (T : Theory α) (I : Interpretation α) : Term → Option (Element α)
  | .app head operands => do T.apply I head (← evalAll T I operands)
  | .bind names values body => do eval T (I.bindAll names (← evalAll T I values)) body
  | .forAll binders body =>
    some (.bool (decide (∀ es, List.Forall₂ T.Contains (binders.map Prod.snd) es →
      eval T (I.bindAll (binders.map Prod.fst) es) body = some (.bool true))))
  | .attributed body _ => eval T I body
  | .adjacent _ => none
  | t => T.apply I t []

/-- The elements that several terms denote. -/
noncomputable def evalAll (T : Theory α) (I : Interpretation α) :
    List Term → Option (List (Element α))
  | [] => some []
  | t :: ts => do
    let e ← eval T I t
    return e :: (← evalAll T I ts)

end

variable {T : Theory α} {I : Interpretation α}

section

attribute [local simp] eval evalAll

/-- Several terms denote elements when each of them does. -/
theorem evalAll_eq_some_iff {ts : List Term} {es : List (Element α)} :
    evalAll T I ts = some es ↔ List.Forall₂ (fun t e => eval T I t = some e) ts es := by
  induction ts generalizing es with
  | nil => simp [eq_comm]
  | cons t ts ih =>
    cases es with
    | nil => simp [Option.bind_eq_some_iff]
    | cons e es => simp [Option.bind_eq_some_iff, ih]

theorem eval_app_of_evalAll {head : Term} {operands : List Term} {es : List (Element α)}
    (h : evalAll T I operands = some es) : eval T I (.app head operands) = T.apply I head es := by
  simp [h]

end

/-- A quantified formula holds when its body does for all elements of the bound names. -/
theorem eval_forAll_iff {binders : List (String × SortExpr)} {body : Term} :
    eval T I (.forAll binders body) = some (.bool true) ↔
      ∀ es, List.Forall₂ T.Contains (binders.map Prod.snd) es →
        eval T (I.bindAll (binders.map Prod.fst) es) body = some (.bool true) := by
  simp only [eval, Option.some.injEq, Element.bool.injEq, decide_eq_true_eq]

/-- A local definition gives its name what its value denotes. -/
theorem eval_bind_of_eval {name : String} {value body : Term} {e : Element α}
    (h : eval T I value = some e) :
    eval T I (.bind [name] [value] body) = eval T (I.bind name e.constant) body := by
  rw [eval, evalAll_eq_some_iff.mpr (.cons h .nil)]
  rfl

/-- Bound names that the theory leaves to the interpretation denote what they are bound to. -/
theorem evalAll_symbols_bindAll {names : List String} {es : List (Element α)}
    (hnames : names.Nodup) (hlength : names.length = es.length)
    (hopen : ∀ name ∈ names, T.function (.symbol name) [] = none) :
    evalAll T (I.bindAll names es) (names.map .symbol) = some es := by
  rw [evalAll_eq_some_iff, List.forall₂_map_left_iff, List.forall₂_iff_zip]
  refine ⟨hlength, fun {name e} h => ?_⟩
  have hvalue := I.bindAll_of_mem_zip hnames h
  simp [eval, Theory.apply, name?, hopen name (List.of_mem_zip h).1, hvalue, Element.constant]

/-- What a call with bound names denotes: one of them hides the function of its name, and takes no
arguments itself. -/
theorem eval_call_bindAll {name : String} {names : List String} {es : List (Element α)}
    (hnames : names.Nodup) (hlength : names.length = es.length) (hes : es ≠ [])
    (hopen : ∀ name ∈ names, ∀ es, T.function (.symbol name) es = none) :
    eval T (I.bindAll names es) (.app (.symbol name) (names.map .symbol)) =
      if name ∈ names then none else T.apply I (.symbol name) es := by
  rw [eval_app_of_evalAll (evalAll_symbols_bindAll hnames hlength fun n hn => hopen n hn [])]
  split
  · next hname =>
    obtain ⟨i, hi, rfl⟩ := List.getElem_of_mem hname
    have hmem : (names[i], es[i]) ∈ names.zip es := by
      rw [← List.getElem_zip (h := by simp; omega)]
      exact List.getElem_mem _
    simp [Theory.apply, name?, hopen _ hname, I.bindAll_of_mem_zip hnames hmem, Element.constant,
      hes]
  · next hname => simp only [Theory.apply, name?, I.bindAll_of_not_mem es hname]

/-- Attributes do not change what a formula denotes. -/
theorem eval_withAttributes (attributes : List (String × String)) (t : Term) :
    eval T I (withAttributes attributes t) = eval T I t := by
  unfold withAttributes
  split
  · rfl
  · simp only [eval]

/-- Several terms denote the same in two interpretations when each of them does. -/
theorem evalAll_congr {J : Interpretation α} {ts : List Term}
    (h : ∀ t ∈ ts, eval T I t = eval T J t) : evalAll T I ts = evalAll T J ts := by
  induction ts with
  | nil => rfl
  | cons t ts ih =>
    rw [List.forall_mem_cons] at h
    simp only [evalAll, h.1, ih h.2]

/-- A node means the same when another one gets a meaning. -/
theorem apply_node_bind {id other : Int} (f : Element.Function α) (h : other ≠ id) :
    T.apply (I.bind (nodeName id) f) (.node other) = T.apply I (.node other) := by
  have hname : nodeName other ≠ nodeName id := by simpa using h
  unfold Theory.apply
  simp only [name?, I.bind_of_ne f hname]

theorem eval_node_bind {id other : Int} (f : Element.Function α) (h : other ≠ id) :
    eval T (I.bind (nodeName id) f) (.node other) = eval T I (.node other) := by
  simp only [eval, apply_node_bind f h]

/-! ### The standard theory -/

variable {carrier : SortExpr → α → Prop}

/-- A function of the standard theory means the same in every interpretation. -/
theorem apply_symbol {name : String} {f : Element.Function α} {es : List (Element α)}
    {e : Element α} (hname : Theory.symbols.lookup name = some f) (he : f es = some e) :
    (Theory.standard carrier).apply I (.symbol name) es = some e := by
  simp [Theory.apply, name?, Theory.standard, hname, he]

/-- An application of a function of the standard theory. -/
theorem eval_app_symbol {name : String} {f : Element.Function α} {ts : List Term}
    {es : List (Element α)} {e : Element α} (hname : Theory.symbols.lookup name = some f)
    (hes : evalAll (.standard carrier) I ts = some es) (he : f es = some e) :
    eval (.standard carrier) I (.app (.symbol name) ts) = some e := by
  rw [eval_app_of_evalAll hes, apply_symbol hname he]

/-- An application of a function with numeric indices. -/
theorem eval_app_indexed {name : String} {indices : List Int} {ts : List Term}
    {es : List (Element α)} {e : Element α}
    (hes : evalAll (.standard carrier) I ts = some es)
    (he : Theory.indexed name indices es = some e) :
    eval (.standard carrier) I (.app (.indexed name indices) ts) = some e := by
  rw [eval_app_of_evalAll hes]
  exact he

/-- The standard theory has no function that is called like a node. -/
theorem lookup_nodeName {id : Int} (ht : id ≠ -1) (hf : id ≠ -2) :
    (Theory.symbols (α := α)).lookup (nodeName id) = none := by
  -- No name of the standard theory starts with the letter of nodes.
  exact lookup_of_not_mem_keys fun hname =>
    nodeName_ne_of_head ht hf (Theory.head?_of_mem_symbols hname).1 rfl

/-- What is called like a node is left to the interpretation. -/
theorem apply_node {id : Int} (ht : id ≠ -1) (hf : id ≠ -2) (es : List (Element α)) :
    (Theory.standard carrier).apply I (.node id) es = I (nodeName id) es := by
  simp [Theory.apply, name?, Theory.standard, lookup_nodeName ht hf]

theorem eval_node {id : Int} (ht : id ≠ -1) (hf : id ≠ -2) :
    eval (.standard carrier) I (.node id) = I (nodeName id) [] := by
  simp [eval, apply_node ht hf]

theorem eval_app_node {id : Int} (ht : id ≠ -1) (hf : id ≠ -2) {ts : List Term}
    {es : List (Element α)} (hes : evalAll (.standard carrier) I ts = some es) :
    eval (.standard carrier) I (.app (.node id) ts) = I (nodeName id) es := by
  rw [eval_app_of_evalAll hes, apply_node ht hf]

theorem eval_ofBool (b : Bool) :
    eval (.standard carrier) I (Term.ofBool b) = some (.bool b) := by
  cases b <;> simp only [Term.ofBool, eval] <;> exact apply_symbol rfl rfl

/-- The truth values are nodes that need no interpretation. -/
theorem eval_ofBool_term (b : Bool) :
    eval (.standard carrier) I (Node.ofBool b).term = some (.bool b) := by
  cases b <;> exact apply_symbol rfl rfl

theorem eval_negation {t : Term} {b : Bool}
    (h : eval (.standard carrier) I t = some (.bool b)) :
    eval (.standard carrier) I (Term.negation t) = some (.bool !b) :=
  eval_app_symbol rfl (evalAll_eq_some_iff.mpr (.cons h .nil)) rfl

open Classical in
/-- Equality of two elements of one sort. -/
theorem relation_equal {a b : Element α} (hsort : a.sameSort b = true) :
    Element.Function.relation (fun es => decide (∀ a ∈ es, ∀ b ∈ es, a = b)) [a, b] =
      some (.bool (decide (a = b))) := by
  have hall : (∀ x ∈ [a, b], ∀ y ∈ [a, b], x = y) ↔ a = b :=
    ⟨fun h => h a (by simp) b (by simp), by rintro rfl; simp⟩
  simp only [Element.Function.relation, List.all_cons, List.all_nil, hsort, Bool.and_self, if_true,
    hall]

open Classical in
/-- An equation between elements of one sort says whether they are the same. -/
theorem eval_equation {t u : Term} {a b : Element α}
    (ht : eval (.standard carrier) I t = some a) (hu : eval (.standard carrier) I u = some b)
    (hsort : a.sameSort b = true) :
    eval (.standard carrier) I (.app (.symbol "=") [t, u]) = some (.bool (decide (a = b))) :=
  eval_app_symbol rfl (evalAll_eq_some_iff.mpr (.cons ht (.cons hu .nil))) (relation_equal hsort)

/-- An equation between elements of one sort holds when they are the same. -/
theorem eval_equation_iff {t u : Term} {a b : Element α}
    (ht : eval (.standard carrier) I t = some a) (hu : eval (.standard carrier) I u = some b)
    (hsort : a.sameSort b = true) :
    eval (.standard carrier) I (.app (.symbol "=") [t, u]) = some (.bool true) ↔ a = b := by
  rw [eval_equation ht hu hsort]
  simp

end Term

end SolverScript
