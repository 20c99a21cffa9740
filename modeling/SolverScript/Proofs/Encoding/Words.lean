import Mathlib.Data.List.Nodup
import SolverScript.Encoding.Operation
import SolverScript.Proofs.Encoding.Bits
import SolverScript.Proofs.Graph.Typing
import SolverScript.Proofs.Semantics.Constants

/-!
# Operations on truth values and bit-vectors

The term of an operation denotes what its operator computes from the elements that the terms of the
operands denote. There is one lemma for each form of term, and one case for each operator: it names
the function that the operator becomes, and the law of bit-vectors behind it.

## Main definitions

* `Scope.Denotes` - the term of an operation denotes the result of its operator

## Main results

* `Scope.denotes_of_hasKind` - this is so for all operators on truth values and bit-vectors
-/

namespace SolverScript

open Element.Function

variable {α : Type} {carrier : SortExpr → α → Prop} {I : Interpretation α} {scope : Scope}

/-- The operands that some nodes are, given their elements. -/
def Operand.ofNodes (ns : List Node) (es : List (Element α)) : List (Operand α) :=
  List.zipWith Operand.mk (ns.map Node.kind) es

/-- The term of an operation denotes the result of its operator, which is of the given kind. -/
def Scope.Denotes (scope : Scope) (T : Theory α) (I : Interpretation α) (operation : Operation)
    (kind : Kind) (es : List (Element α)) : Prop :=
  ∃ t e, scope.term operation = .ok t ∧
    operation.operator.value? kind (Operand.ofNodes operation.operands es) = some e ∧
    e.OfKind kind ∧ t.eval T I = some e

namespace Scope

/-! ### Shapes of operands -/

private theorem one_operand {ns : List Node} {es : List (Element α)} {k : Kind}
    (hks : ns.map Node.kind = [k])
    (hes : List.Forall₂ (fun n e => Element.OfKind n.kind e) ns es) :
    ∃ i e, ns = [⟨i, k⟩] ∧ es = [e] ∧ e.OfKind k := by
  cases hes with
  | nil => simp at hks
  | @cons n e _ _ he hrest =>
    cases hrest with
    | nil =>
      obtain rfl : n.kind = k := by simpa using hks
      exact ⟨n.id, e, rfl, rfl, he⟩
    | cons => simp at hks

private theorem two_operands {ns : List Node} {es : List (Element α)} {k l : Kind}
    (hks : ns.map Node.kind = [k, l])
    (hes : List.Forall₂ (fun n e => Element.OfKind n.kind e) ns es) :
    ∃ i j e f, ns = [⟨i, k⟩, ⟨j, l⟩] ∧ es = [e, f] ∧ e.OfKind k ∧ f.OfKind l := by
  cases hes with
  | nil => simp at hks
  | @cons n e _ _ he hrest =>
    obtain ⟨hk, hl⟩ := List.cons_eq_cons.mp hks
    obtain ⟨j, f, rfl, rfl, hf⟩ := one_operand hl hrest
    subst hk
    exact ⟨n.id, j, e, f, rfl, rfl, he, hf⟩

private theorem one_bits {ns : List Node} {es : List (Element α)} {s : Bool} {w : Width}
    (hks : ns.map Node.kind = [.bounded s w])
    (hes : List.Forall₂ (fun n e => Element.OfKind n.kind e) ns es) :
    ∃ i x, ns = [⟨i, .bounded s w⟩] ∧ es = [.bits w.bits x] := by
  obtain ⟨i, e, hns, rfl, he⟩ := one_operand hks hes
  cases he with
  | bounded x => exact ⟨i, x, hns, rfl⟩

private theorem two_bits {ns : List Node} {es : List (Element α)} {s s' : Bool} {v w : Width}
    (hks : ns.map Node.kind = [.bounded s v, .bounded s' w])
    (hes : List.Forall₂ (fun n e => Element.OfKind n.kind e) ns es) :
    ∃ i j x y, ns = [⟨i, .bounded s v⟩, ⟨j, .bounded s' w⟩] ∧
      es = [.bits v.bits x, .bits w.bits y] := by
  obtain ⟨i, j, e, f, hns, rfl, he, hf⟩ := two_operands hks hes
  cases he with
  | bounded x =>
    cases hf with
    | bounded y => exact ⟨i, j, x, y, hns, rfl⟩

private theorem two_bools {ns : List Node} {es : List (Element α)}
    (hks : ns.map Node.kind = [.bool, .bool])
    (hes : List.Forall₂ (fun n e => Element.OfKind n.kind e) ns es) :
    ∃ i j a b, ns = [⟨i, .bool⟩, ⟨j, .bool⟩] ∧ es = [.bool a, .bool b] := by
  obtain ⟨i, j, e, f, hns, rfl, he, hf⟩ := two_operands hks hes
  cases he with
  | bool a =>
    cases hf with
    | bool b => exact ⟨i, j, a, b, hns, rfl⟩

private theorem uniform_operands {ns : List Node} {es : List (Element α)} {k : Kind}
    (hes : List.Forall₂ (fun n e => Element.OfKind n.kind e) ns es)
    (hk : ∀ n ∈ ns, n.kind = k) :
    (∀ e ∈ es, e.OfKind k) ∧
      (Operand.ofNodes ns es).map Operand.int = es.map (Element.read k.isSigned) := by
  induction hes with
  | nil => exact ⟨by simp, rfl⟩
  | @cons n e ns es he hrest ih =>
    obtain ⟨hofKind, hint⟩ := ih fun m hm => hk m (List.mem_cons_of_mem n hm)
    have hn : n.kind = k := hk n List.mem_cons_self
    constructor
    · intro f hf
      rcases List.mem_cons.mp hf with rfl | hf
      · exact hn ▸ he
      · exact hofKind f hf
    · rw [List.map_cons, ← hint, ← hn]
      rfl

/-! ### Forms of terms -/

variable {op : Operator} {ns : List Node} {m : Int} {s s' r : Bool} {w : Width}

/-- A function of two bit-vectors that keeps their width. -/
private theorem denotes_bitPair {name : String} {x y : BitVec w.bits}
    (f : {w : Nat} → BitVec w → BitVec w → BitVec w)
    (hname : (Theory.symbols (α := α)).lookup name = some (onBitPair f))
    (hterm : scope.term ⟨op, ns⟩ = .ok (.app (.symbol name) (scope.nodeTerms ns)))
    (hes : Term.evalAll (.standard carrier) I (scope.nodeTerms ns) =
      some [.bits w.bits x, .bits w.bits y])
    (hnumber : op.number? (Operand.ofNodes (α := α) ns [.bits w.bits x, .bits w.bits y]) = some m)
    (hm : BitVec.ofInt w.bits m = f x y) :
    scope.Denotes (.standard carrier) I ⟨op, ns⟩ (.bounded r w)
      [.bits w.bits x, .bits w.bits y] := by
  refine ⟨_, .bits w.bits (f x y), hterm, ?_, .bounded _, ?_⟩
  · simp only [Operator.value?, hnumber, Option.bind_some, Element.ofInt?, hm]
  · exact Term.eval_app_symbol hname hes (by simp [onBitPair])

/-- A relation between two bit-vectors of one width. -/
private theorem denotes_compareBits {name : String} {x y : BitVec w.bits}
    (f : {w : Nat} → BitVec w → BitVec w → Bool)
    (hname : (Theory.symbols (α := α)).lookup name = some (compareBits f))
    (hterm : scope.term ⟨op, ns⟩ = .ok (.app (.symbol name) (scope.nodeTerms ns)))
    (hes : Term.evalAll (.standard carrier) I (scope.nodeTerms ns) =
      some [.bits w.bits x, .bits w.bits y])
    {result : Bool}
    (hnumber : op.number? (Operand.ofNodes (α := α) ns [.bits w.bits x, .bits w.bits y]) =
      some result.toInt)
    (hresult : result = f x y) :
    scope.Denotes (.standard carrier) I ⟨op, ns⟩ .bool [.bits w.bits x, .bits w.bits y] := by
  refine ⟨_, .bool (f x y), hterm, ?_, .bool _, ?_⟩
  · simp only [Operator.value?, hnumber, Option.bind_some, Element.ofInt?_toInt, hresult]
  · exact Term.eval_app_symbol hname hes (by simp [compareBits])

/-- A function of one bit-vector that keeps its width. -/
private theorem denotes_bits {name : String} {x : BitVec w.bits}
    (f : {w : Nat} → BitVec w → BitVec w)
    (hname : (Theory.symbols (α := α)).lookup name = some (onBits f))
    (hterm : scope.term ⟨op, ns⟩ = .ok (.app (.symbol name) (scope.nodeTerms ns)))
    (hes : Term.evalAll (.standard carrier) I (scope.nodeTerms ns) = some [.bits w.bits x])
    (hnumber : op.number? (Operand.ofNodes (α := α) ns [.bits w.bits x]) = some m)
    (hm : BitVec.ofInt w.bits m = f x) :
    scope.Denotes (.standard carrier) I ⟨op, ns⟩ (.bounded r w) [.bits w.bits x] := by
  refine ⟨_, .bits w.bits (f x), hterm, ?_, .bounded _, ?_⟩
  · simp only [Operator.value?, hnumber, Option.bind_some, Element.ofInt?, hm]
  · exact Term.eval_app_symbol hname hes (by simp [onBits])

/-- A connective of two truth values. -/
private theorem denotes_connective {name : String} {a b : Bool} (f : List Bool → Bool)
    (hname : (Theory.symbols (α := α)).lookup name = some (Element.Function.connective f))
    (hterm : scope.term ⟨op, ns⟩ = .ok (.app (.symbol name) (scope.nodeTerms ns)))
    (hes : Term.evalAll (.standard carrier) I (scope.nodeTerms ns) = some [.bool a, .bool b])
    (hvalue : op.value? .bool (Operand.ofNodes (α := α) ns [.bool a, .bool b]) =
      some (.bool (f [a, b]))) :
    scope.Denotes (.standard carrier) I ⟨op, ns⟩ .bool [.bool a, .bool b] :=
  ⟨_, .bool (f [a, b]), hterm, hvalue, .bool _,
    Term.eval_app_symbol hname hes (by simp [Element.Function.connective])⟩

/-! ### Operators -/

section

variable {es : List (Element α)}
  (hes : Term.evalAll (.standard carrier) I (scope.nodeTerms ns) = some es)
  (hkinds : List.Forall₂ (fun n e => Element.OfKind n.kind e) ns es)

include hes hkinds

private theorem denotes_arithmetic (hks : ns.map Node.kind = [.bounded s w, .bounded s w])
    (hop : op = .plus ∨ op = .minus ∨ op = .times) :
    scope.Denotes (.standard carrier) I ⟨op, ns⟩ (.bounded s w) es := by
  obtain ⟨i, j, x, y, rfl, rfl⟩ := two_bits hks hkinds
  rcases hop with rfl | rfl | rfl
  · exact denotes_bitPair (fun x y => x + y) rfl rfl hes rfl (Value.ofInt_readBits_add s x y)
  · exact denotes_bitPair (fun x y => x - y) rfl rfl hes rfl (Value.ofInt_readBits_sub s x y)
  · exact denotes_bitPair (fun x y => x * y) rfl rfl hes rfl (Value.ofInt_readBits_mul s x y)

private theorem denotes_quot (hks : ns.map Node.kind = [.bounded s w, .bounded s w]) :
    scope.Denotes (.standard carrier) I ⟨.quot, ns⟩ (.bounded s w) es := by
  obtain ⟨i, j, x, y, rfl, rfl⟩ := two_bits hks hkinds
  cases s
  · exact denotes_bitPair BitVec.smtUDiv rfl rfl hes rfl (Value.ofInt_divided_toNat x y)
  · exact denotes_bitPair BitVec.smtSDiv rfl rfl hes rfl (Value.ofInt_divided_toInt x y)

private theorem denotes_rem (hks : ns.map Node.kind = [.bounded s w, .bounded s w]) :
    scope.Denotes (.standard carrier) I ⟨.rem, ns⟩ (.bounded s w) es := by
  obtain ⟨i, j, x, y, rfl, rfl⟩ := two_bits hks hkinds
  cases s
  · exact denotes_bitPair (fun x y => x % y) rfl rfl hes rfl (Value.ofInt_tmod_toNat x y)
  · exact denotes_bitPair BitVec.srem rfl rfl hes rfl (Value.ofInt_tmod_toInt x y)

private theorem denotes_abs (hks : ns.map Node.kind = [.bounded s w]) :
    scope.Denotes (.standard carrier) I ⟨.abs, ns⟩ (.bounded s w) es := by
  obtain ⟨i, x, rfl, rfl⟩ := one_bits hks hkinds
  obtain ⟨ht, -⟩ := List.forall₂_cons.mp (Term.evalAll_eq_some_iff.mp hes)
  cases s
  · exact ⟨_, .bits w.bits x, rfl, congrArg (fun y => some (Element.bits w.bits y))
      (Value.ofInt_natAbs_toNat x), .bounded x, ht⟩
  -- There is no function for absolute values, so the term asks for the sign.
  · obtain ⟨zero, hzero, heval⟩ := scope.eval_constantTerm carrier I
      (show Element.ofInt? (.bounded true w) 0 = some (.bits w.bits 0#w.bits) by
        simp [Element.ofInt?])
    refine ⟨Arithmetic.absoluteValue "bvslt" "bvneg" zero (scope.nodeTerm ⟨i, .bounded true w⟩),
      .bits w.bits (if x.slt 0#w.bits then -x else x), ?_, ?_, .bounded _, ?_⟩
    · have hterm : scope.term ⟨.abs, [⟨i, .bounded true w⟩]⟩ =
          (scope.constantTerm (.bounded true w) 0).bind fun zero =>
            .ok (Arithmetic.absoluteValue "bvslt" "bvneg" zero
              (scope.nodeTerm ⟨i, .bounded true w⟩)) := rfl
      rw [hterm, hzero]
      rfl
    · exact congrArg (fun y => some (Element.bits w.bits y)) (Value.ofInt_natAbs_toInt x)
    · have hless : (Term.app (.symbol "bvslt") [scope.nodeTerm ⟨i, .bounded true w⟩, zero]).eval
          (.standard carrier) I = some (.bool (x.slt 0#w.bits)) :=
        Term.eval_app_symbol rfl (Term.evalAll_eq_some_iff.mpr (.cons ht (.cons heval .nil)))
          (by simp [compareBits])
      have hneg : (Term.app (.symbol "bvneg") [scope.nodeTerm ⟨i, .bounded true w⟩]).eval
          (.standard carrier) I = some (.bits w.bits (-x)) :=
        Term.eval_app_symbol rfl hes rfl
      refine Term.eval_app_symbol rfl
        (Term.evalAll_eq_some_iff.mpr (.cons hless (.cons hneg (.cons ht .nil)))) ?_
      cases x.slt 0#w.bits <;> simp [choice, Element.sameSort]

private theorem denotes_equal {k : Kind} (hk : k.IsWord) (hks : ns.map Node.kind = [k, k]) :
    scope.Denotes (.standard carrier) I ⟨.equal, ns⟩ .bool es := by
  classical
  obtain ⟨i, j, e, f, rfl, rfl, he, hf⟩ := two_operands hks hkinds
  obtain ⟨ht, hrest⟩ := List.forall₂_cons.mp (Term.evalAll_eq_some_iff.mp hes)
  obtain ⟨hu, -⟩ := List.forall₂_cons.mp hrest
  have hterm : scope.term ⟨.equal, [⟨i, k⟩, ⟨j, k⟩]⟩ =
      .ok (.app (.symbol "=") (scope.nodeTerms [⟨i, k⟩, ⟨j, k⟩])) := by
    cases hk <;> rfl
  -- Elements of one kind are equal just if their integers are.
  have hvalue : decide (e.read k.isSigned = f.read k.isSigned) = decide (e = f) := by
    simp only [he.read_inj hf]
  refine ⟨_, .bool (decide (e = f)), hterm, ?_, .bool _, ?_⟩
  · exact (congrArg (fun b => Element.ofInt? .bool b.toInt) hvalue).trans
      (Element.ofInt?_toInt _)
  · exact (Term.eval_equation ht hu (he.sameSort hf)).trans (by congr)

omit hkinds in
/-- A relation between elements of one sort, at least two of them. -/
private theorem eval_relation {name : String} {rel : List (Element α) → Bool} {k : Kind}
    (hname : (Theory.symbols (α := α)).lookup name = some (relation rel))
    (hofKind : ∀ e ∈ es, e.OfKind k) (hlength : 2 ≤ es.length) :
    (Term.app (.symbol name) (scope.nodeTerms ns)).eval (.standard carrier) I =
      some (.bool (rel es)) := by
  refine Term.eval_app_symbol hname hes ?_
  match es with
  | a :: b :: rest =>
    have hsame : (b :: rest).all a.sameSort = true := by
      rw [List.all_eq_true]
      intro e he
      exact (hofKind a (by simp)).sameSort (hofKind e (List.mem_cons_of_mem a he))
    simp only [relation, hsame, if_true]

omit hes hkinds in
/-- Truth values and bit-vectors are required to differ in one application. -/
private theorem term_notEqual {k : Kind} {n : Nat} (hk : k.IsWord) (hn : 2 ≤ n)
    (hks : ns.map Node.kind = List.replicate n k) :
    scope.term ⟨.notEqual, ns⟩ = .ok (.app (.symbol "distinct") (scope.nodeTerms ns)) := by
  have hgeneric : scope.generic ⟨.notEqual, ns⟩ =
      .ok (Term.apply "distinct" (scope.nodeTerms ns)) := by
    have hne : n ≠ 0 := by omega
    cases hk <;> simp [Scope.generic, OperandProfile.ofNodes, hks, hne, onlyIf,
      Comparison.bool?, Comparison.enumerated?, Arithmetic.bitVector?, Kind.isBool,
      Kind.isBounded, Kind.isUnbounded, Kind.isReal, Kind.isRational, Kind.isFloating,
      Kind.floatFormat?, Kind.isChar, Kind.isString, Kind.isList]
  -- There are operands, so this is not the symbol alone.
  have happly : Term.apply "distinct" (scope.nodeTerms ns) =
      .app (.symbol "distinct") (scope.nodeTerms ns) := by
    cases ns with
    | nil => simp at hks; omega
    | cons => rfl
  exact hgeneric.trans (congrArg _ happly)

private theorem denotes_notEqual {k : Kind} {n : Nat} (hk : k.IsWord) (hn : 2 ≤ n)
    (hks : ns.map Node.kind = List.replicate n k) :
    scope.Denotes (.standard carrier) I ⟨.notEqual, ns⟩ .bool es := by
  classical
  have hnode : ∀ n ∈ ns, n.kind = k := by
    intro n hn
    have hmem : n.kind ∈ ns.map Node.kind := List.mem_map_of_mem hn
    rw [hks] at hmem
    exact List.eq_of_mem_replicate hmem
  obtain ⟨hofKind, hint⟩ := uniform_operands hkinds hnode
  have hlength : es.length = n := by
    rw [← hkinds.length_eq, ← List.length_map (f := Node.kind), hks, List.length_replicate]
  -- Elements of one kind are different just if their integers are.
  have hvalue : decide ((Operand.ofNodes ns es).map Operand.int).Nodup = decide es.Nodup := by
    rw [hint, decide_eq_decide]
    constructor
    · exact List.Nodup.of_map _
    · exact List.Nodup.map_on fun e he f hf =>
        ((hofKind e he).read_inj (hofKind f hf)).mp
  refine ⟨_, .bool (decide es.Nodup), term_notEqual hk hn hks, ?_, .bool _, ?_⟩
  · exact (congrArg (fun b => Element.ofInt? .bool b.toInt) hvalue).trans
      (Element.ofInt?_toInt _)
  · have hname : (Theory.symbols (α := α)).lookup "distinct" =
        some (relation fun es => decide es.Nodup) := rfl
    exact eval_relation hes hname hofKind (by omega)

private theorem denotes_less (hks : ns.map Node.kind = [.bounded s w, .bounded s w])
    (hop : op = .lessThan ∨ op = .greaterThan ∨ op = .lessEq ∨ op = .greaterEq) :
    scope.Denotes (.standard carrier) I ⟨op, ns⟩ .bool es := by
  obtain ⟨i, j, x, y, rfl, rfl⟩ := two_bits hks hkinds
  rcases hop with rfl | rfl | rfl | rfl <;> cases s
  · exact denotes_compareBits BitVec.ult rfl rfl hes rfl (Value.decide_lt_toNat x y)
  · exact denotes_compareBits BitVec.slt rfl rfl hes rfl (Value.decide_lt_toInt x y)
  · exact denotes_compareBits (fun x y => y.ult x) rfl rfl hes rfl (Value.decide_lt_toNat y x)
  · exact denotes_compareBits (fun x y => y.slt x) rfl rfl hes rfl (Value.decide_lt_toInt y x)
  · exact denotes_compareBits BitVec.ule rfl rfl hes rfl (Value.decide_le_toNat x y)
  · exact denotes_compareBits BitVec.sle rfl rfl hes rfl (Value.decide_le_toInt x y)
  · exact denotes_compareBits (fun x y => y.ule x) rfl rfl hes rfl (Value.decide_le_toNat y x)
  · exact denotes_compareBits (fun x y => y.sle x) rfl rfl hes rfl (Value.decide_le_toInt y x)

private theorem denotes_lessBool (hks : ns.map Node.kind = [.bool, .bool])
    (hop : op = .lessThan ∨ op = .greaterThan ∨ op = .lessEq ∨ op = .greaterEq) :
    scope.Denotes (.standard carrier) I ⟨op, ns⟩ .bool es := by
  obtain ⟨i, j, a, b, rfl, rfl⟩ := two_bools hks hkinds
  obtain ⟨ha, hrest⟩ := List.forall₂_cons.mp (Term.evalAll_eq_some_iff.mp hes)
  obtain ⟨hb, -⟩ := List.forall₂_cons.mp hrest
  -- Truth values are compared by a connective in which the smaller one is negated.
  have hab := Term.evalAll_eq_some_iff.mpr (.cons (Term.eval_negation ha) (.cons hb .nil))
  have hba := Term.evalAll_eq_some_iff.mpr (.cons (Term.eval_negation hb) (.cons ha .nil))
  rcases hop with rfl | rfl | rfl | rfl
  · refine ⟨_, .bool (!a && b), rfl, ?_, .bool _, Term.eval_app_symbol rfl hab ?_⟩
    · cases a <;> cases b <;> rfl
    · simp [Element.Function.connective]
  · refine ⟨_, .bool (!b && a), rfl, ?_, .bool _, Term.eval_app_symbol rfl hba ?_⟩
    · cases a <;> cases b <;> rfl
    · simp [Element.Function.connective]
  · refine ⟨_, .bool (!a || b), rfl, ?_, .bool _, Term.eval_app_symbol rfl hab ?_⟩
    · cases a <;> cases b <;> rfl
    · simp [Element.Function.connective]
  · refine ⟨_, .bool (!b || a), rfl, ?_, .bool _, Term.eval_app_symbol rfl hba ?_⟩
    · cases a <;> cases b <;> rfl
    · simp [Element.Function.connective]

private theorem denotes_order {k : Kind} (hk : k.IsWord) (hks : ns.map Node.kind = [k, k])
    (hop : op = .lessThan ∨ op = .greaterThan ∨ op = .lessEq ∨ op = .greaterEq) :
    scope.Denotes (.standard carrier) I ⟨op, ns⟩ .bool es := by
  cases hk with
  | bool => exact denotes_lessBool hes hkinds hks hop
  | bounded s w => exact denotes_less hes hkinds hks hop

private theorem denotes_connectiveBool (hks : ns.map Node.kind = [.bool, .bool])
    (hop : op = .and ∨ op = .or ∨ op = .xor) :
    scope.Denotes (.standard carrier) I ⟨op, ns⟩ .bool es := by
  obtain ⟨i, j, a, b, rfl, rfl⟩ := two_bools hks hkinds
  rcases hop with rfl | rfl | rfl
  · refine denotes_connective (fun bs => bs.all id) rfl rfl hes ?_
    cases a <;> cases b <;> simp [Operator.value?, Operator.number?, Operand.ofNodes, Operand.nat,
      Element.read, Element.ofInt?]
  · refine denotes_connective (fun bs => bs.any id) rfl rfl hes ?_
    cases a <;> cases b <;> simp [Operator.value?, Operator.number?, Operand.ofNodes, Operand.nat,
      Element.read, Element.ofInt?]
  · refine denotes_connective (fun bs => bs.foldl xor false) rfl rfl hes ?_
    cases a <;> cases b <;> simp [Operator.value?, Operator.number?, Operand.ofNodes, Operand.nat,
      Element.read, Element.ofInt?]

private theorem denotes_connectiveBits
    (hks : ns.map Node.kind = [.bounded s w, .bounded s' w])
    (hop : op = .and ∨ op = .or ∨ op = .xor) :
    scope.Denotes (.standard carrier) I ⟨op, ns⟩ (.bounded r w) es := by
  obtain ⟨i, j, x, y, rfl, rfl⟩ := two_bits hks hkinds
  rcases hop with rfl | rfl | rfl
  · exact denotes_bitPair (fun x y => x &&& y) rfl rfl hes rfl (Value.ofInt_toNat_and x y)
  · exact denotes_bitPair (fun x y => x ||| y) rfl rfl hes rfl (Value.ofInt_toNat_or x y)
  · exact denotes_bitPair (fun x y => x ^^^ y) rfl rfl hes rfl (Value.ofInt_toNat_xor x y)

private theorem denotes_notBool (hks : ns.map Node.kind = [.bool]) :
    scope.Denotes (.standard carrier) I ⟨.not, ns⟩ .bool es := by
  obtain ⟨i, e, rfl, rfl, he⟩ := one_operand hks hkinds
  obtain ⟨ht, -⟩ := List.forall₂_cons.mp (Term.evalAll_eq_some_iff.mp hes)
  cases he with
  | bool b =>
    exact ⟨_, .bool !b, rfl, by cases b <;> rfl, .bool _, Term.eval_negation ht⟩

private theorem denotes_notBits (hks : ns.map Node.kind = [.bounded s w]) :
    scope.Denotes (.standard carrier) I ⟨.not, ns⟩ (.bounded r w) es := by
  obtain ⟨i, x, rfl, rfl⟩ := one_bits hks hkinds
  exact denotes_bits (fun x => ~~~x) rfl rfl hes rfl (Value.ofInt_complement s x)

private theorem denotes_uneg (hks : ns.map Node.kind = [.bounded s w]) :
    scope.Denotes (.standard carrier) I ⟨.uneg, ns⟩ (.bounded s w) es := by
  obtain ⟨i, x, rfl, rfl⟩ := one_bits hks hkinds
  exact denotes_bits (fun x => -x) rfl rfl hes rfl (Value.ofInt_readBits_neg s x)

/-- The amount of a shift is read without a sign, whatever its kind. -/
private theorem denotes_shl (hks : ns.map Node.kind = [.bounded s w, .bounded s' w]) :
    scope.Denotes (.standard carrier) I ⟨.shl, ns⟩ (.bounded r w) es := by
  obtain ⟨i, j, x, y, rfl, rfl⟩ := two_bits hks hkinds
  exact denotes_bitPair (fun x y => x <<< y.toNat) rfl rfl hes rfl
    (Value.ofInt_shiftLeft s x y.toNat)

private theorem denotes_shr (hks : ns.map Node.kind = [.bounded s w, .bounded s' w]) :
    scope.Denotes (.standard carrier) I ⟨.shr, ns⟩ (.bounded r w) es := by
  obtain ⟨i, j, x, y, rfl, rfl⟩ := two_bits hks hkinds
  cases s
  · exact denotes_bitPair (fun x y => x >>> y.toNat) rfl rfl hes rfl
      (Value.ofInt_shiftRight_toNat x y.toNat)
  · exact denotes_bitPair (fun x y => x.sshiftRight y.toNat) rfl rfl hes rfl
      (Value.ofInt_shiftRight_toInt x y.toNat)

private theorem denotes_rotation (hks : ns.map Node.kind = [.bounded s w]) (amount : Nat)
    (hop : op = .rol amount ∨ op = .ror amount) :
    scope.Denotes (.standard carrier) I ⟨op, ns⟩ (.bounded r w) es := by
  obtain ⟨i, x, rfl, rfl⟩ := one_bits hks hkinds
  rcases hop with rfl | rfl
  · exact ⟨_, .bits w.bits (x.rotateLeft amount), rfl,
      congrArg (fun y => some (Element.bits w.bits y)) (Value.ofInt_rotatedLeft x amount),
      .bounded _, Term.eval_app_indexed hes rfl⟩
  · exact ⟨_, .bits w.bits (x.rotateRight amount), rfl,
      congrArg (fun y => some (Element.bits w.bits y)) (Value.ofInt_rotatedRight x amount),
      .bounded _, Term.eval_app_indexed hes rfl⟩

private theorem denotes_extract {v : Width} {range : BitRange} (hhigh : range.high < w.bits)
    (hv : v.bits = range.high - range.low + 1) (hks : ns.map Node.kind = [.bounded s w]) :
    scope.Denotes (.standard carrier) I ⟨.extract range, ns⟩ (.bounded r v) es := by
  obtain ⟨i, x, rfl, rfl⟩ := one_bits hks hkinds
  refine ⟨_, .bits v.bits (BitVec.ofInt v.bits ((x.toNat / 2 ^ range.low : Nat) : Int)), rfl,
    rfl, .bounded _, Term.eval_app_indexed hes ?_⟩
  -- The width of the result is that of the range only up to an equation.
  rw [Element.bits_ofInt_congr hv, Value.ofInt_extract]
  exact if_pos ⟨range.low_le_high, hhigh⟩

private theorem denotes_join {v u : Width} (hu : u.bits = v.bits + w.bits)
    (hks : ns.map Node.kind = [.bounded s v, .bounded s' w]) :
    scope.Denotes (.standard carrier) I ⟨.join, ns⟩ (.bounded r u) es := by
  obtain ⟨i, j, x, y, rfl, rfl⟩ := two_bits hks hkinds
  refine ⟨_, .bits u.bits
      (BitVec.ofInt u.bits ((x.toNat * 2 ^ w.bits + y.toNat : Nat) : Int)), rfl, rfl,
    .bounded _, Term.eval_app_symbol rfl hes ?_⟩
  rw [Element.bits_ofInt_congr hu, Value.ofInt_join]

private theorem denotes_ite {k : Kind} (hks : ns.map Node.kind = [.bool, k, k]) :
    scope.Denotes (.standard carrier) I ⟨.ite, ns⟩ k es := by
  cases hkinds with
  | nil => simp at hks
  | @cons n e _ _ he hrest =>
    obtain ⟨hn, hks⟩ := List.cons_eq_cons.mp hks
    obtain ⟨i, j, f, g, rfl, rfl, hf, hg⟩ := two_operands hks hrest
    rw [hn] at he
    cases he with
    | bool b =>
      refine ⟨_, if b then f else g, rfl, ?_, ?_, Term.eval_app_symbol rfl hes ?_⟩
      · cases b
        · exact hg.ofInt?_read
        · exact hf.ofInt?_read
      · cases b
        · exact hg
        · exact hf
      · simp [choice, hf.sameSort hg]

private theorem denotes_label {k : Kind} (text : String) (hks : ns.map Node.kind = [k]) :
    scope.Denotes (.standard carrier) I ⟨.label text, ns⟩ k es := by
  obtain ⟨i, e, rfl, rfl, he⟩ := one_operand hks hkinds
  obtain ⟨ht, -⟩ := List.forall₂_cons.mp (Term.evalAll_eq_some_iff.mp hes)
  exact ⟨_, e, rfl, he.ofInt?_read, he, ht⟩

end

/-- The term of an operation on truth values and bit-vectors denotes the result of its operator. -/
theorem denotes_of_hasKind {kind : Kind} {es : List (Element α)}
    (hop : op.HasKind (ns.map Node.kind) kind)
    (hes : Term.evalAll (.standard carrier) I (scope.nodeTerms ns) = some es)
    (hkinds : List.Forall₂ (fun n e => Element.OfKind n.kind e) ns es) :
    scope.Denotes (.standard carrier) I ⟨op, ns⟩ kind es := by
  generalize hks : ns.map Node.kind = ks at hop
  -- One case for each rule of the kinds of operands.
  cases hop with
  | ite => exact denotes_ite hes hkinds hks
  | label text => exact denotes_label hes hkinds text hks
  | plus => exact denotes_arithmetic hes hkinds hks (.inl rfl)
  | minus => exact denotes_arithmetic hes hkinds hks (.inr (.inl rfl))
  | times => exact denotes_arithmetic hes hkinds hks (.inr (.inr rfl))
  | quot => exact denotes_quot hes hkinds hks
  | rem => exact denotes_rem hes hkinds hks
  | uneg => exact denotes_uneg hes hkinds hks
  | abs => exact denotes_abs hes hkinds hks
  | equal hk => exact denotes_equal hes hkinds hk hks
  | notEqual hk hn => exact denotes_notEqual hes hkinds hk hn hks
  | lessThan hk => exact denotes_order hes hkinds hk hks (.inl rfl)
  | greaterThan hk => exact denotes_order hes hkinds hk hks (.inr (.inl rfl))
  | lessEq hk => exact denotes_order hes hkinds hk hks (.inr (.inr (.inl rfl)))
  | greaterEq hk => exact denotes_order hes hkinds hk hks (.inr (.inr (.inr rfl)))
  | andBool => exact denotes_connectiveBool hes hkinds hks (.inl rfl)
  | orBool => exact denotes_connectiveBool hes hkinds hks (.inr (.inl rfl))
  | xorBool => exact denotes_connectiveBool hes hkinds hks (.inr (.inr rfl))
  | notBool => exact denotes_notBool hes hkinds hks
  | andBits => exact denotes_connectiveBits hes hkinds hks (.inl rfl)
  | orBits => exact denotes_connectiveBits hes hkinds hks (.inr (.inl rfl))
  | xorBits => exact denotes_connectiveBits hes hkinds hks (.inr (.inr rfl))
  | notBits => exact denotes_notBits hes hkinds hks
  | shl => exact denotes_shl hes hkinds hks
  | shr => exact denotes_shr hes hkinds hks
  | rol amount => exact denotes_rotation hes hkinds hks amount (.inl rfl)
  | ror amount => exact denotes_rotation hes hkinds hks amount (.inr rfl)
  | extract range hhigh hv => exact denotes_extract hes hkinds hhigh hv hks
  | join hu => exact denotes_join hes hkinds hu hks

end Scope

end SolverScript
