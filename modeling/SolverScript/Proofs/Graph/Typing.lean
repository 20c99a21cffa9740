import SolverScript.Proofs.Graph.Evaluation

/-!
# Kinds of operations

Which operators can be applied to truth values and bit-vectors of which kinds, and what kind the
result has. Arithmetic and comparisons want operands of one kind; what works bit by bit looks at the
widths only.

## Main definitions

* `Kind.IsWord` - truth values and bit-vectors
* `Element.OfKind` - the elements of such a kind
* `Operator.HasKind` - the kinds of operands and of the result
-/

namespace SolverScript

variable {α : Type}

/-- The kinds of truth values and of bit-vectors. -/
inductive Kind.IsWord : Kind → Prop
  | bool : IsWord .bool
  | bounded (signed : Bool) (width : Width) : IsWord (.bounded signed width)

/-- The elements of a kind of truth values or bit-vectors. -/
inductive Element.OfKind : Kind → Element α → Prop
  | bool (b : Bool) : OfKind .bool (.bool b)
  | bounded {signed : Bool} {width : Width} (x : BitVec width.bits) :
    OfKind (.bounded signed width) (.bits width.bits x)

namespace Element

theorem OfKind.isWord {k : Kind} {e : Element α} (he : e.OfKind k) : k.IsWord := by
  cases he with
  | bool => exact .bool
  | bounded => exact .bounded _ _

/-- The elements of a kind are told apart by the integers that they stand for. -/
theorem OfKind.read_inj {k : Kind} {e f : Element α} (he : e.OfKind k) (hf : f.OfKind k) :
    e.read k.isSigned = f.read k.isSigned ↔ e = f := by
  cases he with
  | bool a =>
    cases hf with
    | bool b => cases a <;> cases b <;> simp [read]
  | bounded x =>
    cases hf with
    | bounded y => simp [read]

theorem OfKind.sameSort {k : Kind} {e f : Element α} (he : e.OfKind k) (hf : f.OfKind k) :
    e.sameSort f = true := by
  cases he <;> cases hf <;> simp [Element.sameSort]

/-- Reading the integer behind an element and making an element of it changes nothing. -/
theorem OfKind.ofInt?_read {k : Kind} {e : Element α} (he : e.OfKind k) :
    ofInt? k (e.read k.isSigned) = some e := by
  cases he with
  | bool b => cases b <;> rfl
  | bounded x => simp [ofInt?, read]

theorem exists_ofInt? {k : Kind} (hk : k.IsWord) (n : Int) :
    ∃ e : Element α, ofInt? k n = some e ∧ e.OfKind k := by
  cases hk with
  | bool => exact ⟨_, rfl, .bool _⟩
  | bounded => exact ⟨_, rfl, .bounded _⟩

/-- A truth value is the element of zero or one. -/
theorem ofInt?_toInt (b : Bool) : ofInt? .bool b.toInt = some (bool b : Element α) := by
  cases b <;> rfl

end Element

/-- The kinds that an operator can be applied to, and the kind of the result. -/
inductive Operator.HasKind : Operator → List Kind → Kind → Prop
  | ite {k : Kind} (hk : k.IsWord) : HasKind .ite [.bool, k, k] k
  | label {k : Kind} (text : String) (hk : k.IsWord) : HasKind (.label text) [k] k
  | plus {s : Bool} {w : Width} :
    HasKind .plus [.bounded s w, .bounded s w] (.bounded s w)
  | minus {s : Bool} {w : Width} :
    HasKind .minus [.bounded s w, .bounded s w] (.bounded s w)
  | times {s : Bool} {w : Width} :
    HasKind .times [.bounded s w, .bounded s w] (.bounded s w)
  | quot {s : Bool} {w : Width} :
    HasKind .quot [.bounded s w, .bounded s w] (.bounded s w)
  | rem {s : Bool} {w : Width} :
    HasKind .rem [.bounded s w, .bounded s w] (.bounded s w)
  | uneg {s : Bool} {w : Width} : HasKind .uneg [.bounded s w] (.bounded s w)
  | abs {s : Bool} {w : Width} : HasKind .abs [.bounded s w] (.bounded s w)
  | equal {k : Kind} (hk : k.IsWord) : HasKind .equal [k, k] .bool
  | notEqual {k : Kind} {n : Nat} (hk : k.IsWord) (hn : 2 ≤ n) :
    HasKind .notEqual (List.replicate n k) .bool
  | lessThan {k : Kind} (hk : k.IsWord) : HasKind .lessThan [k, k] .bool
  | greaterThan {k : Kind} (hk : k.IsWord) : HasKind .greaterThan [k, k] .bool
  | lessEq {k : Kind} (hk : k.IsWord) : HasKind .lessEq [k, k] .bool
  | greaterEq {k : Kind} (hk : k.IsWord) : HasKind .greaterEq [k, k] .bool
  | andBool : HasKind .and [.bool, .bool] .bool
  | orBool : HasKind .or [.bool, .bool] .bool
  | xorBool : HasKind .xor [.bool, .bool] .bool
  | notBool : HasKind .not [.bool] .bool
  | andBits {s s' r : Bool} {w : Width} :
    HasKind .and [.bounded s w, .bounded s' w] (.bounded r w)
  | orBits {s s' r : Bool} {w : Width} :
    HasKind .or [.bounded s w, .bounded s' w] (.bounded r w)
  | xorBits {s s' r : Bool} {w : Width} :
    HasKind .xor [.bounded s w, .bounded s' w] (.bounded r w)
  | notBits {s r : Bool} {w : Width} : HasKind .not [.bounded s w] (.bounded r w)
  | shl {s s' r : Bool} {w : Width} :
    HasKind .shl [.bounded s w, .bounded s' w] (.bounded r w)
  | shr {s s' r : Bool} {w : Width} :
    HasKind .shr [.bounded s w, .bounded s' w] (.bounded r w)
  | rol {s r : Bool} {w : Width} (amount : Nat) :
    HasKind (.rol amount) [.bounded s w] (.bounded r w)
  | ror {s r : Bool} {w : Width} (amount : Nat) :
    HasKind (.ror amount) [.bounded s w] (.bounded r w)
  | extract {s r : Bool} {w v : Width} (range : BitRange) (hhigh : range.high < w.bits)
    (hv : v.bits = range.high - range.low + 1) :
    HasKind (.extract range) [.bounded s w] (.bounded r v)
  | join {s s' r : Bool} {v w u : Width} (hu : u.bits = v.bits + w.bits) :
    HasKind .join [.bounded s v, .bounded s' w] (.bounded r u)

end SolverScript
