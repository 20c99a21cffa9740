import SolverScript.Script.SortExpr
import SolverScript.Value.Basic

/-!
# Elements

What terms of the target language denote. Truth values, integers and bit-vectors are told apart; the
elements of all other sorts come from a type that the theory at hand provides. A bit-vector is an
integer modulo a power of two, and the kind of a node says whether it is read with a sign.

## Main definitions

* `Element` - truth values, integers, bit-vectors and others
* `Element.read`, `Element.ofInt?` - the integer behind an element, and the element of an integer
* `Value.element?` - the element that a constant of a program stands for
-/

namespace SolverScript

/-- An element of the universe that terms range over. -/
inductive Element (α : Type) where
  | bool (value : Bool)
  | int (value : Int)
  | bits (width : Nat) (value : BitVec width)
  /-- An element of some other sort. -/
  | other (value : α)

namespace Element

variable {α : Type}

/-- Whether two elements can belong to one sort. -/
def sameSort : Element α → Element α → Bool
  | bool _, bool _ | int _, int _ | other _, other _ => true
  | bits v _, bits w _ => v == w
  | _, _ => false

/-- The integer that an element stands for; a bit-vector is read with or without a sign. -/
def read (signed : Bool) : Element α → Int
  | bool b => if b then 1 else 0
  | int n => n
  | bits _ b => Value.readBits signed b
  | other _ => 0

/-- The element of an integer at a discrete kind; bit-vectors keep its residue. -/
def ofInt? (kind : Kind) (n : Int) : Option (Element α) :=
  match kind with
  | .bool => some (bool (n != 0))
  | .bounded _ width => some (bits width.bits (BitVec.ofInt width.bits n))
  | .unbounded => some (int n)
  | _ => none

theorem bits_ofNat_congr {v w : Nat} (h : v = w) (n : Nat) :
    (bits v (BitVec.ofNat v n) : Element α) = bits w (BitVec.ofNat w n) := by
  subst h
  rfl

theorem bits_ofInt_congr {v w : Nat} (h : v = w) (n : Int) :
    (bits v (BitVec.ofInt v n) : Element α) = bits w (BitVec.ofInt w n) := by
  subst h
  rfl

end Element

/-- The element that a constant of a discrete kind stands for. -/
def Value.element? {α : Type} : Value → Option (Element α)
  | bool b => some (.bool b)
  | bounded _ width b => some (.bits width.bits b)
  | unbounded n => some (.int n)
  | _ => none

/-- A constant made from an integer stands for the element of that integer. -/
theorem Value.element?_of_ofInteger {α : Type} {kind : Kind} {n : Int} {v : Value}
    (h : Value.ofInteger kind n = .ok v) :
    v.element? = (Element.ofInt? kind n : Option (Element α)) := by
  unfold Value.ofInteger at h
  split at h <;> cases h <;> rfl

/-- The integers modulo a power of two are unchanged by reading and writing them, whatever the
sign. -/
@[simp] theorem Value.ofInt_readBits {w : Nat} (signed : Bool) (x : BitVec w) :
    BitVec.ofInt w (Value.readBits signed x) = x := by
  cases signed <;> simp [Value.readBits]

/-- Bit-vectors are equal when they are read as the same integer. -/
@[simp] theorem Value.readBits_inj {w : Nat} {signed : Bool} {x y : BitVec w} :
    Value.readBits signed x = Value.readBits signed y ↔ x = y := by
  cases signed
  · simp only [Value.readBits, Bool.false_eq_true, if_false, Int.natCast_inj, BitVec.toNat_inj]
  · simp only [Value.readBits, if_true, BitVec.toInt_inj]

end SolverScript
