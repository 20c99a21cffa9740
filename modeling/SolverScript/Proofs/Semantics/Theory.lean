import SolverScript.Proofs.Semantics.Digits

/-!
# Theories

A theory gives function symbols their meaning. Symbols are the heads of applications: names, names
with indices, and literals, which take no arguments. A function is undefined on arguments of the
wrong number or the wrong sorts. The standard theory has the Boolean connectives, integers and
bit-vectors of every width, as the target language defines them; division by the zero bit-vector is
defined there, division by the integer zero is not.

## Main definitions

* `Theory` - functions and sorts, with `Theory.Contains` for the elements of a sort
* `Theory.standard` - connectives, integers and bit-vectors
-/

namespace SolverScript

/-- A partial function on elements. -/
abbrev Element.Function (α : Type) := List (Element α) → Option (Element α)

/-- The meaning of function symbols and of the sorts that are not built in. -/
structure Theory (α : Type) where
  function : Term → Element.Function α
  carrier : SortExpr → α → Prop

/-- The sorts that have the same elements in all theories. -/
def SortExpr.isBuiltIn : SortExpr → Bool
  | named name => name == "Bool" || name == "Int"
  | indexed name _ => name == "BitVec"
  | applied .. => false

/-- The elements of a sort. -/
inductive Theory.Contains {α : Type} (T : Theory α) : SortExpr → Element α → Prop
  | bool (b : Bool) : T.Contains (.named "Bool") (.bool b)
  | int (n : Int) : T.Contains (.named "Int") (.int n)
  | bits {w : Nat} (b : BitVec w) : T.Contains (.indexed "BitVec" [w]) (.bits w b)
  | other {s : SortExpr} {a : α} (hs : s.isBuiltIn = false) (h : T.carrier s a) :
    T.Contains s (.other a)

namespace Element.Function

variable {α : Type}

/-- A function of truth values, at least two of them. -/
def connective (f : List Bool → Bool) : Element.Function α := fun es => do
  let bs ← es.mapM fun e => match e with
    | .bool b => some b
    | _ => none
  if 2 ≤ bs.length then some (.bool (f bs)) else none

theorem connective_bools {f : List Bool → Bool} {bs : List Bool} (h : 2 ≤ bs.length) :
    connective f (bs.map (bool (α := α))) = some (.bool (f bs)) := by
  have hmap : (bs.map (bool (α := α))).mapM
      (fun e => match e with | .bool b => some b | _ => none) = some bs := by
    clear h
    induction bs with
    | nil => rfl
    | cons b bs ih => simp [ih]
  unfold connective
  rw [hmap]
  exact if_pos h

/-- A relation between elements of one sort, at least two of them. -/
def relation (r : List (Element α) → Bool) : Element.Function α := fun es =>
  match es with
  | a :: b :: rest => if (b :: rest).all a.sameSort then some (.bool (r es)) else none
  | _ => none

/-- A case distinction between elements of one sort. -/
def choice : Element.Function α
  | [.bool c, a, b] => if a.sameSort b then some (if c then a else b) else none
  | _ => none

/-- A function of two integers. -/
def onInts (f : Int → Int → Int) : Element.Function α
  | [.int m, .int n] => some (.int (f m n))
  | _ => none

/-- A function of two integers that is undefined for a second one of zero. -/
def onIntsNonzero (f : Int → Int → Int) : Element.Function α
  | [.int m, .int n] => if n = 0 then none else some (.int (f m n))
  | _ => none

/-- A relation between two integers. -/
def compareInts (r : Int → Int → Bool) : Element.Function α
  | [.int m, .int n] => some (.bool (r m n))
  | _ => none

/-- A function of one bit-vector that keeps the width. -/
def onBits (f : {w : Nat} → BitVec w → BitVec w) : Element.Function α
  | [.bits w x] => some (.bits w (f x))
  | _ => none

/-- A function of two bit-vectors of one width. -/
def onBitPair (f : {w : Nat} → BitVec w → BitVec w → BitVec w) : Element.Function α
  | [.bits v x, .bits w y] => if h : w = v then some (.bits v (f x (y.cast h))) else none
  | _ => none

/-- A relation between two bit-vectors of one width. -/
def compareBits (r : {w : Nat} → BitVec w → BitVec w → Bool) : Element.Function α
  | [.bits v x, .bits w y] => if h : w = v then some (.bool (r x (y.cast h))) else none
  | _ => none

end Element.Function

/-- A table has no entry for a name that is not among its keys. -/
theorem lookup_of_not_mem_keys {β : Type} {table : List (String × β)} {name : String}
    (h : name ∉ table.map Prod.fst) : table.lookup name = none := by
  rw [List.lookup_eq_none_iff]
  rintro entry hentry
  exact bne_iff_ne.mpr fun heq => h (heq ▸ List.mem_map_of_mem hentry)

theorem mem_keys_of_lookup {β : Type} {table : List (String × β)} {name : String} {f : β}
    (h : table.lookup name = some f) : name ∈ table.map Prod.fst := by
  refine Decidable.byContradiction fun hname => ?_
  rw [lookup_of_not_mem_keys hname] at h
  cases h

namespace Theory

variable {α : Type}

open Element.Function

open Classical in
/-- The functions that every theory has. -/
noncomputable def core : List (String × Element.Function α) :=
  [("true", fun es => if es.isEmpty then some (.bool true) else none),
    ("false", fun es => if es.isEmpty then some (.bool false) else none),
    ("not", fun es => match es with
      | [.bool b] => some (.bool !b)
      | _ => none),
    ("and", connective fun bs => bs.all id),
    ("or", connective fun bs => bs.any id),
    ("xor", connective fun bs => bs.foldl xor false),
    ("=>", connective fun bs => bs.dropLast.any (!·) || bs.getLastD true),
    ("=", relation fun es => decide (∀ a ∈ es, ∀ b ∈ es, a = b)),
    ("distinct", relation fun es => decide es.Nodup),
    ("ite", choice)]

/-- The functions on integers. -/
def integers : List (String × Element.Function α) :=
  [("+", onInts (· + ·)),
    ("-", fun es => match es with
      | [.int n] => some (.int (-n))
      | es => onInts (· - ·) es),
    ("*", onInts (· * ·)),
    ("div", onIntsNonzero (· / ·)),
    ("mod", onIntsNonzero (· % ·)),
    ("abs", fun es => match es with
      | [.int n] => some (.int n.natAbs)
      | _ => none),
    ("<", compareInts fun m n => decide (m < n)),
    ("<=", compareInts fun m n => decide (m ≤ n)),
    (">", compareInts fun m n => decide (n < m)),
    (">=", compareInts fun m n => decide (n ≤ m))]

/-- The functions on bit-vectors. Amounts of shifts are read without a sign. -/
def bitVectors : List (String × Element.Function α) :=
  [("bvnot", onBits fun x => ~~~x),
    ("bvneg", onBits fun x => -x),
    ("bvand", onBitPair fun x y => x &&& y),
    ("bvor", onBitPair fun x y => x ||| y),
    ("bvxor", onBitPair fun x y => x ^^^ y),
    ("bvadd", onBitPair fun x y => x + y),
    ("bvsub", onBitPair fun x y => x - y),
    ("bvmul", onBitPair fun x y => x * y),
    ("bvudiv", onBitPair BitVec.smtUDiv),
    ("bvsdiv", onBitPair BitVec.smtSDiv),
    ("bvurem", onBitPair fun x y => x % y),
    ("bvsrem", onBitPair BitVec.srem),
    ("bvshl", onBitPair fun x y => x <<< y.toNat),
    ("bvlshr", onBitPair fun x y => x >>> y.toNat),
    ("bvashr", onBitPair fun x y => x.sshiftRight y.toNat),
    ("bvult", compareBits BitVec.ult),
    ("bvule", compareBits BitVec.ule),
    ("bvugt", compareBits fun x y => y.ult x),
    ("bvuge", compareBits fun x y => y.ule x),
    ("bvslt", compareBits BitVec.slt),
    ("bvsle", compareBits BitVec.sle),
    ("bvsgt", compareBits fun x y => y.slt x),
    ("bvsge", compareBits fun x y => y.sle x),
    ("concat", fun es => match es with
      | [.bits v x, .bits w y] => some (.bits (v + w) (x ++ y))
      | _ => none),
    ("bv2nat", fun es => match es with
      | [.bits _ x] => some (.int x.toNat)
      | _ => none)]

/-- The functions with numeric indices. -/
def indexed (name : String) (indices : List Int) : Element.Function α := fun es =>
  match name, indices, es with
  | "extract", [.ofNat high, .ofNat low], [.bits w x] =>
    if low ≤ high ∧ high < w then some (.bits (high - low + 1) (x.extractLsb high low)) else none
  | "rotate_left", [.ofNat n], [.bits w x] => some (.bits w (x.rotateLeft n))
  | "rotate_right", [.ofNat n], [.bits w x] => some (.bits w (x.rotateRight n))
  | "zero_extend", [.ofNat n], [.bits w x] => some (.bits (w + n) (x.setWidth (w + n)))
  | "sign_extend", [.ofNat n], [.bits w x] => some (.bits (w + n) (x.signExtend (w + n)))
  | "int2bv", [.ofNat w], [.int n] => some (.bits w (BitVec.ofInt w n))
  | _, _, _ => none

/-- The functions of the standard theory that have a name. -/
noncomputable def symbols : List (String × Element.Function α) := core ++ integers ++ bitVectors

/-- Two letters that none of these names starts with. -/
theorem head?_of_mem_symbols {name : String} (h : name ∈ (symbols (α := α)).map Prod.fst) :
    name.toList.head? ≠ some 's' ∧ name.toList.head? ≠ some 'l' := by
  revert name
  simp [symbols, core, integers, bitVectors]

/-- The connectives, integers and bit-vectors. The elements of the other sorts can be any. -/
noncomputable def standard (carrier : SortExpr → α → Prop) : Theory α where
  carrier := carrier
  function head es :=
    match head with
    | .symbol name => (symbols.lookup name).bind fun f => f es
    | .indexed name indices => indexed name indices es
    | .numeral _ | .binary .. | .hexadecimal .. =>
      if es.isEmpty then readLiteral? head.render.toList else none
    | _ => none

end Theory

end SolverScript
