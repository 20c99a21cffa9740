import SolverScript.Proofs.Semantics.WellSorted

/-!
# Sorts of literals

A literal is built from digits, quoted text and a few functions, some of which are written with the
sort of their result because their arguments do not determine it: the empty sequence, constant
arrays, and the constructors of tuples, optionals and sums. This file computes the sort of such a
term as the target language does: a function is applied to arguments of the sorts that it expects,
and an ascribed sort has to be one of which the constructor has values. There is no tuple of a
single component. A bit-vector has as many bits as its digits.

## Main definitions

* `Term.literalSort?` - the sort of a literal; `none` if it has none

## Main results

* `Term.literalSort?_sequence`, `Term.literalSort?_membership`, `Term.literalSort?_tuple` and
  others - the sorts of the literals of lists, sets, tuples, optionals and sums
-/

namespace SolverScript

namespace Sorting

/-- The functions that literals are made of, with the sort of their result. -/
def literalFunctions : List (String × (List SortExpr → Option SortExpr)) :=
  [("-", fun ss => match ss with
      | [s] => if s = Kind.unbounded.sort ∨ s = Kind.real.sort then some s else none
      | _ => none),
    ("/", onlyFor [Kind.real.sort, Kind.real.sort] Kind.real.sort),
    ("bvneg", fun ss => match ss with
      | [.indexed "BitVec" [w]] => some (.indexed "BitVec" [w])
      | _ => none),
    ("seq.unit", fun ss => match ss with
      | [s] => some (.applied "Seq" [s])
      | _ => none),
    ("seq.++", fun ss => match ss with
      | .applied "Seq" [s] :: t :: rest =>
        if ∀ u ∈ t :: rest, u = .applied "Seq" [s] then some (.applied "Seq" [s]) else none
      | _ => none),
    ("store", fun ss => match ss with
      | [.applied "Array" [s, t], i, v] =>
        if i = s ∧ v = t then some (.applied "Array" [s, t]) else none
      | _ => none)]

/-- The sort that a function gives for arguments of some sorts. -/
def literalResult? (name : String) (ss : List SortExpr) : Option SortExpr :=
  match literalFunctions.lookup name with
  | some f => f ss
  | none => result? name ss

/-- The sorts that the constructor of a tuple is applied to. -/
def tupleParameters? (constructor : String) : SortExpr → Option (List SortExpr)
  | .applied tuple ss =>
    if 2 ≤ ss.length ∧ tuple = "SBVTuple" ++ Nat.repr ss.length ∧
        constructor = "mkSBVTuple" ++ Nat.repr ss.length then some ss
    else none
  | _ => none

/-- The sorts that a constructor is applied to, if it is written with the sort of its result. -/
def ascribedParameters? (constructor : String) (sort : SortExpr) : Option (List SortExpr) :=
  (tupleParameters? constructor sort).or <| match sort with
    | .applied "Seq" [_] => if constructor = "seq.empty" then some [] else none
    | .applied "Array" [_, t] => if constructor = "const" then some [t] else none
    | _ => parameters? constructor sort

theorem ascribedParameters?_of_tuple {constructor : String} {sort : SortExpr} {ss : List SortExpr}
    (h : tupleParameters? constructor sort = some ss) :
    ascribedParameters? constructor sort = some ss := by
  unfold ascribedParameters?
  rw [h, Option.some_or]

end Sorting

namespace Term

open Sorting

mutual

/-- The sort of a literal. -/
def literalSort? : Term → Option SortExpr
  | symbol name => literalResult? name []
  | numeral value => if 0 ≤ value then some Kind.unbounded.sort else none
  | decimal _ => some Kind.real.sort
  | binary bits value =>
    if 0 < bits ∧ value < 2 ^ bits then some (.indexed "BitVec" [bits]) else none
  | hexadecimal digits value =>
    if 0 < digits ∧ value < 16 ^ digits then some (.indexed "BitVec" [4 * digits]) else none
  | quoted _ => some Kind.string.sort
  | ascribed name sort => if ascribedParameters? name sort = some [] then some sort else none
  | app (symbol name) operands => do literalResult? name (← literalSorts? operands)
  | app (ascribed name sort) operands => do
    if ascribedParameters? name sort = some (← literalSorts? operands) then some sort else none
  | _ => none

/-- The sorts of several literals. -/
def literalSorts? : List Term → Option (List SortExpr)
  | [] => some []
  | t :: ts => do
    let s ← literalSort? t
    return s :: (← literalSorts? ts)

end

variable {t u : Term} {ts : List Term} {s : SortExpr} {ss : List SortExpr}

theorem literalSorts?_of_forall₂ (h : List.Forall₂ (fun t s => t.literalSort? = some s) ts ss) :
    literalSorts? ts = some ss := by
  induction h with
  | nil => rfl
  | cons ht _ ih =>
    rw [literalSorts?, ht, ih]
    rfl

theorem literalSort?_app {name : String}
    (h : List.Forall₂ (fun t s => t.literalSort? = some s) ts ss)
    (hresult : literalResult? name ss = some s) :
    (app (symbol name) ts).literalSort? = some s := by
  rw [literalSort?, literalSorts?_of_forall₂ h]
  exact hresult

theorem literalSort?_ascribedApp {name : String}
    (h : List.Forall₂ (fun t s => t.literalSort? = some s) ts ss)
    (hparameters : ascribedParameters? name s = some ss) :
    (app (ascribed name s) ts).literalSort? = some s := by
  rw [literalSort?, literalSorts?_of_forall₂ h]
  exact if_pos hparameters

/-! ### Truth values and numbers -/

theorem literalSort?_ofBool (b : Bool) : (Term.ofBool b).literalSort? = some Kind.bool.sort := by
  cases b <;> rfl

theorem literalSort?_int (n : Int) : (Term.int n).literalSort? = some Kind.unbounded.sort := by
  unfold Term.int
  split
  · next hneg =>
    have hnumeral : (numeral (-n)).literalSort? = some Kind.unbounded.sort := by
      rw [literalSort?, if_pos (by omega)]
    exact literalSort?_app (.cons hnumeral .nil) rfl
  · next hnonneg => rw [literalSort?, if_pos (by omega)]

theorem literalSort?_bitsTerm {w n : Nat} (hw : 0 < w) (hn : n < 2 ^ w) :
    (bitsTerm w n).literalSort? = some (.indexed "BitVec" [w]) := by
  rcases bitsTerm_cases hw hn with h | ⟨k, hk, hwidth, hsize, h⟩
  · rw [h, literalSort?, if_pos ⟨hw, hn⟩]
  · rw [h, literalSort?, if_pos ⟨hk, hsize⟩, hwidth]

theorem literalSort?_signedTerm {w : Nat} (hw : 0 < w) (x : BitVec w) :
    (signedTerm w x.toInt).literalSort? = some (.indexed "BitVec" [w]) := by
  have hdouble := Nat.two_pow_pred_add_two_pow_pred hw
  have hpositive : 0 < 2 ^ (w - 1) := Nat.two_pow_pos _
  have hsize := natAbs_toInt_lt hw x
  -- The least number is written by its bits, as it has no counterpart without a sign.
  unfold signedTerm powerOfTwo
  split
  · rw [literalSort?, Nat.pow_eq, if_pos ⟨hw, by omega⟩]
  · split
    · exact literalSort?_app (.cons (literalSort?_bitsTerm hw hsize) .nil) rfl
    · exact literalSort?_bitsTerm hw hsize

theorem literalSort?_realTerm (q : Rat) :
    (Value.realTerm q).literalSort? = some Kind.real.sort := by
  have hmagnitude : (app (symbol "/") [.decimal q.num.natAbs, .decimal q.den]).literalSort? =
      some Kind.real.sort :=
    literalSort?_app (.cons rfl (.cons rfl .nil)) rfl
  unfold Value.realTerm
  split
  · rfl
  · rw [Term.fraction]
    split
    · exact literalSort?_app (.cons hmagnitude .nil) rfl
    · exact hmagnitude

theorem literalSort?_rational (m n : Int) :
    (app (symbol RationalFunction.constructor) [Term.int m, Term.int n]).literalSort? =
      some Kind.rational.sort :=
  literalSort?_app (.cons (literalSort?_int m) (.cons (literalSort?_int n) .nil)) rfl

/-! ### Lists and sets -/

section

variable {k : Kind}

theorem literalSort?_unit (h : t.literalSort? = some k.sort) :
    (app (symbol "seq.unit") [t]).literalSort? = some (Kind.list k).sort :=
  literalSort?_app (.cons h .nil) rfl

/-- A list of terms as a sequence. -/
theorem literalSort?_sequence (h : ∀ t ∈ ts, t.literalSort? = some k.sort) :
    (Value.sequenceTerm (Kind.list k).sort ts).literalSort? = some (Kind.list k).sort := by
  match ts with
  | [] => rfl
  | [t] => exact literalSort?_unit (h t List.mem_cons_self)
  | t :: u :: ts =>
    -- Only two or more are joined; each of them is a sequence of its own.
    have hunits : List.Forall₂ (fun t s => t.literalSort? = some s)
        ((t :: u :: ts).map fun t => app (symbol "seq.unit") [t])
        ((t :: u :: ts).map fun _ => (Kind.list k).sort) := by
      rw [List.forall₂_map_left_iff, List.forall₂_map_right_iff, List.forall₂_same]
      exact fun t ht => literalSort?_unit (h t ht)
    exact literalSort?_app hunits (if_pos (by simp [Kind.sort]))

/-- A set by its membership function. -/
theorem literalSort?_membership (complemented : Bool) (h : ∀ t ∈ ts, t.literalSort? = some k.sort) :
    (Value.membershipTerm (Kind.set k).sort complemented ts).literalSort? =
      some (Kind.set k).sort := by
  induction ts with
  | nil => exact literalSort?_ascribedApp (.cons (literalSort?_ofBool _) .nil) rfl
  | cons t ts ih =>
    obtain ⟨ht, hts⟩ := List.forall_mem_cons.mp h
    exact literalSort?_app (.cons (ih hts) (.cons ht (.cons (literalSort?_ofBool _) .nil)))
      (if_pos ⟨rfl, rfl⟩)

end

/-! ### Tuples, optionals and sums -/

theorem sortAll_eq_map (ks : List Kind) : Kind.sortAll ks = ks.map Kind.sort := by
  induction ks with
  | nil => rfl
  | cons k ks ih => rw [Kind.sortAll, ih, List.map_cons]

/-- Tuples of no component and of at least two. -/
theorem literalSort?_tuple {ks : List Kind} (hlength : ks.length ≠ 1)
    (h : List.Forall₂ (fun t k => t.literalSort? = some (Kind.sort k)) ts ks) :
    (Value.tupleTerm (Kind.tuple ks).sort ts).literalSort? = some (Kind.tuple ks).sort := by
  cases h with
  | nil => rfl
  | @cons t k ts ks ht hts =>
    have hsorts : List.Forall₂ (fun t s => t.literalSort? = some s) (t :: ts)
        (Kind.sortAll (k :: ks)) := by
      rw [sortAll_eq_map, List.forall₂_map_right_iff]
      exact .cons ht hts
    -- The name of the constructor has the number of operands, that of the sort the number of sorts.
    have hlengths : (Kind.sortAll (k :: ks)).length = (t :: ts).length := hsorts.length_eq.symm
    have htwo : 2 ≤ (Kind.sortAll (k :: ks)).length := by
      rw [sortAll_eq_map, List.length_map]
      rw [List.length_cons] at hlength ⊢
      omega
    refine literalSort?_ascribedApp hsorts (ascribedParameters?_of_tuple ?_)
    exact if_pos ⟨htwo, rfl, by rw [hlengths]⟩

theorem literalSort?_nothing (k : Kind) :
    (ascribed (Composite.maybeConstructor false) (Kind.maybe k).sort).literalSort? =
      some (Kind.maybe k).sort := by
  rw [literalSort?]
  exact if_pos rfl

theorem literalSort?_just {k : Kind} (h : t.literalSort? = some k.sort) :
    (app (ascribed (Composite.maybeConstructor true) (Kind.maybe k).sort) [t]).literalSort? =
      some (Kind.maybe k).sort :=
  literalSort?_ascribedApp (.cons h .nil) rfl

theorem literalSort?_left {l : Kind} (r : Kind) (h : t.literalSort? = some l.sort) :
    (app (ascribed (Composite.sideConstructor false) (Kind.either l r).sort) [t]).literalSort? =
      some (Kind.either l r).sort :=
  literalSort?_ascribedApp (.cons h .nil) rfl

theorem literalSort?_right (l : Kind) {r : Kind} (h : t.literalSort? = some r.sort) :
    (app (ascribed (Composite.sideConstructor true) (Kind.either l r).sort) [t]).literalSort? =
      some (Kind.either l r).sort :=
  literalSort?_ascribedApp (.cons h .nil) rfl

end Term

end SolverScript
