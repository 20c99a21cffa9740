import SolverScript.Encoding.Operation
import SolverScript.Proofs.Kind.Set
import SolverScript.Proofs.Results
import SolverScript.Script.Command

/-!
# Names that occur in terms

A term is made of nodes, of names that the user has chosen, and of names that a script writes of its
own accord: the functions and sorts of the target language, the data types and functions that the
script defines, and bound variables. This file collects the names that occur in a term, a sort, a
kind or a value, and says which ones are not the user's choice.

A condition on names that admits all of the latter holds of a term as soon as it holds of what the
user has chosen, because terms are made from each other by built-in functions only.

## Main definitions

* `Name` - an occurrence of a name
* `Term.names`, `SortExpr.names`, `Kind.names`, `Value.names` - the names that occur
* `Term.Over` and its neighbours - all names that occur satisfy a condition
* `Name.IsBuiltin` - names that are not the user's choice
* `Vocabulary` - conditions that admit the names that are not the user's choice

## Main results

* `Kind.over_sort` - the sort of a kind is written with the names of the kind
* `Value.over_term` - the literal of a value is written with the names of the value
-/

namespace SolverScript

/-- An occurrence of a name. -/
inductive Name where
  | node (id : Int)
  | function (text : String)
  | sort (text : String)
  | keyword (text : String)
  deriving DecidableEq, Repr

/-! ### Names in sorts, kinds, terms and values -/

namespace SortExpr

mutual

/-- The names in a sort. -/
@[simp] def names : SortExpr → List Name
  | named name => [.sort name]
  | indexed name _ => [.sort name]
  | applied name arguments => .sort name :: namesAll arguments

/-- The names in several sorts. -/
@[simp] def namesAll : List SortExpr → List Name
  | [] => []
  | s :: ss => names s ++ namesAll ss

end

/-- Whether all names in a sort satisfy a condition. -/
def Over (V : Name → Prop) (s : SortExpr) : Prop := ∀ x ∈ s.names, V x

end SortExpr

namespace Kind

/-- The names in a kind: those of the user sorts in it. -/
def names (k : Kind) : List Name :=
  k.subkinds.filterMap fun sub => sub.userSort?.map fun s => .sort s.name

/-- Whether all names in a kind satisfy a condition. -/
def Over (V : Name → Prop) (k : Kind) : Prop := ∀ x ∈ k.names, V x

end Kind

namespace Term

mutual

/-- The names in a term, those of bound variables included. -/
@[simp] def names : Term → List Name
  | symbol text => [.function text]
  | node id => [.node id]
  | indexed name _ => [.function name]
  | ascribed name sort => .function name :: sort.names
  | tester constructor none => [.function constructor]
  | tester constructor (some (arguments, result)) =>
    .function constructor :: (arguments.flatMap SortExpr.names ++ result.names)
  | app function operands => names function ++ namesAll operands
  | bind bound values body => bound.map .function ++ namesAll values ++ names body
  | forAll binders body =>
    (binders.flatMap fun b => .function b.1 :: b.2.names) ++ names body
  | attributed body attributes => names body ++ attributes.map fun a => .keyword a.1
  | adjacent terms => namesAll terms
  | _ => []

/-- The names in several terms. -/
@[simp] def namesAll : List Term → List Name
  | [] => []
  | t :: ts => names t ++ namesAll ts

end

/-- Whether all names in a term satisfy a condition. -/
def Over (V : Name → Prop) (t : Term) : Prop := ∀ x ∈ t.names, V x

end Term

namespace Value

mutual

/-- The names in a value: those of constructors, and those of the kinds that its literal shows. -/
@[simp] def names : Value → List Name
  | userSort _ constructor => [.function constructor]
  | list element elements => element.names ++ namesAll elements
  | set element members _ => element.names ++ namesAll members
  | tuple components => namesAll components
  | nothing element => element.names
  | just value => value.kind.names ++ names value
  | left value rightKind => value.kind.names ++ rightKind.names ++ names value
  | right leftKind value => leftKind.names ++ value.kind.names ++ names value
  | _ => []

/-- The names in several values and in their kinds. -/
@[simp] def namesAll : List Value → List Name
  | [] => []
  | v :: vs => v.kind.names ++ names v ++ namesAll vs

end

/-- Whether all names in a value satisfy a condition. -/
def Over (V : Name → Prop) (v : Value) : Prop := ∀ x ∈ v.names, V x

end Value

/-! ### Names that are not the user's choice -/

/-- The functions that scripts apply without a definition of their own or with one that does not
depend on the problem, and the variables that such definitions bind. -/
abbrev builtinFunctions : List String :=
  ["true", "false", "not", "and", "or", "xor", "=>", "=", "distinct", "ite",
    "+", "-", "*", "/", "div", "mod", "abs", "<", ">", "<=", ">=",
    "to_real", "to_int", "bv2nat", "int2bv", "fp.to_real", "fp.to_sbv", "fp.to_ubv", "to_fp",
    "to_fp_unsigned", "concat", "extract", "sign_extend", "zero_extend", "rotate_left",
    "rotate_right", "bvneg", "bvnot", "bvand", "bvor", "bvxor", "bvadd", "bvsub", "bvmul",
    "bvsdiv", "bvudiv", "bvsrem", "bvurem", "bvshl", "bvashr", "bvlshr", "bvslt", "bvult",
    "bvsgt", "bvugt", "bvsle", "bvule", "bvsge", "bvuge",
    "fp", "NaN", "-oo", "+oo", "-zero", "+zero", "fp.eq", "fp.lt", "fp.gt", "fp.leq", "fp.geq",
    "at-most", "at-least", "pbeq", "pble", "pbge",
    "select", "store", "const", "intersection", "union", "subset", "setminus", "complement",
    "set-has-size", "seq.empty", "seq.<", "seq.<=", "str.in_re", "str.to_re", "re.all",
    "re.allchar", "re.nostr", "re.range", "re.*", "re.+", "re.opt", "re.comp", "re.diff",
    "re.loop", "re.^", "re.union", "re.inter", "re.++",
    "SBV.Rational", "sbv.rat.numerator", "sbv.rat.denominator", "mkSBVTuple0", "left_SBVEither",
    "right_SBVEither", "get_left_SBVEither", "get_right_SBVEither", "nothing_SBVMaybe",
    "just_SBVMaybe", "get_just_SBVMaybe", "__a", "x", "y", "str", "lst", "result"]

/-- The sorts that scripts use without a declaration, or with one that does not depend on the
problem. -/
abbrev builtinSorts : List String :=
  ["Bool", "BitVec", "Int", "Real", "FloatingPoint", "String", "Seq", "Array", "SBVTuple0",
    "SBVMaybe", "SBVRational", "SBVEither"]

/-- The names that a script writes of its own accord. -/
inductive Name.IsBuiltin : Name → Prop
  | function (text : String) (h : text ∈ builtinFunctions) : IsBuiltin (.function text)
  | sort (text : String) (h : text ∈ builtinSorts) : IsBuiltin (.sort text)
  | ofFloat (op : FloatOp) : IsBuiltin (.function op.symbol)
  | ofReal (f : RealFunction) : IsBuiltin (.function f.symbol)
  | ofOverflow (check : OverflowCheck) : IsBuiltin (.function check.symbol)
  | ofString (op : StringOp) : IsBuiltin (.function op.symbol)
  | ofSequence (op : SequenceOp) : IsBuiltin (.function op.symbol)
  | ofRounding (mode : RoundingMode) : IsBuiltin (.function mode.symbol)
  | tupleSort (arity : Nat) : IsBuiltin (.sort ("SBVTuple" ++ Nat.repr arity))
  | tuple (arity : Nat) : IsBuiltin (.function ("mkSBVTuple" ++ Nat.repr arity))
  | projection (position arity : Nat) : IsBuiltin (.function (Composite.projection position arity))
  | bit (i : Nat) : IsBuiltin (.function (Cast.bitName i))
  | element (depth : Nat) : IsBuiltin (.function ("seq" ++ Nat.repr depth))
  | member (depth : Nat) : IsBuiltin (.function ("set" ++ Nat.repr depth))
  | argument (i : Nat) : IsBuiltin (.function (argumentName i))

attribute [simp] Name.IsBuiltin.function Name.IsBuiltin.sort Name.IsBuiltin.ofFloat
  Name.IsBuiltin.ofReal Name.IsBuiltin.ofOverflow Name.IsBuiltin.ofString Name.IsBuiltin.ofSequence
  Name.IsBuiltin.ofRounding Name.IsBuiltin.tupleSort
  Name.IsBuiltin.tuple Name.IsBuiltin.projection Name.IsBuiltin.bit Name.IsBuiltin.element
  Name.IsBuiltin.member Name.IsBuiltin.argument

/-- A condition on names that admits those that are not the user's choice. The function that numbers
the constructors of a sort is called after the sort. -/
structure Vocabulary (V : Name → Prop) : Prop where
  builtin : ∀ x, x.IsBuiltin → V x
  position : ∀ sort, V (.sort sort) → V (.function (Datatype.indexName sort))

variable {V : Name → Prop}

/-! ### Sorts and kinds -/

namespace SortExpr

@[simp] theorem over_named {name : String} : (named name).Over V ↔ V (.sort name) := by
  simp [Over]

@[simp] theorem over_indexed {name : String} {indices : List Nat} :
    (indexed name indices).Over V ↔ V (.sort name) := by
  simp [Over]

theorem mem_namesAll {x : Name} {ss : List SortExpr} : x ∈ namesAll ss ↔ ∃ s ∈ ss, x ∈ s.names := by
  induction ss with
  | nil => simp
  | cons s ss ih => simp [ih]

@[simp] theorem over_applied {name : String} {arguments : List SortExpr} :
    (applied name arguments).Over V ↔ V (.sort name) ∧ ∀ s ∈ arguments, s.Over V := by
  simp only [Over, names, List.forall_mem_cons, mem_namesAll]
  grind

end SortExpr

namespace Kind

theorem mem_names_iff {x : Name} {k : Kind} :
    x ∈ k.names ↔ ∃ s, userSort s ∈ k.subkinds ∧ x = .sort s.name := by
  simp only [names, List.mem_filterMap, Option.map_eq_some_iff]
  constructor
  · rintro ⟨sub, hsub, s, hs, rfl⟩
    cases sub with
    | userSort =>
      cases hs
      exact ⟨s, hsub, rfl⟩
    | _ => cases hs
  · rintro ⟨s, hs, rfl⟩
    exact ⟨_, hs, s, rfl, rfl⟩

theorem over_iff {k : Kind} : k.Over V ↔ ∀ s, userSort s ∈ k.subkinds → V (.sort s.name) := by
  simp only [Over, mem_names_iff]
  grind

@[simp] theorem over_list {k : Kind} : (list k).Over V ↔ k.Over V := by
  simp [over_iff, subkinds]

@[simp] theorem over_set {k : Kind} : (set k).Over V ↔ k.Over V := by
  simp [over_iff, subkinds]

@[simp] theorem over_maybe {k : Kind} : (maybe k).Over V ↔ k.Over V := by
  simp [over_iff, subkinds]

@[simp] theorem over_tuple {ks : List Kind} : (tuple ks).Over V ↔ ∀ k ∈ ks, k.Over V := by
  simp only [over_iff, subkinds, List.mem_cons, mem_subkindsAll, reduceCtorEq, false_or]
  grind

@[simp] theorem over_either {l r : Kind} : (either l r).Over V ↔ l.Over V ∧ r.Over V := by
  simp only [over_iff, subkinds, List.mem_cons, List.mem_append, reduceCtorEq, false_or]
  grind

@[simp] theorem over_userSort {s : UserSort} : (userSort s).Over V ↔ V (.sort s.name) := by
  simp [over_iff, subkinds]

mutual

/-- The sort of a kind is written with the names of the kind. -/
theorem over_sort (hV : Vocabulary V) : ∀ {k : Kind}, k.Over V → k.sort.Over V
  | list k, h | maybe k, h => by
    simpa [sort, hV.builtin] using over_sort hV (by simpa using h)
  | set k, h => by simpa [sort, hV.builtin] using over_sort hV (by simpa using h)
  | tuple ks, h => by
    have hsorts := over_sortAll hV (over_tuple.mp h)
    rw [sort]
    cases hcomponents : sortAll ks with
    | nil => simp [hV.builtin]
    | cons s ss => simpa [hV.builtin, hcomponents] using hsorts
  | either l r, h => by
    obtain ⟨hl, hr⟩ := over_either.mp h
    simp [sort, hV.builtin, over_sort hV hl, over_sort hV hr]
  | userSort s, h => by simpa [sort] using h
  | bool, _ | bounded .., _ | unbounded, _ | real, _ | float, _ | double, _ | floating _, _
  | char, _ | string, _ | rational, _ => by simp [sort, FloatFormat.sort, hV.builtin]

theorem over_sortAll (hV : Vocabulary V) :
    ∀ {ks : List Kind}, (∀ k ∈ ks, k.Over V) → ∀ s ∈ sortAll ks, s.Over V
  | [], _ => by simp [sortAll]
  | k :: ks, h => by
    obtain ⟨hk, hks⟩ := List.forall_mem_cons.mp h
    exact List.forall_mem_cons.mpr ⟨over_sort hV hk, over_sortAll hV hks⟩

end

theorem over_bool : Kind.bool.Over V := by
  simp [over_iff, subkinds]

end Kind

/-! ### Terms -/

namespace Term

@[simp] theorem over_symbol {text : String} : (symbol text).Over V ↔ V (.function text) := by
  simp [Over]

@[simp] theorem over_node {id : Int} : (node id).Over V ↔ V (.node id) := by
  simp [Over]

@[simp] theorem over_numeral (value : Int) : (numeral value).Over V := by
  simp [Over]

@[simp] theorem over_decimal (value : Nat) : (decimal value).Over V := by
  simp [Over]

@[simp] theorem over_binary (bits value : Nat) : (binary bits value).Over V := by
  simp [Over]

@[simp] theorem over_hexadecimal (digits value : Nat) : (hexadecimal digits value).Over V := by
  simp [Over]

@[simp] theorem over_quoted (characters : List Char) : (quoted characters).Over V := by
  simp [Over]

@[simp] theorem over_indexed {name : String} {indices : List Int} :
    (indexed name indices).Over V ↔ V (.function name) := by
  simp [Over]

@[simp] theorem over_ascribed {name : String} {sort : SortExpr} :
    (ascribed name sort).Over V ↔ V (.function name) ∧ sort.Over V := by
  simp [Over, SortExpr.Over]

@[simp] theorem over_tester_none {constructor : String} :
    (tester constructor none).Over V ↔ V (.function constructor) := by
  simp [Over]

@[simp] theorem over_tester_some {constructor : String} {arguments : List SortExpr}
    {result : SortExpr} :
    (tester constructor (some (arguments, result))).Over V ↔
      V (.function constructor) ∧ (∀ s ∈ arguments, s.Over V) ∧ result.Over V := by
  rw [Over, names, List.forall_mem_cons, List.forall_mem_append, List.forall_mem_flatMap]
  rfl

theorem mem_namesAll {x : Name} {ts : List Term} : x ∈ namesAll ts ↔ ∃ t ∈ ts, x ∈ t.names := by
  induction ts with
  | nil => simp
  | cons t ts ih => simp [ih]

theorem forall_mem_namesAll {ts : List Term} :
    (∀ x ∈ namesAll ts, V x) ↔ ∀ t ∈ ts, t.Over V := by
  simp only [mem_namesAll, Over]
  grind

@[simp] theorem over_app {function : Term} {operands : List Term} :
    (app function operands).Over V ↔ function.Over V ∧ ∀ t ∈ operands, t.Over V := by
  rw [Over, names, List.forall_mem_append, forall_mem_namesAll]
  rfl

@[simp] theorem over_bind {bound : List String} {values : List Term} {body : Term} :
    (bind bound values body).Over V ↔
      (∀ name ∈ bound, V (.function name)) ∧ (∀ t ∈ values, t.Over V) ∧ body.Over V := by
  rw [Over, names, List.forall_mem_append, List.forall_mem_append, forall_mem_namesAll,
    List.forall_mem_map, and_assoc]
  rfl

@[simp] theorem over_forAll {binders : List (String × SortExpr)} {body : Term} :
    (forAll binders body).Over V ↔
      (∀ b ∈ binders, V (.function b.1) ∧ b.2.Over V) ∧ body.Over V := by
  rw [Over, names, List.forall_mem_append, List.forall_mem_flatMap]
  simp only [List.forall_mem_cons]
  rfl

@[simp] theorem over_attributed {body : Term} {attributes : List (String × String)} :
    (attributed body attributes).Over V ↔
      body.Over V ∧ ∀ a ∈ attributes, V (.keyword a.1) := by
  rw [Over, names, List.forall_mem_append, List.forall_mem_map]
  rfl

@[simp] theorem over_adjacent {ts : List Term} :
    (adjacent ts).Over V ↔ ∀ t ∈ ts, t.Over V := by
  rw [Over, names, forall_mem_namesAll]

@[simp] theorem over_applyTo {function : Term} {ts : List Term} :
    (applyTo function ts).Over V ↔ function.Over V ∧ ∀ t ∈ ts, t.Over V := by
  cases ts <;> simp [applyTo]

@[simp] theorem over_apply {name : String} {ts : List Term} :
    (apply name ts).Over V ↔ V (.function name) ∧ ∀ t ∈ ts, t.Over V := by
  simp [apply]

@[simp] theorem over_sideBySide {ts : List Term} :
    (sideBySide ts).Over V ↔ ∀ t ∈ ts, t.Over V := by
  unfold sideBySide
  split <;> simp

theorem over_withAttributes {attributes : List (String × String)} {body : Term}
    (hbody : body.Over V) (hattributes : ∀ a ∈ attributes, V (.keyword a.1)) :
    (withAttributes attributes body).Over V := by
  unfold withAttributes
  split
  · exact hbody
  · exact over_attributed.mpr ⟨hbody, hattributes⟩

end Term

namespace Vocabulary

variable (hV : Vocabulary V)

include hV

theorem function {text : String} (h : text ∈ builtinFunctions) : V (.function text) :=
  hV.builtin _ (.function text h)

@[simp] theorem over_ofBool (b : Bool) : (Term.ofBool b).Over V := by
  cases b <;> simp [Term.ofBool, hV.builtin]

theorem over_negation {t : Term} (ht : t.Over V) : (Term.negation t).Over V := by
  simp [Term.negation, hV.builtin, ht]

theorem over_int (value : Int) : (Term.int value).Over V := by
  unfold Term.int
  split <;> simp [hV.builtin]

theorem over_fraction (value : Rat) : (Term.fraction value).Over V := by
  unfold Term.fraction
  dsimp only
  split <;> simp [hV.builtin]

end Vocabulary

end SolverScript
