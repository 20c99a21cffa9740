import SolverScript.Proofs.Encoding.Vocabulary
import SolverScript.Proofs.Semantics.Expansion

/-!
# Encodings of expanded operands

The encodings do not look at the terms of their operands. They only place them, so that expanding
the nodes in the operands expands the nodes in what is encoded, and whether an encoding fails does
not depend on the terms at all. This holds of every operator in a scope, including those that carry
nodes besides their operands.

## Main definitions

* `Mirrors` - computations of which both fail, or one has the image of the other's result
* `Scope.withoutDependencies` - a scope in which no node depends on others

## Main results

* `Scope.expands_generic` - operators that many kinds share
* `Scope.expands_term` - all operators
-/

namespace SolverScript

/-- Whether two computations both fail, or the second one has the image of what the first has. -/
inductive Mirrors {α β : Type} (image : α → β) : Except Failure α → Except Failure β → Prop
  | ok (a : α) : Mirrors image (.ok a) (.ok (image a))
  | error (e e' : Failure) : Mirrors image (.error e) (.error e')

namespace Mirrors

variable {α β α' β' : Type} {image : α → β} {image' : α' → β'}

@[simp] theorem ok_iff {a : α} {b : β} :
    Mirrors image (.ok a) (.ok b) ↔ b = image a :=
  ⟨fun h => by cases h; rfl, fun h => h ▸ .ok a⟩

@[simp] theorem pure_iff {a : α} {b : β} :
    Mirrors image (Pure.pure a) (Pure.pure b) ↔ b = image a :=
  ok_iff

@[simp] theorem error_error (e e' : Failure) : Mirrors image (.error e) (.error e') :=
  .error e e'

/-- Sequences of two computations. -/
theorem bind {x : Except Failure α} {y : Except Failure β} {f : α → Except Failure α'}
    {g : β → Except Failure β'} (h : Mirrors image x y)
    (hf : ∀ a, Mirrors image' (f a) (g (image a))) : Mirrors image' (x >>= f) (y >>= g) := by
  cases h with
  | ok a => exact hf a
  | error e e' => exact .error e e'

/-- Two computations that go on from the same result. -/
theorem bind_same {γ : Type} (x : Except Failure γ) {f : γ → Except Failure α}
    {g : γ → Except Failure β} (h : ∀ c, x = .ok c → Mirrors image (f c) (g c)) :
    Mirrors image (x >>= f) (x >>= g) := by
  cases x with
  | ok c => exact h c rfl
  | error e => exact .error e e

/-- Two computations after the same check. -/
theorem checked {condition : Prop} [Decidable condition] {check : Except Failure PUnit}
    {f : PUnit → Except Failure α} {g : PUnit → Except Failure β}
    (h : ∀ u, Mirrors image (f u) (g u)) :
    Mirrors image (if condition then f ⟨⟩ else check >>= f)
      (if condition then g ⟨⟩ else check >>= g) := by
  split
  · exact h ⟨⟩
  · exact bind_same check fun u _ => h u

/-- What is there for one of two computations is there for the other one. -/
theorem getD {x? : Option (Except Failure α)} {y? : Option (Except Failure β)}
    {x : Except Failure α} {y : Except Failure β} (h : Option.Rel (Mirrors image) x? y?)
    (hxy : Mirrors image x y) : Mirrors image (x?.getD x) (y?.getD y) := by
  cases h with
  | none => exact hxy
  | some h => exact h

end Mirrors

/-- Whether two encodings both fail, or the term of the second is the expansion of the first's. -/
abbrev Expands (expansion : Int → Term) : Except Failure Term → Except Failure Term → Prop :=
  Mirrors (Term.expand expansion)

/-- What a node is written as, by its identity. -/
def SkolemMap.expansion (skolems : SkolemMap) (id : Int) : Term := skolems.nodeTerm ⟨id, .bool⟩

variable {expansion : Int → Term} {ts : List Term}

/-- An encoding without nodes. -/
theorem Expands.of_resultOver {r : Except Failure Term}
    (h : ResultOver (fun x => ∀ id, x ≠ .node id) r) : Expands expansion r r := by
  cases r with
  | error e => exact .error e e
  | ok t => exact Mirrors.ok_iff.mpr (Term.expand_of_over (h t rfl)).symm

/-! ### Applications to operands -/

section

variable (expansion ts)

@[simp] theorem expands_wrongOperands (construct construct' : String) (us : List Term) :
    Expands expansion (wrongOperands construct ts) (wrongOperands construct' us) :=
  .error _ _

theorem expands_unary (name : String) :
    Expands expansion (unary name ts) (unary name (ts.map (Term.expand expansion))) := by
  match ts with
  | [a] => simp [unary]
  | [] | _ :: _ :: _ => simp [unary]

theorem expands_binary (name : String) :
    Expands expansion (binary name ts) (binary name (ts.map (Term.expand expansion))) := by
  match ts with
  | [a, b] => simp [binary]
  | [] | [_] | _ :: _ :: _ :: _ => simp [binary]

theorem expands_roundedBinary (name : String) (mode : RoundingMode) :
    Expands expansion (roundedBinary name mode ts)
      (roundedBinary name mode (ts.map (Term.expand expansion))) := by
  match ts with
  | [a, b] => simp [roundedBinary]
  | [] | [_] | _ :: _ :: _ :: _ => simp [roundedBinary]

/-- Exchanged operands are expanded one by one. -/
theorem mirrors_exchanged :
    Mirrors (List.map (Term.expand expansion)) (exchanged ts)
      (exchanged (ts.map (Term.expand expansion))) := by
  match ts with
  | [a, b] => exact Mirrors.ok_iff.mpr rfl
  | [] | [_] | _ :: _ :: _ :: _ => exact .error _ _

theorem expands_exchangedBinary (name : String) :
    Expands expansion (exchanged ts >>= binary name)
      (exchanged (ts.map (Term.expand expansion)) >>= binary name) :=
  (mirrors_exchanged expansion ts).bind fun us => expands_binary expansion us name

end

/-! ### Comparisons and arithmetic -/

section

variable (expansion ts)

namespace Comparison

theorem map_pairs {α β : Type} (f : α → β) (as : List α) :
    pairs (as.map f) = (pairs as).map (Prod.map f f) := by
  induction as with
  | nil => rfl
  | cons a as ih => simp [pairs, ih]

theorem expand_unequal (equality : String) (a b : Term) :
    (unequal equality a b).expand expansion =
      unequal equality (a.expand expansion) (b.expand expansion) := by
  simp [unequal]

theorem expand_pairwiseDifferent (equality : String) :
    (pairwiseDifferent equality ts).expand expansion =
      pairwiseDifferent equality (ts.map (Term.expand expansion)) := by
  have hpairs (us : List Term) : (Term.apply "and" ((pairs us).map fun p =>
      unequal equality p.1 p.2)).expand expansion =
        Term.apply "and" ((pairs (us.map (Term.expand expansion))).map fun p =>
          unequal equality p.1 p.2) := by
    simp [map_pairs, expand_unequal, Function.comp_def]
  match ts with
  | [a, b] => exact expand_unequal expansion equality a b
  | [] | [_] | _ :: _ :: _ :: _ => exact hpairs _

theorem expand_different (c : Capabilities) (profile : OperandProfile) :
    (different c profile ts).expand expansion =
      different c profile (ts.map (Term.expand expansion)) := by
  unfold different
  split
  · exact Term.expand_apply expansion "distinct" ts
  · exact expand_pairwiseDifferent expansion ts _

theorem expands_ofNegated (connective : String) :
    Expands expansion (ofNegated connective ts)
      (ofNegated connective (ts.map (Term.expand expansion))) := by
  match ts with
  | [a, b] => simp [ofNegated]
  | [] | [_] | _ :: _ :: _ :: _ => simp [ofNegated]

theorem expands_bool? (op : Operator) :
    Option.Rel (Expands expansion) (bool? op ts) (bool? op (ts.map (Term.expand expansion))) := by
  have hexchanged (name : String) := (mirrors_exchanged expansion ts).bind fun us =>
    expands_ofNegated expansion us name
  unfold bool?
  split
  · exact .some (expands_ofNegated expansion ts "and")
  · exact .some (hexchanged "and")
  · exact .some (expands_ofNegated expansion ts "or")
  · exact .some (hexchanged "or")
  · exact .none

theorem expands_ordered? (less lessEq : String) (op : Operator) :
    Option.Rel (Expands expansion) (ordered? less lessEq op ts)
      (ordered? less lessEq op (ts.map (Term.expand expansion))) := by
  have hbinary (name : String) := expands_binary expansion ts name
  have hexchanged (name : String) := expands_exchangedBinary expansion ts name
  unfold ordered?
  split
  · exact .some (hbinary "=")
  · exact .some (Mirrors.ok_iff.mpr (Term.expand_apply expansion "distinct" ts).symm)
  · exact .some (hbinary less)
  · exact .some (hexchanged less)
  · exact .some (hbinary lessEq)
  · exact .some (hexchanged lessEq)
  · exact .none

theorem expands_byPosition? (relation : String) (operation : Operation) :
    Option.Rel (Expands expansion) (byPosition? relation operation ts)
      (byPosition? relation operation (ts.map (Term.expand expansion))) := by
  have hwrong : Option.Rel (Expands expansion)
      (some (do wrongOperands (← operation.describe false) ts))
      (some (do wrongOperands (← operation.describe false) (ts.map (Term.expand expansion)))) :=
    .some (.bind_same _ fun _ _ => .error _ _)
  obtain ⟨op, ns⟩ := operation
  match ns, ts with
  | [n, m], [a, b] =>
    rw [List.map_cons, List.map_cons, List.map_nil]
    unfold byPosition?
    dsimp only
    split
    · split
      · exact .some (Mirrors.ok_iff.mpr (by simp))
      · exact .none
    · exact .none
  | [], _ | [_], _ | _ :: _ :: _ :: _, _ | [_, _], [] | [_, _], [_] | [_, _], _ :: _ :: _ :: _ =>
    exact hwrong

theorem expands_enumerated? (operation : Operation) :
    Option.Rel (Expands expansion) (enumerated? operation ts)
      (enumerated? operation (ts.map (Term.expand expansion))) := by
  unfold enumerated?
  split
  · exact .some (expands_binary expansion ts "=")
  · exact .some (Mirrors.ok_iff.mpr (Term.expand_apply expansion "distinct" ts).symm)
  · cases relation? operation.operator with
    | none => exact .none
    | some relation => exact expands_byPosition? expansion ts relation operation

end Comparison

/-- The literals of numbers have no nodes. -/
theorem Scope.expand_constantTerm {scope : Scope} {k : Kind} {n : Int} {t : Term}
    (h : scope.constantTerm k n = .ok t) : t.expand expansion = t :=
  Term.expand_of_over (scope.resultOver_constantTerm vocabulary_ne_node k n t h)

/-- Regular expressions have no nodes. -/
theorem RegExp.expand_term {r : RegExp} {t : Term} (h : r.term = .ok t) :
    t.expand expansion = t :=
  Term.expand_of_over (over_term vocabulary_ne_node h)

namespace Arithmetic

variable (scope : Scope) (profile : OperandProfile) (operation : Operation)

theorem expands_abs (ns : List Node) :
    Expands expansion (abs scope profile ns ts)
      (abs scope profile ns (ts.map (Term.expand expansion))) := by
  unfold abs
  split
  · exact expands_unary expansion ts "fp.abs"
  split
  · exact expands_unary expansion ts "abs"
  match ns, ts with
  | [n], [t] =>
    rw [List.map_cons, List.map_nil]
    dsimp only
    split
    · exact .ok t
    -- The literal of zero, which is compared with the operand, is the same before and after.
    · refine .bind_same _ fun zero hzero => Mirrors.pure_iff.mpr ?_
      split <;> simp [absoluteValue, Scope.expand_constantTerm expansion hzero]
  | [], _ | _ :: _ :: _, _ | [_], [] | [_], _ :: _ :: _ => exact .error _ _

theorem expands_shared? :
    Option.Rel (Expands expansion) (shared? scope profile operation ts)
      (shared? scope profile operation (ts.map (Term.expand expansion))) := by
  have hrounded (name floatName : String) : Expands expansion
      (if profile.anyFloating then roundedBinary floatName scope.config.roundingMode ts
        else binary name ts)
      (if profile.anyFloating then
          roundedBinary floatName scope.config.roundingMode (ts.map (Term.expand expansion))
        else binary name (ts.map (Term.expand expansion))) := by
    split
    · exact expands_roundedBinary expansion ts floatName _
    · exact expands_binary expansion ts name
  have hplain (name : String) := expands_binary expansion ts name
  unfold shared?
  dsimp only
  split
  case h_4 => exact .some (expands_unary expansion ts _)
  case h_5 => exact .some (expands_abs expansion ts scope profile _)
  case h_7 =>
    exact .some (Mirrors.ok_iff.mpr (Comparison.expand_different expansion ts _ _).symm)
  case h_12 => exact .none
  all_goals first | exact .some (hrounded _ _) | exact .some (hplain _)

theorem expands_integer? :
    Option.Rel (Expands expansion) (integer? scope profile operation ts)
      (integer? scope profile operation (ts.map (Term.expand expansion))) := by
  unfold integer?
  split
  · exact .some (expands_binary expansion ts "div")
  · exact .some (expands_binary expansion ts "mod")
  · exact expands_shared? expansion ts scope profile operation

theorem expands_bitVector? :
    Option.Rel (Expands expansion) (bitVector? scope profile operation ts)
      (bitVector? scope profile operation (ts.map (Term.expand expansion))) := by
  have hbinary (name : String) := expands_binary expansion ts name
  unfold bitVector?
  dsimp only
  split
  case h_4 => exact .some (expands_unary expansion ts _)
  case h_5 => exact .some (expands_abs expansion ts scope profile _)
  case h_9 => exact .some (Mirrors.ok_iff.mpr (Term.expand_apply expansion "distinct" ts).symm)
  case h_14 => exact .none
  all_goals exact .some (hbinary _)

theorem expands_realOrFloat? :
    Option.Rel (Expands expansion) (realOrFloat? scope profile operation ts)
      (realOrFloat? scope profile operation (ts.map (Term.expand expansion))) := by
  unfold realOrFloat?
  split
  · refine .some ?_
    split
    · exact expands_roundedBinary expansion ts "fp.div" _
    · exact expands_binary expansion ts "/"
  · exact expands_shared? expansion ts scope profile operation

theorem expands_rational? (op : Operator) :
    Option.Rel (Expands expansion) (rational? op ts)
      (rational? op (ts.map (Term.expand expansion))) := by
  have hdirect (f : RationalFunction) := expands_binary expansion ts f.symbol
  have hflipped (f : RationalFunction) := expands_exchangedBinary expansion ts f.symbol
  unfold rational?
  dsimp only
  split
  case h_4 | h_5 => exact .some (expands_unary expansion ts _)
  case h_12 => exact .none
  all_goals first | exact .some (hdirect _) | exact .some (hflipped _)

end Arithmetic

end

/-- A result under a condition. -/
theorem rel_onlyIf {α β : Type} {R : α → β → Prop} {a? : Option α} {b? : Option β}
    (condition : Bool) (h : Option.Rel R a? b?) :
    Option.Rel R (onlyIf condition a?) (onlyIf condition b?) := by
  cases condition with
  | true => exact h
  | false => exact .none

/-- The first of two results that there are. -/
theorem rel_orElse {α β : Type} {R : α → β → Prop} {a? a?' : Option α} {b? b?' : Option β}
    (h : Option.Rel R a? b?) (h' : Option.Rel R a?' b?') :
    Option.Rel R (a? <|> a?') (b? <|> b?') := by
  cases h with
  | none => simpa using h'
  | some h => exact .some h

/-! ### Casts and composite values -/

section

variable (expansion ts)

namespace Cast

variable (source target : Kind) (argument : Term)

theorem expands_floating (mode : Term) :
    Expands expansion (floating source target mode argument)
      (floating source target (mode.expand expansion) (argument.expand expansion)) := by
  unfold floating
  split
  · exact .ok argument
  · split <;> simp [toFloat, FloatFormat.special]

theorem expand_bits (high low : Nat) :
    (bits high low argument).expand expansion = bits high low (argument.expand expansion) := by
  simp [bits]

theorem expand_ifZero (bit t u : Term) : (ifZero bit t u).expand expansion =
    ifZero (bit.expand expansion) (t.expand expansion) (u.expand expansion) := by
  simp [ifZero]

theorem expand_bitVectorToInt (signed : Bool) (width : Nat) :
    (bitVectorToInt signed width argument).expand expansion =
      bitVectorToInt signed width (argument.expand expansion) := by
  have hminusOne : (Term.int (-1)).expand expansion = Term.int (-1) :=
    Term.expand_of_over (vocabulary_ne_node.over_int (-1))
  unfold bitVectorToInt
  dsimp only
  split
  · simp
  split <;> simp [expand_ifZero, expand_bits, hminusOne]

theorem expand_bitOf (i : Nat) : (bitOf i).expand expansion = bitOf i := by
  unfold bitOf
  dsimp only
  split <;> simp

theorem expand_concatenated (n : Nat) : (concatenated n).expand expansion = concatenated n := by
  induction n with
  | zero => rfl
  | succ n ih => simp [concatenated, ih]

theorem expand_intToBitVector (hasConversion : Bool) (width : Nat) :
    (intToBitVector hasConversion width argument).expand expansion =
      intToBitVector hasConversion width (argument.expand expansion) := by
  unfold intToBitVector
  split
  · simp
  · simp [expand_concatenated, Function.comp_def, expand_bitOf]

theorem expand_resize (signed : Bool) (m n : Nat) :
    (resize signed m n argument).expand expansion =
      resize signed m n (argument.expand expansion) := by
  unfold resize
  split
  · simp
  split
  · rfl
  · exact expand_bits expansion argument _ _

theorem expands_ofKinds (hasConversion : Bool) :
    Expands expansion (ofKinds hasConversion source target argument)
      (ofKinds hasConversion source target (argument.expand expansion)) := by
  unfold ofKinds
  split
  · exact .ok argument
  split
  · exact Mirrors.ok_iff.mpr (expand_resize expansion argument _ _ _).symm
  · exact Mirrors.ok_iff.mpr (expand_bitVectorToInt expansion argument _ _).symm
  · simp
  · exact Mirrors.ok_iff.mpr (expand_intToBitVector expansion argument _ _).symm
  · simp
  · split
    · exact expands_floating expansion source target argument _
    · exact .error _ _

end Cast

theorem Composite.expands_set (op : SetOp) :
    Expands expansion (set op ts) (set op (ts.map (Term.expand expansion))) := by
  cases op with
  | member | insert | delete =>
    match ts with
    | [e, s] => exact Mirrors.ok_iff.mpr (by simp)
    | [] | [_] | _ :: _ :: _ :: _ => exact .error _ _
  | _ => exact Mirrors.ok_iff.mpr (Term.expand_apply expansion _ ts).symm

theorem Composite.expand_tuple (arity : Nat) (kinds : List Kind) :
    (tuple arity kinds ts).expand expansion =
      tuple arity kinds (ts.map (Term.expand expansion)) := by
  have hempty : (ts.map (Term.expand expansion)).isEmpty = ts.isEmpty := List.isEmpty_map
  unfold tuple
  rw [hempty]
  split <;> simp

namespace PseudoBoolean

variable (threshold : Threshold) (coefficients : List Int) (bound : Int)

theorem expand_native : (native threshold coefficients bound ts).expand expansion =
    native threshold coefficients bound (ts.map (Term.expand expansion)) := by
  simp [native]

theorem map_weighted (f : Term → Term) : weighted threshold coefficients (ts.map f) =
    (weighted threshold coefficients ts).map (Prod.map f id) := by
  unfold weighted
  split
  · exact List.zip_map_left
  · simp [Function.comp_def]

theorem expand_reduced : (reduced threshold coefficients bound ts).expand expansion =
    reduced threshold coefficients bound (ts.map (Term.expand expansion)) := by
  have hcomparison (sum : Term) :
      (comparison threshold sum (.numeral bound)).expand expansion =
        comparison threshold (sum.expand expansion) (.numeral bound) := by
    cases threshold <;> simp [comparison]
  unfold reduced
  rw [hcomparison, Term.expand_apply, map_weighted]
  simp [summand, Function.comp_def]

end PseudoBoolean

end

/-! ### Operations in a scope -/

namespace Scope

/-- The scope in which no node depends on others. -/
def withoutDependencies (scope : Scope) : Scope := { scope with skolems := [] }

variable (scope : Scope) (operation : Operation)

@[simp] theorem withoutDependencies_config :
    scope.withoutDependencies.config = scope.config := rfl

@[simp] theorem withoutDependencies_tables :
    scope.withoutDependencies.tables = scope.tables := rfl

@[simp] theorem withoutDependencies_reversals :
    scope.withoutDependencies.reversals = scope.reversals := rfl

theorem nodeTerm_eq_expand (n : Node) : scope.nodeTerm n =
    (scope.withoutDependencies.nodeTerm n).expand scope.skolems.expansion := rfl

theorem nodeTerms_eq_map (ns : List Node) : scope.nodeTerms ns =
    (scope.withoutDependencies.nodeTerms ns).map (Term.expand scope.skolems.expansion) := by
  simp [nodeTerms, nodeTerm_eq_expand scope, Function.comp_def]

theorem expands_noEncoding : Expands expansion (noEncoding operation) (noEncoding operation) :=
  .of_resultOver (resultOver_noEncoding operation)

/-- Operators that many kinds share: which of them an operation is depends on kinds only. -/
theorem expands_generic : Expands scope.skolems.expansion
    (scope.withoutDependencies.generic operation) (scope.generic operation) := by
  unfold generic
  rw [scope.nodeTerms_eq_map]
  generalize scope.withoutDependencies.nodeTerms operation.operands = ts
  refine .getD ?_ (expands_noEncoding operation)
  -- One case for each sort of numbers and words, in the order in which they are tried.
  refine rel_orElse (rel_onlyIf _ ?_) (rel_orElse (rel_onlyIf _ ?_) (rel_orElse (rel_onlyIf _ ?_)
    (rel_orElse (rel_onlyIf _ ?_) (rel_orElse (rel_onlyIf _ ?_) (rel_orElse (rel_onlyIf _ ?_)
      (rel_orElse (rel_onlyIf _ ?_) (rel_orElse (rel_onlyIf _ ?_) ?_)))))))
  · exact Arithmetic.expands_integer? _ ts scope _ operation
  · exact Comparison.expands_bool? _ ts _
  · exact Arithmetic.expands_bitVector? _ ts scope _ operation
  · exact Arithmetic.expands_realOrFloat? _ ts scope _ operation
  · exact Arithmetic.expands_rational? _ ts _
  · exact Arithmetic.expands_realOrFloat? _ ts scope _ operation
  · exact Comparison.expands_ordered? _ ts _ _ _
  · exact Comparison.expands_ordered? _ ts _ _ _
  · exact Comparison.expands_enumerated? _ ts operation

theorem expands_onlyOperand : Expands scope.skolems.expansion
    (scope.withoutDependencies.onlyOperand operation) (scope.onlyOperand operation) := by
  unfold onlyOperand
  split
  · exact .ok _
  · exact .bind_same _ fun _ _ => .error _ _

/-- A function that is applied to the only operand. -/
theorem expands_appOnlyOperand {f : Term} (hf : f.expand scope.skolems.expansion = f) :
    Expands scope.skolems.expansion
      (scope.withoutDependencies.onlyOperand operation >>= fun argument => pure (f.app [argument]))
      (scope.onlyOperand operation >>= fun argument => pure (f.app [argument])) :=
  (scope.expands_onlyOperand operation).bind fun t => by simp [hf]

theorem expands_bySymbol (hop : ∀ what, operation.operator ≠ .reverse what) :
    Expands scope.skolems.expansion (scope.withoutDependencies.bySymbol operation)
      (scope.bySymbol operation) := by
  refine .bind_same _ fun symbol hsymbol => ?_
  have hkept : symbol.expand scope.skolems.expansion = symbol :=
    Term.expand_of_over (Operator.resultOver_symbol vocabulary_ne_node hop symbol hsymbol)
  rw [Mirrors.pure_iff, scope.nodeTerms_eq_map]
  simp [hkept]

theorem expands_indexedBits (name : String) (indices : List Int) :
    Expands scope.skolems.expansion
      (scope.withoutDependencies.indexedBits name indices operation)
      (scope.indexedBits name indices operation) :=
  .checked fun _ => scope.expands_appOnlyOperand operation (by simp)

theorem expands_shift (isLeft : Bool) : Expands scope.skolems.expansion
    (scope.withoutDependencies.shift isLeft operation) (scope.shift isLeft operation) := by
  refine .checked fun _ => ?_
  split
  · exact Mirrors.pure_iff.mpr (by simp [scope.nodeTerm_eq_expand])
  · exact .bind_same _ fun _ _ => .error _ _

theorem expands_connective (onBools onBits : String)
    {build : String → List Term → Except Failure Term}
    (hbuild : ∀ name ts, Expands scope.skolems.expansion (build name ts)
      (build name (ts.map (Term.expand scope.skolems.expansion)))) :
    Expands scope.skolems.expansion
      (scope.withoutDependencies.connective onBools onBits build operation)
      (scope.connective onBools onBits build operation) := by
  refine .checked fun _ => ?_
  rw [scope.nodeTerms_eq_map]
  exact hbuild _ _

theorem expand_tester (c : Capabilities) (constructor : String) (parameters : List Kind)
    (result : Kind) : (c.tester constructor parameters result).expand expansion =
      c.tester constructor parameters result := by
  unfold Capabilities.tester
  split <;> rfl

theorem expands_test (constructor : String) (parameters : List Kind) (result : Kind) :
    Expands scope.skolems.expansion
      (scope.withoutDependencies.test constructor parameters result operation)
      (scope.test constructor parameters result operation) :=
  scope.expands_appOnlyOperand operation (expand_tester _ constructor parameters result)

theorem expand_freeSymbol (symbol : String) :
    (scope.withoutDependencies.freeSymbol symbol operation).expand scope.skolems.expansion =
      scope.freeSymbol symbol operation := by
  unfold freeSymbol
  split
  · rfl
  · rw [scope.nodeTerms_eq_map]
    simp

/-- The elements of a table that takes independent nodes. -/
theorem expand_at {head : TableHead} (index : Term)
    (hleading : ∀ n ∈ head.leading, scope.skolems.expansion n.id = .node n.id) :
    (head.at index).expand scope.skolems.expansion =
      head.at (index.expand scope.skolems.expansion) := by
  have hnodes : (head.leading.map Node.term).map (Term.expand scope.skolems.expansion) =
      head.leading.map Node.term := by
    rw [List.map_map]
    exact List.map_congr_left hleading
  simp [TableHead.at, hnodes]

theorem expands_lookup (l : Lookup)
    (hleading : ∀ n ∈ (scope.tables.head l.table).leading,
      scope.skolems.expansion n.id = .node n.id) :
    Expands scope.skolems.expansion (scope.withoutDependencies.lookup l operation)
      (scope.lookup l operation) := by
  have helement := scope.expand_at (scope.withoutDependencies.nodeTerm l.index) hleading
  have houtside (less lessEq : String) : Expands scope.skolems.expansion
      (scope.withoutDependencies.outside l less lessEq) (scope.outside l less lessEq) := by
    refine .bind_same _ fun zero hzero => .bind_same _ fun length hlength => ?_
    have hzero := expand_constantTerm scope.skolems.expansion hzero
    have hlength := expand_constantTerm scope.skolems.expansion hlength
    rw [Mirrors.pure_iff]
    split <;> simp [hzero, hlength, scope.nodeTerm_eq_expand]
  refine .bind_same _ fun relations? _ => ?_
  cases relations? with
  | none => exact Mirrors.pure_iff.mpr helement.symm
  | some relations =>
    refine (houtside relations.1 relations.2).bind fun condition => Mirrors.pure_iff.mpr ?_
    simp [helement, scope.nodeTerm_eq_expand]

/-- The term of an operation, if nodes depend on others, is the expansion of the term that it has
without dependencies, and fails exactly if that one does. What a table takes before its index is
written as it is, without its dependencies. -/
theorem expands_term
    (hleading : ∀ id, .node id ∈ scope.operatorNames operation.operator →
      scope.skolems.expansion id = .node id) :
    Expands scope.skolems.expansion (scope.withoutDependencies.term operation)
      (scope.term operation) := by
  have honly := scope.expands_onlyOperand operation
  have happlied (f : Term) (hf : f.expand scope.skolems.expansion = f) :=
    scope.expands_appOnlyOperand operation hf
  have hsymbol := scope.expands_bySymbol operation
  have hnodes := scope.nodeTerms_eq_map operation.operands
  have hconnective (onBools onBits : String) :=
    scope.expands_connective operation onBools onBits fun name ts => expands_binary _ ts name
  obtain ⟨op, ns⟩ := operation
  dsimp only at hnodes
  -- Most operators only place their operands; the cases with terms of their own come by name.
  cases op with
  | ite =>
    unfold term
    dsimp only
    rw [hnodes]
    generalize scope.withoutDependencies.nodeTerms ns = ts
    match ts with
    | [c, a, b] => exact Mirrors.ok_iff.mpr (by simp)
    | [] | [_] | [_, _] | _ :: _ :: _ :: _ :: _ => exact .error _ _
  | lookup l =>
    exact scope.expands_lookup _ l fun n hn => hleading n.id
      (List.mem_cons_of_mem _ (List.mem_map_of_mem hn))
  | kindCast source target =>
    exact honly.bind fun t => Cast.expands_ofKinds _ source target t _
  | floatCast source target rounding =>
    unfold term
    dsimp only
    rw [hnodes, ← Term.expand_sideBySide]
    exact Cast.expands_floating _ source target _ _
  | uninterpreted symbol => exact Mirrors.ok_iff.mpr (scope.expand_freeSymbol _ symbol).symm
  | extract | rol | ror => exact scope.expands_indexedBits _ _ _
  | shl | shr => exact scope.expands_shift _ _
  | and | or | xor | join => exact hconnective _ _
  | not =>
    exact scope.expands_connective _ _ _ fun name ts => expands_unary _ ts name
  | label => exact honly
  | float | floatReinterpret | nonlinear | sequence => exact hsymbol fun _ => nofun
  | overflow => exact (hsymbol fun _ => nofun).bind fun t => Mirrors.pure_iff.mpr (by simp)
  | string op =>
    have hsymbol := hsymbol fun _ => nofun
    cases op with
    | unit =>
      unfold term
      dsimp only
      rw [hnodes]
      match hts : scope.withoutDependencies.nodeTerms ns with
      | [t] => exact .ok t
      | [] | _ :: _ :: _ => exact hsymbol
    | _ => exact hsymbol
  | stringIn language =>
    refine .bind_same _ fun t ht => ?_
    have ht := RegExp.expand_term scope.skolems.expansion ht
    rw [hnodes, Mirrors.pure_iff]
    simp [ht]
  | regExpEqual positive l r =>
    refine .bind_same _ fun lt hlt => .bind_same _ fun rt hrt => ?_
    have hlt := RegExp.expand_term scope.skolems.expansion hlt
    have hrt := RegExp.expand_term scope.skolems.expansion hrt
    rw [Mirrors.pure_iff]
    simp [hlt, hrt]
  | reverse what =>
    unfold term
    dsimp only
    rw [hnodes, withoutDependencies_reversals]
    cases scope.reversals.name? what.kind with
    | none => exact .bind_same _ fun _ _ => .error _ _
    | some name => exact Mirrors.ok_iff.mpr (Term.expand_apply _ _ _).symm
  | pseudoBoolean threshold coefficients bound =>
    unfold term
    dsimp only
    rw [hnodes, withoutDependencies_config, Expands, Mirrors.ok_iff]
    split
    · exact (PseudoBoolean.expand_native _ _ threshold coefficients bound).symm
    · exact (PseudoBoolean.expand_reduced _ _ threshold coefficients bound).symm
  | set op =>
    unfold term
    dsimp only
    rw [hnodes]
    exact Composite.expands_set _ _ op
  | tupleConstructor arity =>
    unfold term
    dsimp only
    rw [hnodes]
    exact Mirrors.ok_iff.mpr (Composite.expand_tuple _ _ arity _).symm
  | arrayEqual a b => exact Mirrors.ok_iff.mpr (by simp)
  | arrayRead a => exact honly.bind fun t => Mirrors.pure_iff.mpr (by simp)
  | tupleAccess | eitherConstructor | eitherAccess | maybeAccess => exact happlied _ (by simp)
  | eitherIs | maybeIs => exact scope.expands_test _ _ _ _
  | maybeConstructor k isJust =>
    cases isJust with
    | true => exact happlied _ (by simp)
    | false => exact Mirrors.ok_iff.mpr (by simp)
  | rationalConstructor =>
    unfold term
    dsimp only
    rw [hnodes]
    exact expands_binary _ _ _
  | _ => exact scope.expands_generic _

end Scope

end SolverScript
