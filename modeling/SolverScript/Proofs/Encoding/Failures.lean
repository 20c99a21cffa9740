import SolverScript.Encoding.Operation
import SolverScript.Proofs.Encoding.Vocabulary

/-!
# Failures of encodings

An operation can fail to be encoded for many reasons, among them that there is no function for what
it reverses. Only a reversal can fail for this reason, and only in a scope without the function.

## Main definitions

* `Failure.concernsReversal` - the failures over functions that reverse
* `SparesReversal` - computations without such a failure

## Main results

* `Value.sparesReversal_term` - literals
* `Scope.sparesReversal_term` - operations in a scope
-/

namespace SolverScript

/-- Whether a failure is about a function that reverses. -/
def Failure.concernsReversal : Failure → Bool
  | missingReversal _ | reversalOfKind .. => true
  | _ => false

/-- Whether a computation does not fail over a function that reverses. -/
def SparesReversal {α : Type} (r : Except Failure α) : Prop :=
  ∀ e, r = .error e → e.concernsReversal = false

namespace SparesReversal

variable {α β : Type}

@[simp] theorem ok (a : α) : SparesReversal (.ok a) := nofun

@[simp] theorem pure (a : α) : SparesReversal (Pure.pure a : Except Failure α) := nofun

@[simp] theorem error_iff {e : Failure} :
    SparesReversal (.error e : Except Failure α) ↔ e.concernsReversal = false := by
  simp [SparesReversal]

@[simp] theorem throw_iff {e : Failure} :
    SparesReversal (throw e : Except Failure α) ↔ e.concernsReversal = false :=
  error_iff

/-- A sequence of two computations fails as one of them does. -/
theorem bind {x : Except Failure α} {f : α → Except Failure β} (hx : SparesReversal x)
    (hf : ∀ a, x = .ok a → SparesReversal (f a)) : SparesReversal (x >>= f) := by
  cases x with
  | error e => exact error_iff.mpr (error_iff.mp hx)
  | ok a => exact hf a rfl

/-- What is done with a result does not add a failure. -/
theorem bind_pure {x : Except Failure α} (hx : SparesReversal x) (f : α → β) :
    SparesReversal (x >>= fun a => Pure.pure (f a)) :=
  hx.bind fun _ _ => pure _

/-- A failure that is worded by a computation. -/
theorem bind_throw {x : Except Failure α} (hx : SparesReversal x) {e : α → Failure}
    (he : ∀ a, (e a).concernsReversal = false) :
    SparesReversal (x >>= fun a => (throw (e a) : Except Failure β)) :=
  hx.bind fun a _ => throw_iff.mpr (he a)

/-- A computation after a check. -/
theorem checked {condition : Prop} [Decidable condition] {check : Except Failure PUnit}
    (hcheck : SparesReversal check) {f : PUnit → Except Failure β} (hf : ∀ u, SparesReversal (f u)) :
    SparesReversal (if condition then f ⟨⟩ else check >>= f) := by
  split
  · exact hf _
  · exact hcheck.bind fun u _ => hf u

/-- A loop fails as one of its steps does. -/
theorem mapM {f : α → Except Failure β} {as : List α} (hf : ∀ a ∈ as, SparesReversal (f a)) :
    SparesReversal (as.mapM f) := by
  induction as with
  | nil => exact pure _
  | cons a as ih =>
    obtain ⟨ha, has⟩ := List.forall_mem_cons.mp hf
    rw [List.mapM_cons]
    exact ha.bind fun _ _ => (ih has).bind_pure _

theorem forM {f : α → Except Failure PUnit} {as : List α} (hf : ∀ a ∈ as, SparesReversal (f a)) :
    SparesReversal (as.forM f) := by
  induction as with
  | nil => exact pure _
  | cons a as ih =>
    obtain ⟨ha, has⟩ := List.forall_mem_cons.mp hf
    exact ha.bind fun _ _ => ih has

end SparesReversal

/-! ### Literals -/

theorem sparesReversal_quotedText (text : String) : SparesReversal (quotedText text) := by
  unfold quotedText
  split <;> simp [Failure.concernsReversal]

namespace Value

mutual

/-- The literal of a value can only fail for its texts. -/
theorem sparesReversal_term (mode : RoundingMode) : ∀ v : Value, SparesReversal (term mode v)
  | string text => sparesReversal_quotedText text
  | list _ elements => (sparesReversal_terms mode elements).bind_pure _
  | set _ members _ => (sparesReversal_termsLastFirst mode members).bind_pure _
  | tuple components => (sparesReversal_terms mode components).bind_pure _
  | just value | left value _ | right _ value => (sparesReversal_term mode value).bind_pure _
  | bounded signed _ _ => by cases signed <;> exact .ok _
  | bool _ | unbounded _ | real _ | float _ | double _ | floating .. | rational .. | char _
  | userSort .. | nothing _ => .ok _

theorem sparesReversal_terms (mode : RoundingMode) :
    ∀ vs : List Value, SparesReversal (terms mode vs)
  | [] => .ok _
  | v :: vs => (sparesReversal_term mode v).bind fun _ _ =>
      (sparesReversal_terms mode vs).bind_pure _

theorem sparesReversal_termsLastFirst (mode : RoundingMode) :
    ∀ vs : List Value, SparesReversal (termsLastFirst mode vs)
  | [] => .ok _
  | v :: vs => (sparesReversal_termsLastFirst mode vs).bind fun _ _ =>
      (sparesReversal_term mode v).bind_pure _

end

theorem sparesReversal_constant (k : Kind) (n : Int) : SparesReversal (constant k n) := by
  unfold constant ofInteger ofReal ofRational
  split <;> (try split) <;> simp [Failure.concernsReversal]

theorem sparesReversal_ofCodePoint (n : Nat) : SparesReversal (ofCodePoint n) := by
  unfold ofCodePoint
  by_cases h : n.isValidChar
  · rw [dif_pos h]
    exact .ok _
  · rw [dif_neg h]
    exact SparesReversal.error_iff.mpr rfl

end Value

theorem Scope.sparesReversal_constantTerm (scope : Scope) (k : Kind) (n : Int) :
    SparesReversal (scope.constantTerm k n) :=
  (Value.sparesReversal_constant k n).bind fun v _ => v.sparesReversal_term _

namespace RegExp

theorem sparesReversal_boundTerm (n : Nat) : SparesReversal (boundTerm n) :=
  (Value.sparesReversal_ofCodePoint n).bind fun v _ => v.sparesReversal_term _

mutual

/-- The term of a regular expression can only fail for its texts and its bounds. -/
theorem sparesReversal_term : ∀ r : RegExp, SparesReversal r.term
  | literal text => (sparesReversal_quotedText text).bind_pure _
  | range low high => (sparesReversal_boundTerm low).bind fun _ _ =>
      (sparesReversal_boundTerm high).bind_pure _
  | concat parts | union parts => (sparesReversal_terms parts).bind_pure _
  | star r | plus r | opt r | complement r | loop _ _ r | power _ r =>
    (sparesReversal_term r).bind_pure _
  | diff l r | inter l r => (sparesReversal_term l).bind fun _ _ =>
      (sparesReversal_term r).bind_pure _
  | all | allChar | none => .ok _

theorem sparesReversal_terms : ∀ rs : List RegExp, SparesReversal (terms rs)
  | [] => .ok _
  | r :: rs => (sparesReversal_term r).bind fun _ _ => (sparesReversal_terms rs).bind_pure _

end

end RegExp

/-! ### Operators in words -/

namespace Operator

theorem sparesReversal_ownSymbol? (op : Operator) : SparesReversal op.ownSymbol? := by
  unfold ownSymbol?
  split
  case h_2 => split <;> simp [Failure.concernsReversal]
  all_goals exact .ok _

theorem sparesReversal_details (op : Operator) : SparesReversal op.details := by
  have hown := op.sparesReversal_ownSymbol?
  cases op with
  | regExpEqual positive l r =>
    exact l.sparesReversal_term.bind fun _ _ => r.sparesReversal_term.bind_pure _
  | _ =>
    first
      | exact .ok _
      | exact hown.bind fun symbol? _ => by cases symbol? <;> exact .pure _

theorem sparesReversal_describe (op : Operator) : SparesReversal op.describe :=
  op.sparesReversal_details.bind_pure _

theorem sparesReversal_symbol (op : Operator) : SparesReversal op.symbol := by
  refine op.sparesReversal_ownSymbol?.bind fun symbol? _ => ?_
  cases symbol? with
  | some symbol => exact .pure _
  | none => exact op.sparesReversal_describe.bind_throw fun _ => rfl

end Operator

theorem Operation.sparesReversal_describe (full : Bool) (o : Operation) :
    SparesReversal (o.describe full) :=
  o.operator.sparesReversal_describe.bind_pure _

/-! ### Applications to operands -/

section

variable (ts : List Term)

@[simp] theorem sparesReversal_wrongOperands {α : Type} (construct : String) :
    SparesReversal (wrongOperands construct ts : Except Failure α) :=
  SparesReversal.error_iff.mpr rfl

@[simp] theorem sparesReversal_unary (name : String) : SparesReversal (unary name ts) := by
  unfold unary
  split <;> simp

@[simp] theorem sparesReversal_binary (name : String) : SparesReversal (binary name ts) := by
  unfold binary
  split <;> simp

@[simp] theorem sparesReversal_roundedBinary (name : String) (mode : RoundingMode) :
    SparesReversal (roundedBinary name mode ts) := by
  unfold roundedBinary
  split <;> simp

theorem sparesReversal_exchanged : SparesReversal (exchanged ts) := by
  unfold exchanged
  split <;> simp

@[simp] theorem sparesReversal_exchangedBinary (name : String) :
    SparesReversal (exchanged ts >>= binary name) :=
  (sparesReversal_exchanged ts).bind fun us _ => sparesReversal_binary us name

end

/-! ### Comparisons and arithmetic -/

section

variable (ts : List Term)

namespace Comparison

theorem sparesReversal_ofNegated (connective : String) :
    SparesReversal (ofNegated connective ts) := by
  unfold ofNegated
  split <;> simp

theorem sparesReversal_bool? (op : Operator) : ∀ r ∈ bool? op ts, SparesReversal r := by
  have hexchanged : ∀ name, SparesReversal (exchanged ts >>= ofNegated name) := fun name =>
    (sparesReversal_exchanged ts).bind fun us _ => sparesReversal_ofNegated us name
  unfold bool?
  split <;> simp [sparesReversal_ofNegated, hexchanged]

theorem sparesReversal_ordered? (less lessEq : String) (op : Operator) :
    ∀ r ∈ ordered? less lessEq op ts, SparesReversal r := by
  unfold ordered?
  split <;> simp

theorem sparesReversal_byPosition? (relation : String) (operation : Operation) :
    ∀ r ∈ byPosition? relation operation ts, SparesReversal r := by
  unfold byPosition?
  split
  · split
    · split <;> simp
    · simp
  · rintro _ ⟨⟩
    exact (operation.sparesReversal_describe false).bind fun _ _ => sparesReversal_wrongOperands _ _

theorem sparesReversal_enumerated? (operation : Operation) :
    ∀ r ∈ enumerated? operation ts, SparesReversal r := by
  unfold enumerated?
  split
  · simp
  · simp
  · intro r hr
    obtain ⟨relation, -, hr⟩ := Option.bind_eq_some_iff.mp hr
    exact sparesReversal_byPosition? ts relation operation r hr

end Comparison

namespace Arithmetic

variable (scope : Scope) (profile : OperandProfile) (operation : Operation)

theorem sparesReversal_abs (ns : List Node) : SparesReversal (abs scope profile ns ts) := by
  unfold abs
  split
  · simp
  split
  · simp
  split
  · split
    · simp
    -- The literal of zero is there for numeric kinds only.
    · exact (scope.sparesReversal_constantTerm _ _).bind fun zero _ => by split <;> simp
  · simp

theorem sparesReversal_shared? :
    ∀ r ∈ shared? scope profile operation ts, SparesReversal r := by
  unfold shared?
  dsimp only
  split
  case h_5 =>
    rintro _ ⟨⟩
    exact sparesReversal_abs ts scope profile _
  all_goals
    rintro _ ⟨⟩
    try split
    all_goals simp

theorem sparesReversal_integer? :
    ∀ r ∈ integer? scope profile operation ts, SparesReversal r := by
  unfold integer?
  split
  · simp
  · simp
  · exact sparesReversal_shared? ts scope profile operation

theorem sparesReversal_bitVector? :
    ∀ r ∈ bitVector? scope profile operation ts, SparesReversal r := by
  unfold bitVector?
  dsimp only
  split
  case h_5 =>
    rintro _ ⟨⟩
    exact sparesReversal_abs ts scope profile _
  all_goals simp

theorem sparesReversal_realOrFloat? :
    ∀ r ∈ realOrFloat? scope profile operation ts, SparesReversal r := by
  unfold realOrFloat?
  split
  · rintro _ ⟨⟩
    split <;> simp
  · exact sparesReversal_shared? ts scope profile operation

theorem sparesReversal_rational? (op : Operator) : ∀ r ∈ rational? op ts, SparesReversal r := by
  unfold rational?
  split <;> simp

end Arithmetic

end

namespace Scope

variable (scope : Scope) (operation : Operation)

theorem sparesReversal_noEncoding : SparesReversal (noEncoding operation) := by
  have hdescribe : ∀ full, SparesReversal (operation.describe full) :=
    fun full => operation.sparesReversal_describe full
  have hinexpressible : SparesReversal
      (operation.describe true >>= fun text => (throw (.inexpressible text) : Except Failure Term)) :=
    (hdescribe true).bind_throw fun _ => rfl
  unfold noEncoding
  dsimp only
  split
  · split
    · refine operation.operator.sparesReversal_describe.bind fun _ _ => ?_
      exact (hdescribe false).bind fun _ _ => SparesReversal.error_iff.mpr rfl
    · exact hinexpressible
  · exact hinexpressible

/-- Whichever sort of operation the kinds of the operands call for, it does not reverse. -/
theorem sparesReversal_generic : SparesReversal (scope.generic operation) := by
  refine generic_cases rfl rfl ?integer ?bool ?bitVector ?realOrFloat ?rational ?string ?sequence
    ?enumerated (sparesReversal_noEncoding operation)
  case integer => exact Arithmetic.sparesReversal_integer? _ scope _ operation
  case bool => exact Comparison.sparesReversal_bool? _ _
  case bitVector => exact Arithmetic.sparesReversal_bitVector? _ scope _ operation
  case realOrFloat => exact Arithmetic.sparesReversal_realOrFloat? _ scope _ operation
  case rational => exact fun _ => Arithmetic.sparesReversal_rational? _ _
  case string | sequence => exact Comparison.sparesReversal_ordered? _ _ _ _
  case enumerated => exact Comparison.sparesReversal_enumerated? _ operation

/-! ### Operations -/

theorem sparesReversal_badIndex {α : Type} (l : Lookup) :
    SparesReversal (badIndex l operation : Except Failure α) :=
  (operation.sparesReversal_describe false).bind_throw fun _ => rfl

theorem sparesReversal_lookup (l : Lookup) : SparesReversal (scope.lookup l operation) := by
  have hrelations : SparesReversal (indexRelations l operation) := by
    unfold indexRelations
    split
    · split
      · exact sparesReversal_badIndex operation l
      · simp
    · split <;> simp
    · simp
    · exact sparesReversal_badIndex operation l
  have houtside : ∀ less lessEq, SparesReversal (scope.outside l less lessEq) := fun less lessEq =>
    (scope.sparesReversal_constantTerm _ _).bind fun _ _ =>
      (scope.sparesReversal_constantTerm _ _).bind_pure _
  refine hrelations.bind fun relations? _ => ?_
  cases relations? with
  | none => exact .pure _
  | some relations => exact (houtside _ _).bind_pure _

theorem sparesReversal_onlyOperand : SparesReversal (scope.onlyOperand operation) := by
  unfold onlyOperand
  split
  · exact .ok _
  · exact operation.operator.sparesReversal_describe.bind fun _ _ => sparesReversal_wrongOperands _ _

theorem sparesReversal_bitVectorsExpected {α : Type} :
    SparesReversal (bitVectorsExpected operation : Except Failure α) :=
  (operation.sparesReversal_describe true).bind_throw fun _ => rfl

theorem sparesReversal_indexedBits (name : String) (indices : List Int) :
    SparesReversal (scope.indexedBits name indices operation) :=
  .checked (sparesReversal_bitVectorsExpected operation) fun _ =>
    (scope.sparesReversal_onlyOperand operation).bind_pure _

theorem sparesReversal_shift (isLeft : Bool) :
    SparesReversal (scope.shift isLeft operation) := by
  refine .checked (sparesReversal_bitVectorsExpected operation) fun _ => ?_
  split
  · exact .pure _
  · exact operation.operator.sparesReversal_describe.bind fun _ _ => sparesReversal_wrongOperands _ _

theorem sparesReversal_connective (onBools onBits : String)
    {build : String → List Term → Except Failure Term}
    (hbuild : ∀ name ts, SparesReversal (build name ts)) :
    SparesReversal (scope.connective onBools onBits build operation) :=
  .checked (sparesReversal_bitVectorsExpected operation) fun _ => hbuild _ _

theorem sparesReversal_bySymbol : SparesReversal (scope.bySymbol operation) :=
  operation.operator.sparesReversal_symbol.bind_pure _

theorem sparesReversal_test (constructor : String) (parameters : List Kind) (result : Kind) :
    SparesReversal (scope.test constructor parameters result operation) :=
  (scope.sparesReversal_onlyOperand operation).bind_pure _

end Scope

namespace Cast

theorem sparesReversal_floating (source target : Kind) (mode argument : Term) :
    SparesReversal (floating source target mode argument) := by
  unfold floating
  split
  · simp
  · split <;> simp [Failure.concernsReversal]

theorem sparesReversal_ofKinds (hasConversion : Bool) (source target : Kind) (argument : Term) :
    SparesReversal (ofKinds hasConversion source target argument) := by
  unfold ofKinds
  split
  · simp
  · split
    case h_6 =>
      split
      · exact sparesReversal_floating source target _ argument
      · simp [Failure.concernsReversal]
    all_goals simp

end Cast

theorem Composite.sparesReversal_set (op : SetOp) (ts : List Term) :
    SparesReversal (set op ts) := by
  unfold set
  dsimp only
  split
  case h_2 | h_3 | h_4 => split <;> simp
  all_goals simp

namespace Scope

variable {scope : Scope} {operation : Operation}

/-- Encoding an operation does not fail over a function that reverses, provided that the scope has
the function for what the operation itself reverses. -/
theorem sparesReversal_term
    (hreverse : ∀ what, operation.operator = .reverse what →
      (scope.reversals.name? what.kind).isSome = true) :
    SparesReversal (scope.term operation) := by
  have honly := scope.sparesReversal_onlyOperand operation
  have hsymbol := scope.sparesReversal_bySymbol operation
  obtain ⟨op, ns⟩ := operation
  cases op with
  | ite =>
    unfold term
    dsimp only
    split <;> simp
  | lookup l => exact scope.sparesReversal_lookup _ l
  | kindCast source target => exact honly.bind fun _ _ => Cast.sparesReversal_ofKinds _ _ _ _
  | floatCast source target rounding => exact Cast.sparesReversal_floating _ _ _ _
  | extract | rol | ror => exact scope.sparesReversal_indexedBits _ _ _
  | shl | shr => exact scope.sparesReversal_shift _ _
  | and | or | xor | join =>
    exact scope.sparesReversal_connective _ _ _ fun name ts => sparesReversal_binary ts name
  | not => exact scope.sparesReversal_connective _ _ _ fun name ts => sparesReversal_unary ts name
  | label => exact honly
  | float | floatReinterpret | nonlinear | sequence => exact hsymbol
  | overflow => exact hsymbol.bind_pure _
  | string op =>
    cases op with
    | unit =>
      unfold term
      dsimp only
      split
      · simp
      · exact hsymbol
    | _ => exact hsymbol
  | stringIn language => exact language.sparesReversal_term.bind_pure _
  | regExpEqual positive l r =>
    exact l.sparesReversal_term.bind fun _ _ => r.sparesReversal_term.bind_pure _
  | reverse what =>
    -- The one operator that looks a function up by kind.
    obtain ⟨name, hname⟩ := Option.isSome_iff_exists.mp (hreverse what rfl)
    unfold term
    simp [hname]
  | set op => exact Composite.sparesReversal_set _ _
  | arrayRead | tupleAccess | eitherConstructor | eitherAccess | maybeAccess =>
    exact honly.bind_pure _
  | eitherIs | maybeIs => exact scope.sparesReversal_test _ _ _ _
  | maybeConstructor k isJust =>
    cases isJust with
    | true => exact honly.bind_pure _
    | false => exact .ok _
  | rationalConstructor => exact sparesReversal_binary _ _
  | arrayEqual | uninterpreted | pseudoBoolean | tupleConstructor => exact .ok _
  | _ => exact scope.sparesReversal_generic _

theorem sparesReversal_definition
    (hreverse : ∀ what, operation.operator = .reverse what →
      (scope.reversals.name? what.kind).isSome = true) :
    SparesReversal (scope.definition operation) := by
  unfold definition
  split
  · exact .ok _
  · exact (sparesReversal_term hreverse).bind_pure _

end Scope

end SolverScript
