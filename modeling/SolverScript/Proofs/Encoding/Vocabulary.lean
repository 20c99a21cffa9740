import SolverScript.Problem.References
import SolverScript.Proofs.Semantics.LiteralVocabulary

/-!
# What encoded operations are made of

The term of an operation is made from the terms of the nodes that it refers to, from what its
operator names in a scope, and from built-in names. The kinds of operands show where a term is
written with its sort. Only the tests of optionals and sums test for a constructor, in the form that
the solver wants.

## Main definitions

* `ResultMadeOf` - encodings that are made of such names and such tests, if they succeed
* `ResultOver` - encodings that are written with names of a vocabulary, if they succeed
* `Occurrences.AllowsTestsFor` - tests for constructors may occur in the form of a solver
* `Scope.operatorNames` - the names that an operator stands for in a scope

## Main results

* `Scope.generic_cases` - what operators that many kinds share can be encoded by
* `Scope.resultMadeOf_term` - what the term of an operation is made of
* `Scope.resultOver_term` - which names occur in the term of an operation
-/

namespace SolverScript

variable {V : Name → Prop} {T : String → Option (List SortExpr × SortExpr) → Prop}

/-- Whether any test for a constructor may occur in the form that a solver wants. -/
def Occurrences.AllowsTestsFor (A : Occurrences) (c : Capabilities) : Prop :=
  ∀ constructor parameters result, (c.tester constructor parameters result).Within A

/-- Whether an encoding fails or its names satisfy one condition and its tests another one. -/
def ResultMadeOf (V : Name → Prop) (T : String → Option (List SortExpr × SortExpr) → Prop)
    (r : Except Failure Term) : Prop :=
  ∀ t, r = .ok t → t.MadeOf V T

namespace ResultMadeOf

@[simp] theorem ok_iff {t : Term} : ResultMadeOf V T (.ok t) ↔ t.MadeOf V T := by
  simp [ResultMadeOf]

@[simp] theorem pure_iff {t : Term} : ResultMadeOf V T (pure t) ↔ t.MadeOf V T := ok_iff

@[simp] theorem error (e : Failure) : ResultMadeOf V T (.error e) := by
  simp [ResultMadeOf]

/-- A computation before an encoding does not matter for what it is made of. -/
theorem bind {β : Type} {x : Except Failure β} {f : β → Except Failure Term}
    (h : ∀ b, x = .ok b → ResultMadeOf V T (f b)) : ResultMadeOf V T (x >>= f) := by
  intro t ht
  obtain ⟨b, hb, ht⟩ := bind_eq_ok_iff.mp ht
  exact h b hb t ht

/-- An encoding continues with a term that is made of what it may be. -/
theorem bind_term {x : Except Failure Term} {f : Term → Except Failure Term}
    (hx : ResultMadeOf V T x) (h : ∀ t, t.MadeOf V T → ResultMadeOf V T (f t)) :
    ResultMadeOf V T (x >>= f) :=
  bind fun t ht => h t (hx t ht)

/-- A check before an encoding does not matter for what it is made of. -/
theorem checked {condition : Prop} [Decidable condition] {check : Except Failure PUnit}
    {f : PUnit → Except Failure Term} (h : ∀ u, ResultMadeOf V T (f u)) :
    ResultMadeOf V T (if condition then f ⟨⟩ else check >>= f) := by
  split
  · exact h _
  · exact bind fun u _ => h u

end ResultMadeOf

/-! ### Applications to operands -/

variable {ts : List Term}

@[simp] theorem resultMadeOf_wrongOperands (construct : String) :
    ResultMadeOf V T (wrongOperands construct ts) :=
  .error _

theorem resultMadeOf_unary (hts : ∀ t ∈ ts, t.MadeOf V T) {name : String}
    (hname : V (.function name)) : ResultMadeOf V T (unary name ts) := by
  unfold unary
  split <;> simp_all

theorem resultMadeOf_binary (hts : ∀ t ∈ ts, t.MadeOf V T) {name : String}
    (hname : V (.function name)) : ResultMadeOf V T (binary name ts) := by
  unfold binary
  split <;> simp_all

theorem resultMadeOf_roundedBinary (hV : Vocabulary V) (hts : ∀ t ∈ ts, t.MadeOf V T)
    {name : String} (hname : V (.function name)) (mode : RoundingMode) :
    ResultMadeOf V T (roundedBinary name mode ts) := by
  unfold roundedBinary
  split <;> simp_all [hV.builtin]

/-- Exchanged operands are the same operands. -/
theorem madeOf_of_exchanged (hts : ∀ t ∈ ts, t.MadeOf V T) {us : List Term}
    (h : exchanged ts = .ok us) : ∀ t ∈ us, t.MadeOf V T := by
  unfold exchanged at h
  split at h <;> cases h
  simp_all

theorem resultMadeOf_exchangedBinary (hts : ∀ t ∈ ts, t.MadeOf V T) {name : String}
    (hname : V (.function name)) : ResultMadeOf V T (exchanged ts >>= binary name) :=
  .bind fun _ hus => resultMadeOf_binary (madeOf_of_exchanged hts hus) hname

/-! ### Comparisons and arithmetic -/

namespace Comparison

theorem madeOf_of_mem_pairs {ts : List Term} (hts : ∀ t ∈ ts, t.MadeOf V T) :
    ∀ q ∈ pairs ts, q.1.MadeOf V T ∧ q.2.MadeOf V T := by
  induction ts with
  | nil => simp [pairs]
  | cons t ts ih =>
    obtain ⟨ht, hrest⟩ := List.forall_mem_cons.mp hts
    simp only [pairs, List.forall_mem_append, List.forall_mem_map]
    exact ⟨fun u hu => ⟨ht, hrest u hu⟩, ih hrest⟩

theorem madeOf_unequal (hV : Vocabulary V) {equality : String} (hequality : V (.function equality))
    {a b : Term} (ha : a.MadeOf V T) (hb : b.MadeOf V T) : (unequal equality a b).MadeOf V T :=
  hV.madeOf_negation (by simp [hequality, ha, hb])

theorem madeOf_pairwiseDifferent (hV : Vocabulary V) (hts : ∀ t ∈ ts, t.MadeOf V T)
    {equality : String} (hequality : V (.function equality)) :
    (pairwiseDifferent equality ts).MadeOf V T := by
  unfold pairwiseDifferent
  split
  · simp_all [madeOf_unequal]
  · refine Term.madeOf_apply.mpr ⟨by simp [hV.function], List.forall_mem_map.mpr fun q hq => ?_⟩
    obtain ⟨hleft, hright⟩ := madeOf_of_mem_pairs hts q hq
    exact madeOf_unequal hV hequality hleft hright

theorem madeOf_different (hV : Vocabulary V) (hts : ∀ t ∈ ts, t.MadeOf V T) (c : Capabilities)
    (profile : OperandProfile) : (different c profile ts).MadeOf V T := by
  unfold different
  split
  · simpa [hV.function] using hts
  · refine madeOf_pairwiseDifferent hV hts ?_
    split <;> simp [hV.function]

theorem resultMadeOf_ofNegated (hV : Vocabulary V) (hts : ∀ t ∈ ts, t.MadeOf V T) {name : String}
    (hname : V (.function name)) : ResultMadeOf V T (ofNegated name ts) := by
  unfold ofNegated
  split <;> simp_all [hV.madeOf_negation]

theorem resultMadeOf_bool? (hV : Vocabulary V) (hts : ∀ t ∈ ts, t.MadeOf V T) (op : Operator) :
    ∀ r ∈ bool? op ts, ResultMadeOf V T r := by
  have hnegated : ∀ {us}, (∀ t ∈ us, t.MadeOf V T) → ResultMadeOf V T (ofNegated "and" us) ∧
      ResultMadeOf V T (ofNegated "or" us) := fun hus =>
    ⟨resultMadeOf_ofNegated hV hus (by simp [hV.function]),
      resultMadeOf_ofNegated hV hus (by simp [hV.function])⟩
  unfold bool?
  split <;> simp only [Option.mem_some_iff, Option.not_mem_none, false_imp_iff, implies_true,
    forall_eq']
  · exact (hnegated hts).1
  · exact .bind fun us hus => (hnegated (madeOf_of_exchanged hts hus)).1
  · exact (hnegated hts).2
  · exact .bind fun us hus => (hnegated (madeOf_of_exchanged hts hus)).2

theorem resultMadeOf_ordered? (hV : Vocabulary V) (hts : ∀ t ∈ ts, t.MadeOf V T)
    {less lessEq : String} (hless : V (.function less)) (hlessEq : V (.function lessEq))
    (op : Operator) : ∀ r ∈ ordered? less lessEq op ts, ResultMadeOf V T r := by
  unfold ordered?
  split
  case h_2 => simpa [hV.function] using hts
  all_goals
    simp [resultMadeOf_binary hts, resultMadeOf_exchangedBinary hts, hV.function, hless, hlessEq]

theorem over_relation {op : Operator} {relation : String} (hV : Vocabulary V)
    (h : relation? op = some relation) : V (.function relation) := by
  unfold relation? at h
  split at h <;> cases h <;> simp [hV.function]

theorem resultMadeOf_byPosition? (hV : Vocabulary V) (hts : ∀ t ∈ ts, t.MadeOf V T)
    {relation : String} (hrelation : V (.function relation)) {operation : Operation}
    (hkinds : ∀ n ∈ operation.operands, n.kind.Over V) :
    ∀ r ∈ byPosition? relation operation ts, ResultMadeOf V T r := by
  unfold byPosition?
  split
  · next n m a b hoperands =>
    split
    · next sort hkind =>
      have hsort : V (.sort sort.name) := by
        have hn := hkinds n (by simp [hoperands])
        rwa [hkind, Kind.over_userSort] at hn
      split
      · simp_all [hV.position]
      · simp
    · simp
  · rintro _ ⟨⟩
    exact .bind fun _ _ => .error _

theorem resultMadeOf_enumerated? (hV : Vocabulary V) (hts : ∀ t ∈ ts, t.MadeOf V T)
    {operation : Operation} (hkinds : ∀ n ∈ operation.operands, n.kind.Over V) :
    ∀ r ∈ enumerated? operation ts, ResultMadeOf V T r := by
  unfold enumerated?
  split
  · simp [resultMadeOf_binary hts, hV.function]
  · simpa [hV.function] using hts
  · intro r hr
    obtain ⟨relation, hrelation, hr⟩ := Option.bind_eq_some_iff.mp hr
    exact resultMadeOf_byPosition? hV hts (over_relation hV hrelation) hkinds r hr

end Comparison

theorem Scope.resultMadeOf_constantTerm (hV : Vocabulary V) (scope : Scope) (k : Kind) (n : Int) :
    ResultMadeOf V T (scope.constantTerm k n) :=
  .bind fun _ hv _ ht => Value.madeOf_term hV (Value.over_of_constant hv) ht

namespace Arithmetic

variable {scope : Scope} {profile : OperandProfile}

theorem resultMadeOf_abs (hV : Vocabulary V) (hts : ∀ t ∈ ts, t.MadeOf V T) (ns : List Node) :
    ResultMadeOf V T (abs scope profile ns ts) := by
  unfold abs
  split
  · exact resultMadeOf_unary hts (hV.builtin _ (.ofFloat .abs))
  split
  · exact resultMadeOf_unary hts (by simp [hV.function])
  split
  · next n t =>
    have ht : t.MadeOf V T := hts t (List.mem_singleton_self t)
    split
    · exact ResultMadeOf.ok_iff.mpr ht
    -- A signed operand is compared with the literal of zero.
    · refine .bind_term (scope.resultMadeOf_constantTerm hV n.kind 0) fun zero hzero => ?_
      rw [ResultMadeOf.pure_iff]
      split <;> simp [absoluteValue, hV.function, ht, hzero]
  · exact .error _

theorem resultMadeOf_shared? (hV : Vocabulary V) (hts : ∀ t ∈ ts, t.MadeOf V T)
    (operation : Operation) : ∀ r ∈ shared? scope profile operation ts, ResultMadeOf V T r := by
  -- Arithmetic among floats takes a rounding mode; comparisons have names of their own.
  have hrounded : ∀ (name : String) (op : FloatOp), V (.function name) → ResultMadeOf V T
      (if profile.anyFloating then roundedBinary op.symbol scope.config.roundingMode ts
        else binary name ts) := by
    intro name op hname
    split
    · exact resultMadeOf_roundedBinary hV hts (hV.builtin _ (.ofFloat op)) _
    · exact resultMadeOf_binary hts hname
  have hplain : ∀ name floatName : String, V (.function name) → V (.function floatName) →
      ResultMadeOf V T (binary (if profile.anyFloating then floatName else name) ts) := by
    intro name floatName hname hfloatName
    split
    · exact resultMadeOf_binary hts hfloatName
    · exact resultMadeOf_binary hts hname
  unfold shared?
  dsimp only
  split
  · rintro _ ⟨⟩
    exact hrounded "+" .add (by simp [hV.function])
  · rintro _ ⟨⟩
    exact hrounded "-" .sub (by simp [hV.function])
  · rintro _ ⟨⟩
    exact hrounded "*" .mul (by simp [hV.function])
  · rintro _ ⟨⟩
    refine resultMadeOf_unary hts ?_
    split
    · exact hV.builtin _ (.ofFloat .neg)
    · simp [hV.function]
  · rintro _ ⟨⟩
    exact resultMadeOf_abs hV hts _
  case h_7 =>
    rintro _ ⟨⟩
    exact ResultMadeOf.ok_iff.mpr (Comparison.madeOf_different hV hts _ _)
  all_goals simp [hplain, hV.function]

theorem resultMadeOf_integer? (hV : Vocabulary V) (hts : ∀ t ∈ ts, t.MadeOf V T)
    (operation : Operation) : ∀ r ∈ integer? scope profile operation ts, ResultMadeOf V T r := by
  unfold integer?
  split
  · simp [resultMadeOf_binary hts, hV.function]
  · simp [resultMadeOf_binary hts, hV.function]
  · exact resultMadeOf_shared? hV hts operation

theorem resultMadeOf_bitVector? (hV : Vocabulary V) (hts : ∀ t ∈ ts, t.MadeOf V T)
    (operation : Operation) : ∀ r ∈ bitVector? scope profile operation ts, ResultMadeOf V T r := by
  have hsigned : ∀ signed unsigned : String, V (.function signed) → V (.function unsigned) →
      ResultMadeOf V T (binary (if profile.anySigned then signed else unsigned) ts) := by
    intro signed unsigned hsigned hunsigned
    split
    · exact resultMadeOf_binary hts hsigned
    · exact resultMadeOf_binary hts hunsigned
  unfold bitVector?
  dsimp only
  split
  case h_4 =>
    rintro _ ⟨⟩
    refine resultMadeOf_unary hts ?_
    split <;> simp [hV.function]
  case h_5 =>
    rintro _ ⟨⟩
    exact resultMadeOf_abs hV hts _
  case h_9 =>
    rintro _ ⟨⟩
    exact ResultMadeOf.ok_iff.mpr (by simpa [hV.function] using hts)
  all_goals simp [resultMadeOf_binary hts, hsigned, hV.function]

theorem resultMadeOf_realOrFloat? (hV : Vocabulary V) (hts : ∀ t ∈ ts, t.MadeOf V T)
    (operation : Operation) :
    ∀ r ∈ realOrFloat? scope profile operation ts, ResultMadeOf V T r := by
  unfold realOrFloat?
  split
  · rintro _ ⟨⟩
    split
    · exact resultMadeOf_roundedBinary hV hts (hV.builtin _ (.ofFloat .div)) _
    · exact resultMadeOf_binary hts (by simp [hV.function])
  · exact resultMadeOf_shared? hV hts operation

theorem resultMadeOf_rational? (hts : ∀ t ∈ ts, t.MadeOf V T)
    (hrationals : ∀ f : RationalFunction, V (.function f.symbol)) (op : Operator) :
    ∀ r ∈ rational? op ts, ResultMadeOf V T r := by
  unfold rational?
  split <;> simp [resultMadeOf_unary hts, resultMadeOf_binary hts, resultMadeOf_exchangedBinary hts,
    hrationals]

end Arithmetic

theorem mem_onlyIf {β : Type} {condition : Bool} {result : Option β} {b : β} :
    b ∈ onlyIf condition result ↔ condition = true ∧ b ∈ result := by
  cases condition <;> simp [onlyIf]

/-- A property that both of two alternatives have is one of the first that there is. -/
theorem forall_mem_orElse {β : Type} {Q : β → Prop} {x y : Option β} (hx : ∀ b ∈ x, Q b)
    (hy : ∀ b ∈ y, Q b) : ∀ b ∈ x <|> y, Q b := by
  cases x with
  | none => simpa using hy
  | some b => simpa using hx

theorem Scope.resultMadeOf_noEncoding (operation : Operation) :
    ResultMadeOf V T (noEncoding operation) := by
  unfold noEncoding
  dsimp only
  split
  · split
    · exact .bind fun _ _ => .bind fun _ _ => .error _
    · exact .bind fun _ _ => .error _
  · exact .bind fun _ _ => .error _

/-- What an operator that many kinds share can be encoded by: the operation on the first sort of
numbers or words that the operands call for and that has the operator. Without one, there is no
encoding. -/
theorem Scope.generic_cases {motive : Except Failure Term → Prop} {scope : Scope}
    {operation : Operation} {profile : OperandProfile} {ts : List Term}
    (hprofile : OperandProfile.ofNodes operation.operands = profile)
    (hts : scope.nodeTerms operation.operands = ts)
    (integer : ∀ r ∈ Arithmetic.integer? scope profile operation ts, motive r)
    (bool : ∀ r ∈ Comparison.bool? operation.operator ts, motive r)
    (bitVector : ∀ r ∈ Arithmetic.bitVector? scope profile operation ts, motive r)
    (realOrFloat : ∀ r ∈ Arithmetic.realOrFloat? scope profile operation ts, motive r)
    (rational : profile.anyRational = true →
      ∀ r ∈ Arithmetic.rational? operation.operator ts, motive r)
    (string : ∀ r ∈ Comparison.ordered? "str.<" "str.<=" operation.operator ts, motive r)
    (sequence : ∀ r ∈ Comparison.ordered? "seq.<" "seq.<=" operation.operator ts, motive r)
    (enumerated : ∀ r ∈ Comparison.enumerated? operation ts, motive r)
    (none : motive (noEncoding operation)) : motive (scope.generic operation) := by
  subst hprofile hts
  have honlyIf : ∀ {condition : Bool} {r? : Option (Except Failure Term)},
      (condition = true → ∀ r ∈ r?, motive r) → ∀ r ∈ onlyIf condition r?, motive r :=
    fun h r hr => h (mem_onlyIf.mp hr).1 r (mem_onlyIf.mp hr).2
  unfold generic
  dsimp only
  generalize hresult : (_ <|> _ : Option (Except Failure Term)) = result?
  cases result? with
  | none => exact none
  | some r =>
    -- The alternatives in the order in which they are tried.
    exact forall_mem_orElse (honlyIf fun _ => integer) (forall_mem_orElse (honlyIf fun _ => bool)
      (forall_mem_orElse (honlyIf fun _ => bitVector)
      (forall_mem_orElse (honlyIf fun _ => realOrFloat)
      (forall_mem_orElse (honlyIf rational) (forall_mem_orElse (honlyIf fun _ => realOrFloat)
      (forall_mem_orElse (honlyIf fun _ => string) (forall_mem_orElse (honlyIf fun _ => sequence)
      enumerated))))))) r hresult

theorem Scope.resultMadeOf_generic (hV : Vocabulary V) {scope : Scope} {operation : Operation}
    (hts : ∀ t ∈ scope.nodeTerms operation.operands, t.MadeOf V T)
    (hkinds : ∀ n ∈ operation.operands, n.kind.Over V)
    (hrationals : (OperandProfile.ofNodes operation.operands).anyRational = true →
      ∀ f : RationalFunction, V (.function f.symbol)) :
    ResultMadeOf V T (scope.generic operation) := by
  have hstring : ∀ op : StringOp, V (.function op.symbol) := fun op => hV.builtin _ (.ofString op)
  refine generic_cases rfl rfl ?integer ?bool ?bitVector ?realOrFloat ?rational ?string ?sequence
    ?enumerated (resultMadeOf_noEncoding operation)
  case integer => exact Arithmetic.resultMadeOf_integer? hV hts operation
  case bool => exact Comparison.resultMadeOf_bool? hV hts _
  case bitVector => exact Arithmetic.resultMadeOf_bitVector? hV hts operation
  case realOrFloat => exact Arithmetic.resultMadeOf_realOrFloat? hV hts operation
  case rational => exact fun h => Arithmetic.resultMadeOf_rational? hts (hrationals h) _
  case string =>
    exact Comparison.resultMadeOf_ordered? hV hts (hstring .lessThan) (hstring .lessEq) _
  case sequence =>
    exact Comparison.resultMadeOf_ordered? hV hts (by simp [hV.function]) (by simp [hV.function]) _
  case enumerated => exact Comparison.resultMadeOf_enumerated? hV hts hkinds

/-! ### Casts and composite values -/

namespace Cast

variable {argument : Term}

theorem resultMadeOf_floating (hV : Vocabulary V) (source target : Kind) {mode : Term}
    (hmode : mode.MadeOf V T) (hargument : argument.MadeOf V T) :
    ResultMadeOf V T (floating source target mode argument) := by
  unfold floating
  split
  · simpa using hargument
  · split
    case h_7 signed _ _ _ _ => cases signed <;> simp [hV.function, hmode, hargument]
    all_goals simp [toFloat, hV.function, hmode, hargument]

theorem madeOf_bits (hV : Vocabulary V) (hargument : argument.MadeOf V T) (high low : Nat) :
    (bits high low argument).MadeOf V T := by
  simp [bits, hV.function, hargument]

theorem madeOf_ifZero (hV : Vocabulary V) {bit whenZero otherwise : Term} (hbit : bit.MadeOf V T)
    (hzero : whenZero.MadeOf V T) (hotherwise : otherwise.MadeOf V T) :
    (ifZero bit whenZero otherwise).MadeOf V T := by
  simp [ifZero, hV.function, hbit, hzero, hotherwise]

theorem madeOf_bitVectorToInt (hV : Vocabulary V) (hargument : argument.MadeOf V T) (signed : Bool)
    (width : Nat) : (bitVectorToInt signed width argument).MadeOf V T := by
  have hbits := madeOf_bits hV hargument
  unfold bitVectorToInt
  dsimp only
  split
  · simp [hV.function, hargument]
  · split
    · exact madeOf_ifZero hV hargument (by simp) (hV.madeOf_int _)
    · exact madeOf_ifZero hV (hbits _ _) (by simp [hV.function, hbits])
        (by simp [hV.function, hbits])

theorem madeOf_bitOf (hV : Vocabulary V) (i : Nat) : (bitOf i).MadeOf V T := by
  unfold bitOf
  dsimp only
  split <;> simp [hV.function]

theorem madeOf_concatenated (hV : Vocabulary V) (n : Nat) : (concatenated n).MadeOf V T := by
  induction n with
  | zero => simp [concatenated, hV.builtin]
  | succ n ih => simp [concatenated, hV.builtin, ih]

theorem madeOf_intToBitVector (hV : Vocabulary V) (hargument : argument.MadeOf V T)
    (hasConversion : Bool) (width : Nat) :
    (intToBitVector hasConversion width argument).MadeOf V T := by
  unfold intToBitVector
  split <;> simp [hV.builtin, hargument, madeOf_bitOf hV, madeOf_concatenated hV]

theorem madeOf_resize (hV : Vocabulary V) (hargument : argument.MadeOf V T) (signed : Bool)
    (source target : Nat) : (resize signed source target argument).MadeOf V T := by
  unfold resize
  split
  · cases signed <;> simp [hV.function, hargument]
  · split
    · exact hargument
    · exact madeOf_bits hV hargument _ _

theorem resultMadeOf_ofKinds (hV : Vocabulary V) (hargument : argument.MadeOf V T)
    (hasConversion : Bool) (source target : Kind) :
    ResultMadeOf V T (ofKinds hasConversion source target argument) := by
  unfold ofKinds
  split
  · simpa using hargument
  split
  · simpa using madeOf_resize hV hargument _ _ _
  · simpa using madeOf_bitVectorToInt hV hargument _ _
  · simpa [hV.function] using hargument
  · simpa using madeOf_intToBitVector hV hargument _ _
  · simpa [hV.function] using hargument
  · split
    · exact resultMadeOf_floating hV source target (by simp [hV.builtin]) hargument
    · simp

end Cast

namespace Composite

theorem resultMadeOf_set (hV : Vocabulary V) (hts : ∀ t ∈ ts, t.MadeOf V T) (op : SetOp) :
    ResultMadeOf V T (set op ts) := by
  unfold set
  dsimp only
  split
  case h_2 | h_3 | h_4 => split <;> simp_all [hV.function, hV.madeOf_ofBool]
  all_goals simpa [hV.function] using hts

theorem madeOf_tuple (hV : Vocabulary V) (hts : ∀ t ∈ ts, t.MadeOf V T) (arity : Nat)
    {kinds : List Kind} (hkinds : ∀ k ∈ kinds, k.Over V) : (tuple arity kinds ts).MadeOf V T := by
  unfold tuple
  split
  · simp [hV.function]
  · simpa [hV.builtin, Kind.over_sort hV (Kind.over_tuple.mpr hkinds)] using hts

theorem over_sideConstructor (hV : Vocabulary V) (isRight : Bool) :
    V (.function (sideConstructor isRight)) := by
  cases isRight <;> simp [sideConstructor, hV.function]

theorem over_sideAccessor (hV : Vocabulary V) (isRight : Bool) :
    V (.function (sideAccessor isRight)) := by
  cases isRight <;> simp [sideAccessor, hV.function]

theorem over_maybeConstructor (hV : Vocabulary V) (isJust : Bool) :
    V (.function (maybeConstructor isJust)) := by
  cases isJust <;> simp [maybeConstructor, hV.function]

theorem over_testerWithSignature (hV : Vocabulary V) {constructor : String}
    (hconstructor : V (.function constructor)) {parameters : List Kind} {result : Kind}
    (hparameters : ∀ k ∈ parameters, k.Over V) (hresult : result.Over V) :
    (testerWithSignature constructor parameters result).Over V := by
  simp only [testerWithSignature, Term.over_tester_some, List.forall_mem_map]
  exact ⟨hconstructor, fun k hk => Kind.over_sort hV (hparameters k hk), Kind.over_sort hV hresult⟩

end Composite

theorem Capabilities.over_tester (hV : Vocabulary V) (c : Capabilities) {constructor : String}
    (hconstructor : V (.function constructor)) {parameters : List Kind} {result : Kind}
    (hparameters : ∀ k ∈ parameters, k.Over V) (hresult : result.Over V) :
    (c.tester constructor parameters result).Over V := by
  unfold tester
  split
  · exact Term.over_tester_none.mpr hconstructor
  · exact Composite.over_testerWithSignature hV hconstructor hparameters hresult

namespace PseudoBoolean

theorem madeOf_native (hV : Vocabulary V) (hts : ∀ t ∈ ts, t.MadeOf V T) (threshold : Threshold)
    (coefficients : List Int) (bound : Int) :
    (native threshold coefficients bound ts).MadeOf V T := by
  cases threshold <;> simpa [native, nativeName, hV.function] using hts

theorem mem_of_mem_weighted {threshold : Threshold} {coefficients : List Int} {q : Term × Int}
    (hq : q ∈ weighted threshold coefficients ts) : q.1 ∈ ts := by
  unfold weighted at hq
  split at hq
  · exact (List.of_mem_zip hq).1
  · obtain ⟨t, ht, rfl⟩ := List.mem_map.mp hq
    exact ht

theorem madeOf_comparison (hV : Vocabulary V) {sum bound : Term} (hsum : sum.MadeOf V T)
    (hbound : bound.MadeOf V T) (threshold : Threshold) :
    (comparison threshold sum bound).MadeOf V T := by
  cases threshold <;> simp [comparison, hV.function, hsum, hbound]

theorem madeOf_reduced (hV : Vocabulary V) (hts : ∀ t ∈ ts, t.MadeOf V T) (threshold : Threshold)
    (coefficients : List Int) (bound : Int) :
    (reduced threshold coefficients bound ts).MadeOf V T := by
  refine madeOf_comparison hV ?_ (by simp) threshold
  -- Each summand has one operand, with or without a coefficient.
  refine Term.madeOf_apply.mpr ⟨by simp [hV.function], List.forall_mem_map.mpr fun q hq => ?_⟩
  simpa [summand, hV.function] using hts q.1 (mem_of_mem_weighted hq)

end PseudoBoolean

/-! ### Operations -/

/-- The symbols of operators are built in, except for the one of reversal, which scripts do not use.
-/
theorem Operator.resultMadeOf_symbol (hV : Vocabulary V) {op : Operator}
    (hop : ∀ what, op ≠ .reverse what) : ResultMadeOf V T op.symbol := by
  have hown : ∀ t, op.ownSymbol? = .ok (some t) → t.MadeOf V T := by
    intro t ht
    unfold ownSymbol? at ht
    split at ht
    case h_2 =>
      split at ht <;> cases ht
      simp [hV.function]
    case h_8 what => exact absurd rfl (hop what)
    all_goals
      cases ht
      try simp [hV.builtin]
  refine .bind fun symbol? hsymbol => ?_
  cases symbol? with
  | none => exact .bind fun _ _ => .error _
  | some t => exact ResultMadeOf.ok_iff.mpr (hown t hsymbol)

namespace Scope

/-- The names that an operator stands for in a scope: what the user has named, and the user sorts
that the operator is written with. -/
def operatorNames (scope : Scope) : Operator → List Name
  | .lookup l =>
    .function (scope.tables.head l.table).symbol ::
      (scope.tables.head l.table).leading.map fun n => .node n.id
  | .arrayEqual a b => [.function (arrayName a), .function (arrayName b)]
  | .arrayRead a => [.function (arrayName a)]
  | .uninterpreted symbol => [.function symbol]
  | .reverse what => (scope.reversals.name? what.kind).toList.map .function
  | .eitherConstructor l r _ | .eitherIs l r _ => l.names ++ r.names
  | .maybeConstructor k _ | .maybeIs k _ => k.names
  | _ => []

variable {scope : Scope} {operation : Operation}

theorem resultMadeOf_onlyOperand (hts : ∀ t ∈ scope.nodeTerms operation.operands, t.MadeOf V T) :
    ResultMadeOf V T (scope.onlyOperand operation) := by
  unfold onlyOperand
  split
  · next n hn =>
    rw [hn] at hts
    exact ResultMadeOf.ok_iff.mpr (hts _ (List.mem_singleton_self _))
  · exact .bind fun _ _ => .error _

/-- A function that is applied to the only operand. -/
theorem resultMadeOf_appOnlyOperand (hts : ∀ t ∈ scope.nodeTerms operation.operands, t.MadeOf V T)
    {f : Term} (hf : f.MadeOf V T) :
    ResultMadeOf V T (scope.onlyOperand operation >>= fun argument => pure (f.app [argument])) :=
  .bind_term (resultMadeOf_onlyOperand hts) fun t ht => by simp [hf, ht]

theorem resultMadeOf_bySymbol (hV : Vocabulary V)
    (hts : ∀ t ∈ scope.nodeTerms operation.operands, t.MadeOf V T)
    (hop : ∀ what, operation.operator ≠ .reverse what) :
    ResultMadeOf V T (scope.bySymbol operation) :=
  .bind_term (Operator.resultMadeOf_symbol hV hop) fun _ hsymbol => by
    simpa [hsymbol] using hts

theorem resultMadeOf_indexedBits (hts : ∀ t ∈ scope.nodeTerms operation.operands, t.MadeOf V T)
    {name : String} (hname : V (.function name)) (indices : List Int) :
    ResultMadeOf V T (scope.indexedBits name indices operation) := by
  refine .checked fun _ => ?_
  refine .bind_term (resultMadeOf_onlyOperand hts) fun t ht => ?_
  simpa [hname] using ht

theorem resultMadeOf_shift (hV : Vocabulary V)
    (hts : ∀ t ∈ scope.nodeTerms operation.operands, t.MadeOf V T) (isLeft : Bool) :
    ResultMadeOf V T (scope.shift isLeft operation) := by
  refine .checked fun _ => ?_
  split
  · next a b hab =>
    rw [hab] at hts
    have hname : V (.function (if isLeft then "bvshl" else if a.isSigned then "bvashr"
        else "bvlshr")) := by
      split
      · simp [hV.function]
      · split <;> simp [hV.function]
    simpa [nodeTerms, hname] using hts
  · exact .bind fun _ _ => .error _

theorem resultMadeOf_connective {onBools onBits : String} (hbools : V (.function onBools))
    (hbits : V (.function onBits)) {build : String → List Term → Except Failure Term}
    (hbuild : ∀ {name}, V (.function name) →
      ResultMadeOf V T (build name (scope.nodeTerms operation.operands))) :
    ResultMadeOf V T (scope.connective onBools onBits build operation) := by
  refine .checked fun _ => hbuild ?_
  split
  · exact hbools
  · exact hbits

theorem resultMadeOf_test (hV : Vocabulary V)
    (htests : (Occurrences.ofTesters T).AllowsTestsFor scope.config.capabilities)
    (hts : ∀ t ∈ scope.nodeTerms operation.operands, t.MadeOf V T) {constructor : String}
    (hconstructor : V (.function constructor)) {parameters : List Kind} {result : Kind}
    (hparameters : ∀ k ∈ parameters, k.Over V) (hresult : result.Over V) :
    ResultMadeOf V T (scope.test constructor parameters result operation) := by
  have htester : (scope.config.capabilities.tester constructor parameters result).MadeOf V T :=
    ⟨Capabilities.over_tester hV _ hconstructor hparameters hresult, htests _ _ _⟩
  exact resultMadeOf_appOnlyOperand hts htester

theorem madeOf_freeSymbol (hts : ∀ t ∈ scope.nodeTerms operation.operands, t.MadeOf V T)
    {symbol : String} (hsymbol : V (.function symbol)) :
    (scope.freeSymbol symbol operation).MadeOf V T := by
  unfold freeSymbol
  split
  · exact Term.madeOf_symbol.mpr hsymbol
  · simpa [hsymbol] using hts

theorem madeOf_at {head : TableHead} {index : Term} :
    (head.at index).MadeOf V T ↔
      V (.function head.symbol) ∧ (∀ n ∈ head.leading, V (.node n.id)) ∧ index.MadeOf V T := by
  simp [TableHead.at, or_imp, forall_and, Node.term]

theorem resultMadeOf_outside (hV : Vocabulary V) {l : Lookup}
    (hindex : (scope.nodeTerm l.index).MadeOf V T) {less lessEq : String}
    (hless : V (.function less)) (hlessEq : V (.function lessEq)) :
    ResultMadeOf V T (scope.outside l less lessEq) := by
  refine .bind_term (scope.resultMadeOf_constantTerm hV _ _) fun zero hzero => ?_
  refine .bind_term (scope.resultMadeOf_constantTerm hV _ _) fun length hlength => ?_
  rw [ResultMadeOf.pure_iff]
  split <;> simp [hV.function, hindex, hzero, hlength, hless, hlessEq]

theorem over_indexRelations (hV : Vocabulary V) {l : Lookup} {less lessEq : String}
    (h : indexRelations l operation = .ok (some (less, lessEq))) :
    V (.function less) ∧ V (.function lessEq) := by
  have hbad : badIndex l operation ≠ .ok (some (less, lessEq)) := by
    intro hok
    obtain ⟨_, -, hok⟩ := bind_eq_ok_iff.mp hok
    cases hok
  unfold indexRelations at h
  split at h
  · split at h
    · exact absurd h hbad
    · cases h
  · split at h
    · split at h <;> cases h <;> simp [hV.function]
    · cases h
  · cases h
    simp [hV.function]
  · exact absurd h hbad

/-- A look-up mentions its table, its index, its default and what the table takes. -/
theorem resultMadeOf_lookup (hV : Vocabulary V) {l : Lookup}
    (hindex : (scope.nodeTerm l.index).MadeOf V T)
    (hdefault : (scope.nodeTerm l.default).MadeOf V T)
    (htable : V (.function (scope.tables.head l.table).symbol))
    (hleading : ∀ n ∈ (scope.tables.head l.table).leading, V (.node n.id)) :
    ResultMadeOf V T (scope.lookup l operation) := by
  have helement := madeOf_at.mpr ⟨htable, hleading, hindex⟩
  refine .bind fun relations hrelations => ?_
  split
  · exact ResultMadeOf.ok_iff.mpr helement
  · obtain ⟨hless, hlessEq⟩ := over_indexRelations hV hrelations
    refine .bind_term (resultMadeOf_outside hV hindex hless hlessEq) fun condition hcondition => ?_
    simp [hV.function, hcondition, hdefault, helement]

/-- What the term of an operation is made of: the nodes that it refers to, the names of the kinds of
its operands, those that its operator stands for, the functions on rationals where it has rational
operands, and tests in the form of the solver. -/
theorem resultMadeOf_term (hV : Vocabulary V)
    (htests : (Occurrences.ofTesters T).AllowsTestsFor scope.config.capabilities)
    (hreferences : ∀ n ∈ operation.references, (scope.nodeTerm n).MadeOf V T)
    (hkinds : ∀ n ∈ operation.operands, n.kind.Over V)
    (hnames : ∀ x ∈ scope.operatorNames operation.operator, V x)
    (hrationals : (OperandProfile.ofNodes operation.operands).anyRational = true →
      ∀ f : RationalFunction, V (.function f.symbol)) :
    ResultMadeOf V T (scope.term operation) := by
  have hts : ∀ t ∈ scope.nodeTerms operation.operands, t.MadeOf V T := by
    intro t ht
    obtain ⟨n, hn, rfl⟩ := List.mem_map.mp ht
    exact hreferences n (List.mem_append_left _ hn)
  have honly := resultMadeOf_onlyOperand hts
  have happlied := fun (f : Term) (hf : f.MadeOf V T) => resultMadeOf_appOnlyOperand hts hf
  have hhidden : ∀ n ∈ operation.operator.hiddenOperands, (scope.nodeTerm n).MadeOf V T :=
    fun n hn => hreferences n (List.mem_append_right _ hn)
  have hconnective : ∀ {onBools onBits : String}, V (.function onBools) → V (.function onBits) →
      ResultMadeOf V T (scope.connective onBools onBits binary operation) :=
    fun hbools hbits => resultMadeOf_connective hbools hbits (resultMadeOf_binary hts)
  obtain ⟨op, ns⟩ := operation
  -- Most operators only place their operands; the cases with terms of their own come by name.
  cases op with
  | ite =>
    unfold term
    dsimp only
    split
    · next c a b hcab =>
      rw [hcab] at hts
      simpa [hV.function] using hts
    · simp
  | lookup l =>
    obtain ⟨htable, hleading⟩ := List.forall_mem_cons.mp hnames
    exact resultMadeOf_lookup hV (hhidden _ (by simp [Operator.hiddenOperands]))
      (hhidden _ (by simp [Operator.hiddenOperands])) htable (List.forall_mem_map.mp hleading)
  | kindCast source target =>
    exact .bind_term honly fun t ht => Cast.resultMadeOf_ofKinds hV ht _ source target
  | floatCast source target rounding =>
    exact Cast.resultMadeOf_floating hV source target
      (hhidden _ (by simp [Operator.hiddenOperands])) (Term.madeOf_sideBySide.mpr hts)
  | uninterpreted symbol =>
    exact ResultMadeOf.ok_iff.mpr (madeOf_freeSymbol hts (by simpa [operatorNames] using hnames))
  | extract | rol | ror => exact resultMadeOf_indexedBits hts (by simp [hV.function]) _
  | shl | shr => exact resultMadeOf_shift hV hts _
  | and | or | xor | join =>
    exact hconnective (by simp [hV.function]) (by simp [hV.function])
  | not =>
    exact resultMadeOf_connective (by simp [hV.function]) (by simp [hV.function])
      (resultMadeOf_unary hts)
  | label => exact honly
  | float | floatReinterpret | nonlinear | sequence =>
    exact resultMadeOf_bySymbol hV hts fun _ => nofun
  | overflow =>
    exact .bind_term (resultMadeOf_bySymbol hV hts fun _ => nofun) fun t ht => by
      simpa using hV.madeOf_negation ht
  | string op =>
    have hsymbol := resultMadeOf_bySymbol hV hts fun _ => nofun
    cases op with
    | unit =>
      unfold term
      dsimp only
      split
      · next t ht =>
        rw [ht] at hts
        simpa using hts
      · exact hsymbol
    | _ => exact hsymbol
  | stringIn language =>
    refine .bind_term (fun _ => RegExp.madeOf_term hV) fun t ht => ?_
    simpa [hV.function, ht] using hts
  | regExpEqual positive l r =>
    refine .bind_term (fun _ => RegExp.madeOf_term hV) fun lt hlt => ?_
    refine .bind_term (fun _ => RegExp.madeOf_term hV) fun rt hrt => ?_
    cases positive <;> simp [hV.function, hlt, hrt]
  | reverse what =>
    unfold term
    dsimp only
    split
    · next name hname =>
      have hV' : V (.function name) := by simpa [operatorNames, hname] using hnames
      simpa [hV'] using hts
    · exact .bind fun _ _ => .error _
  | pseudoBoolean threshold coefficients bound =>
    refine ResultMadeOf.ok_iff.mpr ?_
    split
    · exact PseudoBoolean.madeOf_native hV hts threshold coefficients bound
    · exact PseudoBoolean.madeOf_reduced hV hts threshold coefficients bound
  | set op => exact Composite.resultMadeOf_set hV hts op
  | tupleConstructor arity =>
    exact ResultMadeOf.ok_iff.mpr
      (Composite.madeOf_tuple hV hts arity (List.forall_mem_map.mpr hkinds))
  | arrayEqual a b => simpa [term, operatorNames, hV.function] using hnames
  | arrayRead a =>
    have harray : V (.function (arrayName a)) := by simpa [operatorNames] using hnames
    exact .bind_term honly fun t ht => by simpa [hV.function, harray] using ht
  | tupleAccess p => exact happlied _ (by simp [hV.builtin])
  | eitherConstructor l r isRight =>
    have hkind : (Kind.either l r).Over V :=
      Kind.over_either.mpr (List.forall_mem_append.mp hnames)
    exact happlied _ (by simp [Composite.over_sideConstructor hV, Kind.over_sort hV hkind])
  | eitherAccess isRight => exact happlied _ (by simp [Composite.over_sideAccessor hV])
  | eitherIs l r isRight =>
    obtain ⟨hl, hr⟩ := List.forall_mem_append.mp hnames
    refine resultMadeOf_test hV htests hts (Composite.over_sideConstructor hV isRight) ?_
      (Kind.over_either.mpr ⟨hl, hr⟩)
    cases isRight <;> simpa
  | maybeConstructor k isJust =>
    have hsort := Kind.over_sort hV (Kind.over_maybe.mpr hnames)
    cases isJust with
    | true => exact happlied _ (by simp [Composite.over_maybeConstructor hV, hsort])
    | false => simp [term, Composite.over_maybeConstructor hV, hsort]
  | maybeIs k isJust =>
    have hkind : k.Over V := hnames
    refine resultMadeOf_test hV htests hts (Composite.over_maybeConstructor hV isJust) ?_
      (Kind.over_maybe.mpr hkind)
    cases isJust <;> simp [hkind]
  | maybeAccess => exact happlied _ (by simp [Composite.maybeAccessor, hV.function])
  | rationalConstructor =>
    exact resultMadeOf_binary hts (by simp [RationalFunction.constructor, hV.function])
  | _ => exact resultMadeOf_generic hV hts hkinds hrationals

end Scope

/-! ### Names alone -/

/-- Whether an encoding fails or is written with names that satisfy a condition. -/
def ResultOver (V : Name → Prop) (r : Except Failure Term) : Prop :=
  ∀ t, r = .ok t → t.Over V

@[simp] theorem ResultOver.ok_iff {t : Term} : ResultOver V (.ok t) ↔ t.Over V := by
  simp [ResultOver]

theorem ResultMadeOf.over {r : Except Failure Term} (h : ResultMadeOf V (fun _ _ => True) r) :
    ResultOver V r :=
  fun t ht => (h t ht).1

theorem Operator.resultOver_symbol (hV : Vocabulary V) {op : Operator}
    (hop : ∀ what, op ≠ .reverse what) : ResultOver V op.symbol :=
  (resultMadeOf_symbol hV hop).over

namespace Scope

variable {scope : Scope} {operation : Operation}

theorem resultOver_constantTerm (hV : Vocabulary V) (scope : Scope) (k : Kind) (n : Int) :
    ResultOver V (scope.constantTerm k n) :=
  (scope.resultMadeOf_constantTerm hV k n).over

theorem resultOver_noEncoding (operation : Operation) : ResultOver V (noEncoding operation) :=
  (resultMadeOf_noEncoding operation).over

theorem over_at {head : TableHead} {index : Term} :
    (head.at index).Over V ↔
      V (.function head.symbol) ∧ (∀ n ∈ head.leading, V (.node n.id)) ∧ index.Over V := by
  simp only [Term.over_iff_madeOf, madeOf_at]

/-- The names in the term of an operation: those of the nodes that it refers to, of the kinds of its
operands, those that its operator stands for, and the functions on rationals where it has rational
operands. -/
theorem resultOver_term (hV : Vocabulary V)
    (hreferences : ∀ n ∈ operation.references, (scope.nodeTerm n).Over V)
    (hkinds : ∀ n ∈ operation.operands, n.kind.Over V)
    (hnames : ∀ x ∈ scope.operatorNames operation.operator, V x)
    (hrationals : (OperandProfile.ofNodes operation.operands).anyRational = true →
      ∀ f : RationalFunction, V (.function f.symbol)) :
    ResultOver V (scope.term operation) :=
  (resultMadeOf_term hV (fun _ _ _ => Term.within_ofTesters_any _)
    (fun n hn => Term.over_iff_madeOf.mp (hreferences n hn)) hkinds hnames hrationals).over

end Scope

end SolverScript
