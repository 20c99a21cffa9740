import SolverScript.Proofs.Semantics.Names
import SolverScript.Proofs.Semantics.Vocabulary
import SolverScript.Script.Entity

/-!
# Symbols that scripts generate

A script gives names to the nodes, tables and arrays of a problem, to the initializers of tables and
arrays, and to the functions that reverse sequences. All of these names differ from each other.

## Main definitions

* `Entity` - a table or an array
* `GeneratedSymbol` - what a script gives a name to, with `GeneratedSymbol.name`

## Main results

* `GeneratedSymbol.name_injective` - the names are all different
-/

namespace SolverScript

/-- What is set up by initializers: a table or an array. -/
inductive Entity where
  | table (id : Int)
  | array (id : Int)
  deriving DecidableEq, Repr

/-- The symbol of a table or an array. -/
def Entity.name : Entity → String
  | table id => tableName id
  | array id => arrayName id

/-- The function that reverses what is reversed at a given place among all that is. -/
def reversalName (i : Nat) : String := "sbv.reverse_" ++ Nat.repr i

/-- What a script names for a table or an array: itself, all of its initializers together, and the
initializer with a given number. -/
inductive EntityPart where
  | itself
  | initializer
  | numbered (i : Nat)
  deriving DecidableEq, Repr

/-- What stands behind the name of a table or an array. -/
def EntityPart.suffix : EntityPart → String
  | itself => ""
  | initializer => "_initializer"
  | numbered i => "_initializer" ++ ("_" ++ Nat.repr i)

/-- What a script gives a name to of its own accord. -/
inductive GeneratedSymbol where
  | node (id : Int)
  | entity (e : Entity) (part : EntityPart)
  | reversal (i : Nat)
  deriving DecidableEq, Repr

/-- The name of a symbol. -/
def GeneratedSymbol.name : GeneratedSymbol → String
  | node id => nodeName id
  | entity e part => e.name ++ part.suffix
  | reversal i => reversalName i

/-! ### Numbers in names -/

namespace Numeral

/-- Whether a character occurs in decimal numerals. -/
def isDecimalChar (c : Char) : Bool := c.isDigit || c == '-'

theorem isDecimalChar_of_mem_repr {n : Nat} {c : Char} (h : c ∈ (Nat.repr n).toList) :
    isDecimalChar c := by
  rw [Nat.toList_repr] at h
  simp [isDecimalChar, Nat.isDigit_of_mem_toDigits (by decide) (by decide) h]

theorem isDecimalChar_of_mem {i : Int} {c : Char} (h : c ∈ (decimal i).toList) :
    isDecimalChar c := by
  cases i with
  | ofNat n => exact isDecimalChar_of_mem_repr h
  | negSucc n =>
    rw [decimal, String.toList_append] at h
    rcases List.mem_append.mp h with h | h
    · obtain rfl : c = '-' := by simpa using h
      rfl
    · exact isDecimalChar_of_mem_repr h

theorem toList_decimal_ne_nil (i : Int) : (decimal i).toList ≠ [] := by
  cases i <;> simp [decimal]

/-- A numeral that is followed by something else, or by nothing, ends where its digits do. -/
theorem decimal_append_inj {i j : Int} {r s : String}
    (hr : ∀ c ∈ r.toList.head?, isDecimalChar c = false)
    (hs : ∀ c ∈ s.toList.head?, isDecimalChar c = false) :
    decimal i ++ r = decimal j ++ s ↔ i = j ∧ r = s := by
  constructor
  · intro h
    have hlists := congrArg String.toList h
    rw [String.toList_append, String.toList_append] at hlists
    have htake : ∀ (k : Int) {t : String}, (∀ c ∈ t.toList.head?, isDecimalChar c = false) →
        ((decimal k).toList ++ t.toList).takeWhile isDecimalChar = (decimal k).toList := by
      intro k t ht
      rw [List.takeWhile_append_of_pos fun c hc => isDecimalChar_of_mem hc]
      cases hlist : t.toList with
      | nil => simp
      | cons c cs =>
        have hc := ht c (by simp [hlist])
        simp [hc]
    have hdigits : (decimal i).toList = (decimal j).toList := by
      rw [← htake i hr, hlists, htake j hs]
    rw [hdigits] at hlists
    exact ⟨decimal_injective (String.toList_injective hdigits),
      String.toList_injective (List.append_cancel_left hlists)⟩
  · rintro ⟨rfl, rfl⟩
    rfl

end Numeral

/-! ### Names are different -/

/-- A name that goes on after the name of a table or an array tells which one that is, unless it
goes on with a digit. -/
theorem Entity.name_append_inj {e f : Entity} {r s : String}
    (hr : ∀ c ∈ r.toList.head?, Numeral.isDecimalChar c = false)
    (hs : ∀ c ∈ s.toList.head?, Numeral.isDecimalChar c = false) :
    e.name ++ r = f.name ++ s ↔ e = f ∧ r = s := by
  have hdifferent : ∀ i j,
      tableName i ++ r ≠ arrayName j ++ s ∧ arrayName j ++ r ≠ tableName i ++ s := by
    intro i j
    constructor
    all_goals
      intro h
      have hhead := congrArg (fun name => name.toList.head?) h
      simp [tableName, arrayName] at hhead
  cases e with
  | table i =>
    cases f with
    | table j => simpa [name, tableName, String.append_assoc] using Numeral.decimal_append_inj hr hs
    | array j => simp [name, (hdifferent i j).1]
  | array i =>
    cases f with
    | table j => simp [name, (hdifferent j i).2]
    | array j => simpa [name, arrayName, String.append_assoc] using Numeral.decimal_append_inj hr hs

theorem nodeName_ne_entity_append (id : Int) (e : Entity) (rest : String) :
    nodeName id ≠ e.name ++ rest := by
  cases e with
  | table i => exact nodeName_ne_tableName_append id i rest
  | array i => exact nodeName_ne_arrayName_append id i rest

theorem reversalName_ne_entity_append (i : Nat) (e : Entity) (rest : String) :
    reversalName i ≠ e.name ++ rest := by
  intro h
  have hhead := congrArg (fun name => name.toList.head?) h
  cases e <;> simp [reversalName, Entity.name, tableName, arrayName] at hhead

/-- The second letter of a node's name is a digit or belongs to a truth value. -/
theorem second_nodeName_ne (id : Int) : (nodeName id).toList[1]? ≠ some 'b' := by
  intro h
  unfold nodeName at h
  split at h
  · simp at h
  · split at h
    · simp at h
    · have hmem : 'b' ∈ (Numeral.decimal id).toList :=
        List.mem_of_getElem? (i := 0) (by simpa using h)
      exact absurd (Numeral.isDecimalChar_of_mem hmem) (by decide)

theorem nodeName_ne_reversalName (id : Int) (i : Nat) : nodeName id ≠ reversalName i := by
  intro h
  exact second_nodeName_ne id (by simp [h, reversalName])

namespace EntityPart

theorem suffix_injective : Function.Injective suffix := by
  intro a b h
  have hself : ∀ {s t : String}, t ≠ "" → s ≠ s ++ t := fun ht h => ht (by simpa using h.symm)
  cases a <;> cases b <;> simp_all [suffix, Numeral.repr_injective.eq_iff]

/-- The name of a table or an array is not continued by a digit. -/
theorem isDecimalChar_head?_suffix (part : EntityPart) :
    ∀ c ∈ part.suffix.toList.head?, Numeral.isDecimalChar c = false := by
  cases part <;> simp [suffix, Numeral.isDecimalChar]

end EntityPart

namespace GeneratedSymbol

/-- The names that a script generates are all different. -/
theorem name_injective : Function.Injective name := by
  intro a b h
  cases a with
  | node id =>
    cases b with
    | node id' => rw [nodeName_injective h]
    | entity e part => exact absurd h (nodeName_ne_entity_append id e _)
    | reversal i => exact absurd h (nodeName_ne_reversalName id i)
  | entity e part =>
    cases b with
    | node id => exact absurd h.symm (nodeName_ne_entity_append id e _)
    | entity f part' =>
      obtain ⟨rfl, hsuffix⟩ := (Entity.name_append_inj part.isDecimalChar_head?_suffix
        part'.isDecimalChar_head?_suffix).mp h
      rw [EntityPart.suffix_injective hsuffix]
    | reversal i => exact absurd h.symm (reversalName_ne_entity_append i e _)
  | reversal i =>
    cases b with
    | node id => exact absurd h.symm (nodeName_ne_reversalName id i)
    | entity e part => exact absurd h (reversalName_ne_entity_append i e _)
    | reversal j =>
      have hij : i = j := Numeral.repr_injective (by simpa [name, reversalName] using h)
      rw [hij]

end GeneratedSymbol

/-! ### Names that are not generated -/

namespace GeneratedSymbol

/-- Whether a symbol is one of the truth values, which have no names of their own. -/
def IsReserved (g : GeneratedSymbol) : Prop := g = node (-1) ∨ g = node (-2)

/-- Whether a text looks like the name of a symbol or of a function on rationals. -/
def looksGenerated (text : String) : Bool :=
  match text.toList with
  | 't' :: 'a' :: 'b' :: _ | 'a' :: 'r' :: _ | 's' :: 'b' :: 'v' :: '.' :: 'r' :: 'e' :: _ => true
  | 's' :: 'b' :: 'v' :: '.' :: 'r' :: 'a' :: 't' :: '.' :: rest =>
    rest != "numerator".toList && rest != "denominator".toList
  | 's' :: c :: _ => Numeral.isDecimalChar c
  | _ => false

theorem looksGenerated_name {g : GeneratedSymbol} (hg : ¬g.IsReserved) : looksGenerated g.name := by
  cases g with
  | node id =>
    have hid : id ≠ -1 ∧ id ≠ -2 := by simpa [IsReserved] using hg
    rw [name, nodeName_of_ne hid.1 hid.2]
    cases hdigits : (Numeral.decimal id).toList with
    | nil => exact absurd hdigits (Numeral.toList_decimal_ne_nil id)
    | cons c cs =>
      have hc := Numeral.isDecimalChar_of_mem (i := id) (c := c) (by simp [hdigits])
      have hletter : c ≠ 'b' := by
        rintro rfl
        exact absurd hc (by decide)
      unfold looksGenerated
      simp only [String.toList_append, hdigits]
      split <;> simp_all
  | entity e part => cases e <;> simp [looksGenerated, name, Entity.name, tableName, arrayName]
  | reversal i => simp [looksGenerated, name, reversalName]

/-- The name of a symbol ends with a digit, or with the word for initializers. -/
theorem getLast?_name {g : GeneratedSymbol} (hg : ¬g.IsReserved) :
    ∀ c ∈ g.name.toList.getLast?, Numeral.isDecimalChar c ∨ c = 'r' := by
  -- All names but those of initializers end with a number.
  have hdecimal : ∀ {i : Int} {c : Char} {before : List Char},
      c ∈ (before ++ (Numeral.decimal i).toList).getLast? → Numeral.isDecimalChar c := by
    intro i c before hc
    rw [List.getLast?_append_of_ne_nil _ (Numeral.toList_decimal_ne_nil i)] at hc
    exact Numeral.isDecimalChar_of_mem (List.mem_of_getLast? hc)
  have hrepr : ∀ {n : Nat} {c : Char} {before : List Char},
      c ∈ (before ++ (Nat.repr n).toList).getLast? → Numeral.isDecimalChar c :=
    fun {n} => hdecimal (i := n)
  intro c hc
  cases g with
  | node id =>
    have hid : id ≠ -1 ∧ id ≠ -2 := by simpa [IsReserved] using hg
    rw [name, nodeName_of_ne hid.1 hid.2, String.toList_append] at hc
    exact .inl (hdecimal hc)
  | entity e part =>
    rw [name, String.toList_append] at hc
    cases part with
    | itself =>
      rw [EntityPart.suffix, String.toList_empty, List.append_nil] at hc
      cases e with
      | table i =>
        rw [Entity.name, tableName, String.toList_append] at hc
        exact .inl (hdecimal hc)
      | array i =>
        rw [Entity.name, arrayName, String.toList_append] at hc
        exact .inl (hdecimal hc)
    | initializer =>
      right
      simpa [EntityPart.suffix, eq_comm] using hc
    | numbered i =>
      rw [EntityPart.suffix, ← String.append_assoc, String.toList_append, ← List.append_assoc] at hc
      exact .inl (hrepr hc)
  | reversal i =>
    rw [name, reversalName, String.toList_append] at hc
    exact .inl (hrepr hc)

/-- The function that numbers the constructors of a sort has a name of its own. -/
theorem name_ne_indexName {g : GeneratedSymbol} (hg : ¬g.IsReserved) (sort : String) :
    g.name ≠ Datatype.indexName sort := by
  intro h
  have hlast := getLast?_name hg 'x' (by simp [h, Datatype.indexName])
  exact absurd hlast (by decide)

theorem looksGenerated_rational (f : RationalFunction) : looksGenerated f.symbol := by
  cases f <;> rfl

end GeneratedSymbol

/-- The names that do not depend on the problem do not look like those that do. -/
theorem Name.IsBuiltin.looksGenerated_eq_false {text : String}
    (h : (Name.function text).IsBuiltin) : GeneratedSymbol.looksGenerated text = false := by
  cases h with
  | function _ h =>
    -- One proof for each name: what the kernel computes it keeps until a proof is complete.
    have hall : ∀ text ∈ builtinFunctions, GeneratedSymbol.looksGenerated text = false := by
      simp only [builtinFunctions, List.forall_mem_cons, List.not_mem_nil, false_implies,
        implies_true, and_true]
      and_intros <;> decide +kernel
    exact hall text h
  | ofFloat op => cases op <;> decide +kernel
  | ofReal f => cases f <;> decide +kernel
  | ofOverflow check => cases check <;> decide +kernel
  | ofString op => cases op <;> decide +kernel
  | ofSequence op => cases op <;> decide +kernel
  | ofRounding mode => cases mode <;> decide +kernel
  | argument i =>
    have hdigit : ∀ c ∈ Nat.toDigits 10 (i + 1), c.isDigit := fun c hc =>
      Nat.isDigit_of_mem_toDigits (by decide) (by decide) hc
    unfold GeneratedSymbol.looksGenerated
    split <;> simp_all [argumentName]
  | _ =>
    simp [GeneratedSymbol.looksGenerated, Composite.projection, Cast.bitName, Numeral.isDecimalChar]

/-- A symbol is not called like anything that does not depend on the problem. -/
theorem Name.IsBuiltin.name_ne {text : String} (h : (Name.function text).IsBuiltin)
    {g : GeneratedSymbol} (hg : ¬g.IsReserved) : g.name ≠ text := by
  rintro rfl
  simpa [GeneratedSymbol.looksGenerated_name hg] using h.looksGenerated_eq_false

theorem Name.IsBuiltin.rational_ne {text : String} (h : (Name.function text).IsBuiltin)
    (f : RationalFunction) : f.symbol ≠ text := by
  rintro rfl
  simpa [GeneratedSymbol.looksGenerated_rational] using h.looksGenerated_eq_false

/-- The functions on rationals are told apart by their symbols. -/
theorem RationalFunction.symbol_injective : Function.Injective symbol := by
  intro f g h
  cases f <;> cases g <;> first | rfl | exact absurd h (by decide)

theorem RationalFunction.symbol_ne_indexName (f : RationalFunction) (sort : String) :
    f.symbol ≠ Datatype.indexName sort := by
  intro h
  have hlast : f.symbol.toList.getLast? = some 'x' := by simp [h, Datatype.indexName]
  cases f <;> exact absurd hlast (by decide)

/-- No symbol is called like a function on rationals. -/
theorem GeneratedSymbol.name_ne_rational (g : GeneratedSymbol) (f : RationalFunction) :
    g.name ≠ f.symbol := by
  intro h
  have hstart : g.name.toList.take 6 = "sbv.ra".toList := by
    rw [h]
    cases f <;> rfl
  cases g with
  | node id =>
    refine second_nodeName_ne id ?_
    rw [← List.getElem?_take_of_lt (j := 6) (by decide)]
    exact congrArg (fun cs => cs[1]?) hstart
  | entity e part => cases e <;> simp [name, Entity.name, tableName, arrayName] at hstart
  | reversal i => simp [name, reversalName] at hstart

end SolverScript
