import SolverScript.Script.Declaration
import SolverScript.Encoding.Scope

/-!
# Tables and arrays

Tables and arrays are set up by equations. An equation about constants only is stated as soon as the
symbol is declared. The others wait: those of tables until the universal nodes are bound, which
then are arguments of the table; those of arrays until the nodes they mention are defined. Under
quantifiers an array cannot wait, because its symbol takes no arguments.

## Main definitions

* `TableSetup` - a table with its equations, and whether they are about constants only
* `TableSetup.constantCommands`, `TableSetup.deferredDeclaration` - the commands of tables
* `ArraySetup` - the commands of an array, in three groups
* `ArraySetup.ofArray` - the set-up of an array
-/

namespace SolverScript

/-! ### Initializers -/

namespace Initializer

/-- The symbol of all initializers of an entity together. -/
def name (entity : String) : String := entity ++ "_initializer"

/-- The symbol of the initializer with a given number. -/
def partName (entity : String) (i : Nat) : String := name entity ++ "_" ++ Nat.repr i

/-- The definition of one initializer. -/
def part (entity : String) (i : Nat) (equation : Term) : Command :=
  .defineFun (partName entity i) Kind.bool.sort equation ""

/-- The definitions of initializers, numbered from `i` on. -/
def parts (entity : String) (i : Nat) : List Term → List Command
  | [] => []
  | e :: es => part entity i e :: parts entity (i + 1) es

/-- The commands that assert all initializers of an entity. -/
def setup (entity : String) (count : Nat) : List Command :=
  let whole := fun value remark => Command.defineFun (name entity) Kind.bool.sort value remark
  let required := Command.assert (.symbol (name entity))
  match count with
  | 0 => [whole (Term.ofBool true) "no initialization needed"]
  | 1 => [whole (.symbol (partName entity 0)) "", required]
  | n =>
    [whole (Term.apply "and" ((List.range n).map fun i => .symbol (partName entity i))) "",
      required]

end Initializer

/-- A table with its equations. -/
structure TableSetup where
  table : Table
  isConstant : Bool
  equations : List Term
  deriving Repr

namespace TableSetup

/-- The index literals of a table's elements, from a given position on. -/
def indexed (config : Config) (table : Table) (i : Nat) :
    List Node → Except Failure (List (Term × Node))
  | [] => .ok []
  | n :: ns => do
    let index ← (← Value.constant table.indexKind i).term config.roundingMode
    return (index, n) :: (← indexed config table (i + 1) ns)

/-- The equations of a table. Those of constant elements come first. If there are others, the table
takes the universal nodes as arguments in all its equations. -/
def ofTable (config : Config) (skolems : SkolemMap) (universals : List Node)
    (constants : Constants) (table : Table) : Except Failure TableSetup := do
  let elements ← indexed config table 0 table.elements
  let (fixed, deferred) := elements.partition fun (_, n) => constants.fixes n
  let head : TableHead := ⟨tableName table.id, if deferred.isEmpty then [] else universals⟩
  let equation := fun ((index, n) : Term × Node) =>
    Term.app (.symbol "=") [head.at index, skolems.nodeTerm n]
  return ⟨table, deferred.isEmpty, (fixed ++ deferred).map equation⟩

/-- The declaration of a table that takes only its index. -/
def declaration (table : Table) : Command :=
  .declareFun (tableName table.id) [table.indexKind.sort] table.resultKind.sort ""

/-- The definitions that set a table up. -/
def initializers (t : TableSetup) : List Command :=
  let name := tableName t.table.id
  Initializer.parts name 0 t.equations ++ Initializer.setup name t.equations.length

/-- The commands of a table whose elements are constants. -/
def constantCommands (t : TableSetup) : List Command := declaration t.table :: t.initializers

/-- The declaration of a table that takes the universal nodes before its index. -/
def deferredDeclaration (universals : List Node) (table : Table) : Command :=
  .declareFun (tableName table.id)
    (universals.map (fun n => n.kind.sort) ++ [table.indexKind.sort]) table.resultKind.sort ""

end TableSetup

/-- The commands of an array: its declaration with what is known about it at once, the definitions
that wait for other nodes, and the assertions that conclude its set-up. -/
structure ArraySetup where
  array : ArrayDatum
  isConstant : Bool
  declarations : List Command
  deferred : List Command
  setup : List Command

namespace ArraySetup

/-- The nodes that decide whether the set-up of an array has to wait. -/
def dependencies : ArrayContext → List Node
  | .free initializer => initializer.toList
  | .mutate _ index value => [index, value]
  | .merge condition _ _ => [condition]

/-- The term of a node in the set-up of an array, unless the set-up would have to wait under
quantifiers. -/
def nodeTerm (isTopLevel : Bool) (constants : Constants) (skolems : SkolemMap) (n : Node) :
    Except Failure Term :=
  if isTopLevel || constants.fixes n then .ok (skolems.nodeTerm n)
  else .error .deferredArrayUnderQuantifier

/-- The declaration of an array. An initialised one is defined as a constant function, for which the
value of a constant is written out. -/
def declaration (config : Config) (constants : Constants)
    (term : Node → Except Failure Term) (a : ArrayDatum) : Except Failure Command :=
  let sort := SortExpr.array a.domain a.range
  let plain := Command.declareFun (arrayName a.id) [] sort ""
  match a.context with
  | .free (some initializer) => do
    let value ← match constants.value? initializer with
      | some v => v.term config.roundingMode
      | none => term initializer
    return .defineFun (arrayName a.id) sort (.app (.ascribed "const" sort) [value]) ""
  | .free none => if a.range.isChar then .error .freeArrayOfChars else .ok plain
  | _ => .ok plain

/-- The equation between an array and the arrays that it comes from. -/
def equation? (term : Node → Except Failure Term) (a : ArrayDatum) :
    Except Failure (Option Term) :=
  let equal := fun t => some (Term.app (.symbol "=") [.symbol (arrayName a.id), t])
  match a.context with
  | .free _ => .ok none
  | .mutate base index value => do
    let i ← term index
    let v ← term value
    return equal (.app (.symbol "store") [.symbol (arrayName base), i, v])
  | .merge condition thenArray elseArray => do
    let c ← term condition
    return equal
      (.app (.symbol "ite") [c, .symbol (arrayName thenArray), .symbol (arrayName elseArray)])

/-- The set-up of an array. -/
def ofArray (config : Config) (isQuantified : Bool) (constants : Constants)
    (skolems : SkolemMap) (a : ArrayDatum) : Except Failure ArraySetup := do
  let areFixed := (dependencies a.context).all constants.fixes
  let term := nodeTerm (!isQuantified || areFixed) constants skolems
  let declared ← declaration config constants term a
  let name := arrayName a.id
  match ← equation? term a with
  | none =>
    return ⟨a, true, [declared], [], if isQuantified then [] else Initializer.setup name 0⟩
  | some equation =>
    let initializer := Initializer.part name 0 equation
    let setup := Initializer.setup name 1
    return if areFixed then ⟨a, true, [declared, initializer], [], setup⟩
      else ⟨a, false, [declared], [initializer], setup⟩

end ArraySetup

end SolverScript
