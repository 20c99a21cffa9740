import SolverScript.Script.Command
import SolverScript.Script.Invariant
import SolverScript.Solver.Config

/-!
# Declarations

The commands that introduce sorts, data types and symbols. A symbol without definition is declared
together with the invariants of its kind; for a function they hold of its results at all arguments.

## Main definitions

* `Declaration.sort`, `Declaration.tuple` - sorts and tuples
* `Declaration.signature` - the sorts of a signature
* `Declaration.defined`, `Declaration.constant` - nodes that stand for a term or a value
* `Declaration.symbol` - symbols without definition
-/

namespace SolverScript.Declaration

/-- The commands that introduce a user sort. The rounding modes are known to solvers. -/
def userSort (s : UserSort) : List Command :=
  if s.isRoundingMode then []
  else
    match s.constructors with
    | none => [.declareSort s.name]
    | some constructors =>
      [.declareEnumeration s.name constructors, .defineConstructorIndex s.name constructors]

/-- The commands that introduce a kind that is a user sort. -/
def sort (k : Kind) : Except Failure (List Command) :=
  match k.userSort? with
  | some s => .ok (userSort s)
  | none => .error (.sortExpected k)

/-- The command that introduces tuples with a given number of components. There are none with a
single component. -/
def tuple (arity : Nat) : Except Failure Command :=
  if arity = 1 then .error .oneTuple else .ok (.declareTuple arity)

/-- The kinds of the arguments and of the result of a signature. -/
def splitSignature? : List Kind → Option (List Kind × Kind)
  | [] => none
  | k :: ks => some ((k :: ks).dropLast, (k :: ks).getLastD k)

/-- The sorts of a signature: those of the arguments between parentheses, then that of the result.
-/
def signature (kinds : List Kind) : Except Failure String :=
  match splitSignature? kinds with
  | some (arguments, result) =>
    .ok ("(" ++ joined " " (arguments.map fun k => k.sort.render) ++ ") " ++ result.sort.render)
  | none => .error .emptySignature

/-- The commands that make a node stand for a term. A solver without definitions gets a declaration
and an equation. -/
def defined (c : Capabilities) (n : Node) (value : Term) (remark : String) : List Command :=
  if c.defineFun then [.defineFun n.name n.kind.sort value remark]
  else
    [.declareFun n.name [] n.kind.sort remark, .assert (.app (.symbol "=") [n.term, value])]

/-- The commands that make a node stand for a value. The truth values are never defined. -/
def constant (config : Config) (c : Constant) : Except Failure (List Command) :=
  if c.node.isTrue || c.node.isFalse then .ok []
  else do
    return defined config.capabilities c.node (← c.value.term config.roundingMode) ""

/-- The invariants of a constant as commands. -/
def constantInvariants (name : String) (result : Kind) : List Command :=
  match result.invariants (.symbol name) with
  | [] => []
  | [formula] => [.assert formula]
  | formulas => [.assertAll formulas]

/-- The invariants of a function's results as commands. -/
def resultInvariants (name : String) (arguments : List Kind) (result : Kind) : List Command :=
  [.assertResults name (arguments.map Kind.sort) (result.invariants (.symbol resultName))]

/-- The commands that introduce a symbol without definition. -/
def symbol (name : String) (kinds : List Kind) (remark : String) :
    Except Failure (List Command) :=
  match splitSignature? kinds with
  | none => .error (.emptySignatureOf name)
  | some (arguments, result) =>
    let declaration := Command.declareFun name (arguments.map Kind.sort) result.sort remark
    .ok (declaration ::
      (if !result.containsCharOrRational then []
        else if arguments.isEmpty then constantInvariants name result
        else resultInvariants name arguments result))

/-- The command that introduces the reversal of a kind. -/
def reversal (k : Kind) (name : String) : Except Failure Command :=
  match Reversible.ofKind? k with
  | some what => .ok (.defineReversal what name)
  | none => .error (.reversalOfKind k name)

end SolverScript.Declaration
