import SolverScript.Kind.Basic
import SolverScript.Text.Numeral

/-!
# Display names of kinds

The names under which messages and traces speak of kinds. They differ from the sorts of the target
language (`SolverScript.Script.SortExpr`), which erase distinctions that a reader wants to see.
-/

namespace SolverScript.Kind

mutual

/-- The display name of a kind; `full` lists the constructors of enumerations. -/
def describe (full : Bool) : Kind → String
  | bool => "Bool"
  | bounded signed width => (if signed then "Int" else "Word") ++ Nat.repr width.bits
  | unbounded => "Integer"
  | real => "Real"
  | userSort sort =>
    match full, sort.constructors with
    | true, some constructors => sort.name ++ " \x7b" ++ joined ", " constructors ++ "\x7d"
    | _, _ => sort.name
  | float => "Float"
  | double => "Double"
  | floating format =>
    "FloatingPoint " ++ Nat.repr format.exponent ++ " " ++ Nat.repr format.significand
  | char => "Char"
  | string => "String"
  | list k => "[" ++ describe full k ++ "]"
  | set k => "\x7b" ++ describe full k ++ "\x7d"
  | tuple ks => "(" ++ joined ", " (describeAll full ks) ++ ")"
  | maybe k => "Maybe (" ++ describe full k ++ ")"
  | rational => "Rational"
  | either l r => "Either (" ++ describe full l ++ ") (" ++ describe full r ++ ")"

/-- The display names of several kinds. -/
def describeAll (full : Bool) : List Kind → List String
  | [] => []
  | k :: ks => describe full k :: describeAll full ks

end

/-- The short display name, as it stands in messages. -/
def name (k : Kind) : String := k.describe false

/-- The display name with the constructors of enumerations. -/
def fullName (k : Kind) : String := k.describe true

end SolverScript.Kind
