import SolverScript.Kind.Basic
import SolverScript.Text.Numeral

/-!
# Sorts of the target language

A kind is declared by a sort expression. Several kinds share one: the sign of a bit-vector, the
difference between a character and a string, and the names of the two common float formats are
erased.

## Main definitions

* `SortExpr` - sort expressions, with `SortExpr.render`
* `Kind.sort` - the sort that values of a kind are declared with
-/

namespace SolverScript

/-- A sort expression: a name, a name with numeric indices, or a name applied to sorts. -/
inductive SortExpr where
  | named (name : String)
  | indexed (name : String) (indices : List Nat)
  | applied (name : String) (arguments : List SortExpr)
  deriving Repr, Inhabited

namespace SortExpr

/-- The indices in base ten, a blank before each. -/
def renderIndices : List Nat → String
  | [] => ""
  | n :: rest => " " ++ Nat.repr n ++ renderIndices rest

mutual

/-- The text of a sort expression. -/
def render : SortExpr → String
  | named name => name
  | indexed name indices => "(_ " ++ name ++ renderIndices indices ++ ")"
  | applied name arguments => "(" ++ name ++ renderAll arguments ++ ")"

/-- The texts of the arguments, a blank before each. -/
def renderAll : List SortExpr → String
  | [] => ""
  | s :: rest => " " ++ render s ++ renderAll rest

end

end SortExpr

namespace FloatFormat

/-- The sort of the floats of a format. -/
def sort (format : FloatFormat) : SortExpr :=
  .indexed "FloatingPoint" [format.exponent, format.significand]

end FloatFormat

namespace Kind

mutual

/-- The sort of the values of a kind. -/
def sort : Kind → SortExpr
  | bool => .named "Bool"
  | bounded _ width => .indexed "BitVec" [width.bits]
  | unbounded => .named "Int"
  | real => .named "Real"
  | userSort s => .named s.name
  | float => FloatFormat.single.sort
  | double => FloatFormat.double.sort
  | floating format => format.sort
  | char => .named "String"
  | string => .named "String"
  | list k => .applied "Seq" [sort k]
  | set k => .applied "Array" [sort k, .named "Bool"]
  | tuple ks =>
    match sortAll ks with
    | [] => .named "SBVTuple0"
    | components => .applied ("SBVTuple" ++ Nat.repr components.length) components
  | maybe k => .applied "SBVMaybe" [sort k]
  | rational => .named "SBVRational"
  | either l r => .applied "SBVEither" [sort l, sort r]

/-- The sorts of several kinds. -/
def sortAll : List Kind → List SortExpr
  | [] => []
  | k :: ks => sort k :: sortAll ks

end

end Kind

/-- The sort of the arrays that a problem declares. -/
def SortExpr.array (domain range : Kind) : SortExpr :=
  .applied "Array" [domain.sort, range.sort]

end SolverScript
