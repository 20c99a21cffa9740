import SolverScript.Script.SortExpr

/-!
# Terms of the target language

Terms are built as data and written out last. A node of the symbolic program has a constructor of
its own, so that an occurrence of a node is never confused with a name that the user chose. A
construct may be applied to no operands; it is then written with the blank that would precede them,
which the target language ignores.

## Main definitions

* `Term` - the terms, with `Term.render`
* `Term.apply` - a named function applied to operands
* `Term.int`, `Term.fraction` - numbers, with a negation around the negative ones
* `nodeName` - the symbol of a node
-/

namespace SolverScript

/-- The symbol of the node with a given identity. Two identities stand for the truth values. -/
def nodeName (id : Int) : String :=
  if id = -1 then "true" else if id = -2 then "false" else "s" ++ Numeral.decimal id

/-- A term. -/
inductive Term where
  /-- A symbol, or a text that is passed on as it stands. -/
  | symbol (text : String)
  /-- The symbol of a node. -/
  | node (id : Int)
  /-- An integer in base ten, a negative one with a bare minus sign. -/
  | numeral (value : Int)
  /-- A natural number written as a decimal. -/
  | decimal (value : Nat)
  /-- A bit-vector with one digit for each bit. -/
  | binary (bits value : Nat)
  /-- A bit-vector with one digit for four bits. -/
  | hexadecimal (digits value : Nat)
  /-- A string literal, by its characters. -/
  | quoted (characters : List Char)
  /-- A function with numeric indices. -/
  | indexed (name : String) (indices : List Int)
  /-- A constructor with the sort of its result. -/
  | ascribed (name : String) (sort : SortExpr)
  /-- The test for a constructor, which some solvers want with its signature. -/
  | tester (constructor : String) (signature : Option (List SortExpr × SortExpr))
  /-- A function applied to operands. -/
  | app (function : Term) (operands : List Term)
  /-- Names for terms; the terms are outside the scope of the names. -/
  | bind (names : List String) (values : List Term) (body : Term)
  /-- A universally quantified term. -/
  | forAll (binders : List (String × SortExpr)) (body : Term)
  /-- A term with attributes, each a keyword and a quoted value. -/
  | attributed (body : Term) (attributes : List (String × String))
  /-- Terms side by side without parentheses of their own. -/
  | adjacent (terms : List Term)
  deriving Repr, Inhabited

namespace Term

/-- How a character appears between double quotes: a quote is doubled, other printable characters
except the backslash stand for themselves, and the rest are escaped by their code points. -/
def quoteChar (c : Char) : String :=
  if c = '"' then "\"\""
  else if 0x20 ≤ c.toNat ∧ c.toNat < 0x7F ∧ c ≠ '\\' then c.toString
  else "\\u\x7b" ++ Numeral.hexadecimal c.toNat ++ "\x7d"

/-- A string literal. -/
def quote (characters : List Char) : String :=
  "\"" ++ joined "" (characters.map quoteChar) ++ "\""

/-- A value of an attribute cannot contain the bar that ends it, nor a backslash. -/
def sanitizeChar : Char → String
  | '|' => "_bar_"
  | '\\' => "_backslash_"
  | c => c.toString

/-- One attribute: its keyword and its value between bars. -/
def renderAttribute : String × String → String
  | (keyword, value) => keyword ++ " |" ++ joined "" (value.toList.map sanitizeChar) ++ "|"

/-- A bound variable with its sort. -/
def renderBinder : String × SortExpr → String
  | (name, sort) => "(" ++ name ++ " " ++ sort.render ++ ")"

/-- Pairs of a name and the text that it stands for. -/
def renderBindings (names : List String) (texts : List String) : String :=
  joined " " (names.zipWith (fun name text => "(" ++ name ++ " " ++ text ++ ")") texts)

mutual

/-- The text of a term. -/
def render : Term → String
  | symbol text => text
  | node id => nodeName id
  | numeral value => Numeral.decimal value
  | decimal value => Nat.repr value ++ ".0"
  | binary bits value => "#b" ++ Numeral.padded 2 bits value
  | hexadecimal digits value => "#x" ++ Numeral.padded 16 digits value
  | quoted characters => quote characters
  | indexed name indices =>
    "(_ " ++ name ++ " " ++ joined " " (indices.map Numeral.decimal) ++ ")"
  | ascribed name sort => "(as " ++ name ++ " " ++ sort.render ++ ")"
  | tester constructor none => "(_ is " ++ constructor ++ ")"
  | tester constructor (some (arguments, result)) =>
    "(_ is (" ++ constructor ++ " (" ++ joined " " (arguments.map SortExpr.render) ++ ") " ++
      result.render ++ "))"
  | app function operands =>
    "(" ++ joined " " (render function :: renderAll operands) ++ ")"
  | bind names values body =>
    "(let (" ++ renderBindings names (renderAll values) ++ ") " ++ render body ++ ")"
  | forAll binders body =>
    "(forall (" ++ joined " " (binders.map renderBinder) ++ ") " ++ render body ++ ")"
  | attributed body attributes =>
    "(! " ++ render body ++ " " ++ joined " " (attributes.map renderAttribute) ++ ")"
  | adjacent terms => joined " " (renderAll terms)

/-- The texts of several terms. -/
def renderAll : List Term → List String
  | [] => []
  | t :: ts => render t :: renderAll ts

end

/-- A function applied to operands. Without operands the blank before them remains. -/
def applyTo (function : Term) : List Term → Term
  | [] => .app function [.adjacent []]
  | operands => .app function operands

theorem applyTo_of_ne_nil {function : Term} {operands : List Term} (h : operands ≠ []) :
    applyTo function operands = .app function operands := by
  cases operands with
  | nil => exact absurd rfl h
  | cons => rfl

/-- A named function applied to operands. -/
def apply (name : String) (operands : List Term) : Term :=
  applyTo (.symbol name) operands

/-- Terms in the place of a single one. -/
def sideBySide : List Term → Term
  | [term] => term
  | terms => .adjacent terms

/-- A truth value. -/
def ofBool (value : Bool) : Term := .symbol (if value then "true" else "false")

/-- The negation of a formula. -/
def negation (t : Term) : Term := .app (.symbol "not") [t]

/-- An integer; a negative one is the negation of a numeral. -/
def int (value : Int) : Term :=
  if value < 0 then .app (.symbol "-") [.numeral (-value)] else .numeral value

/-- A quotient of decimals; a negative one is the negation of a quotient. -/
def fraction (value : Rat) : Term :=
  let magnitude := .app (.symbol "/") [.decimal value.num.natAbs, .decimal value.den]
  if value.num < 0 then .app (.symbol "-") [magnitude] else magnitude

/-- A formula with attributes, if there are any. -/
def withAttributes (attributes : List (String × String)) (body : Term) : Term :=
  if attributes.isEmpty then body else .attributed body attributes

end Term

end SolverScript
