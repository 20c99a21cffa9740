import SolverScript.Value.Literal

/-!
# Regular expressions

Regular expressions over characters, as an operation on strings carries them. Bounds of ranges are
numbers until the expression is written out; only then are they required to be code points.

## Main definitions

* `RegExp` - the expressions
* `RegExp.term` - the term that denotes the language of an expression
-/

namespace SolverScript

/-- A regular expression. -/
inductive RegExp where
  | literal (text : String)
  | all
  | allChar
  | none
  | range (low high : Nat)
  | concat (parts : List RegExp)
  | star (inner : RegExp)
  | plus (inner : RegExp)
  | opt (inner : RegExp)
  | complement (inner : RegExp)
  | diff (left right : RegExp)
  | loop (low high : Nat) (inner : RegExp)
  | power (count : Nat) (inner : RegExp)
  | union (parts : List RegExp)
  | inter (left right : RegExp)
  deriving Repr

namespace RegExp

/-- The position of an expression's shape among the shapes of expressions. -/
def tag : RegExp → Nat
  | literal _ => 0
  | all => 1
  | allChar => 2
  | none => 3
  | range .. => 4
  | concat _ => 5
  | star _ => 6
  | plus _ => 7
  | opt _ => 8
  | complement _ => 9
  | diff .. => 10
  | loop .. => 11
  | power .. => 12
  | union _ => 13
  | inter .. => 14

/-- The immediate parts of an expression. -/
def children : RegExp → List RegExp
  | concat parts | union parts => parts
  | star r | plus r | opt r | complement r | loop _ _ r | power _ r => [r]
  | diff l r | inter l r => [l, r]
  | _ => []

/-- The literal of a single character, given by its code point. -/
def boundTerm (codePoint : Nat) : Except Failure Term := do
  (← Value.ofCodePoint codePoint).term .nearestTiesToEven

/-- A concatenation; the empty one is the empty word. -/
def concatTerm : List Term → Term
  | [] => .app (.symbol "str.to_re") [.quoted []]
  | [t] => t
  | ts => .app (.symbol "re.++") ts

/-- A union; the empty one has no words. -/
def unionTerm : List Term → Term
  | [] => .symbol "re.nostr"
  | [t] => t
  | ts => .app (.symbol "re.union") ts

mutual

/-- The term that denotes the language of an expression. -/
def term : RegExp → Except Failure Term
  | literal text => do return .app (.symbol "str.to_re") [← quotedText text]
  | all => .ok (.symbol "re.all")
  | allChar => .ok (.symbol "re.allchar")
  | none => .ok (.symbol "re.nostr")
  | range low high => do
    let l ← boundTerm low
    let h ← boundTerm high
    return .app (.symbol "re.range") [l, h]
  | concat parts => do return concatTerm (← terms parts)
  | star inner => do return .app (.symbol "re.*") [← term inner]
  | plus inner => do return .app (.symbol "re.+") [← term inner]
  | opt inner => do return .app (.symbol "re.opt") [← term inner]
  | complement inner => do return .app (.symbol "re.comp") [← term inner]
  | diff l r => do
    let lt ← term l
    let rt ← term r
    return .app (.symbol "re.diff") [lt, rt]
  | loop low high inner => do
    return .app (.indexed "re.loop" [low, high]) [← term inner]
  | power count inner => do return .app (.indexed "re.^" [count]) [← term inner]
  | union parts => do return unionTerm (← terms parts)
  | inter l r => do
    let lt ← term l
    let rt ← term r
    return .app (.symbol "re.inter") [lt, rt]

/-- The terms of several expressions. -/
def terms : List RegExp → Except Failure (List Term)
  | [] => .ok []
  | r :: rs => do
    let t ← term r
    return t :: (← terms rs)

end

end RegExp

end SolverScript
