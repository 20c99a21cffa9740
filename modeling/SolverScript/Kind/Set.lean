import SolverScript.Kind.Order

/-!
# Universes and sets of kinds

The universe of a kind is the kind itself followed by the universes of its components. A problem
works with the closure of the kinds it lists under components, kept as a set: a list in increasing
order without repetitions, so that the order in which kinds were listed is forgotten.

## Main definitions

* `Kind.subkinds` - the universe of a kind, in preorder and with repetitions
* `Kind.occurs` - whether some kind of the universe has a property
* `KindSet` - sets of kinds, with `KindSet.ofList` and `KindSet.closure`
-/

namespace SolverScript

namespace Kind

mutual

/-- The kind and everything below it, a kind before its components. -/
def subkinds : Kind → List Kind
  | list k => list k :: subkinds k
  | set k => set k :: subkinds k
  | tuple ks => tuple ks :: subkindsAll ks
  | maybe k => maybe k :: subkinds k
  | either l r => either l r :: (subkinds l ++ subkinds r)
  | k => [k]

/-- The universes of several kinds, one after the other. -/
def subkindsAll : List Kind → List Kind
  | [] => []
  | k :: ks => subkinds k ++ subkindsAll ks

end

/-- Whether the kind or something below it satisfies `p`. -/
def occurs (p : Kind → Bool) (k : Kind) : Bool := k.subkinds.any p

/-- Whether values of the kind contain characters or rationals: the parts whose sort has values that
the kind does not have. -/
def containsCharOrRational (k : Kind) : Bool :=
  k.occurs fun sub => sub.isChar || sub.isRational

/-- Whether models for the kind are easier to read when they are printed flat. -/
def needsFlattening (k : Kind) : Bool := k.occurs Kind.isComposite

end Kind

/-- A set of kinds, listed in increasing order. -/
structure KindSet where
  toList : List Kind
  deriving Repr

namespace KindSet

/-- Places a kind into an increasing list, unless it is there already. -/
def place (k : Kind) : List Kind → List Kind
  | [] => [k]
  | m :: ms =>
    match k.cmp m with
    | .lt => k :: m :: ms
    | .eq => m :: ms
    | .gt => m :: place k ms

/-- The set of the kinds in a list. -/
def ofList (kinds : List Kind) : KindSet :=
  ⟨kinds.foldl (fun members k => place k members) []⟩

/-- The least set that contains the given kinds and every component of a member. -/
def closure (kinds : List Kind) : KindSet :=
  ofList (kinds.flatMap Kind.subkinds)

/-- The number of members. -/
def size (s : KindSet) : Nat := s.toList.length

end KindSet

end SolverScript
