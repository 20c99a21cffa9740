import SolverScript.Kind.Basic

/-!
# The order of kinds

Kinds are compared by shape first and then by their data: an unsigned bit-vector comes before a
signed one of any width, user sorts go by name before they go by constructors, shorter tuples come
before longer ones. Two kinds compare as equal exactly when they are the same, which is why this
order also serves as the equality test.

## Main definitions

* `Kind.cmp` - the comparison
* `UserSort.cmp` - the comparison of user sorts by name, enumeration and constructors
-/

namespace SolverScript

/-- Uninterpreted sorts come before enumerations of the same name. -/
def UserSort.cmp (a b : UserSort) : Ordering :=
  (compare a.name b.name).then
    (match a.constructors, b.constructors with
      | none, none => .eq
      | none, some _ => .lt
      | some _, none => .gt
      | some cs, some ds => List.compareLex compare cs ds)

/-- Formats go by exponent before they go by significand. -/
def FloatFormat.cmp (a b : FloatFormat) : Ordering :=
  (compare a.exponent b.exponent).then (compare a.significand b.significand)

namespace Kind

mutual

/-- The total order of kinds. -/
def cmp : Kind → Kind → Ordering
  | bounded s w, bounded s' w' => (compare s s').then (compare w.bits w'.bits)
  | userSort s, userSort s' => s.cmp s'
  | floating f, floating f' => f.cmp f'
  | list k, list k' => cmp k k'
  | set k, set k' => cmp k k'
  | tuple ks, tuple ks' => (compare ks.length ks'.length).then (cmpAll ks ks')
  | maybe k, maybe k' => cmp k k'
  | either l r, either l' r' => (cmp l l').then (cmp r r')
  | k, k' => compare k.tag k'.tag

/-- Componentwise comparison; the first difference decides. -/
def cmpAll : List Kind → List Kind → Ordering
  | k :: ks, k' :: ks' => (cmp k k').then (cmpAll ks ks')
  | _, _ => .eq

end

instance : Ord Kind := ⟨cmp⟩

instance : BEq Kind := ⟨fun k k' => cmp k k' == .eq⟩

end Kind

end SolverScript
