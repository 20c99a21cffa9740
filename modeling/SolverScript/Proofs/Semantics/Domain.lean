import SolverScript.Proofs.Semantics.StringLiterals
import SolverScript.Proofs.Semantics.Theory

/-!
# Domains of values

The sorts of characters, lists, sets, tuples, optionals and sums have fixed meanings, given here as
types. A domain says what a sort is made of; several sorts that mean the same, such as those of
characters and of strings, have one domain. The sorts of reals, floats and user sorts are basic:
their values come from a type that is left open. Sets are functions to truth values on all values of
their element sort, so a complement is a set like any other. A rational is any pair of integers.

## Main definitions

* `Domain`, `Domain.Model` - domains, and the type of their values
* `Datum` - a value together with its domain
* `SortExpr.domain`, `Kind.domain` - the domain of a sort and of a kind

## Main results

* `Kind.domain_sort` - a kind and its sort have the same domain
-/

namespace SolverScript

/-- What the values of a sort are. -/
inductive Domain where
  | bool
  | int
  | bits (width : Nat)
  | text
  | rational
  | list (element : Domain)
  | set (element : Domain)
  | tuple (components : List Domain)
  | maybe (element : Domain)
  | either (left right : Domain)
  /-- The values of a sort that is left open. -/
  | basic (sort : SortExpr)

namespace Domain

mutual

/-- The values of a domain; `C` gives those of the basic sorts. -/
def Model (C : SortExpr → Type) : Domain → Type
  | bool => Bool
  | int => Int
  | bits width => BitVec width
  | text => List CodePoint
  | rational => Int × Int
  | list d => List (Model C d)
  | set d => Model C d → Bool
  | tuple ds => Models C ds
  | maybe d => Option (Model C d)
  | either l r => Model C l ⊕ Model C r
  | basic sort => C sort

/-- The tuples of values of some domains. -/
def Models (C : SortExpr → Type) : List Domain → Type
  | [] => Unit
  | d :: ds => Model C d × Models C ds

end

variable {C : SortExpr → Type} (c : (sort : SortExpr) → C sort)

mutual

/-- A value of a domain, made from one of each basic sort. -/
def default : (d : Domain) → d.Model C
  | bool => false
  | int => Int.ofNat 0
  | bits width => BitVec.zero width
  | text | list _ => List.nil
  | rational => (Int.ofNat 0, Int.ofNat 1)
  | set _ => fun _ => false
  | tuple ds => defaults ds
  | maybe _ => Option.none
  | either l _ => Sum.inl (default l)
  | basic sort => c sort

/-- A tuple of values of some domains. -/
def defaults : (ds : List Domain) → Models C ds
  | [] => ()
  | d :: ds => (default d, defaults ds)

end

end Domain

/-- A value together with its domain. -/
structure Datum (C : SortExpr → Type) where
  domain : Domain
  value : domain.Model C

namespace Datum

variable {C : SortExpr → Type}

/-- The element that a datum is; truth values, integers and bit-vectors are their own elements. -/
def element : Datum C → Element (Datum C)
  | ⟨.bool, b⟩ => .bool b
  | ⟨.int, n⟩ => .int n
  | ⟨.bits w, b⟩ => .bits w b
  | a => .other a

/-- The datum of an element. -/
def ofElement : Element (Datum C) → Datum C
  | .bool b => ⟨.bool, b⟩
  | .int n => ⟨.int, n⟩
  | .bits w b => ⟨.bits w, b⟩
  | .other a => a

/-- The datum of a truth value. -/
def ofBool (b : Bool) : Datum C := ⟨.bool, b⟩

theorem map_element_ofBool (bs : List Bool) :
    (bs.map ofBool).map (element (C := C)) = bs.map .bool :=
  List.map_map

@[simp] theorem ofElement_element (a : Datum C) : ofElement a.element = a := by
  obtain ⟨d, x⟩ := a
  cases d <;> rfl

theorem element_injective : Function.Injective (element (C := C)) :=
  Function.LeftInverse.injective ofElement_element

theorem mk_injective (d : Domain) : Function.Injective (mk (C := C) d) := by
  intro x y h
  cases h
  rfl

theorem map_ofElement_element (as : List (Datum C)) : (as.map element).map ofElement = as := by
  induction as with
  | nil => rfl
  | cons a as ih => rw [List.map_cons, List.map_cons, ih, ofElement_element]

open Classical in
/-- The value of a datum as one of a given domain. -/
noncomputable def as? (d : Domain) (a : Datum C) : Option (d.Model C) :=
  if h : a.domain = d then some (h ▸ a.value) else none

@[simp] theorem as?_self {d : Domain} (x : d.Model C) : as? d ⟨d, x⟩ = some x := dif_pos rfl

theorem as?_of_ne {d : Domain} {a : Datum C} (h : a.domain ≠ d) : as? d a = none := dif_neg h

/-- The values of several data as a tuple over given domains. -/
noncomputable def asTuple? : (ds : List Domain) → List (Datum C) → Option (Domain.Models C ds)
  | [], [] => some ()
  | d :: ds, a :: as => (as? d a).bind fun x => (asTuple? ds as).map fun xs => (x, xs)
  | _, _ => none

/-- A component of a tuple, by its position. -/
def component? : (ds : List Domain) → Domain.Models C ds → Nat → Option (Datum C)
  | [], _, _ => none
  | d :: _, xs, 0 => some ⟨d, Prod.fst xs⟩
  | _ :: ds, xs, i + 1 => component? ds (Prod.snd xs) i

theorem lt_length_of_component? {ds : List Domain} {xs : Domain.Models C ds} {i : Nat}
    {a : Datum C} (h : component? ds xs i = some a) : i < ds.length := by
  induction ds generalizing i with
  | nil => cases h
  | cons d ds ih =>
    cases i with
    | zero => exact Nat.succ_pos _
    | succ i => exact Nat.succ_lt_succ (ih h)

/-- The components of a tuple. -/
def components : (ds : List Domain) → Domain.Models C ds → List (Datum C)
  | [], _ => []
  | d :: ds, xs => ⟨d, Prod.fst xs⟩ :: components ds (Prod.snd xs)

theorem length_components (ds : List Domain) (xs : Domain.Models C ds) :
    (components ds xs).length = ds.length := by
  induction ds with
  | nil => rfl
  | cons d ds ih => rw [components, List.length_cons, ih, List.length_cons]

theorem asTuple?_components (ds : List Domain) (xs : Domain.Models C ds) :
    asTuple? ds (components ds xs) = some xs := by
  induction ds with
  | nil => rfl
  | cons d ds ih =>
    rw [components, asTuple?, as?_self, ih]
    rfl

end Datum

/-! ### Domains of sorts and kinds -/

mutual

/-- The domain of a sort. -/
def SortExpr.domain : SortExpr → Domain
  | named name =>
    match name with
    | "Bool" => .bool
    | "Int" => .int
    | "String" => .text
    | "SBVRational" => .rational
    | "SBVTuple0" => .tuple []
    | _ => .basic (named name)
  | indexed "BitVec" [width] => .bits width
  | indexed name indices => .basic (indexed name indices)
  | applied name arguments =>
    if name = "SBVTuple" ++ Nat.repr arguments.length then
      .tuple (SortExpr.domains arguments)
    else
      match name, SortExpr.domains arguments with
      | "Seq", [d] => .list d
      | "Array", [d, .bool] => .set d
      | "SBVMaybe", [d] => .maybe d
      | "SBVEither", [l, r] => .either l r
      | _, _ => .basic (applied name arguments)

/-- The domains of several sorts. -/
def SortExpr.domains : List SortExpr → List Domain
  | [] => []
  | s :: ss => s.domain :: SortExpr.domains ss

end

namespace Kind

mutual

/-- The domain of the values of a kind. -/
def domain : Kind → Domain
  | bool => .bool
  | bounded _ width => .bits width.bits
  | unbounded => .int
  | char | string => .text
  | rational => .rational
  | list k => .list (domain k)
  | set k => .set (domain k)
  | tuple ks => .tuple (domains ks)
  | maybe k => .maybe (domain k)
  | either l r => .either (domain l) (domain r)
  | real => .basic (sort real)
  | float => .basic (sort float)
  | double => .basic (sort double)
  | floating format => .basic format.sort
  -- A user sort that is called like a built-in sort is taken for that one.
  | userSort s => (SortExpr.named s.name).domain

/-- The domains of several kinds. -/
def domains : List Kind → List Domain
  | [] => []
  | k :: ks => domain k :: domains ks

end

theorem length_domains (ks : List Kind) : (domains ks).length = ks.length := by
  induction ks with
  | nil => rfl
  | cons k ks ih => rw [domains, List.length_cons, ih, List.length_cons]

mutual

/-- A kind and its sort have the same domain. -/
theorem domain_sort (k : Kind) : k.sort.domain = k.domain := by
  cases k with
  | list k => rw [sort, domain, ← domain_sort k]; rfl
  | set k => rw [sort, domain, ← domain_sort k]; rfl
  | maybe k => rw [sort, domain, ← domain_sort k]; rfl
  | either l r => rw [sort, domain, ← domain_sort l, ← domain_sort r]; rfl
  | tuple ks =>
    cases ks with
    | nil => rfl
    | cons k ks =>
      rw [domain, ← domains_sortAll (k :: ks)]
      exact if_pos rfl
  | _ => rfl

theorem domains_sortAll (ks : List Kind) : SortExpr.domains (sortAll ks) = domains ks := by
  cases ks with
  | nil => rfl
  | cons k ks => rw [sortAll, SortExpr.domains, domains, domain_sort, domains_sortAll]

end

end Kind

/-! ### Elements of sorts -/

/-- Whether the values of a domain are truth values, integers or bit-vectors. -/
def Domain.isBuiltIn : Domain → Bool
  | bool | int | bits _ => true
  | _ => false

theorem SortExpr.isBuiltIn_domain {s : SortExpr} (h : s.isBuiltIn = false) :
    s.domain.isBuiltIn = false := by
  unfold domain
  split
  · next name =>
    split
    · exact absurd h (by decide)
    · exact absurd h (by decide)
    all_goals rfl
  · exact absurd h (by simp [isBuiltIn])
  · rfl
  · split
    · rfl
    · split <;> rfl

/-- The sort of a kind is built in if its values are. -/
theorem Kind.isBuiltIn_sort (k : Kind) : k.sort.isBuiltIn = k.domain.isBuiltIn := by
  cases k with
  | userSort s =>
    by_cases hname : s.name = "Bool" ∨ s.name = "Int"
    · rcases hname with h | h <;> rw [sort, domain, h] <;> rfl
    · have hother : (SortExpr.named s.name).isBuiltIn = false := by
        simpa [SortExpr.isBuiltIn] using hname
      exact hother.trans (SortExpr.isBuiltIn_domain hother).symm
  | tuple ks => cases ks <;> rfl
  | _ => rfl

namespace Datum

variable {C : SortExpr → Type}

theorem element_eq_other {a : Datum C} (h : a.domain.isBuiltIn = false) : a.element = .other a := by
  obtain ⟨d, x⟩ := a
  cases d with
  | bool | int | bits => cases h
  | _ => rfl

end Datum

/-! ### Theories over domains -/

variable {C : SortExpr → Type} {T : Theory (Datum C)}

/-- Whether the elements of the sorts that are not built in are the data of their domains. -/
def Theory.HasDomains (T : Theory (Datum C)) : Prop :=
  ∀ s a, T.carrier s a ↔ a.domain = s.domain

namespace Theory.HasDomains

theorem exists_datum (hT : T.HasDomains) {s : SortExpr} {e : Element (Datum C)}
    (h : T.Contains s e) : ∃ a : Datum C, a.domain = s.domain ∧ e = a.element := by
  cases h with
  | bool b => exact ⟨⟨.bool, b⟩, rfl, rfl⟩
  | int n => exact ⟨⟨.int, n⟩, rfl, rfl⟩
  | @bits w b => exact ⟨⟨.bits w, b⟩, rfl, rfl⟩
  | @other s a hs ha =>
    have hdomain := (hT s a).mp ha
    have hother : a.domain.isBuiltIn = false := hdomain ▸ SortExpr.isBuiltIn_domain hs
    exact ⟨a, hdomain, (Datum.element_eq_other hother).symm⟩

theorem contains (hT : T.HasDomains) (k : Kind) (x : k.domain.Model C) :
    T.Contains k.sort (Datum.element ⟨k.domain, x⟩) := by
  by_cases hsort : k.sort.isBuiltIn = false
  · have hother : k.domain.isBuiltIn = false := k.isBuiltIn_sort ▸ hsort
    rw [Datum.element_eq_other hother]
    exact .other hsort ((hT _ _).mpr k.domain_sort.symm)
  · cases k with
    | bool => exact .bool x
    | unbounded => exact .int x
    | bounded => exact .bits x
    | userSort s =>
      obtain ⟨name, constructors⟩ := s
      have hname : name = "Bool" ∨ name = "Int" := by
        simpa only [Kind.sort, SortExpr.isBuiltIn, Bool.not_eq_false, Bool.or_eq_true,
          beq_iff_eq] using hsort
      rcases hname with rfl | rfl
      · exact .bool x
      · exact .int x
    | tuple ks => cases ks <;> exact absurd rfl hsort
    | _ => exact absurd rfl hsort

/-- The elements of the sort of a kind are the values of the kind's domain. -/
theorem contains_iff (hT : T.HasDomains) {k : Kind} {e : Element (Datum C)} :
    T.Contains k.sort e ↔ ∃ x : k.domain.Model C, e = Datum.element ⟨k.domain, x⟩ := by
  constructor
  · intro h
    obtain ⟨⟨d, x⟩, hdomain, rfl⟩ := hT.exists_datum h
    obtain rfl : d = k.domain := hdomain.trans k.domain_sort
    exact ⟨x, rfl⟩
  · rintro ⟨x, rfl⟩
    exact hT.contains k x

end Theory.HasDomains

end SolverScript
