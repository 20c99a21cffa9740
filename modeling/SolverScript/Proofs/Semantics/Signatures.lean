import SolverScript.Proofs.Semantics.WellSorted

/-!
# Sorts of applications and local definitions

A declared function is applied to arguments of the sorts in its signature. A variable that is bound
around the application hides the function of its name, as in the target language, where functions
and variables share their names. A local definition has the sort of its value inside.

## Main definitions

* `Signatures` - the declared functions
* `Term.sortWith?` - the sort of a term in which declared functions are applied
* `Term.definesNothing` - terms without local definitions

## Main results

* `Term.sortWith?_of_sort?` - a term keeps its sort where functions are declared
* `Term.sortWith?_of_definesNothing` - without declared functions and local definitions there are no
  further sorts
-/

namespace SolverScript

/-- The sorts of the arguments and of the results of declared functions. -/
abbrev Signatures := String → Option (List SortExpr × SortExpr)

namespace Signatures

/-- A single function. -/
def single (name : String) (domain : List SortExpr) (range : SortExpr) : Signatures := fun other =>
  if other = name then some (domain, range) else none

/-- The sort of an application of a declared function, if no variable hides it. -/
def result? (Δ : Signatures) (Γ : Sorting) (name : String) (ss : List SortExpr) :
    Option SortExpr :=
  match Γ name, Δ name with
  | none, some (domain, range) => if ss = domain then some range else none
  | _, _ => none

theorem result?_of_hidden {Γ : Sorting} {name : String} (h : Γ name ≠ none) (Δ : Signatures)
    (ss : List SortExpr) : Δ.result? Γ name ss = none := by
  obtain ⟨s, hs⟩ := Option.ne_none_iff_exists'.mp h
  rw [result?, hs]

theorem result?_single {Γ : Sorting} {name : String} (h : Γ name = none) (domain : List SortExpr)
    (range : SortExpr) : (single name domain range).result? Γ name domain = some range := by
  simp [result?, h, single]

end Signatures

namespace Term

mutual

/-- The sort of a term in which declared functions are applied and names are defined locally. -/
def sortWith? (Δ : Signatures) (Γ : Sorting) : Term → Option SortExpr
  | symbol text => (Sorting.result? text []).or (Γ text)
  | node id => (Sorting.result? (nodeName id) []).or (Γ (nodeName id))
  | numeral value => if 0 ≤ value then some Kind.unbounded.sort else none
  | quoted _ => some Kind.string.sort
  | app (symbol name) operands => do
    let ss ← sortsWith? Δ Γ operands
    (Sorting.result? name ss).or (Δ.result? Γ name ss)
  | app (tester constructor (some (parameters, whole))) operands => do
    let ss ← sortsWith? Δ Γ operands
    if ss = [whole] ∧ Sorting.parameters? constructor whole = some parameters then
      some Kind.bool.sort
    else none
  | bind names values body => do
    sortWith? Δ (Γ.bindAll (names.zip (← sortsWith? Δ Γ values))) body
  | forAll binders body => do
    if (← sortWith? Δ (Γ.bindAll binders) body) = Kind.bool.sort then some Kind.bool.sort else none
  | _ => none

/-- The sorts of several terms in which declared functions are applied. -/
def sortsWith? (Δ : Signatures) (Γ : Sorting) : List Term → Option (List SortExpr)
  | [] => some []
  | t :: ts => do
    let s ← sortWith? Δ Γ t
    return s :: (← sortsWith? Δ Γ ts)

end

variable {Δ : Signatures}

theorem sortWith?_forAll_iff {Γ : Sorting} {binders : List (String × SortExpr)} {body : Term} :
    sortWith? Δ Γ (.forAll binders body) = some Kind.bool.sort ↔
      sortWith? Δ (Γ.bindAll binders) body = some Kind.bool.sort := by
  rw [sortWith?, Option.bind_eq_bind, Option.bind_eq_some_iff]
  simp

/-- A local definition needs a value with a sort, which its name has inside. -/
theorem sortWith?_bind_iff {Γ : Sorting} {name : String} {value body : Term} {s : SortExpr} :
    sortWith? Δ Γ (.bind [name] [value] body) = some s ↔
      ∃ r, sortWith? Δ Γ value = some r ∧ sortWith? Δ (Γ.bind name r) body = some s := by
  rw [sortWith?, sortsWith?, sortsWith?, Option.bind_eq_bind]
  simp only [Option.bind_eq_bind, Option.bind_some, Option.bind_eq_some_iff]
  constructor
  · rintro ⟨ss, ⟨r, hr, hss⟩, hbody⟩
    obtain rfl := Option.some.inj hss
    exact ⟨r, hr, hbody⟩
  · rintro ⟨r, hr, hbody⟩
    exact ⟨[r], ⟨r, hr, rfl⟩, hbody⟩

mutual

/-- A term that has a sort has it as well where functions are declared. -/
theorem sortWith?_of_sort? {Γ : Sorting} {t : Term} {s : SortExpr} (h : t.sort? Γ = some s) :
    t.sortWith? Δ Γ = some s := by
  cases t with
  | app head operands =>
    cases head with
    | symbol name =>
      obtain ⟨ss, hss, hs⟩ := Option.bind_eq_some_iff.mp h
      rw [sortWith?, sortsWith?_of_sorts? hss, Option.bind_eq_bind, Option.bind_some, hs,
        Option.some_or]
    | tester constructor signature =>
      cases signature with
      | none => cases h
      | some signature =>
        obtain ⟨ss, hss, hs⟩ := Option.bind_eq_some_iff.mp h
        rw [sortWith?, sortsWith?_of_sorts? hss]
        exact hs
    | _ => cases h
  | forAll binders body =>
    obtain ⟨s', hbody, hs⟩ := Option.bind_eq_some_iff.mp h
    rw [sortWith?, sortWith?_of_sort? hbody]
    exact hs
  | symbol | node | numeral | quoted => exact h
  | _ => cases h

theorem sortsWith?_of_sorts? {Γ : Sorting} {ts : List Term} {ss : List SortExpr}
    (h : sorts? Γ ts = some ss) : sortsWith? Δ Γ ts = some ss := by
  cases ts with
  | nil => exact h
  | cons t ts =>
    obtain ⟨s, hs, hrest⟩ := Option.bind_eq_some_iff.mp h
    obtain ⟨ss, hss, hcons⟩ := Option.bind_eq_some_iff.mp hrest
    rw [sortsWith?, sortWith?_of_sort? hs, sortsWith?_of_sorts? hss]
    exact hcons

end

mutual

/-- Whether a term has no local definitions. -/
def definesNothing : Term → Bool
  | app head operands => definesNothing head && allDefineNothing operands
  | bind .. => false
  | forAll _ body => definesNothing body
  | attributed body _ => definesNothing body
  | adjacent ts => allDefineNothing ts
  | _ => true

/-- Whether several terms have no local definitions. -/
def allDefineNothing : List Term → Bool
  | [] => true
  | t :: ts => definesNothing t && allDefineNothing ts

end

theorem allDefineNothing_iff {ts : List Term} :
    allDefineNothing ts = true ↔ ∀ t ∈ ts, t.definesNothing = true := by
  induction ts with
  | nil => simp [allDefineNothing]
  | cons t ts ih => simp [allDefineNothing, ih]

mutual

/-- Only applications of declared functions and local definitions have sorts of their own. -/
theorem sortWith?_of_definesNothing {Γ : Sorting} {t : Term} (h : t.definesNothing = true) :
    t.sortWith? (fun _ => none) Γ = t.sort? Γ := by
  cases t with
  | app head operands =>
    obtain ⟨-, hoperands⟩ := Bool.and_eq_true_iff.mp h
    cases head with
    | symbol name =>
      have hresult (ss : List SortExpr) :
          Signatures.result? (fun _ => none) Γ name ss = none := by
        unfold Signatures.result?
        split <;> simp_all
      rw [sortWith?, sort?, sortsWith?_of_definesNothing hoperands]
      simp only [hresult, Option.or_none]
    | tester constructor signature =>
      cases signature with
      | none => rfl
      | some signature => rw [sortWith?, sort?, sortsWith?_of_definesNothing hoperands]
    | _ => rfl
  | bind => cases h
  | forAll binders body =>
    have hbody : body.definesNothing = true := h
    rw [sortWith?, sort?, sortWith?_of_definesNothing hbody]
  | _ => rfl

theorem sortsWith?_of_definesNothing {Γ : Sorting} {ts : List Term}
    (h : allDefineNothing ts = true) : sortsWith? (fun _ => none) Γ ts = sorts? Γ ts := by
  cases ts with
  | nil => rfl
  | cons t ts =>
    obtain ⟨ht, hts⟩ := Bool.and_eq_true_iff.mp h
    rw [sortsWith?, sorts?, sortWith?_of_definesNothing ht, sortsWith?_of_definesNothing hts]

end

end Term

end SolverScript
