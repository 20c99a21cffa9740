import SolverScript.Proofs.Semantics.DataTheory

/-!
# Literals of data

The parts of a constant's literal, each with what it denotes: text between quotes, sequences of
units, stores into a constant set, and the constructors of tuples, optionals and sums. A literal of
the standard theory keeps its meaning in every theory that extends it.

## Main results

* `Term.Denotes.of_standard` - literals of the standard theory
* `Term.Denotes.quoted`, `Term.Denotes.sequence`, `Term.Denotes.membership`, `Term.Denotes.tuple`
  and others - literals of data
-/

namespace SolverScript

/-! ### Extensions of a theory -/

/-- Whether a theory gives functions all the values that another one gives them. -/
def Theory.Extends {α : Type} (T' T : Theory α) : Prop :=
  ∀ head es e, T.function head es = some e → T'.function head es = some e

namespace Term

mutual

/-- Whether a term binds no names. -/
def bindsNothing : Term → Bool
  | bind .. | forAll .. => false
  | app _ operands => bindNothing operands
  | attributed body _ => bindsNothing body
  | _ => true

/-- Whether some terms bind no names. -/
def bindNothing : List Term → Bool
  | [] => true
  | t :: ts => bindsNothing t && bindNothing ts

end

section

variable {α : Type} {T T' : Theory α}

theorem apply_of_extends (hT : T'.Extends T) {head : Term} {es : List (Element α)} {e : Element α}
    (h : T.apply (fun _ _ => none) head es = some e) (J : Interpretation α) :
    T'.apply J head es = some e := by
  unfold Theory.apply at h ⊢
  cases hname : head.name? with
  | none =>
    rw [hname] at h
    exact hT _ _ _ h
  | some name =>
    rw [hname] at h
    simp only [Option.or_none] at h ⊢
    rw [hT _ _ _ h, Option.some_or]

mutual

/-- What a term without free and bound names denotes, it denotes in all extensions of the theory. -/
theorem eval_of_extends (hT : T'.Extends T) {t : Term} {e : Element α} (ht : t.bindsNothing = true)
    (h : t.eval T (fun _ _ => none) = some e) (J : Interpretation α) : t.eval T' J = some e := by
  cases t with
  | app head operands =>
    rw [eval, Option.bind_eq_bind, Option.bind_eq_some_iff] at h
    obtain ⟨es, hes, he⟩ := h
    rw [eval_app_of_evalAll (evalAll_of_extends hT ht hes J)]
    exact apply_of_extends hT he J
  | attributed body _ =>
    rw [eval] at h ⊢
    exact eval_of_extends (t := body) hT ht h J
  -- Under a binder the interpretations would differ, so literals with binders are left out.
  | bind | forAll => cases ht
  | adjacent => cases h
  | _ => exact apply_of_extends hT h J

theorem evalAll_of_extends (hT : T'.Extends T) {ts : List Term} {es : List (Element α)}
    (hts : bindNothing ts = true) (h : evalAll T (fun _ _ => none) ts = some es)
    (J : Interpretation α) : evalAll T' J ts = some es := by
  cases ts with
  | nil => exact h
  | cons t ts =>
    rw [bindNothing, Bool.and_eq_true] at hts
    rw [evalAll_eq_some_iff] at h
    cases h with
    | cons he hes =>
      rw [← evalAll_eq_some_iff] at hes
      rw [evalAll_eq_some_iff]
      exact .cons (eval_of_extends hT hts.1 he J)
        (evalAll_eq_some_iff.mp (evalAll_of_extends hT hts.2 hes J))

end

end

end Term

variable {S : OpenSorts} {P : Interpretation (Datum S.Carrier) → Prop}

theorem OpenSorts.extends_standard : S.theory.Extends (.standard S.theory.carrier) :=
  fun _ _ _ h => function_of_standard h

namespace Term.Denotes

/-- A literal of the standard theory. -/
theorem of_standard {t : Term} {a : Datum S.Carrier} (ht : t.bindsNothing = true)
    (h : t.eval (.standard S.theory.carrier) (fun _ _ => none) = some a.element) :
    Denotes S P t a :=
  fun J _ => eval_of_extends OpenSorts.extends_standard ht h J

/-- Whatever is quoted, the literal denotes a text. -/
theorem quoted {characters : List Char} {cs : List CodePoint}
    (h : readText? (Term.quote characters).toList = some cs) :
    Denotes S P (.quoted characters) ⟨.text, cs⟩ := by
  intro J _
  refine (OpenSorts.function_eq (.quoted characters) [] rfl).trans ?_
  have hfunction : S.functionOnData (.quoted characters) [] = some ⟨.text, cs⟩ :=
    congrArg (Option.map fun cs => Datum.mk .text cs) h
  rw [hfunction, Option.map_some]

/-- A literal that is written with its sort. -/
theorem ascribed {name : String} {k : Kind} {a : Datum S.Carrier}
    (h : S.ascribed name k.domain [] = some a) : Denotes S P (.ascribed name k.sort) a := by
  intro J _
  refine (OpenSorts.function_eq (.ascribed name k.sort) [] rfl).trans ?_
  rw [← k.domain_sort] at h
  exact congrArg (Option.map Datum.element) h

/-- An application of a constructor that is written with its sort. -/
theorem ascribedApp {name : String} {k : Kind} {ts : List Term} {as : List (Datum S.Carrier)}
    {a : Datum S.Carrier} (hts : List.Forall₂ (Denotes S P) ts as)
    (h : S.ascribed name k.domain as = some a) :
    Denotes S P (.app (.ascribed name k.sort) ts) a := by
  refine data (.ascribed name k.sort) hts rfl ?_
  rw [← k.domain_sort] at h
  exact h

/-! ### Sequences -/

section

variable {k : Kind} {ts : List Term} {xs : List (k.domain.Model S.Carrier)}

theorem foldlM_append (d : Domain) (xs ys : List (d.Model S.Carrier)) :
    (ys.map fun y => Datum.mk (.list d) [y]).foldlM Datum.append?
      (⟨.list d, xs⟩ : Datum S.Carrier) = some ⟨.list d, List.append xs ys⟩ := by
  induction ys generalizing xs with
  | nil => exact congrArg (fun xs => some (Datum.mk (.list d) xs)) (List.append_nil xs).symm
  | cons y ys ih =>
    rw [List.map_cons, List.foldlM_cons, Datum.append?_list]
    refine (ih (List.append xs [y])).trans ?_
    exact congrArg (fun xs => some (Datum.mk (.list d) xs)) (List.append_assoc xs [y] ys)

theorem unit {t : Term} {d : Domain} {x : d.Model S.Carrier} (ht : Denotes S P t ⟨d, x⟩) :
    Denotes S P (.app (.symbol "seq.unit") [t]) ⟨.list d, [x]⟩ :=
  symbol rfl rfl (.cons ht .nil) rfl

/-- A list of terms as a sequence. -/
theorem sequence (h : List.Forall₂ (fun t x => Denotes S P t ⟨k.domain, x⟩) ts xs) :
    Denotes S P (Value.sequenceTerm (Kind.list k).sort ts) ⟨(Kind.list k).domain, xs⟩ := by
  cases h with
  | nil => exact ascribed rfl
  | @cons t x ts xs ht hts =>
    cases hts with
    | nil => exact unit ht
    | @cons u y ts xs hu hts =>
      -- From two elements on, one-element sequences are put after each other.
      have hunits : List.Forall₂ (Denotes S P)
          ((t :: u :: ts).map fun t => .app (.symbol "seq.unit") [t])
          ((x :: y :: xs).map fun x => ⟨.list k.domain, [x]⟩) := by
        rw [List.forall₂_map_left_iff, List.forall₂_map_right_iff]
        exact .cons (unit ht) (.cons (unit hu) (hts.imp fun _ _ => unit))
      exact symbol rfl rfl hunits (foldlM_append k.domain [x] (y :: xs))

end

/-! ### Sets -/

section

variable {k : Kind} {ts : List Term} {xs : List (k.domain.Model S.Carrier)}

open Classical in
/-- The membership function of a set of values, or of the set of all others. -/
noncomputable def memberships {d : Domain} (complemented : Bool) (xs : List (d.Model S.Carrier)) :
    d.Model S.Carrier → Bool :=
  fun x => if x ∈ xs then !complemented else complemented

open Classical in
theorem memberships_cons {d : Domain} (complemented : Bool) (x : d.Model S.Carrier)
    (xs : List (d.Model S.Carrier)) :
    Function.update (memberships complemented xs) x (!complemented) =
      memberships complemented (x :: xs) := by
  funext y
  by_cases hy : y = x
  · subst hy
    rw [Function.update_self]
    exact (if_pos List.mem_cons_self).symm
  · rw [Function.update_of_ne hy]
    simp only [memberships, List.mem_cons, hy, false_or]

open Classical in
theorem store {t u v : Term} {d : Domain} {f : d.Model S.Carrier → Bool} {x : d.Model S.Carrier}
    {b : Bool} (ht : Denotes S P t ⟨.set d, f⟩) (hu : Denotes S P u ⟨d, x⟩)
    (hv : Denotes S P v (.ofBool b)) :
    Denotes S P (.app (.symbol "store") [t, u, v]) ⟨.set d, Function.update f x b⟩ :=
  symbol rfl rfl (.cons ht (.cons hu (.cons hv .nil)))
    (congrArg (Option.map fun x => Datum.mk (.set d) (Function.update f x b)) (Datum.as?_self x))

/-- A set by its membership function. -/
theorem membership (complemented : Bool)
    (h : List.Forall₂ (fun t x => Denotes S P t ⟨k.domain, x⟩) ts xs) :
    Denotes S P (Value.membershipTerm (Kind.set k).sort complemented ts)
      ⟨(Kind.set k).domain, memberships complemented xs⟩ := by
  induction h with
  | nil =>
    refine ascribedApp (.cons (Denotes.ofBool complemented) .nil) ?_
    have hempty : (fun _ => complemented) =
        memberships complemented ([] : List (k.domain.Model S.Carrier)) :=
      funext fun x => by simp [memberships]
    exact congrArg (fun f => some (Datum.mk (.set k.domain) f)) hempty
  | @cons t x ts xs ht _ ih =>
    have hstore := store ih ht (Denotes.ofBool !complemented)
    rw [memberships_cons] at hstore
    exact hstore

end

/-! ### Tuples -/

/-- The empty tuple has a constructor without a sort; the components of any other one have the
domains of its kind. -/
theorem tuple {ks : List Kind} {ts : List Term} {xs : Domain.Models S.Carrier (Kind.domains ks)}
    (h : List.Forall₂ (Denotes S P) ts (Datum.components (Kind.domains ks) xs)) :
    Denotes S P (Value.tupleTerm (Kind.tuple ks).sort ts) ⟨(Kind.tuple ks).domain, xs⟩ := by
  have hlength : ts.length = (Kind.domains ks).length :=
    h.length_eq.trans (Datum.length_components _ _)
  cases ts with
  | nil =>
    cases ks with
    | cons => cases hlength
    | nil =>
      intro J _
      have hname : S.IsDataHead (.symbol "mkSBVTuple0") := .symbol .emptyTuple
      exact congrArg (Option.or · _) (OpenSorts.function_eq hname [] rfl)
  | cons t ts =>
    refine ascribedApp h ?_
    refine (if_pos ?_).trans ?_
    · rw [hlength]
    · rw [Datum.asTuple?_components]
      rfl

/-! ### Other constructors -/

theorem pair {t u : Term} {m n : Int} (ht : Denotes S P t ⟨.int, m⟩)
    (hu : Denotes S P u ⟨.int, n⟩) :
    Denotes S P (.app (.symbol RationalFunction.constructor) [t, u]) ⟨.rational, (m, n)⟩ :=
  symbol rfl rfl (.cons ht (.cons hu .nil)) rfl

theorem nothing (k : Kind) :
    Denotes S P (.ascribed (Composite.maybeConstructor false) (Kind.maybe k).sort)
      ⟨(Kind.maybe k).domain, none⟩ :=
  ascribed rfl

theorem just {k : Kind} {t : Term} {x : k.domain.Model S.Carrier}
    (ht : Denotes S P t ⟨k.domain, x⟩) :
    Denotes S P (.app (.ascribed (Composite.maybeConstructor true) (Kind.maybe k).sort) [t])
      ⟨(Kind.maybe k).domain, some x⟩ :=
  ascribedApp (.cons ht .nil)
    (congrArg (Option.map fun x => Datum.mk (.maybe k.domain) (some x)) (Datum.as?_self x))

theorem left {l : Kind} (r : Kind) {t : Term} {x : l.domain.Model S.Carrier}
    (ht : Denotes S P t ⟨l.domain, x⟩) :
    Denotes S P (.app (.ascribed (Composite.sideConstructor false) (Kind.either l r).sort) [t])
      ⟨(Kind.either l r).domain, Sum.inl x⟩ :=
  ascribedApp (.cons ht .nil)
    (congrArg (Option.map fun x => Datum.mk (.either l.domain r.domain) (Sum.inl x))
      (Datum.as?_self x))

theorem right (l : Kind) {r : Kind} {t : Term} {x : r.domain.Model S.Carrier}
    (ht : Denotes S P t ⟨r.domain, x⟩) :
    Denotes S P (.app (.ascribed (Composite.sideConstructor true) (Kind.either l r).sort) [t])
      ⟨(Kind.either l r).domain, Sum.inr x⟩ :=
  ascribedApp (.cons ht .nil)
    (congrArg (Option.map fun x => Datum.mk (.either l.domain r.domain) (Sum.inr x))
      (Datum.as?_self x))

end Term.Denotes

end SolverScript
