import SolverScript.Proofs.Semantics.DataTheory
import SolverScript.Script.Invariant

/-!
# Formulas that decide a property

The invariants of a kind are lists of formulas, to be read as conjunctions. A list of formulas
decides a property if all of them denote truth values and all hold just if the property does. A list
fails if not all of its formulas hold; then their conjunction does not hold either, even if some of
them denote nothing. Invariants bind names, so what they are about is a term that denotes the same
in all interpretations that differ in those names only.

## Main definitions

* `Interpretation.AgreesOutside` - interpretations that differ in bound names only
* `Decides` - whether some formulas decide a property
* `Fails` - whether some formulas do not all hold
-/

namespace SolverScript

/-! ### Bound names -/

/-- Whether an interpretation differs from another one only in names that are bound at a given depth
or further inside. -/
def Interpretation.AgreesOutside {α : Type} (depth : Nat) (J J' : Interpretation α) : Prop :=
  ∀ name, ¬IsBoundName depth name → J' name = J name

namespace Interpretation.AgreesOutside

variable {α : Type} {depth : Nat} {J J' : Interpretation α}

theorem refl (depth : Nat) (J : Interpretation α) : AgreesOutside depth J J := fun _ _ => rfl

theorem of_bind {name : String} (hname : IsBoundName depth name) {f : Element.Function α}
    (h : AgreesOutside (depth + 1) (J.bind name f) J') : AgreesOutside depth J J' := by
  intro other hother
  have hne : other ≠ name := fun heq => hother (heq ▸ hname)
  rw [h other fun hinner => hother (hinner.mono (Nat.le_succ depth)), bind_of_ne _ _ hne]

theorem deeper (h : AgreesOutside (depth + 1) J J') : AgreesOutside depth J J' :=
  fun name hname => h name fun hinner => hname (hinner.mono (Nat.le_succ depth))

theorem bind {name : String} (hname : IsBoundName depth name) (f : Element.Function α) :
    AgreesOutside depth J (J.bind name f) :=
  of_bind hname (refl (depth + 1) _)

end Interpretation.AgreesOutside

namespace Term.Denotes

variable {S : OpenSorts} {P Q : Interpretation (Datum S.Carrier) → Prop} {t : Term}
  {a : Datum S.Carrier} {depth : Nat} {J : Interpretation (Datum S.Carrier)} {name : String}

theorem of_eval (h : t.eval S.theory J = some a.element) : Denotes S (· = J) t a := by
  rintro _ rfl
  exact h

theorem mono (h : Denotes S P t a) (hPQ : ∀ J, Q J → P J) : Denotes S Q t a :=
  fun J hJ => h J (hPQ J hJ)

theorem deeper (h : Denotes S (J.AgreesOutside depth) t a) :
    Denotes S (J.AgreesOutside (depth + 1)) t a :=
  h.mono fun _ => .deeper

/-- Binding a name of this depth does not change what a term denotes. -/
theorem under (h : Denotes S (J.AgreesOutside depth) t a) (hname : IsBoundName depth name)
    (f : Element.Function (Datum S.Carrier)) :
    Denotes S ((J.bind name f).AgreesOutside (depth + 1)) t a :=
  h.mono fun _ => .of_bind hname

theorem bound (hname : IsBoundName depth name) (hinner : ¬IsBoundName (depth + 1) name)
    (J : Interpretation (Datum S.Carrier)) (a : Datum S.Carrier) :
    Denotes S ((J.bind name a.element.constant).AgreesOutside (depth + 1)) (.symbol name) a := by
  intro J' hJ'
  have hsymbol : S.theory.apply J' (.symbol name) [] = J' name [] := by
    simp only [Theory.apply, name?, OpenSorts.function_of_isBoundName hname, Option.none_or]
  rw [hJ' name hinner, Interpretation.bind_self] at hsymbol
  exact hsymbol

open Classical in
theorem equalInts {u : Term} {m n : Int} (ht : Denotes S P t ⟨.int, m⟩)
    (hu : Denotes S P u ⟨.int, n⟩) :
    Denotes S P (.app (.symbol "=") [t, u]) ⟨.bool, decide (m = n)⟩ := by
  refine standard rfl (.cons ht (.cons hu .nil)) ((relation_equal rfl).trans ?_)
  simp [Datum.element]

theorem less {u : Term} {m n : Int} (ht : Denotes S P t ⟨.int, m⟩)
    (hu : Denotes S P u ⟨.int, n⟩) :
    Denotes S P (.app (.symbol "<") [t, u]) ⟨.bool, decide (m < n)⟩ :=
  standard rfl (.cons ht (.cons hu .nil)) rfl

theorem greaterOrEqual {u : Term} {m n : Int} (ht : Denotes S P t ⟨.int, m⟩)
    (hu : Denotes S P u ⟨.int, n⟩) :
    Denotes S P (.app (.symbol ">=") [t, u]) ⟨.bool, decide (n ≤ m)⟩ :=
  standard rfl (.cons ht (.cons hu .nil)) rfl

/-- A connective of formulas. -/
theorem connective {f : List Bool → Bool}
    (hname : Theory.symbols.lookup name =
      some (Element.Function.connective (α := Datum S.Carrier) f)) {ts : List Term}
    {bs : List Bool} (hts : List.Forall₂ (fun t b => Denotes S P t (.ofBool b)) ts bs)
    (hlength : 2 ≤ bs.length) : Denotes S P (.app (.symbol name) ts) (.ofBool (f bs)) := by
  have hoperands : List.Forall₂ (Denotes S P) ts (bs.map .ofBool) :=
    List.forall₂_map_right_iff.mpr hts
  refine standard hname hoperands ?_
  rw [Datum.map_element_ofBool]
  exact Element.Function.connective_bools hlength

theorem implication {u : Term} {b c : Bool} (ht : Denotes S P t (.ofBool b))
    (hu : Denotes S P u (.ofBool c)) : Denotes S P (Kind.implication t u) (.ofBool (!b || c)) := by
  have hname : Theory.symbols.lookup "=>" = some (Element.Function.connective
      (α := Datum S.Carrier) fun bs => bs.dropLast.any (!·) || bs.getLastD true) := rfl
  have h := connective hname (.cons ht (.cons hu .nil)) (Nat.le_refl 2)
  simpa [Kind.implication] using h

theorem conjunction_name : Theory.symbols.lookup "and" = some (Element.Function.connective
    (α := Datum S.Carrier) fun bs => bs.all id) := rfl

/-- The formula that a position lies inside of a sequence. -/
theorem isPosition {d : Domain} {xs : List (d.Model S.Carrier)}
    (ht : Denotes S P t ⟨.list d, xs⟩) {u : Term} {i : Int} (hu : Denotes S P u ⟨.int, i⟩) :
    Denotes S P (.app (.symbol "and") [.app (.symbol ">=") [u, .numeral 0],
      .app (.symbol "<") [u, .app (.symbol "seq.len") [t]]])
      (.ofBool (decide (0 ≤ i) && decide (i < Int.ofNat xs.length))) := by
  have h := connective conjunction_name
    (.cons (greaterOrEqual hu (Denotes.numeral 0)) (.cons (less hu (sequenceLength ht)) .nil))
    (Nat.le_refl 2)
  simpa using h

end Term.Denotes

/-! ### Formulas that decide a property -/

/-- Whether some formulas denote truth values, and all of them hold just if a property does. -/
structure Decides (S : OpenSorts) (J : Interpretation (Datum S.Carrier)) (formulas : List Term)
    (Q : Prop) : Prop where
  defined : ∀ f ∈ formulas, ∃ b, f.eval S.theory J = some (.bool b)
  holds_iff : (∀ f ∈ formulas, f.eval S.theory J = some (.bool true)) ↔ Q

namespace Decides

variable {S : OpenSorts} {J : Interpretation (Datum S.Carrier)} {formulas : List Term} {Q R : Prop}

theorem congr (h : Decides S J formulas Q) (hQR : Q ↔ R) : Decides S J formulas R :=
  ⟨h.defined, h.holds_iff.trans hQR⟩

theorem nil (hQ : Q) : Decides S J [] Q := ⟨by simp, by simp [hQ]⟩

theorem singleton {f : Term} {b : Bool} (h : f.eval S.theory J = some (.bool b))
    (hb : b = true ↔ Q) : Decides S J [f] Q :=
  ⟨by simp [h], by simp [h, hb]⟩

theorem append {others : List Term} (h : Decides S J formulas Q) (h' : Decides S J others R) :
    Decides S J (formulas ++ others) (Q ∧ R) :=
  ⟨List.forall_mem_append.mpr ⟨h.defined, h'.defined⟩,
    List.forall_mem_append.trans (and_congr h.holds_iff h'.holds_iff)⟩

theorem eval_implication {premise conclusion : Term} {b c : Bool}
    (hpremise : premise.eval S.theory J = some (.bool b))
    (hconclusion : conclusion.eval S.theory J = some (.bool c)) :
    (Kind.implication premise conclusion).eval S.theory J = some (.bool (!b || c)) := by
  have h := Term.Denotes.implication (b := b) (c := c) (.of_eval hpremise) (.of_eval hconclusion)
  exact h J rfl

/-- Formulas under a premise. -/
theorem guarded {premise : Term} {b : Bool} (hpremise : premise.eval S.theory J = some (.bool b))
    (h : Decides S J formulas Q) :
    Decides S J (formulas.map (Kind.implication premise)) (b = true → Q) := by
  constructor
  · refine List.forall_mem_map.mpr fun f hf => ?_
    obtain ⟨c, hc⟩ := h.defined f hf
    exact ⟨_, eval_implication hpremise hc⟩
  · rw [List.forall_mem_map, ← h.holds_iff]
    constructor
    · rintro hall rfl f hf
      obtain ⟨c, hc⟩ := h.defined f hf
      have himplication := (eval_implication hpremise hc).symm.trans (hall f hf)
      rw [hc]
      simpa using himplication
    · intro hall f hf
      obtain ⟨c, hc⟩ := h.defined f hf
      rw [eval_implication hpremise hc]
      cases b with
      | false => rfl
      | true =>
        have := hc.symm.trans (hall rfl f hf)
        simpa using this

theorem exists_values (h : ∀ f ∈ formulas, ∃ b, f.eval S.theory J = some (.bool b)) :
    ∃ bs, List.Forall₂ (fun f b => f.eval S.theory J = some (.bool b)) formulas bs := by
  induction formulas with
  | nil => exact ⟨[], .nil⟩
  | cons f fs ih =>
    obtain ⟨⟨b, hb⟩, hfs⟩ := List.forall_mem_cons.mp h
    obtain ⟨bs, hbs⟩ := ih hfs
    exact ⟨b :: bs, .cons hb hbs⟩

theorem all_eq_true_iff {bs : List Bool}
    (h : List.Forall₂ (fun f b => f.eval S.theory J = some (.bool b)) formulas bs) :
    bs.all id = true ↔ ∀ f ∈ formulas, f.eval S.theory J = some (.bool true) := by
  induction h with
  | nil => simp
  | cons hb _ ih => simp [hb, ← ih]

/-- The conjunction of some formulas. -/
theorem conjunction (h : Decides S J formulas Q) : Decides S J [Kind.conjunction formulas] Q := by
  rcases formulas with _ | ⟨f, _ | ⟨g, rest⟩⟩
  · have hQ := h.holds_iff.mp (by simp)
    exact singleton (Term.Denotes.ofBool (P := fun _ => True) true J trivial) (by simp [hQ])
  · exact h
  · obtain ⟨bs, hbs⟩ := exists_values h.defined
    have hlength : 2 ≤ bs.length := by
      rw [← hbs.length_eq]
      exact Nat.le_add_left 2 rest.length
    have hvalue := Term.Denotes.connective Term.Denotes.conjunction_name
      (hbs.imp fun f b hf => .of_eval hf) hlength
    exact singleton (hvalue J rfl) ((all_eq_true_iff hbs).trans h.holds_iff)

/-- A formula about all elements of a sort. -/
theorem forAll {name : String} {sort : SortExpr} {body : Term}
    (h : (∀ e, S.theory.Contains sort e →
      body.eval S.theory (J.bind name e.constant) = some (.bool true)) ↔ Q) :
    Decides S J [.forAll [(name, sort)] body] Q := by
  constructor
  · rw [List.forall_mem_singleton, Term.eval]
    exact ⟨_, rfl⟩
  · rw [List.forall_mem_singleton, Term.eval_forAll_iff, ← h]
    constructor
    · intro hall e he
      exact hall [e] (.cons he .nil)
    · intro hall es hes
      obtain ⟨e, _, he, hnil, rfl⟩ := List.forall₂_cons_left_iff.mp hes
      obtain rfl := List.forall₂_nil_left_iff.mp hnil
      exact hall e he

/-- A formula about all values of the sort of a kind. -/
theorem forAllOf {name : String} {k : Kind} {body : Term} {Q : k.domain.Model S.Carrier → Prop}
    (h : ∀ y, Decides S (J.bind name (Datum.element ⟨k.domain, y⟩).constant) [body] (Q y)) :
    Decides S J [.forAll [(name, k.sort)] body] (∀ y, Q y) := by
  refine .forAll ?_
  simp only [S.hasDomains_theory.contains_iff, forall_exists_index, forall_eq_apply_imp_iff]
  exact forall_congr' fun y => by simpa using (h y).holds_iff

/-- Formulas about all elements of a list. -/
theorem elementwise {depth : Nat} {t : Term} {d : Domain} {xs : List (d.Model S.Carrier)}
    {Q : d.Model S.Carrier → Prop}
    (ht : t.Denotes S (J.AgreesOutside depth) ⟨.list d, xs⟩)
    (h : ∀ i : Int, Decides S (J.bind ("seq" ++ Nat.repr depth) (Element.int i).constant) formulas
      (Q (S.nth xs i))) :
    Decides S J [Kind.elementwise ("seq" ++ Nat.repr depth) t (Kind.conjunction formulas)]
      (∀ x ∈ xs, Q x) := by
  have hposition : IsBoundName depth ("seq" ++ Nat.repr depth) := .position (Nat.le_refl depth)
  have hbody : ∀ i : Int, Decides S (J.bind ("seq" ++ Nat.repr depth) (Element.int i).constant)
      [Kind.implication (.app (.symbol "and") [.app (.symbol ">=")
          [.symbol ("seq" ++ Nat.repr depth), .numeral 0],
        .app (.symbol "<") [.symbol ("seq" ++ Nat.repr depth), .app (.symbol "seq.len") [t]]])
        (Kind.conjunction formulas)]
      ((decide (0 ≤ i) && decide (i < Int.ofNat xs.length)) = true → Q (S.nth xs i)) := by
    intro i
    have hindex := Term.Denotes.bound hposition (IsBoundName.not_position depth) J ⟨.int, i⟩
    have hpremise := (ht.under hposition (Element.int i).constant).isPosition hindex
    exact guarded (hpremise _ (.refl (depth + 1) _)) (h i).conjunction
  -- Positions outside of the list have elements as well, but they do not meet the premise.
  refine (forAllOf (k := .unbounded) hbody).congr ⟨fun hall x hx => ?_, fun hall (i : Int) hi => ?_⟩
  · obtain ⟨n, hn, rfl⟩ := List.getElem_of_mem hx
    rw [← S.nth_ofNat hn]
    refine hall (Int.ofNat n) ?_
    simpa using hn
  · obtain ⟨hnonneg, hlt⟩ : 0 ≤ i ∧ i < Int.ofNat xs.length := by simpa using hi
    obtain ⟨n, rfl⟩ := Int.eq_ofNat_of_zero_le hnonneg
    have hn : n < xs.length := Int.ofNat_lt.mp hlt
    exact S.nth_ofNat hn ▸ hall _ (List.getElem_mem hn)

end Decides

/-! ### Formulas without a meaning -/

/-- Whether an interpretation gives no meaning to the names of functions on data. -/
def Interpretation.LeavesData (S : OpenSorts) (J : Interpretation (Datum S.Carrier)) : Prop :=
  ∀ name, S.IsDataName name → ∀ es, J name es = none

theorem Interpretation.LeavesData.of_agreesOutside {S : OpenSorts}
    {J J' : Interpretation (Datum S.Carrier)} {depth : Nat} (hJ : J.LeavesData S)
    (h : J.AgreesOutside depth J') : J'.LeavesData S := by
  intro name hname es
  rw [h name (OpenSorts.not_isBoundName hname depth)]
  exact hJ name hname es

/-- Whether some terms are formulas or denote nothing, and not all of them hold. -/
structure Fails (S : OpenSorts) (J : Interpretation (Datum S.Carrier)) (formulas : List Term) :
    Prop where
  formula : ∀ f ∈ formulas, f.eval S.theory J = none ∨ ∃ b, f.eval S.theory J = some (.bool b)
  exists_failing : ∃ f ∈ formulas, f.eval S.theory J ≠ some (.bool true)

namespace Fails

variable {S : OpenSorts} {J : Interpretation (Datum S.Carrier)} {formulas : List Term}

theorem of_none (hne : formulas ≠ []) (h : ∀ f ∈ formulas, f.eval S.theory J = none) :
    Fails S J formulas where
  formula := fun f hf => .inl (h f hf)
  exists_failing := by
    obtain ⟨f, hf⟩ := List.exists_mem_of_ne_nil _ hne
    exact ⟨f, hf, by simp [h f hf]⟩

/-- An application is undefined if an operand is. -/
theorem eval_app_eq_none {head t : Term} {ts : List Term} (ht : t ∈ ts)
    (h : t.eval S.theory J = none) : (Term.app head ts).eval S.theory J = none := by
  have hoperands : Term.evalAll S.theory J ts = none := by
    induction ts with
    | nil => cases ht
    | cons u us ih =>
      rw [Term.evalAll]
      rcases List.mem_cons.mp ht with rfl | ht
      · rw [h]
        rfl
      · rw [ih ht]
        cases u.eval S.theory J <;> rfl
  rw [Term.eval, hoperands]
  rfl

/-- Formulas under a premise that denotes nothing. -/
theorem guarded {premise : Term} (hne : formulas ≠ [])
    (hpremise : premise.eval S.theory J = none) :
    Fails S J (formulas.map (Kind.implication premise)) :=
  of_none (by simpa using hne)
    (List.forall_mem_map.mpr fun _ _ => eval_app_eq_none List.mem_cons_self hpremise)

theorem ne_nil (h : Fails S J formulas) : formulas ≠ [] := by
  obtain ⟨f, hf, -⟩ := h.exists_failing
  exact List.ne_nil_of_mem hf

/-- Two lists of formulas, each of which is empty if it does not fail. -/
theorem append {others : List Term} {p q : Bool} (h : p = true → Fails S J formulas)
    (hnil : p = false → formulas = []) (h' : q = true → Fails S J others)
    (hnil' : q = false → others = []) (hpq : (p || q) = true) :
    Fails S J (formulas ++ others) := by
  cases p with
  | false =>
    rw [hnil rfl, List.nil_append]
    exact h' hpq
  | true =>
    cases q with
    | false =>
      rw [hnil' rfl, List.append_nil]
      exact h rfl
    | true =>
      obtain ⟨f, hf, hfails⟩ := (h rfl).exists_failing
      exact ⟨List.forall_mem_append.mpr ⟨(h rfl).formula, (h' rfl).formula⟩,
        f, List.mem_append_left _ hf, hfails⟩

/-- The conjunction of formulas does not hold if one of them does not. -/
theorem eval_conjunction_ne (h : Fails S J formulas) :
    (Kind.conjunction formulas).eval S.theory J ≠ some (.bool true) := by
  obtain ⟨f, hf, hfails⟩ := h.exists_failing
  -- With an undefined member the conjunction is undefined; else all members have truth values.
  by_cases hnone : ∃ g ∈ formulas, g.eval S.theory J = none
  · obtain ⟨g, hg, hnone⟩ := hnone
    rcases formulas with _ | ⟨first, _ | ⟨second, rest⟩⟩
    · cases hf
    · rwa [Kind.conjunction, ← List.mem_singleton.mp hf]
    · have hundefined : (Kind.conjunction (first :: second :: rest)).eval S.theory J = none :=
        eval_app_eq_none hg hnone
      rw [hundefined]
      simp
  · have hdefined : ∀ f ∈ formulas, ∃ b, f.eval S.theory J = some (.bool b) := fun g hg =>
      (h.formula g hg).resolve_left fun hg' => hnone ⟨g, hg, hg'⟩
    have hdecides : Decides S J formulas (∀ f ∈ formulas, f.eval S.theory J = some (.bool true)) :=
      ⟨hdefined, Iff.rfl⟩
    intro htrue
    exact hfails (hdecides.conjunction.holds_iff.mp (by simpa using htrue) f hf)

/-- A formula about all values of a sort does not hold if its body does not for one of them. -/
theorem forAll {name : String} {sort : SortExpr} {body : Term} {e : Element (Datum S.Carrier)}
    (he : S.theory.Contains sort e)
    (h : body.eval S.theory (J.bind name e.constant) ≠ some (.bool true)) :
    Fails S J [.forAll [(name, sort)] body] := by
  constructor
  · rw [List.forall_mem_singleton, Term.eval]
    exact .inr ⟨_, rfl⟩
  · refine ⟨_, List.mem_singleton_self _, fun hall => h ?_⟩
    exact Term.eval_forAll_iff.mp hall [e] (.cons he .nil)

/-- Formulas about the elements of what has no length. -/
theorem elementwise {index : String} {t formula : Term}
    (h : (Term.app (.symbol "seq.len") [t]).eval S.theory
      (J.bind index (Element.int 0).constant) = none) :
    Fails S J [Kind.elementwise index t formula] := by
  refine .forAll (.int 0) ?_
  have hbody : (Kind.implication (.app (.symbol "and") [.app (.symbol ">=")
        [.symbol index, .numeral 0],
      .app (.symbol "<") [.symbol index, .app (.symbol "seq.len") [t]]]) formula).eval S.theory
      (J.bind index (Element.int 0).constant) = none :=
    eval_app_eq_none List.mem_cons_self
      (eval_app_eq_none (List.mem_cons_of_mem _ List.mem_cons_self)
        (eval_app_eq_none (List.mem_cons_of_mem _ List.mem_cons_self) h))
  rw [hbody]
  simp

end Fails

end SolverScript
