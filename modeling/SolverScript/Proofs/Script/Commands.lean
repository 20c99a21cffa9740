import SolverScript.Proofs.Results
import SolverScript.Script.OfProblem

/-!
# Commands of several parts

Sections of a script are made part by part, and a node is defined by the term of its operation.

## Main results

* `Scope.term_of_definition` - the term that defines a node
* `commandsOf_eq_ok_iff` - the commands of several parts
-/

namespace SolverScript

/-- The defining term of an operation is its term, also for a label. -/
theorem Scope.term_of_definition {scope : Scope} {operation : Operation} {t : Term}
    {label : Option String} (h : scope.definition operation = .ok (t, label)) :
    scope.term operation = .ok t := by
  obtain ⟨op, ns⟩ := operation
  unfold Scope.definition at h
  split at h
  · next text n hlabel =>
    cases h
    unfold Scope.labelled? at hlabel
    split at hlabel
    · cases hlabel
      rename_i hop hns
      simp only at hop hns
      subst hop hns
      rfl
    · cases hlabel
  · cases hterm : scope.term ⟨op, ns⟩ with
    | error => simp [hterm] at h
    | ok t' =>
      rw [hterm] at h
      cases h
      rfl

variable {β : Type} {f : β → Except Failure (List Command)} {bs : List β} {cs : List Command}

/-- The commands of several parts are those of each part, in order. -/
theorem commandsOf_eq_ok_iff : commandsOf f bs = .ok cs ↔
    ∃ css, List.Forall₂ (fun b c => f b = .ok c) bs css ∧ cs = css.flatten := by
  unfold commandsOf
  cases hbs : bs.mapM f with
  | error => simp [← mapM_eq_ok_iff, hbs, bind, Except.bind]
  | ok css => simp [← mapM_eq_ok_iff, hbs, bind, Except.bind, pure, Except.pure, eq_comm]

/-- The commands of several parts are those of the first one and those of the others. -/
theorem commandsOf_cons {b : β} {rest : List β} :
    commandsOf f (b :: rest) = .ok cs ↔
      ∃ ds es, f b = .ok ds ∧ commandsOf f rest = .ok es ∧ cs = ds ++ es := by
  simp only [commandsOf_eq_ok_iff, List.forall₂_cons_left_iff]
  constructor
  · rintro ⟨_, ⟨ds, css, hb, hrest, rfl⟩, rfl⟩
    exact ⟨ds, css.flatten, hb, ⟨css, hrest, rfl⟩, rfl⟩
  · rintro ⟨ds, es, hb, ⟨css, hrest, rfl⟩, rfl⟩
    exact ⟨ds :: css, ⟨ds, css, hb, hrest, rfl⟩, rfl⟩

/-- Parts with one command each. -/
theorem eq_map_of_commandsOf {g : β → Command} (hf : ∀ b ∈ bs, f b = .ok [g b])
    (h : commandsOf f bs = .ok cs) : cs = bs.map g := by
  induction bs generalizing cs with
  | nil =>
    cases h
    rfl
  | cons b bs ih =>
    obtain ⟨hb, hbs⟩ := List.forall_mem_cons.mp hf
    obtain ⟨ds, es, hds, hes, rfl⟩ := commandsOf_cons.mp h
    rw [hb] at hds
    cases hds
    rw [ih hbs hes]
    rfl

/-- A command comes from one of the parts. -/
theorem exists_of_mem_commandsOf (h : commandsOf f bs = .ok cs) {c : Command} (hc : c ∈ cs) :
    ∃ b ∈ bs, ∃ ds, f b = .ok ds ∧ c ∈ ds := by
  induction bs generalizing cs with
  | nil =>
    cases h
    cases hc
  | cons b bs ih =>
    obtain ⟨ds, es, hds, hes, rfl⟩ := commandsOf_cons.mp h
    rcases List.mem_append.mp hc with hc | hc
    · exact ⟨b, List.mem_cons_self, ds, hds, hc⟩
    · obtain ⟨b', hb', hmem⟩ := ih hes hc
      exact ⟨b', List.mem_cons_of_mem b hb', hmem⟩

/-- The commands of each part are among those of all. -/
theorem exists_subset_of_commandsOf (h : commandsOf f bs = .ok cs) {b : β} (hb : b ∈ bs) :
    ∃ ds, f b = .ok ds ∧ ds ⊆ cs := by
  induction bs generalizing cs with
  | nil => cases hb
  | cons first bs ih =>
    obtain ⟨ds, es, hds, hes, rfl⟩ := commandsOf_cons.mp h
    rcases List.mem_cons.mp hb with rfl | hb
    · exact ⟨ds, hds, List.subset_append_left _ _⟩
    · obtain ⟨ds', hds', hsubset⟩ := ih hes hb
      exact ⟨ds', hds', List.subset_append_of_subset_right _ hsubset⟩

theorem forall_mem_commandsOf {P : Command → Prop} (h : commandsOf f bs = .ok cs)
    (hparts : ∀ b ∈ bs, ∀ ds, f b = .ok ds → ∀ c ∈ ds, P c) : ∀ c ∈ cs, P c := by
  intro c hc
  obtain ⟨b, hb, ds, hds, hc⟩ := exists_of_mem_commandsOf h hc
  exact hparts b hb ds hds c hc

/-- All commands have a property just if those of every part do. -/
theorem forall_mem_commandsOf_iff {P : Command → Prop} (h : commandsOf f bs = .ok cs) :
    (∀ c ∈ cs, P c) ↔ ∀ b ∈ bs, ∀ ds, f b = .ok ds → ∀ c ∈ ds, P c := by
  refine ⟨fun hall b hb ds hds c hc => ?_, forall_mem_commandsOf h⟩
  obtain ⟨ds', hds', hsubset⟩ := exists_subset_of_commandsOf h hb
  cases hds.symm.trans hds'
  exact hall c (hsubset hc)

/-- Parts that are made in another way, with their commands changed alike. -/
theorem commandsOf_map {γ : Type} {f' : γ → Except Failure (List Command)} {part : β → γ}
    {change : Command → Command} (h : commandsOf f bs = .ok cs)
    (hparts : ∀ b ∈ bs, ∀ ds, f b = .ok ds → f' (part b) = .ok (ds.map change)) :
    commandsOf f' (bs.map part) = .ok (cs.map change) := by
  induction bs generalizing cs with
  | nil =>
    cases h
    rfl
  | cons b bs ih =>
    obtain ⟨hb, hbs⟩ := List.forall_mem_cons.mp hparts
    obtain ⟨ds, es, hds, hes, rfl⟩ := commandsOf_cons.mp h
    rw [List.map_cons, List.map_append]
    exact commandsOf_cons.mpr ⟨_, _, hb ds hds, ih hes hbs, rfl⟩

end SolverScript
