import Mathlib.Data.List.Forall2
import SolverScript.Failure

/-!
# Results that may fail

What is known when a computation that may fail has succeeded: every part of it has. When it has
failed, one of its parts has, so that a computation fails over mistakes in the input only if its
parts do.

## Main definitions

* `FindsMistakes` - computations that fail over mistakes only
-/

namespace SolverScript

/-- A sequence of two computations succeeds when both do. -/
theorem bind_eq_ok_iff {ε β γ : Type} {x : Except ε β} {f : β → Except ε γ} {c : γ} :
    x >>= f = .ok c ↔ ∃ b, x = .ok b ∧ f b = .ok c := by
  cases x <;> simp [bind, Except.bind]

/-- A computation succeeds if its result is only put into another one. -/
theorem exists_bind_ok_iff {ε β γ : Type} {x : Except ε β} {f : β → γ} :
    (∃ c, (x >>= fun b => .ok (f b)) = .ok c) ↔ ∃ b, x = .ok b := by
  simp [bind_eq_ok_iff]

/-- Two computations whose results are put together succeed when both do. -/
theorem exists_bind₂_ok_iff {ε β γ δ : Type} {x : Except ε β} {y : Except ε γ} {f : β → γ → δ} :
    (∃ d, (x >>= fun b => y >>= fun c => .ok (f b c)) = .ok d) ↔
      (∃ b, x = .ok b) ∧ ∃ c, y = .ok c := by
  simp [bind_eq_ok_iff]

/-- A loop that may fail succeeds when each of its steps does. -/
theorem mapM_eq_ok_iff {ε β γ : Type} {f : β → Except ε γ} {bs : List β} {cs : List γ} :
    bs.mapM f = .ok cs ↔ List.Forall₂ (fun b c => f b = .ok c) bs cs := by
  induction bs generalizing cs with
  | nil => simp [pure, Except.pure, eq_comm]
  | cons b bs ih =>
    rw [List.mapM_cons]
    cases hb : f b with
    | error => simp [List.forall₂_cons_left_iff, hb, bind, Except.bind]
    | ok c =>
      cases hbs : bs.mapM f with
      | error =>
        have hnone : ∀ cs', ¬List.Forall₂ (fun b c => f b = .ok c) bs cs' := by
          intro cs' hcs'
          rw [← ih, hbs] at hcs'
          cases hcs'
        simp [List.forall₂_cons_left_iff, hnone, bind, Except.bind]
      | ok cs' =>
        have hunique : ∀ ds, List.Forall₂ (fun b c => f b = .ok c) bs ds ↔ cs' = ds := by
          intro ds
          rw [← ih, hbs, Except.ok.injEq]
        simp [List.forall₂_cons_left_iff, hunique, hb, bind, Except.bind, pure, Except.pure,
          eq_comm]

/-- What a loop returns comes from what it goes over. -/
theorem exists_of_mem_mapM {ε β γ : Type} {f : β → Except ε γ} {bs : List β} {cs : List γ}
    (h : bs.mapM f = .ok cs) {c : γ} (hc : c ∈ cs) : ∃ b ∈ bs, f b = .ok c := by
  have hforall := mapM_eq_ok_iff.mp h
  clear h
  induction hforall with
  | nil => cases hc
  | @cons b d _ _ hb _ ih =>
    rcases List.mem_cons.mp hc with rfl | hc
    · exact ⟨b, List.mem_cons_self, hb⟩
    · obtain ⟨b', hb', hf⟩ := ih hc
      exact ⟨b', List.mem_cons_of_mem b hb', hf⟩

/-- What a loop goes over has a result among those that it returns. -/
theorem exists_mem_of_mapM {ε β γ : Type} {f : β → Except ε γ} {bs : List β} {cs : List γ}
    (h : bs.mapM f = .ok cs) {b : β} (hb : b ∈ bs) : ∃ c ∈ cs, f b = .ok c := by
  have hforall := mapM_eq_ok_iff.mp h
  clear h
  induction hforall with
  | nil => cases hb
  | @cons d c _ _ hc _ ih =>
    rcases List.mem_cons.mp hb with rfl | hb
    · exact ⟨c, List.mem_cons_self, hc⟩
    · obtain ⟨c', hc', hf⟩ := ih hb
      exact ⟨c', List.mem_cons_of_mem c hc', hf⟩

/-- A loop whose steps all succeed does so as well. -/
theorem exists_mapM_of_forall {ε β γ : Type} {f : β → Except ε γ} {bs : List β}
    (h : ∀ b ∈ bs, ∃ c, f b = .ok c) : ∃ cs, bs.mapM f = .ok cs := by
  simp only [mapM_eq_ok_iff]
  induction bs with
  | nil => exact ⟨[], .nil⟩
  | cons b bs ih =>
    obtain ⟨⟨c, hc⟩, hbs⟩ := List.forall_mem_cons.mp h
    obtain ⟨cs, hcs⟩ := ih hbs
    exact ⟨c :: cs, .cons hc hcs⟩

/-! ### Mistakes in the input -/

/-- Whether a computation fails over mistakes in the input only. -/
def FindsMistakes {β : Type} (r : Except Failure β) : Prop :=
  ∀ f, r = .error f → f.category = .mistake

namespace FindsMistakes

variable {β γ : Type}

theorem ok (b : β) : FindsMistakes (.ok b) := nofun

theorem error {f : Failure} (h : f.category = .mistake) :
    FindsMistakes (.error f : Except Failure β) := by
  rintro _ ⟨⟩
  exact h

theorem bind {r : Except Failure β} {f : β → Except Failure γ} (hr : FindsMistakes r)
    (hf : ∀ b, FindsMistakes (f b)) : FindsMistakes (r >>= f) := by
  cases r with
  | error e => exact error (hr e rfl)
  | ok b => exact hf b

/-- The result is put into another one. -/
theorem map {r : Except Failure β} (hr : FindsMistakes r) (f : β → γ) :
    FindsMistakes (r >>= fun b => .ok (f b)) :=
  hr.bind fun b => ok (f b)

theorem forM {f : β → Except Failure Unit} (hf : ∀ b, FindsMistakes (f b)) (bs : List β) :
    FindsMistakes (bs.forM f) := by
  induction bs with
  | nil => exact ok ()
  | cons b bs ih => exact (hf b).bind fun _ => ih

/-- Without a result there is a mistake. -/
theorem exists_error {r : Except Failure β} (hr : FindsMistakes r) (h : ¬∃ b, r = .ok b) :
    ∃ f, r = .error f ∧ f.category = .mistake := by
  cases r with
  | error f => exact ⟨f, rfl, hr f rfl⟩
  | ok b => exact absurd ⟨b, rfl⟩ h

end FindsMistakes

end SolverScript
