import Mathlib.Data.List.Induction
import SolverScript.Trace.Registry

/-!
# Histories of the trace

The trace is set up, torn down, and changed by calls that enable and disable what a name stands for.
A name that stands for nothing makes a call fail, and a failed call changes nothing. After any
number of calls an option is enabled when the last successful call that was about it has enabled it.

## Main definitions

* `TraceCall` - the calls, with `TraceCall.IsAccepted`, `TraceCall.Affects` and `TraceCall.Enables`
* `Registry.respond`, `Registry.after` - what a call and what a history of calls does
* `Registry.IsConsistent` - what is always the case

## Main results

* `Registry.enabled_respond` - what one call does to an option
* `Registry.consistent_after` - what a history has done to all options
-/

namespace SolverScript

namespace TraceOption

/-! ### Names -/

theorem mem_every (o : TraceOption) : o ∈ every := by
  cases o <;> decide

/-- A name that stands for options: that of one of them, or of a component other than the one whose
options speak of all others. -/
def IsKnown (name : String) : Prop :=
  ∃ o : TraceOption, name = o.name ∨ name = o.component ∧ name ≠ "SMTG"

instance (name : String) : Decidable (IsKnown name) :=
  decidable_of_iff (∃ o ∈ every, name = o.name ∨ name = o.component ∧ name ≠ "SMTG")
    ⟨fun ⟨o, _, h⟩ => ⟨o, h⟩, fun ⟨o, h⟩ => ⟨o, mem_every o, h⟩⟩

/-- The option for nothing and its like do not form a component. -/
theorem not_isKnown_global : ¬IsKnown "SMTG" := by decide

/-- The name of an option has a dot, that of a component has none. -/
theorem name_ne_component (o o' : TraceOption) : o.name ≠ o'.component := by
  have hdot : '.' ∈ o.name.toList := by simp [name]
  have hnone : '.' ∉ o'.component.toList := by cases o' <;> decide
  exact fun h => hnone (h ▸ hdot)

theorem ofName?_name (o : TraceOption) : ofName? o.name = some o := by
  cases o <;> decide

theorem name_injective : Function.Injective name := by
  intro o o' h
  exact Option.some.inj (by rw [← ofName?_name o, h, ofName?_name])

theorem mem_ofComponent_iff {name : String} {o : TraceOption} :
    o ∈ ofComponent name ↔ name = o.component ∧ name ≠ "SMTG" := by
  by_cases hglobal : name = "SMTG"
  · simp [ofComponent, hglobal]
  · rw [ofComponent, if_neg (mt beq_iff_eq.mp hglobal), List.mem_filter, beq_iff_eq]
    exact ⟨fun h => ⟨h.2.symm, hglobal⟩, fun h => ⟨mem_every o, h.1.symm⟩⟩

/-- A name stands for an option, for the options of a component, or for nothing. -/
theorem resolve_cases (name : String) :
    (∃ o : TraceOption, name = o.name ∧ resolve name = .ok [o]) ∨
    ((∀ o : TraceOption, name ≠ o.name) ∧ IsKnown name ∧
      resolve name = .ok (ofComponent name)) ∨
    (¬IsKnown name ∧
      resolve name = .error (.unknownTraceOption name (every.map TraceOption.name))) := by
  by_cases hname : ∃ o : TraceOption, name = o.name
  · obtain ⟨o, rfl⟩ := hname
    exact .inl ⟨o, rfl, by simp only [resolve, ofName?_name]⟩
  · have hnone : ofName? name = Option.none :=
      List.find?_eq_none.mpr fun o _ h => hname ⟨o, (beq_iff_eq.mp h).symm⟩
    have hno : ∀ o : TraceOption, name ≠ o.name := fun o h => hname ⟨o, h⟩
    have hknown : IsKnown name ↔ ofComponent name ≠ [] := by
      simp only [IsKnown, hno, false_or, ← mem_ofComponent_iff]
      exact ⟨fun ⟨o, ho⟩ => List.ne_nil_of_mem ho, List.exists_mem_of_ne_nil _⟩
    cases hoptions : ofComponent name with
    | nil =>
      exact .inr (.inr ⟨fun h => hknown.mp h hoptions, by simp only [resolve, hnone, hoptions]⟩)
    | cons o os =>
      exact .inr (.inl ⟨hno, hknown.mpr (by simp [hoptions]),
        by simp only [resolve, hnone, hoptions]⟩)

end TraceOption

/-! ### Calls -/

/-- A call that changes the trace. -/
inductive TraceCall where
  | setUp
  | tearDown
  | enable (name : String)
  | disable (name : String)
  deriving DecidableEq, Repr

namespace TraceCall

/-- Whether a call succeeds: a name that it takes has to stand for something. -/
def IsAccepted : TraceCall → Prop
  | setUp | tearDown => True
  | enable name | disable name => TraceOption.IsKnown name

/-- Whether a call is about an option. Everything and nothing are about all options where they are
enabled, and about themselves alone where they are disabled. -/
def Affects (o : TraceOption) : TraceCall → Prop
  | setUp | tearDown => True
  | enable name =>
    name = o.name ∨ name = o.component ∨ name = TraceOption.all.name ∨ name = TraceOption.none.name
  | disable name => name = o.name ∨ name = o.component

/-- Whether a call enables an option. -/
def Enables (o : TraceOption) : TraceCall → Prop
  | enable name => name = o.name ∨ name = o.component ∨ name = TraceOption.all.name
  | _ => False

instance : DecidablePred IsAccepted
  | setUp | tearDown => inferInstanceAs (Decidable True)
  | enable name | disable name => inferInstanceAs (Decidable (TraceOption.IsKnown name))

instance (o : TraceOption) : DecidablePred (Affects o)
  | setUp | tearDown => inferInstanceAs (Decidable True)
  | enable _ => inferInstanceAs (Decidable (_ ∨ _ ∨ _ ∨ _))
  | disable _ => inferInstanceAs (Decidable (_ ∨ _))

/-- Nothing is not among the names that enable an option other than the one for nothing. -/
theorem ne_none_of_enables {o : TraceOption} (ho : o ≠ .none) {name : String}
    (h : Enables o (enable name)) : name ≠ TraceOption.none.name := by
  rcases h with rfl | rfl | rfl
  · exact TraceOption.name_injective.ne ho
  · exact (TraceOption.name_ne_component _ _).symm
  · exact TraceOption.name_injective.ne (by decide)

end TraceCall

namespace Registry

/-- The state after a call, with its failure if it has one. A failed call changes nothing. -/
def respond (r : Registry) (call : TraceCall) : Registry × Option Failure :=
  let answer := fun
    | .ok r' => (r', none)
    | .error failure => (r, some failure)
  match call with
  | .setUp | .tearDown => (empty, none)
  | .enable name => answer (r.enable name)
  | .disable name => answer (r.disable name)

/-- The state after a history of calls. -/
def after (calls : List TraceCall) : Registry :=
  calls.foldl (fun r call => (r.respond call).1) empty

/-- Options are enabled one by one, unless the option for nothing or for everything is. -/
theorem turnOn_of_ne {options : List TraceOption} (hnone : options ≠ [.none])
    (hall : options ≠ [.all]) (r : Registry) :
    r.turnOn options = ⟨fun o => options.contains o || r.enabled o, false⟩ := by
  unfold turnOn
  split
  · exact absurd rfl hnone
  · exact absurd rfl hall
  · rfl

/-- Enabling fails for unknown names. Otherwise it silences the trace, or it ends the silence and
enables what the name stands for. -/
theorem enable_cases (r : Registry) (name : String) :
    (TraceOption.IsKnown name ∧ ∃ r', r.enable name = .ok r' ∧
      (r'.silenced = true ↔ name = TraceOption.none.name) ∧
      ∀ o, r'.enabled o = true ↔ name ≠ TraceOption.none.name ∧
        (name = o.name ∨ name = o.component ∨ name = TraceOption.all.name ∧ o ≠ .none ∨
          r.enabled o = true)) ∨
    (¬TraceOption.IsKnown name ∧ r.enable name =
      .error (.unknownTraceOption name (TraceOption.every.map TraceOption.name))) := by
  rcases TraceOption.resolve_cases name with ⟨o, rfl, h⟩ | ⟨hname, hknown, h⟩ | ⟨hunknown, h⟩
  · refine .inl ⟨⟨o, .inl rfl⟩, r.turnOn [o], by simp only [enable, h]; rfl, ?_⟩
    simp only [TraceOption.name_injective.eq_iff, TraceOption.name_ne_component, ne_eq, false_or]
    by_cases hnone : o = .none
    · simp [hnone, turnOn]
    by_cases hall : o = .all
    · simp [hall, turnOn]
    · rw [turnOn_of_ne (by simpa using hnone) (by simpa using hall)]
      simp only [hnone, hall, List.contains_cons, List.contains_nil, Bool.or_false,
        Bool.or_eq_true, beq_iff_eq, not_false_eq_true, true_and, false_and, false_or,
        Bool.false_eq_true]
      exact fun o' => or_congr_left eq_comm
  · refine .inl ⟨hknown, r.turnOn (TraceOption.ofComponent name),
      by simp only [enable, h]; rfl, ?_⟩
    -- The options of a component do not speak of all others, so they are enabled one by one.
    have hglobal : ∀ o : TraceOption, o.component = "SMTG" →
        TraceOption.ofComponent name ≠ [o] := by
      intro o ho heq
      have hmem := TraceOption.mem_ofComponent_iff.mp (heq ▸ List.mem_singleton_self o)
      exact hmem.2 (hmem.1.trans ho)
    rw [turnOn_of_ne (hglobal _ rfl) (hglobal _ rfl)]
    have hne : name ≠ "SMTG" := fun heq => TraceOption.not_isKnown_global (heq ▸ hknown)
    simp [hname, TraceOption.mem_ofComponent_iff, hne]
  · exact .inr ⟨hunknown, by simp only [enable, h]; rfl⟩

/-- Disabling fails for unknown names. Otherwise it takes away what the name stands for. -/
theorem disable_cases (r : Registry) (name : String) :
    (TraceOption.IsKnown name ∧ ∃ r', r.disable name = .ok r' ∧ r'.silenced = r.silenced ∧
      ∀ o, r'.enabled o = true ↔ r.enabled o = true ∧ name ≠ o.name ∧ name ≠ o.component) ∨
    (¬TraceOption.IsKnown name ∧ r.disable name =
      .error (.unknownTraceOption name (TraceOption.every.map TraceOption.name))) := by
  rcases TraceOption.resolve_cases name with ⟨o, rfl, h⟩ | ⟨hname, hknown, h⟩ | ⟨hunknown, h⟩
  · refine .inl ⟨⟨o, .inl rfl⟩, ⟨fun o' => r.enabled o' && !([o].contains o'), r.silenced⟩,
      by simp only [disable, h]; rfl, rfl, fun o' => ?_⟩
    simp [TraceOption.name_injective.eq_iff, TraceOption.name_ne_component, ne_comm]
  · refine .inl ⟨hknown,
      ⟨fun o => r.enabled o && !(TraceOption.ofComponent name).contains o, r.silenced⟩,
      by simp only [disable, h]; rfl, rfl, fun o => ?_⟩
    have hne : name ≠ "SMTG" := fun heq => TraceOption.not_isKnown_global (heq ▸ hknown)
    simp [hname, TraceOption.mem_ofComponent_iff, hne]
  · exact .inr ⟨hunknown, by simp only [disable, h]; rfl⟩

/-- What is always the case: the option for nothing is never enabled itself, and a silenced trace
has no enabled options. -/
structure IsConsistent (r : Registry) : Prop where
  none_disabled : r.enabled .none = false
  of_silenced : r.silenced = true → ∀ o, r.enabled o = false

theorem isConsistent_empty : empty.IsConsistent := ⟨rfl, fun _ _ => rfl⟩

theorem IsConsistent.respond {r : Registry} (h : r.IsConsistent) (call : TraceCall) :
    (r.respond call).1.IsConsistent := by
  cases call with
  | setUp => exact isConsistent_empty
  | tearDown => exact isConsistent_empty
  | enable name =>
    rcases r.enable_cases name with ⟨hknown, r', hr', hsilenced, henabled⟩ | ⟨-, herror⟩
    · have hresult : (r.respond (.enable name)).1 = r' := by simp only [Registry.respond, hr']
      have hglobal : name ≠ TraceOption.none.component := by
        rintro rfl
        exact TraceOption.not_isKnown_global hknown
      rw [hresult]
      refine ⟨Bool.eq_false_iff.mpr fun hnone => ?_, fun hs o => Bool.eq_false_iff.mpr fun ho => ?_⟩
      · obtain ⟨hname, hcases⟩ := (henabled .none).mp hnone
        simp [hname, hglobal, h.none_disabled] at hcases
      · exact ((henabled o).mp ho).1 (hsilenced.mp hs)
    · simpa only [Registry.respond, herror] using h
  | disable name =>
    rcases r.disable_cases name with ⟨-, r', hr', hsilenced, henabled⟩ | ⟨-, herror⟩
    · have hresult : (r.respond (.disable name)).1 = r' := by simp only [Registry.respond, hr']
      have hkept : ∀ o, r.enabled o = false → r'.enabled o = false := fun o ho =>
        Bool.eq_false_iff.mpr fun ho' => Bool.eq_false_iff.mp ho ((henabled o).mp ho').1
      rw [hresult]
      exact ⟨hkept _ h.none_disabled, fun hs o => hkept o (h.of_silenced (hsilenced ▸ hs) o)⟩
    · simpa only [Registry.respond, herror] using h

/-- What a call does to an option other than the one for nothing. -/
theorem enabled_respond {o : TraceOption} (ho : o ≠ .none) (r : Registry) (call : TraceCall) :
    (r.respond call).1.enabled o = true ↔
      if call.IsAccepted ∧ call.Affects o then call.Enables o else r.enabled o = true := by
  cases call with
  | setUp => simp [respond, TraceCall.IsAccepted, TraceCall.Affects, TraceCall.Enables, empty]
  | tearDown => simp [respond, TraceCall.IsAccepted, TraceCall.Affects, TraceCall.Enables, empty]
  | enable name =>
    rcases r.enable_cases name with ⟨hknown, r', hr', -, henabled⟩ | ⟨hunknown, herror⟩
    · have hresult : (r.respond (.enable name)).1 = r' := by simp only [respond, hr']
      rw [hresult, henabled]
      by_cases haffects : TraceCall.Affects o (.enable name)
      · rw [if_pos ⟨hknown, haffects⟩]
        constructor
        · rintro ⟨hname, -⟩
          rcases haffects with h | h | h | h
          · exact .inl h
          · exact .inr (.inl h)
          · exact .inr (.inr h)
          · exact absurd h hname
        · intro h
          exact ⟨TraceCall.ne_none_of_enables ho h, by rcases h with h | h | h <;> simp [h, ho]⟩
      · rw [if_neg fun h => haffects h.2]
        simp only [TraceCall.Affects, not_or] at haffects
        simp [haffects]
    · simp [respond, herror, TraceCall.IsAccepted, hunknown]
  | disable name =>
    rcases r.disable_cases name with ⟨hknown, r', hr', -, henabled⟩ | ⟨hunknown, herror⟩
    · have hresult : (r.respond (.disable name)).1 = r' := by simp only [respond, hr']
      rw [hresult, henabled]
      by_cases haffects : TraceCall.Affects o (.disable name)
      · rw [if_pos ⟨hknown, haffects⟩]
        refine iff_of_false ?_ id
        rintro ⟨-, hname, hcomponent⟩
        exact haffects.elim hname hcomponent
      · rw [if_neg fun h => haffects h.2]
        simp only [TraceCall.Affects, not_or] at haffects
        simp [haffects]
    · simp [respond, herror, TraceCall.IsAccepted, hunknown]

/-! ### Histories -/

theorem after_concat (calls : List TraceCall) (call : TraceCall) :
    after (calls ++ [call]) = ((after calls).respond call).1 := by
  simp only [after, List.foldl_append, List.foldl_cons, List.foldl_nil]

theorem isConsistent_after (calls : List TraceCall) : (after calls).IsConsistent := by
  induction calls using List.reverseRecOn with
  | nil => exact isConsistent_empty
  | append_singleton calls call ih => exact after_concat calls call ▸ ih.respond call

/-- The last successful call of a history that was about an option. -/
def lastAffecting (o : TraceOption) (calls : List TraceCall) : Option TraceCall :=
  (calls.filter fun call => call.IsAccepted ∧ call.Affects o).getLast?

theorem enabled_after_iff {o : TraceOption} (ho : o ≠ .none) (calls : List TraceCall) :
    (after calls).enabled o = true ↔
      ∃ call, lastAffecting o calls = some call ∧ call.Enables o := by
  -- A further call is the last one about the option, or leaves it as it was.
  induction calls using List.reverseRecOn with
  | nil => simp [after, empty, lastAffecting]
  | append_singleton calls call ih =>
    rw [after_concat, enabled_respond ho]
    unfold lastAffecting at ih ⊢
    by_cases hcall : call.IsAccepted ∧ call.Affects o
    · simp [List.filter_append, hcall]
    · simp [List.filter_append, hcall, ih]

/-- An option is shown under its name when it is enabled; a silenced trace has no such option. -/
theorem IsConsistent.shows_name_iff {r : Registry} (h : r.IsConsistent) (o : TraceOption) :
    r.shows o.name = true ↔ r.enabled o = true := by
  simp only [shows, TraceOption.ofName?_name, Bool.and_eq_true, Bool.not_eq_true',
    and_iff_right_iff_imp]
  intro ho
  by_contra hsilenced
  have hdisabled := h.of_silenced (by simpa using hsilenced) o
  rw [hdisabled] at ho
  cases ho

theorem mem_enabledNames_iff {r : Registry} {name : String} :
    name ∈ r.enabledNames ↔ ∃ o, r.enabled o = true ∧ o.name = name := by
  simp [enabledNames, TraceOption.mem_every]

/-- A name that stands for nothing makes a call fail, which changes nothing. -/
theorem respond_of_not_isKnown {name : String} (h : ¬TraceOption.IsKnown name) (r : Registry)
    {call : TraceCall} (hcall : call = .enable name ∨ call = .disable name) :
    r.respond call =
      (r, some (.unknownTraceOption name (TraceOption.every.map TraceOption.name))) := by
  rcases hcall with rfl | rfl
  · rcases r.enable_cases name with ⟨hknown, -⟩ | ⟨-, herror⟩
    · exact absurd hknown h
    · simp only [respond, herror]
  · rcases r.disable_cases name with ⟨hknown, -⟩ | ⟨-, herror⟩
    · exact absurd hknown h
    · simp only [respond, herror]

/-- After every history, the enabled options are registered ones other than the one for nothing, and
there are none while the trace is silenced; unknown names fail without a change; and an option is
enabled when the last successful call about it has enabled it. -/
theorem consistent_after (calls : List TraceCall) :
    (∀ name ∈ (after calls).enabledNames,
      (∃ o : TraceOption, o.name = name) ∧ name ≠ TraceOption.none.name) ∧
    ((after calls).silenced = true → (after calls).enabledNames = []) ∧
    (∀ name call, ¬TraceOption.IsKnown name → call = .enable name ∨ call = .disable name →
      (after calls).respond call =
        (after calls,
          some (.unknownTraceOption name (TraceOption.every.map TraceOption.name)))) ∧
    ∀ o : TraceOption, o ≠ .none →
      ((after calls).shows o.name = true ↔ o.name ∈ (after calls).enabledNames) ∧
      ((after calls).shows o.name = true ↔
        ∃ call, lastAffecting o calls = some call ∧ call.Enables o) := by
  have hconsistent := isConsistent_after calls
  refine ⟨fun name hname => ?_, fun hsilenced => ?_, fun name call hname hcall =>
    respond_of_not_isKnown hname _ hcall, fun o ho => ⟨?_, ?_⟩⟩
  · obtain ⟨o, ho, rfl⟩ := mem_enabledNames_iff.mp hname
    refine ⟨⟨o, rfl⟩, TraceOption.name_injective.ne ?_⟩
    rintro rfl
    rw [hconsistent.none_disabled] at ho
    cases ho
  · refine List.eq_nil_iff_forall_not_mem.mpr fun name hname => ?_
    obtain ⟨o, ho, -⟩ := mem_enabledNames_iff.mp hname
    rw [hconsistent.of_silenced hsilenced] at ho
    cases ho
  · rw [hconsistent.shows_name_iff, mem_enabledNames_iff]
    exact ⟨fun h => ⟨o, h, rfl⟩, fun ⟨o', h, hname⟩ => TraceOption.name_injective hname ▸ h⟩
  · rw [hconsistent.shows_name_iff, enabled_after_iff ho]

/-- Everything is enabled, one component disabled, one of its options enabled again; the call in
between fails. -/
def everythingButOneComponent : List TraceCall :=
  [.enable "SMTG.All", .disable "Compiler", .enable "SMTG", .enable "Compiler.Logic"]

theorem shows_after_everythingButOneComponent :
    (after everythingButOneComponent).respond (.disable "SMTG") =
      (after everythingButOneComponent,
        some (.unknownTraceOption "SMTG" (TraceOption.every.map TraceOption.name))) ∧
    (after everythingButOneComponent).shows TraceOption.logic.name = true ∧
    (after everythingButOneComponent).shows TraceOption.script.name = false := by
  obtain ⟨-, -, hunknown, hlast⟩ := consistent_after everythingButOneComponent
  refine ⟨hunknown _ _ TraceOption.not_isKnown_global (.inr rfl),
    (hlast .logic (by decide)).2.mpr ⟨.enable "Compiler.Logic", by decide, .inl rfl⟩,
    Bool.eq_false_iff.mpr fun hshows => ?_⟩
  obtain ⟨call, hcall, henables⟩ := (hlast .script (by decide)).2.mp hshows
  have hdisable : lastAffecting .script everythingButOneComponent = some (.disable "Compiler") := by
    decide
  rw [hdisable] at hcall
  cases hcall
  exact henables

end Registry

end SolverScript
