import SolverScript.Proofs.Script.EntityVocabulary
import SolverScript.Script.OfIncrement
import SolverScript.Proofs.Script.Plan

/-!
# Names that occur in the sections of a script

Most sections of a script are made part by part, and a part mentions nothing but what it is made
from. Such a section mentions what its parts may mention, and declares what they declare.

## Main results

* `along_commandsOf`, `declared_commandsOf` - sections that are made part by part
* `Features.fits_sortCommands` - the sorts of a problem
* `Scope.along_definitionCommands` - the definition of a node
* `Plan.fits_reversalCommands`, `Plan.declared_reversalCommands` - the functions that reverse
* `FinalFormula.fits_commands` - the final assertions
-/

namespace SolverScript

variable {W : List String → Name → Prop} {known : List String} {V : Name → Prop}

/-! ### Sections made part by part -/

section

variable {β : Type} {f : β → Except Failure (List Command)} {bs : List β} {cs : List Command}
  {Q : List String → Command → Prop}

/-- A property holds along a section if it does along every part, with what the parts before it
declare. -/
theorem along_flatMap {g : β → List Command} :
    Script.Along Q known (bs.flatMap g) ↔ ∀ earlier b later, bs = earlier ++ b :: later →
      Script.Along Q (known ++ Script.declared (earlier.flatMap g)) (g b) := by
  constructor
  · rintro h earlier b later rfl
    rw [List.flatMap_append, Script.along_append, List.flatMap_cons, Script.along_append] at h
    exact h.2.1
  · intro h
    induction bs generalizing known with
    | nil => trivial
    | cons b bs ih =>
      rw [List.flatMap_cons, Script.along_append]
      refine ⟨by simpa using h [] b bs rfl, ih fun earlier c later hsplit => ?_⟩
      simpa using h (b :: earlier) c later (by rw [hsplit]; rfl)

/-- Parts that only need what is known before the section. -/
theorem along_commandsOf (h : commandsOf f bs = .ok cs)
    (hparts : ∀ b ∈ bs, ∀ ds, f b = .ok ds → ∀ known', known ⊆ known' → Script.Along Q known' ds) :
    Script.Along Q known cs := by
  induction bs generalizing cs known with
  | nil =>
    cases h
    trivial
  | cons b bs ih =>
    obtain ⟨ds, es, hds, hes, rfl⟩ := commandsOf_cons.mp h
    rw [Script.along_append]
    refine ⟨hparts b List.mem_cons_self ds hds known (List.Subset.refl known), ih hes ?_⟩
    intro c hc ds hds known' hknown
    exact hparts c (List.mem_cons_of_mem b hc) ds hds known'
      (fun x hx => hknown (List.mem_append_left _ hx))

/-- Parts that may need what the parts before them declare. -/
theorem along_commandsOf_iff {g : β → List String}
    (hg : ∀ b ∈ bs, ∀ ds, f b = .ok ds → Script.declared ds = g b) (h : commandsOf f bs = .ok cs) :
    Script.Along Q known cs ↔ ∀ earlier b later, bs = earlier ++ b :: later →
      ∀ ds, f b = .ok ds → Script.Along Q (known ++ earlier.flatMap g) ds := by
  induction bs generalizing cs known with
  | nil =>
    cases h
    exact iff_of_true trivial fun _ _ _ hsplit => by simp at hsplit
  | cons b bs ih =>
    obtain ⟨ds, es, hds, hes, rfl⟩ := commandsOf_cons.mp h
    rw [Script.along_append, ih (fun c hc => hg c (List.mem_cons_of_mem b hc)) hes,
      hg b List.mem_cons_self ds hds]
    constructor
    · rintro ⟨hfirst, hrest⟩ earlier c later hsplit ds' hds'
      cases earlier with
      | nil =>
        obtain ⟨rfl, rfl⟩ := List.cons.inj hsplit
        cases hds.symm.trans hds'
        simpa using hfirst
      | cons b' earlier =>
        obtain ⟨rfl, rfl⟩ := List.cons.inj hsplit
        simpa using hrest earlier c later rfl ds' hds'
    · intro hparts
      refine ⟨by simpa using hparts [] b bs rfl ds hds, fun earlier c later hsplit ds' hds' => ?_⟩
      simpa using hparts (b :: earlier) c later (by rw [hsplit]; rfl) ds' hds'

theorem declared_commandsOf {g : β → List String} (h : commandsOf f bs = .ok cs)
    (hg : ∀ b ∈ bs, ∀ ds, f b = .ok ds → Script.declared ds = g b) :
    Script.declared cs = bs.flatMap g := by
  induction bs generalizing cs with
  | nil =>
    cases h
    rfl
  | cons b bs ih =>
    obtain ⟨ds, es, hds, hes, rfl⟩ := commandsOf_cons.mp h
    rw [Script.declared_append, hg b List.mem_cons_self ds hds,
      ih hes fun c hc => hg c (List.mem_cons_of_mem b hc), List.flatMap_cons]

variable {γ : Type} {made : β → Except Failure γ} {made' : List γ} {part : γ → List Command}
  {g : β → List String}

/-- A section that is made from what has been made of each part before. -/
theorem commandsOf_of_mapM (h : bs.mapM made = .ok made') :
    commandsOf (fun b => do return part (← made b)) bs = .ok (made'.flatMap part) := by
  have hmade := mapM_eq_ok_iff.mp h
  clear h
  induction hmade with
  | nil => rfl
  | cons hb _ ih => exact commandsOf_cons.mpr ⟨_, _, by rw [hb]; rfl, ih, rfl⟩

theorem part_eq_ok_iff {b : β} {ds : List Command} :
    (do return part (← made b) : Except Failure _) = .ok ds ↔ ∃ c, made b = .ok c ∧ part c = ds :=
  bind_eq_ok_iff.trans (exists_congr fun _ => and_congr_right fun _ =>
    ⟨Except.ok.inj, congrArg Except.ok⟩)

theorem along_mapM_iff (hg : ∀ b c, made b = .ok c → Script.declared (part c) = g b)
    (h : bs.mapM made = .ok made') :
    Script.Along Q known (made'.flatMap part) ↔ ∀ earlier b later, bs = earlier ++ b :: later →
      ∀ c, made b = .ok c → Script.Along Q (known ++ earlier.flatMap g) (part c) := by
  rw [along_commandsOf_iff (g := g) (fun b _ ds hds => ?_) (commandsOf_of_mapM h)]
  · simp only [part_eq_ok_iff, forall_exists_index, and_imp, forall_apply_eq_imp_iff₂]
  · obtain ⟨c, hc, rfl⟩ := part_eq_ok_iff.mp hds
    exact hg b c hc

theorem declared_mapM (hg : ∀ b c, made b = .ok c → Script.declared (part c) = g b)
    (h : bs.mapM made = .ok made') : Script.declared (made'.flatMap part) = bs.flatMap g := by
  refine declared_commandsOf (commandsOf_of_mapM h) fun b _ ds hds => ?_
  obtain ⟨c, hc, rfl⟩ := part_eq_ok_iff.mp hds
  exact hg b c hc

end

/-! ### Settings -/

/-- Whether a command neither mentions nor declares anything. -/
structure Command.IsBare (c : Command) : Prop where
  names : c.names = []
  declares : c.declares = []

namespace Command.IsBare

theorem fits {c : Command} (hc : c.IsBare) : c.Fits W known :=
  fits_of_names hc.declares (by simp [hc.names])

@[simp] theorem note (text : String) : (Command.note text).IsBare := ⟨rfl, rfl⟩

@[simp] theorem setting (line : String) : (Command.setting line).IsBare := ⟨rfl, rfl⟩

@[simp] theorem postulate (p : Postulate) : (Command.postulate p).IsBare := ⟨rfl, rfl⟩

end Command.IsBare

theorem Command.IsSetting.isBare {c : Command} (hc : c.IsSetting) : c.IsBare := by
  cases hc <;> exact ⟨rfl, rfl⟩

theorem Plan.isBare_headCommands {plan : Plan} {query : LogicQuery}
    (h : query.choose plan.config = .ok plan.logic) : ∀ c ∈ plan.headCommands, c.IsBare :=
  fun c hc => (Plan.isSetting_headCommands h c hc).isBare

/-! ### Sorts and data types -/

theorem Features.fits_sortCommands (hW : Scoping W) {f : Features}
    (hsorts : ∀ s ∈ f.userSorts, W known (.sort s.name) ∧
      ∀ cs ∈ s.constructors, ∀ c ∈ cs, W known (.function c)) :
    ∀ c ∈ f.sortCommands, c.Fits W known :=
  List.forall_mem_flatMap.mpr fun s hs =>
    Declaration.fits_userSort hW (hsorts s hs).1 (hsorts s hs).2

theorem Features.fits_tupleCommands (hW : Scoping W) {f : Features} {cs : List Command}
    (h : f.tupleCommands = .ok cs) : ∀ c ∈ cs, c.Fits W known :=
  forall_mem_tupleCommands h fun arity => Command.fits_declareTuple hW arity

/-! ### Nodes -/

theorem Scope.along_definitionCommands (hW : Scoping W) {scope : Scope} {a : Assignment}
    {cs : List Command} (h : scope.definitionCommands a = .ok cs)
    (hkind : a.node.kind.Over (W known))
    (hvalue : ResultOver (W known) (scope.term a.operation)) :
    Script.Along (Command.Fits W) known cs := by
  obtain ⟨⟨value, label?⟩, hdefinition, h⟩ := bind_eq_ok_iff.mp h
  cases h
  exact Declaration.along_defined hW hkind (hvalue value (term_of_definition hdefinition))

theorem Scope.declared_definitionCommands {scope : Scope} {a : Assignment} {cs : List Command}
    (h : scope.definitionCommands a = .ok cs) : Script.declared cs = [a.node.name] := by
  obtain ⟨⟨value, label?⟩, -, h⟩ := bind_eq_ok_iff.mp h
  cases h
  simp

/-! ### Reversals -/

namespace Plan

theorem perm_placeReversal (r : Reversible × String) (rs : List (Reversible × String)) :
    (placeReversal r rs).Perm (r :: rs) := by
  induction rs with
  | nil => exact .refl _
  | cons s ss ih =>
    rw [placeReversal]
    split
    · exact .refl _
    · exact (ih.cons s).trans (.swap r s ss)

theorem perm_sortedReversals (rs : List (Reversible × String)) :
    (rs.foldr placeReversal []).Perm rs := by
  induction rs with
  | nil => exact .refl _
  | cons r rs ih => exact (perm_placeReversal r _).trans (ih.cons r)

/-- What is reversed gets one of the generated names. -/
theorem mem_reversals_iff {plan : Plan} {what : Reversible} {name : String} :
    (what, name) ∈ plan.reversals ↔
      ∃ i, plan.features.reversals[i]? = some what ∧ name = reversalName i := by
  simp only [reversals, List.mem_map, Prod.exists, Prod.mk.injEq, List.mk_mem_zipIdx_iff_getElem?]
  constructor
  · rintro ⟨r, i, hi, rfl, rfl⟩
    exact ⟨i, hi, rfl⟩
  · rintro ⟨i, hi, rfl⟩
    exact ⟨what, i, hi, rfl, rfl⟩

theorem fits_reversalCommands (hW : Scoping W) {plan : Plan}
    (hkinds : ∀ what ∈ plan.features.reversals, what.kind.Over (W known)) :
    ∀ c ∈ plan.reversalCommands, c.Fits W known := by
  refine plan.forall_mem_reversalCommands (by simp) fun ⟨what, name⟩ hmem => ?_
  obtain ⟨i, hi, rfl⟩ := mem_reversals_iff.mp ((perm_sortedReversals _).mem_iff.mp hmem)
  exact hW.fits_of_symbol (.reversal i) rfl
    (Reversible.forall_mem_names (hW.vocabulary known) (hkinds what (List.mem_of_getElem? hi)) _)

theorem declared_reversalCommands (plan : Plan) :
    (Script.declared plan.reversalCommands).Perm
      ((List.range plan.features.reversals.length).map reversalName) := by
  have hdeclared : Script.declared plan.reversalCommands =
      (plan.reversals.foldr placeReversal []).map Prod.snd := by
    unfold reversalCommands
    generalize plan.reversals.foldr placeReversal [] = sorted
    have hnotes : Script.declared
        (if sorted.isEmpty then [] else [.note "--- SBV Function definitions"]) = [] := by
      split <;> rfl
    rw [Script.declared_append, hnotes, List.nil_append, Script.declared, List.flatMap_map]
    exact List.flatMap_pure_eq_map _ _
  have hnames : plan.reversals.map Prod.snd =
      (List.range plan.features.reversals.length).map reversalName := by
    rw [reversals, List.range_eq_range', ← List.zipIdx_map_snd 0, List.map_map, List.map_map]
    rfl
  rw [hdeclared, ← hnames]
  exact (perm_sortedReversals _).map _

end Plan

/-! ### Final assertions -/

namespace FinalFormula

/-- The final assertions mention their literals and the keywords of attributes. -/
theorem fits_commands (hV : Vocabulary (W known)) {skolems : SkolemMap}
    {formulas : List FinalFormula}
    (hliterals : ∀ f ∈ formulas, (skolems.nodeTerm f.literal.node).Over (W known))
    (hattributes : ∀ f ∈ formulas, ∀ a ∈ f.attributes, W known (.keyword a.1)) :
    ∀ c ∈ commands skolems formulas, c.Fits W known := by
  have hterm : ∀ f ∈ formulas, (f.term skolems).Over (W known) := by
    intro f hf
    refine Term.over_withAttributes ?_ (hattributes f hf)
    unfold Literal.term
    split
    · exact hV.over_negation (hliterals f hf)
    · exact hliterals f hf
  unfold commands
  simp only [List.forall_mem_append, List.forall_mem_map, Command.fits_assert,
    Command.fits_assertSoft]
  exact ⟨fun f hf => hterm f (List.mem_filter.mp hf).1, fun f hf => hterm f (List.mem_filter.mp hf).1⟩

end FinalFormula

end SolverScript
