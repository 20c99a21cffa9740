import SolverScript.Proofs.Script.CommandForms
import SolverScript.Proofs.Script.Plan

/-!
# Elementary commands

Most commands of a script stand for themselves. There are two that do not: a function that reverses,
which is defined by recursion, and the assertion that binds the universal nodes with everything that
is defined under them. Every section of a script but two is free of them.

## Main definitions

* `Command.isElementary` - the commands that are neither

## Main results

* `Plan.isElementary_opening`, `ArraySetup.isElementary_sections`, `Declaration.isElementary_symbol` -
  sections of elementary commands
-/

namespace SolverScript

/-- Whether a command neither defines a function that reverses nor binds universal nodes. -/
def Command.isElementary : Command → Bool
  | defineReversal .. | assertForAll _ => false
  | _ => true

namespace Command

theorem ne_assertForAll_of_isElementary {c : Command} (hc : c.isElementary = true)
    (block : QuantifiedBlock) : c ≠ .assertForAll block := by
  rintro rfl
  cases hc

theorem IsSetting.isElementary {c : Command} (hc : c.IsSetting) : c.isElementary = true := by
  cases hc <;> rfl

end Command

namespace Declaration

theorem isElementary_userSort (s : UserSort) : ∀ c ∈ userSort s, c.isElementary = true :=
  forall_mem_userSort rfl fun _ _ => ⟨rfl, rfl⟩

theorem isElementary_defined (c : Capabilities) (n : Node) (value : Term) (remark : String) :
    ∀ d ∈ defined c n value remark, d.isElementary = true :=
  forall_mem_defined rfl rfl rfl

theorem isElementary_constant {config : Config} {c : Constant} {cs : List Command}
    (h : constant config c = .ok cs) : ∀ d ∈ cs, d.isElementary = true :=
  forall_mem_constant h fun _ _ => isElementary_defined _ _ _ _

theorem isElementary_symbol {name remark : String} {kinds : List Kind} {cs : List Command}
    (h : symbol name kinds remark = .ok cs) : ∀ c ∈ cs, c.isElementary = true :=
  forall_mem_symbol h (fun _ _ => rfl) (fun _ => forall_mem_constantInvariants (fun _ _ => rfl)
    fun _ => rfl) fun _ _ => List.forall_mem_singleton.mpr rfl

end Declaration

theorem Scope.isElementary_definitionCommands {scope : Scope} {a : Assignment} {cs : List Command}
    (h : scope.definitionCommands a = .ok cs) : ∀ c ∈ cs, c.isElementary = true :=
  forall_mem_definitionCommands h fun _ _ _ => Declaration.isElementary_defined _ _ _ _

namespace Initializer

theorem isElementary_parts (entity : String) (i : Nat) (equations : List Term) :
    ∀ c ∈ parts entity i equations, c.isElementary = true :=
  forall_mem_parts fun _ _ _ => rfl

theorem isElementary_setup (entity : String) (count : Nat) :
    ∀ c ∈ setup entity count, c.isElementary = true :=
  forall_mem_setup (fun _ _ _ => rfl) rfl

end Initializer

theorem TableSetup.isElementary_constantCommands (t : TableSetup) :
    ∀ c ∈ t.constantCommands, c.isElementary = true :=
  List.forall_mem_cons.mpr ⟨rfl, List.forall_mem_append.mpr
    ⟨Initializer.isElementary_parts _ _ _, Initializer.isElementary_setup _ _⟩⟩

namespace ArraySetup

variable {config : Config} {constants : Constants} {skolems : SkolemMap}

theorem isElementary_declaration {term : Node → Except Failure Term} {a : ArrayDatum} {c : Command}
    (h : declaration config constants term a = .ok c) : c.isElementary = true := by
  obtain ⟨value, rfl⟩ | rfl := declaration_cases h <;> rfl

theorem isElementary_sections {isQuantified : Bool} {arrays : List ArrayDatum}
    {setups : List ArraySetup}
    (h : arrays.mapM (ofArray config isQuantified constants skolems) = .ok setups) :
    (∀ c ∈ setups.flatMap declarations, c.isElementary = true) ∧
      (∀ c ∈ setups.flatMap deferred, c.isElementary = true) ∧
      ∀ c ∈ setups.flatMap setup, c.isElementary = true :=
  forall_mem_sections h fun _ _ _ hs => forall_mem_ofArray hs rfl
    (fun _ => isElementary_declaration) (fun _ _ => rfl) fun _ =>
      Initializer.isElementary_setup _ _

end ArraySetup

namespace Plan

variable {config : Config} {p : Problem} {plan : Plan}

theorem isElementary_opening (hplan : p.IsPlan config plan) {tuples : List Command}
    (htuples : plan.features.tupleCommands = .ok tuples) :
    ∀ c ∈ plan.opening tuples, c.isElementary = true := by
  obtain ⟨query, hlogic⟩ := hplan.logic
  rw [← hplan.ofConfig] at hlogic
  simp only [opening, List.forall_mem_append, List.forall_mem_cons]
  exact ⟨⟨⟨⟨fun c hc => (isSetting_headCommands hlogic c hc).isElementary, rfl,
    List.forall_mem_flatMap.mpr fun s _ => Declaration.isElementary_userSort s⟩, rfl,
    Features.forall_mem_tupleCommands htuples fun _ => rfl⟩, rfl,
    Features.forall_mem_datatypeCommands _ rfl rfl rfl⟩, rfl, by simp⟩

theorem isElementary_trackerCommands {trackers : List Command}
    (h : plan.trackerCommands = .ok trackers) : ∀ c ∈ trackers, c.isElementary = true :=
  forall_mem_trackerCommands h rfl fun _ _ _ => Declaration.isElementary_symbol

theorem isElementary_arrayCommands (hplan : p.IsPlan config plan) :
    ∀ c ∈ plan.arrayCommands, c.isElementary = true := by
  obtain ⟨-, hdeferred, hsetup⟩ := ArraySetup.isElementary_sections hplan.arrays
  simp only [arrayCommands, List.forall_mem_append, List.forall_mem_cons]
  exact ⟨⟨⟨rfl, hdeferred⟩, rfl, hsetup⟩, rfl, by simp⟩

theorem isElementary_openCommands (plan : Plan) (skolems : SkolemMap)
    (formulas : List FinalFormula) :
    ∀ c ∈ plan.openCommands (FinalFormula.commands skolems formulas), c.isElementary = true := by
  unfold openCommands FinalFormula.commands
  simp only [List.forall_mem_append, List.forall_mem_cons, List.forall_mem_map]
  exact ⟨⟨⟨⟨rfl, rfl, by simp⟩, fun _ _ => rfl⟩, rfl, by simp⟩, fun _ _ => rfl, fun _ _ => rfl⟩

end Plan

end SolverScript
