import Mathlib.Data.List.Infix
import SolverScript.Proofs.Script.EntityVocabulary

/-!
# Unfolding of initializers

Tables and arrays are set up by equations that have names of their own: each equation is defined as
an initializer, all those of an entity are defined together as another one, and that one is
asserted. What a script asserts with these names replaced by what they stand for does not depend on
how the equations are split into definitions.

## Main definitions

* `Script.unfolded` - what a script asserts, with the names of initializers unfolded
* `Theory.InterpretsCore` - the connectives mean what they should

## Main results

* `Script.unfolded_append` - what is asserted at the end depends on the initializers before
* `TableSetup.holds_unfolded_iff` - the initializers of a table assert its equations
* `ArraySetup.unfolded_setup_congr` - the assertions for arrays depend on their own initializers
-/

namespace SolverScript

variable {α : Type} {T : Theory α} {I : Interpretation α} {D E : List (String × Term)}

/-- Whether a name is one that belongs to initializers. -/
@[irreducible]
def isInitializerName (name : String) : Bool := decide ("_initializer".toList <:+: name.toList)

theorem isInitializerName_iff {name : String} :
    isInitializerName name = true ↔ "_initializer".toList <:+: name.toList := by
  rw [isInitializerName, decide_eq_true_iff]

namespace Term

/-- A symbol is replaced by what it is defined as. -/
def resolved (definitions : List (String × Term)) : Term → Term
  | symbol s => (definitions.lookup s).getD (symbol s)
  | t => t

/-- A symbol is replaced by what it is defined as, where other symbols are replaced in their turn. A
definition is another symbol, or it joins several of them. -/
def unfolded (definitions : List (String × Term)) : Term → Term
  | symbol s =>
    match definitions.lookup s with
    | some (app f ts) => app f (ts.map (resolved definitions))
    | some t => t.resolved definitions
    | none => symbol s
  | t => t

theorem apply_of_ne_nil {name : String} {ts : List Term} (h : ts ≠ []) :
    apply name ts = app (symbol name) ts := applyTo_of_ne_nil h

theorem unfolded_of_ne_symbol {t : Term} (h : ∀ s, t ≠ symbol s) : t.unfolded D = t := by
  cases t with
  | symbol s => exact absurd rfl (h s)
  | _ => rfl

end Term

/-- The definition of an initializer. -/
def Command.initializer? : Command → Option (String × Term)
  | defineFun name _ value _ => if isInitializerName name then some (name, value) else none
  | _ => none

theorem Command.mem_declares_of_initializer? {c : Command} {entry : String × Term}
    (h : c.initializer? = some entry) : entry.1 ∈ c.declares := by
  cases c with
  | defineFun name sort value remark =>
    obtain ⟨-, h⟩ := Option.ite_none_right_eq_some.mp h
    cases h
    exact List.mem_singleton_self _
  | _ => cases h

/-- Whether a command has nothing to do with initializers: it defines none and asserts none. -/
structure Command.IsTransparent (c : Command) : Prop where
  initializer? : c.initializer? = none
  ne_symbol : ∀ t ∈ c.required, ∀ s, t ≠ .symbol s

namespace Script

/-- The definitions of initializers in a script, in order. -/
def initializers (commands : List Command) : List (String × Term) :=
  commands.filterMap Command.initializer?

/-- What a script asserts after some definitions of initializers, the latest of them first. The
names of initializers are replaced by what they are defined as at that point. -/
def unfolded (definitions : List (String × Term)) : List Command → List Term
  | [] => []
  | c :: cs =>
    c.required.map (Term.unfolded definitions) ++
      unfolded (c.initializer?.toList ++ definitions) cs

theorem unfolded_note (text : String) (cs : List Command) :
    unfolded D (.note text :: cs) = unfolded D cs := rfl

theorem initializers_append (cs ds : List Command) :
    initializers (cs ++ ds) = initializers cs ++ initializers ds :=
  List.filterMap_append

theorem unfolded_append (cs ds : List Command) :
    unfolded D (cs ++ ds) = unfolded D cs ++ unfolded ((initializers cs).reverse ++ D) ds := by
  induction cs generalizing D with
  | nil => rfl
  | cons c cs ih =>
    have hreverse : (initializers (c :: cs)).reverse =
        (initializers cs).reverse ++ c.initializer?.toList := by
      unfold initializers
      rw [List.filterMap_cons]
      cases c.initializer? <;> simp
    rw [hreverse, List.cons_append, unfolded, ih, unfolded]
    simp

/-- Commands that have nothing to do with initializers assert what they require. -/
theorem unfolded_of_isTransparent {cs : List Command} (h : ∀ c ∈ cs, c.IsTransparent) :
    unfolded D cs = cs.flatMap Command.required := by
  induction cs with
  | nil => rfl
  | cons c cs ih =>
    obtain ⟨hc, hcs⟩ := List.forall_mem_cons.mp h
    have hrequired : c.required.map (Term.unfolded D) = c.required :=
      (List.map_congr_left fun t ht => Term.unfolded_of_ne_symbol (hc.ne_symbol t ht)).trans
        (List.map_id _)
    rw [unfolded, hrequired, hc.initializer?, List.flatMap_cons]
    exact congrArg _ (ih hcs)

theorem initializers_of_isTransparent {cs : List Command} (h : ∀ c ∈ cs, c.IsTransparent) :
    initializers cs = [] :=
  List.filterMap_eq_nil_iff.mpr fun c hc => (h c hc).initializer?

/-- Commands that have nothing to do with initializers assert what they require, and change nothing
for the others. -/
theorem unfolded_append_of_isTransparent {cs : List Command} (h : ∀ c ∈ cs, c.IsTransparent)
    (ds : List Command) : unfolded D (cs ++ ds) = cs.flatMap Command.required ++ unfolded D ds := by
  rw [unfolded_append, unfolded_of_isTransparent h, initializers_of_isTransparent h]
  rfl

/-- Commands that neither define initializers nor require anything make no difference. -/
theorem unfolded_append_of_silent {cs : List Command}
    (h : ∀ c ∈ cs, c.initializer? = none ∧ c.required = []) (ds : List Command) :
    unfolded D (cs ++ ds) = unfolded D ds := by
  rw [unfolded_append_of_isTransparent fun c hc => ⟨(h c hc).1, by simp [(h c hc).2]⟩,
    List.flatMap_eq_nil_iff.mpr fun c hc => (h c hc).2, List.nil_append]

theorem unfolded_of_required_eq_nil {cs : List Command} (h : ∀ c ∈ cs, c.required = []) :
    unfolded D cs = [] := by
  induction cs generalizing D with
  | nil => rfl
  | cons c cs ih =>
    obtain ⟨hc, hcs⟩ := List.forall_mem_cons.mp h
    rw [unfolded, hc, ih hcs]
    rfl

end Script

/-! ### Conjunctions -/

/-- Whether the connectives mean in an interpretation what they mean in every theory. -/
def Theory.InterpretsCore (T : Theory α) (I : Interpretation α) : Prop :=
  ∀ entry ∈ Theory.core, T.apply I (.symbol entry.1) = entry.2

/-- The standard theory has the connectives, and interpretations cannot change them as long as they
leave their names alone. -/
theorem Theory.interpretsCore_standard {carrier : SortExpr → α → Prop}
    (h : ∀ entry ∈ (Theory.core : List (String × Element.Function α)), ∀ es, I entry.1 es = none) :
    (Theory.standard carrier).InterpretsCore I := by
  intro entry hentry
  funext es
  have hlookup : (Theory.symbols (α := α)).lookup entry.1 = some entry.2 := by
    simp only [Theory.core, List.mem_cons, List.not_mem_nil, or_false] at hentry
    rcases hentry with rfl | rfl | rfl | rfl | rfl | rfl | rfl | rfl | rfl | rfl <;> rfl
  simp [Theory.apply, Term.name?, Theory.standard, hlookup, h entry hentry es]

namespace Element.Function

theorem forall_eq_true_of_mapM {es : List (Element α)} {bs : List Bool}
    (h : es.mapM (fun e => match e with | .bool b => some b | _ => none) = some bs)
    (hbs : bs.all id = true) : ∀ e ∈ es, e = .bool true := by
  induction es generalizing bs with
  | nil => simp
  | cons e es ih =>
    rw [List.mapM_cons] at h
    obtain ⟨b, hb, h⟩ := Option.bind_eq_some_iff.mp h
    obtain ⟨bs', hbs', h⟩ := Option.bind_eq_some_iff.mp h
    cases h
    rw [List.all_cons, Bool.and_eq_true] at hbs
    refine List.forall_mem_cons.mpr ⟨?_, ih hbs' hbs.2⟩
    split at hb <;> cases hb
    rw [show b = true from hbs.1]

theorem forall_eq_true_of_connective {es : List (Element α)}
    (h : connective (fun bs => bs.all id) es = some (.bool true)) : ∀ e ∈ es, e = .bool true := by
  obtain ⟨bs, hbs, h⟩ := Option.bind_eq_some_iff.mp h
  split at h
  · exact forall_eq_true_of_mapM hbs (by simpa using h)
  · cases h

end Element.Function

/-- A conjunction of two formulas or more holds when all of them do. -/
theorem Term.eval_and_iff (hcore : T.InterpretsCore I) {ts : List Term} (hlength : 2 ≤ ts.length) :
    eval T I (.app (.symbol "and") ts) = some (.bool true) ↔
      ∀ t ∈ ts, eval T I t = some (.bool true) := by
  have hand : T.apply I (.symbol "and") = Element.Function.connective fun bs => bs.all id :=
    hcore ("and", Element.Function.connective fun bs => bs.all id) (by simp [Theory.core])
  constructor
  · intro h
    rw [eval, Option.bind_eq_bind, Option.bind_eq_some_iff] at h
    obtain ⟨es, hes, h⟩ := h
    rw [hand] at h
    have htrue := Element.Function.forall_eq_true_of_connective h
    have hforall := evalAll_eq_some_iff.mp hes
    -- All elements are true, so all formulas are; by induction on the formulas and elements.
    clear hes h hlength
    induction hforall with
    | nil => simp
    | cons he _ ih =>
      obtain ⟨htrue, htrues⟩ := List.forall_mem_cons.mp htrue
      exact List.forall_mem_cons.mpr ⟨htrue ▸ he, ih htrues⟩
  · intro h
    have hes : evalAll T I ts = some ((ts.map fun _ => true).map Element.bool) := by
      clear hlength
      induction ts with
      | nil => rfl
      | cons t ts ih =>
        obtain ⟨ht, hts⟩ := List.forall_mem_cons.mp h
        simp [evalAll, ht, ih hts]
    rw [eval_app_of_evalAll hes, hand, Element.Function.connective_bools (by simpa using hlength)]
    simp

/-! ### Names of initializers -/

section Names

/-- A name without the letter `i` does not belong to initializers. -/
theorem not_isInitializerName {name : String} (h : 'i' ∉ name.toList) :
    isInitializerName name = false := by
  rw [← Bool.not_eq_true, isInitializerName_iff]
  exact fun hpart => h (List.IsInfix.subset hpart (by decide))

theorem not_mem_decimal (id : Int) : 'i' ∉ (Numeral.decimal id).toList :=
  fun h => absurd (Numeral.isDecimalChar_of_mem h) (by decide)

theorem not_isInitializerName_nodeName (id : Int) : isInitializerName (nodeName id) = false := by
  refine not_isInitializerName ?_
  unfold nodeName
  split
  · decide
  · split
    · decide
    · simpa using not_mem_decimal id

theorem Initializer.isInitializerName_name (entity : String) :
    isInitializerName (Initializer.name entity) = true := by
  refine isInitializerName_iff.mpr ⟨entity.toList, [], ?_⟩
  simp [Initializer.name]

theorem Initializer.isInitializerName_partName (entity : String) (i : Nat) :
    isInitializerName (Initializer.partName entity i) = true := by
  refine isInitializerName_iff.mpr ⟨entity.toList, ("_" ++ Nat.repr i).toList, ?_⟩
  simp [Initializer.partName, Initializer.name]

theorem Initializer.partName_injective (entity : String) :
    Function.Injective (Initializer.partName entity) := by
  intro i j h
  exact Numeral.repr_injective (by simpa [Initializer.partName] using h)

theorem Initializer.name_ne_partName (entity : String) (i : Nat) :
    Initializer.name entity ≠ Initializer.partName entity i := by
  intro h
  have hlength := congrArg (fun s => s.toList.length) h
  simp [Initializer.partName] at hlength

end Names

/-! ### Initializers of one entity -/

namespace Initializer

variable {entity : String}

theorem initializer?_part (entity : String) (i : Nat) (equation : Term) :
    (part entity i equation).initializer? = some (partName entity i, equation) :=
  if_pos (isInitializerName_partName entity i)

/-- After the definitions of initializers the names with their numbers stand for them. -/
theorem lookup_partName (entity : String) (equations : List Term) (k i : Nat) :
    ((Script.initializers (parts entity k equations)).reverse ++ D).lookup (partName entity i) =
      if i < k then D.lookup (partName entity i)
      else (equations[i - k]?).or (D.lookup (partName entity i)) := by
  induction equations generalizing k D with
  | nil => simp [parts, Script.initializers]
  | cons q qs ih =>
    have hreverse : (Script.initializers (parts entity k (q :: qs))).reverse ++ D =
        (Script.initializers (parts entity (k + 1) qs)).reverse ++
          (partName entity k, q) :: D := by
      simp [parts, Script.initializers, initializer?_part]
    have hlookup : ((partName entity k, q) :: D).lookup (partName entity i) =
        if i = k then some q else D.lookup (partName entity i) := by
      by_cases hik : i = k
      · simp [hik]
      · have hne : partName entity i ≠ partName entity k :=
          fun h => hik (partName_injective entity h)
        simp [List.lookup_cons, beq_false_of_ne hne, hik]
    rw [hreverse, ih, hlookup]
    -- The part is one of those before the head, the head itself, or behind it.
    rcases Nat.lt_trichotomy i k with h | rfl | h
    · rw [if_pos (by omega), if_neg (by omega), if_pos h]
    · simp
    · obtain ⟨j, rfl⟩ : ∃ j, i = k + 1 + j := ⟨i - (k + 1), by omega⟩
      rw [if_neg (by omega), if_neg (by omega), if_neg (by omega),
        show k + 1 + j - k = j + 1 by omega, List.getElem?_cons_succ,
        show k + 1 + j - (k + 1) = j by omega]

/-- The names with their numbers, replaced by what they stand for, are the equations in order. -/
theorem map_resolved_partName {equations : List Term}
    (hD : ∀ i (h : i < equations.length), D.lookup (partName entity i) = some equations[i]) :
    (List.range equations.length).map (fun i => (Term.symbol (partName entity i)).resolved D) =
      equations := by
  refine List.ext_getElem (by simp) fun i _ hi => ?_
  simp [Term.resolved, hD i hi]

theorem initializer?_whole (entity : String) (value : Term) (remark : String) :
    (Command.defineFun (name entity) Kind.bool.sort value remark).initializer? =
      some (name entity, value) :=
  if_pos (isInitializerName_name entity)

theorem unfolded_setup_zero (cs : List Command) :
    Script.unfolded D (setup entity 0 ++ cs) =
      Script.unfolded ((name entity, Term.ofBool true) :: D) cs := by
  rw [setup, List.cons_append, List.nil_append, Script.unfolded, initializer?_whole]
  rfl

theorem unfolded_setup_one (cs : List Command) :
    Script.unfolded D (setup entity 1 ++ cs) =
      (Term.symbol (partName entity 0)).resolved
          ((name entity, .symbol (partName entity 0)) :: D) ::
        Script.unfolded ((name entity, .symbol (partName entity 0)) :: D) cs := by
  rw [setup, List.cons_append, List.cons_append, List.nil_append, Script.unfolded,
    initializer?_whole, Script.unfolded]
  simp [Command.required, Command.initializer?, Term.unfolded]

/-- All initializers together stand for the equations together. -/
theorem unfolded_setup {equations : List Term}
    (hD : ∀ i (h : i < equations.length), D.lookup (partName entity i) = some equations[i]) :
    Script.unfolded D (setup entity equations.length) =
      match equations with
      | [] => []
      | [q] => [q]
      | qs => [.app (.symbol "and") qs] := by
  have hwhole : ∀ value remark, (Command.defineFun (name entity) Kind.bool.sort value
      remark).initializer? = some (name entity, value) :=
    fun _ _ => if_pos (isInitializerName_name entity)
  -- Defining them together does not change what each of them stands for.
  have hpart : ∀ value i, ((name entity, value) :: D).lookup (partName entity i) =
      D.lookup (partName entity i) := fun value i => by
    simp [List.lookup_cons, beq_false_of_ne (name_ne_partName entity i).symm]
  match equations with
  | [] => simp [setup, Script.unfolded, Command.required]
  | [q] =>
    have hq : D.lookup (partName entity 0) = some q := hD 0 (by simp)
    simp [setup, Script.unfolded, Command.required, hwhole, Term.unfolded, Term.resolved, hpart, hq]
  | q :: r :: qs =>
    generalize hwholeValue : Term.app (.symbol "and") ((List.range (q :: r :: qs).length).map
      fun i => .symbol (partName entity i)) = value
    have hsetup : setup entity (q :: r :: qs).length =
        [.defineFun (name entity) Kind.bool.sort value "", .assert (.symbol (name entity))] := by
      rw [← hwholeValue, ← Term.apply_of_ne_nil (by simp)]
      rfl
    have hvalue : (Term.symbol (name entity)).unfolded ((name entity, value) :: D) =
        .app (.symbol "and") (q :: r :: qs) := by
      rw [← map_resolved_partName hD]
      simp only [Term.unfolded, List.lookup_cons_self, ← hwholeValue, List.map_map]
      simp only [Function.comp_def, Term.resolved, hpart]
    rw [hsetup]
    simp [Script.unfolded, Command.required, hwhole, hvalue]

end Initializer

/-! ### Tables -/

namespace TableSetup

/-- The initializers of a table assert its equations, whatever has been defined before. -/
theorem holds_unfolded_iff (hcore : T.InterpretsCore I) (s : TableSetup) :
    (∀ t ∈ Script.unfolded D s.initializers, t.eval T I = some (.bool true)) ↔
      ∀ q ∈ s.equations, q.eval T I = some (.bool true) := by
  have hparts : ∀ k E, Script.unfolded E
      (Initializer.parts (tableName s.table.id) k s.equations) = [] := by
    induction s.equations with
    | nil => exact fun _ _ => rfl
    | cons q qs ih =>
      intro k E
      rw [Initializer.parts, Script.unfolded, ih]
      rfl
  have hlookup : ∀ i (h : i < s.equations.length),
      ((Script.initializers (Initializer.parts (tableName s.table.id) 0 s.equations)).reverse ++
        D).lookup (Initializer.partName (tableName s.table.id) i) = some s.equations[i] := by
    intro i hi
    simp [Initializer.lookup_partName, hi]
  rw [initializers, Script.unfolded_append, hparts, List.nil_append,
    Initializer.unfolded_setup hlookup]
  rcases s.equations with _ | ⟨q, _ | ⟨r, qs⟩⟩
  · simp
  · simp
  · -- Several equations are joined by the assertion.
    rw [List.forall_mem_singleton]
    exact Term.eval_and_iff hcore (by simp)

theorem holds_unfolded_flatMap_iff (hcore : T.InterpretsCore I) (tables : List TableSetup) :
    (∀ t ∈ Script.unfolded D (tables.flatMap initializers), t.eval T I = some (.bool true)) ↔
      ∀ s ∈ tables, ∀ q ∈ s.equations, q.eval T I = some (.bool true) := by
  induction tables generalizing D with
  | nil => simp [Script.unfolded]
  | cons s tables ih =>
    rw [List.flatMap_cons, Script.unfolded_append, List.forall_mem_append, ih,
      holds_unfolded_iff hcore, List.forall_mem_cons]

/-- A table about constants is declared before its initializers. -/
theorem unfolded_constantCommands (tables : List TableSetup) :
    Script.unfolded D (tables.flatMap constantCommands) =
      Script.unfolded D (tables.flatMap initializers) := by
  induction tables generalizing D with
  | nil => rfl
  | cons s tables ih =>
    rw [List.flatMap_cons, List.flatMap_cons, Script.unfolded_append, Script.unfolded_append, ih]
    rfl

theorem initializers_constantCommands (tables : List TableSetup) :
    Script.initializers (tables.flatMap constantCommands) =
      Script.initializers (tables.flatMap initializers) := by
  induction tables with
  | nil => rfl
  | cons s tables ih =>
    rw [List.flatMap_cons, List.flatMap_cons, Script.initializers_append,
      Script.initializers_append, ih]
    rfl

/-- What the initializers of a table define is called after the table. -/
theorem exists_of_mem_initializers {s : TableSetup} {entry : String × Term}
    (h : entry ∈ Script.initializers s.initializers) :
    ∃ part, entry.1 = (GeneratedSymbol.entity (.table s.table.id) part).name := by
  obtain ⟨c, hc, hentry⟩ := List.mem_filterMap.mp h
  have hmem : entry.1 ∈ Script.declared s.initializers :=
    List.mem_flatMap.mpr ⟨c, hc, Command.mem_declares_of_initializer? hentry⟩
  rw [declared_initializers, List.mem_append] at hmem
  rcases hmem with hmem | hmem
  · obtain ⟨i, -, hi⟩ := List.mem_map.mp hmem
    exact ⟨.numbered i, hi ▸ Initializer.partName_eq (.table s.table.id) i⟩
  · exact ⟨.initializer, List.mem_singleton.mp hmem⟩

end TableSetup

/-! ### Arrays -/

namespace ArraySetup

/-- Whether the initializers of arrays are defined alike. -/
def DefinedAlike (D E : List (String × Term)) : Prop :=
  ∀ id, D.lookup (Initializer.partName (arrayName id) 0) =
    E.lookup (Initializer.partName (arrayName id) 0)

theorem partName_ne {e : Entity} {part : EntityPart} {id : Int}
    (h : e = .array id → part ≠ .numbered 0) :
    Initializer.partName (arrayName id) 0 ≠ (GeneratedSymbol.entity e part).name := by
  intro heq
  cases GeneratedSymbol.name_injective
    ((Initializer.partName_eq (.array id) 0).symm.trans heq)
  exact h rfl rfl

theorem DefinedAlike.append_left (h : DefinedAlike D E) (L : List (String × Term)) :
    DefinedAlike (L ++ D) (L ++ E) := by
  intro id
  rw [List.lookup_append, List.lookup_append, h id]

/-- Defining all initializers of an array together changes none of them. -/
theorem DefinedAlike.cons (h : DefinedAlike D E) (id : Int) (t : Term) :
    DefinedAlike ((Initializer.name (arrayName id), t) :: D)
      ((Initializer.name (arrayName id), t) :: E) := by
  intro other
  have hne : Initializer.partName (arrayName other) 0 ≠ Initializer.name (arrayName id) :=
    @partName_ne (.array id) .initializer other fun _ => EntityPart.noConfusion
  rw [List.lookup_cons, List.lookup_cons, beq_false_of_ne hne, h other]

/-- The initializers of tables do not change those of arrays. -/
theorem definedAlike_append (tables : List TableSetup) :
    DefinedAlike ((Script.initializers (tables.flatMap TableSetup.initializers)).reverse ++ D)
      D := by
  intro id
  have hnone : (Script.initializers (tables.flatMap TableSetup.initializers)).reverse.lookup
      (Initializer.partName (arrayName id) 0) = none := by
    rw [List.lookup_eq_none_iff]
    intro entry hentry
    obtain ⟨c, hc, hc'⟩ := List.mem_filterMap.mp (List.mem_reverse.mp hentry)
    obtain ⟨s, -, hc⟩ := List.mem_flatMap.mp hc
    obtain ⟨part, hpart⟩ :=
      TableSetup.exists_of_mem_initializers (List.mem_filterMap.mpr ⟨c, hc, hc'⟩)
    rw [hpart]
    exact bne_iff_ne.mpr (partName_ne fun h => Entity.noConfusion h)
  rw [List.lookup_append, hnone, Option.none_or]

theorem definedAlike_append_right (L : List (String × Term)) (tables : List TableSetup) :
    DefinedAlike (L ++ (Script.initializers (tables.flatMap TableSetup.initializers)).reverse)
      L := by
  have h := (@definedAlike_append [] tables).append_left L
  rwa [List.append_nil, List.append_nil] at h

/-- The set-up of an array has at most one initializer. -/
theorem exists_setup_of_ofArray {config : Config} {isQuantified : Bool} {constants : Constants}
    {skolems : SkolemMap} {a : ArrayDatum} {s : ArraySetup} (hquantified : isQuantified = false)
    (h : ofArray config isQuantified constants skolems a = .ok s) :
    s.setup = Initializer.setup (arrayName a.id) 0 ∨
      s.setup = Initializer.setup (arrayName a.id) 1 := by
  by_cases hsources : a.context.sources = []
  · obtain ⟨_, _, -, rfl⟩ := exists_of_free hsources h
    exact .inl (if_neg (by simp [hquantified]))
  · obtain ⟨_, _, _, -, -, rfl⟩ := exists_of_derived hsources h
    exact .inr rfl

/-- What is asserted for arrays in the end depends on their initializers only. -/
theorem unfolded_setup_congr {arrays : List ArraySetup}
    (harrays : ∀ s ∈ arrays, ∃ id, s.setup = Initializer.setup (arrayName id) 0 ∨
      s.setup = Initializer.setup (arrayName id) 1) (h : DefinedAlike D E) :
    Script.unfolded D (arrays.flatMap setup) = Script.unfolded E (arrays.flatMap setup) := by
  induction arrays generalizing D E with
  | nil => rfl
  | cons s arrays ih =>
    obtain ⟨⟨id, hsetup⟩, hrest⟩ := List.forall_mem_cons.mp harrays
    rw [List.flatMap_cons]
    rcases hsetup with hsetup | hsetup
    · rw [hsetup, Initializer.unfolded_setup_zero, Initializer.unfolded_setup_zero,
        ih hrest (h.cons id _)]
    · rw [hsetup, Initializer.unfolded_setup_one, Initializer.unfolded_setup_one,
        ih hrest (h.cons id _)]
      simp only [Term.resolved, (h.cons id _) id]

end ArraySetup

end SolverScript
