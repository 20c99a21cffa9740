import SolverScript.Proofs.Script.DeclareBeforeUse

/-!
# The order of arrays

The commands of arrays stand in two places. Arrays are declared before the first definition, in the
order in which the problem lists them, and equations about constants only follow at once; the other
equations wait until all nodes are defined. So an initial value has to be known before the first
definition, and an array that is made from others by constants has to come after them. Neither is
checked.

## Main definitions

* `Problem.IntroducesArrays` - arrays are set up with what has been introduced before
* `Problem.ListsArraysInOrder` - the conditions on initial values and on the order of arrays

## Main results

* `Problem.introducesArrays_iff` - the conditions decide
-/

namespace SolverScript

namespace Problem

/-- The symbols of nodes, other than truth values, and of arrays. -/
inductive IsNodeOrArray : String → Prop
  | node (id : Int) (h : ¬(GeneratedSymbol.node id).IsReserved) : IsNodeOrArray (nodeName id)
  | array (id : Int) : IsNodeOrArray (arrayName id)

/-- Whether the commands that set up arrays mention only nodes and arrays that have been introduced
before. -/
def IntroducesArrays (commands : List Command) : Prop :=
  ∀ earlier c later, commands = earlier ++ c :: later → c.IsOfArray →
    ∀ x ∈ c.names, Known IsNodeOrArray (Script.declared earlier) x

/-- Whether all that decides the equation of an array is constant, so that it need not wait. -/
def IsSetUpAtOnce (p : Problem) (a : ArrayDatum) : Prop :=
  (ArraySetup.dependencies a.context).all p.constants.fixes

/-- Whether the initial values of arrays are known before the first definition, and arrays that are
set up at once come after those that they are made from. What inputs depend on has to be known as
well. -/
structure ListsArraysInOrder (p : Problem) : Prop where
  initial : ∀ a ∈ p.arrays, ∀ n ∈ a.context.initialNodes p.constants,
    ∀ m ∈ p.skolems.mentioned n, p.IsKnownAfter [] m
  source : ∀ earlier a later, p.arrays = earlier ++ a :: later → p.IsSetUpAtOnce a →
    ∀ id ∈ a.context.sources, id ∈ (earlier ++ [a]).map ArrayDatum.id
  dependency : ∀ a ∈ p.arrays, a.context.sources ≠ [] →
    ∀ n ∈ ArraySetup.dependencies a.context, ∀ m ∈ (p.skolems.dependencies? n).getD [],
      (p.IsSetUpAtOnce a → p.IsKnownAfter [] m) ∧ p.IsKnownAfter p.assignments m

/-- What the arrays need that are declared before the first definition. -/
def DeclaresKnown (p : Problem) : Prop :=
  ∀ earlier a later, p.arrays = earlier ++ a :: later →
    (∀ n ∈ a.context.initialNodes p.constants, ∀ m ∈ p.skolems.mentioned n,
      p.IsKnownAfter [] m) ∧
    (a.context.sources ≠ [] → p.IsSetUpAtOnce a →
      (∀ id ∈ a.context.sources, id ∈ (earlier ++ [a]).map ArrayDatum.id) ∧
        ∀ n ∈ ArraySetup.dependencies a.context, ∀ m ∈ p.skolems.mentioned n,
          p.IsKnownAfter [] m)

/-- What the arrays need that wait for the definitions. -/
def DefersKnown (p : Problem) : Prop :=
  ∀ a ∈ p.arrays, a.context.sources ≠ [] → ¬p.IsSetUpAtOnce a →
    ∀ n ∈ ArraySetup.dependencies a.context, ∀ m ∈ p.skolems.mentioned n,
      p.IsKnownAfter p.assignments m

/-- Whether a command of an array mentions known nodes and arrays only. -/
def AdmitsOfArray (known : List String) (c : Command) : Prop :=
  c.IsOfArray → ∀ x ∈ c.names, Known IsNodeOrArray known x

variable {config : Config} {p : Problem} {plan : Plan} {known : List String} {a : ArrayDatum}

theorem listsArraysInOrder_iff
    (hinputs : ∀ x ∈ p.inputs, ∃ q ∈ p.quantified, q.node.id = x.node.id)
    (hreferences : p.checkReferences = .ok ()) :
    p.ListsArraysInOrder ↔ p.DeclaresKnown ∧ p.DefersKnown := by
  have hrefers := refersToKnown_of_checkReferences hreferences
  -- The deciding nodes themselves are always known in time.
  have hmentioned : ∀ {earlier : List Assignment} {n : Node}, p.IsKnownAfter earlier n →
      ((∀ m ∈ p.skolems.mentioned n, p.IsKnownAfter earlier m) ↔
        ∀ m ∈ (p.skolems.dependencies? n).getD [], p.IsKnownAfter earlier m) :=
    fun hn => List.forall_mem_cons.trans (and_iff_right hn)
  have hknown : ∀ a ∈ p.arrays, ∀ n ∈ ArraySetup.dependencies a.context,
      p.IsKnownAfter p.assignments n := fun a ha n hn =>
    isKnownAfter_of_initiallyKnown hinputs (List.mem_append.mp (hrefers.dependency a ha n hn))
  have hfixed : ∀ a, p.IsSetUpAtOnce a → ∀ n ∈ ArraySetup.dependencies a.context,
      p.IsKnownAfter [] n := fun a ha n hn =>
    isKnownAfter_of_fixes (List.all_eq_true.mp ha n hn)
  constructor
  · intro h
    refine ⟨fun earlier a later hsplit => ?_, fun a ha hsources _ n hn => ?_⟩
    · have ha : a ∈ p.arrays := by simp [hsplit]
      refine ⟨h.initial a ha, fun hsources hatOnce => ⟨h.source earlier a later hsplit hatOnce,
        fun n hn => (hmentioned (hfixed a hatOnce n hn)).mpr fun m hm => ?_⟩⟩
      exact (h.dependency a ha hsources n hn m hm).1 hatOnce
    · refine (hmentioned (hknown a ha n hn)).mpr fun m hm => ?_
      exact (h.dependency a ha hsources n hn m hm).2
  · rintro ⟨hdeclares, hdefers⟩
    refine ⟨fun a ha => ?_, fun earlier a later hsplit hatOnce id hid => ?_,
      fun a ha hsources n hn m hm => ?_⟩
    · obtain ⟨earlier, later, hsplit⟩ := List.append_of_mem ha
      exact (hdeclares earlier a later hsplit).1
    · have hsources : a.context.sources ≠ [] := List.ne_nil_of_mem hid
      exact ((hdeclares earlier a later hsplit).2 hsources hatOnce).1 id hid
    · obtain ⟨earlier, later, hsplit⟩ := List.append_of_mem ha
      have hmem : m ∈ p.skolems.mentioned n := List.mem_cons_of_mem n hm
      have hatOnce := fun hatOnce =>
        ((hdeclares earlier a later hsplit).2 hsources hatOnce).2 n hn m hmem
      refine ⟨hatOnce, ?_⟩
      by_cases hset : p.IsSetUpAtOnce a
      · exact @IsKnownAfter.mono p [] _ _ (hatOnce hset)
      · exact hdefers a ha hsources hset n hn m hmem

/-! ### Nodes and arrays among the known -/

/-- Of the symbols that scripts introduce, those of nodes and arrays are these. -/
theorem isNodeOrArray_name_iff {g : GeneratedSymbol} :
    IsNodeOrArray g.name ↔
      (∃ id, g = .node id ∧ ¬g.IsReserved) ∨ ∃ id, g = .entity (.array id) .itself := by
  constructor
  · intro h
    generalize hname : g.name = s at h
    cases h with
    | node id hid =>
      obtain rfl := @GeneratedSymbol.name_injective _ (.node id) hname
      exact .inl ⟨id, rfl, hid⟩
    | array id =>
      rw [arrayName_eq] at hname
      exact .inr ⟨id, GeneratedSymbol.name_injective hname⟩
  · rintro (⟨id, rfl, hid⟩ | ⟨id, rfl⟩)
    · exact .node id hid
    · rw [← arrayName_eq]
      exact .array id

theorem separates_isNodeOrArray (hconstructors : ∀ c ∈ p.constructors, ¬IsNodeOrArray c) :
    p.Separates IsNodeOrArray where
  builtin := by
    intro text htext hsymbol
    cases hsymbol with
    | node id hid => exact htext.name_ne (g := .node id) hid rfl
    | array id =>
      exact htext.name_ne (g := .entity (.array id) .itself) (by simp [GeneratedSymbol.IsReserved])
        (arrayName_eq id).symm
  position := by
    intro sort hsymbol
    generalize hname : Datatype.indexName sort = text at hsymbol
    cases hsymbol with
    | node id hid => exact GeneratedSymbol.name_ne_indexName (g := .node id) hid sort hname.symm
    | array id =>
      rw [arrayName_eq] at hname
      exact GeneratedSymbol.name_ne_indexName (by simp [GeneratedSymbol.IsReserved]) sort
        hname.symm
  constructor := hconstructors

/-- Whether some nodes and arrays, and no others, are among the names that are known. -/
structure Introduces (known : List String) (nodes : List Node) (arrays : List Int) : Prop where
  node : ∀ id, ¬(GeneratedSymbol.node id).IsReserved →
    (nodeName id ∈ known ↔ id ∈ nodes.map Node.id)
  array : ∀ id, arrayName id ∈ known ↔ id ∈ arrays

namespace Introduces

variable {known' : List String} {nodes nodes' : List Node} {arrays arrays' : List Int}

theorem append (h : Introduces known nodes arrays) (h' : Introduces known' nodes' arrays') :
    Introduces (known ++ known') (nodes ++ nodes') (arrays ++ arrays') where
  node := fun id hid => by simp [h.node id hid, h'.node id hid]
  array := fun id => by simp [h.array id, h'.array id]

/-- Names that are neither of nodes nor of arrays. -/
theorem of_none (h : ∀ s ∈ known, ¬IsNodeOrArray s) : Introduces known [] [] where
  node := fun id hid => iff_of_false (fun hmem => h _ hmem (.node id hid)) (by simp)
  array := fun id => iff_of_false (fun hmem => h _ hmem (.array id)) (by simp)

theorem of_nodes (nodes : List Node) : Introduces (nodes.map Node.name) nodes [] where
  node := by
    intro id _
    have hname : ∀ n : Node, n.name = nodeName id ↔ n.id = id := fun n =>
      ⟨fun h => by simpa using @GeneratedSymbol.name_injective (.node n.id) (.node id) h,
        fun h => by rw [Node.name, h]⟩
    simp [hname]
  array := by
    intro id
    refine iff_of_false (fun hmem => ?_) (by simp)
    obtain ⟨n, -, hn⟩ := List.mem_map.mp hmem
    rw [arrayName_eq] at hn
    cases @GeneratedSymbol.name_injective (.node n.id) _ hn

theorem of_array (id : Int) : Introduces [arrayName id] [] [id] where
  node := by
    intro i hi
    refine iff_of_false (fun hmem => ?_) (by simp)
    rw [List.mem_singleton, arrayName_eq] at hmem
    cases @GeneratedSymbol.name_injective (.node i) _ hmem
  array := by
    intro i
    have hname : arrayName i = arrayName id ↔ i = id := by
      rw [arrayName_eq, arrayName_eq, GeneratedSymbol.name_injective.eq_iff]
      simp
    simp [hname]

theorem congr {nodes' : List Node} (h : Introduces known nodes arrays)
    (hnodes : ∀ n, n ∈ nodes ↔ n ∈ nodes') : Introduces known nodes' arrays where
  node := fun id hid => (h.node id hid).trans (by simp [hnodes])
  array := h.array

/-- The names of many arrays, each with other names. -/
theorem flatMap {g : ArrayDatum → List String}
    (hg : ∀ a, Introduces (g a) [] [a.id]) (as : List ArrayDatum) :
    Introduces (as.flatMap g) [] (as.map ArrayDatum.id) := by
  induction as with
  | nil => exact of_none (by simp)
  | cons a as ih => simpa using (hg a).append ih

theorem known_node (h : Introduces known nodes arrays) {m : Node} :
    Known IsNodeOrArray known (.node m.id) ↔ m.IsReserved ∨ m.id ∈ nodes.map Node.id := by
  have hreserved : (GeneratedSymbol.node m.id).IsReserved ↔ m.IsReserved := by
    simp [GeneratedSymbol.IsReserved, Node.IsReserved]
  have hsymbol : IsNodeOrArray (nodeName m.id) ↔ ¬(GeneratedSymbol.node m.id).IsReserved := by
    refine (isNodeOrArray_name_iff (g := .node m.id)).trans ?_
    simp
  have hknown : Known IsNodeOrArray known (.node m.id) ↔
      (¬(GeneratedSymbol.node m.id).IsReserved → nodeName m.id ∈ known) := by
    rw [← hsymbol]
    exact ⟨fun hknown => hknown _ rfl, by rintro hknown _ ⟨⟩; exact hknown⟩
  rw [hknown, ← hreserved, or_iff_not_imp_left]
  exact imp_congr_right fun hid => h.node m.id hid

theorem known_array (h : Introduces known nodes arrays) {id : Int} :
    Known IsNodeOrArray known (.function (arrayName id)) ↔ id ∈ arrays := by
  rw [← h.array id]
  exact ⟨fun hknown => hknown _ rfl (.array id), fun hmem => known_function fun _ => hmem⟩

/-- The term of a node mentions known nodes. -/
theorem over_nodeTerm_iff {earlier : List Assignment}
    (h : Introduces known (p.startingNodes ++ earlier.map Assignment.node) arrays) {n : Node} :
    (p.skolems.nodeTerm n).Over (Known IsNodeOrArray known) ↔
      ∀ m ∈ p.skolems.mentioned n, p.IsKnownAfter earlier m := by
  rw [SkolemMap.over_nodeTerm]
  exact forall₂_congr fun m _ => h.known_node

end Introduces

/-- The initializers of an array are neither nodes nor arrays. -/
theorem known_part {id : Int} {part : EntityPart} (hpart : part ≠ .itself) :
    Known IsNodeOrArray known (.function (GeneratedSymbol.entity (.array id) part).name) := by
  refine known_function fun hsymbol => ?_
  rcases isNodeOrArray_name_iff.mp hsymbol with ⟨_, h, -⟩ | ⟨_, h⟩
  · cases h
  · cases h
    exact absurd rfl hpart

/-! ### The commands of one array -/

section

variable (hS : p.Separates IsNodeOrArray) {s : ArraySetup} {earlier : List Assignment}
  {arrays : List Int}

include hS

/-- The assertion of initializers mentions neither nodes nor arrays. -/
theorem admitsOfArray_setup (id : Int) (count : Nat) :
    ∀ c ∈ Initializer.setup (arrayName id) count, AdmitsOfArray known c := by
  intro c hc _
  refine forall_names_setup (hS.scoping.vocabulary known)
    (known_part (by simp : EntityPart.initializer ≠ .itself)) (fun i _ => ?_) c hc
  rw [Initializer.partName_eq]
  exact known_part (by simp)

/-- The equation of an array mentions known arrays and known nodes. -/
theorem admitsOfArray_part_iff
    (hknown : Introduces known (p.startingNodes ++ earlier.map Assignment.node) arrays)
    {isTopLevel : Bool} {q : Term}
    (h : ArraySetup.equation? (ArraySetup.nodeTerm isTopLevel p.constants p.skolems) a =
      .ok (some q)) :
    AdmitsOfArray known (Initializer.part (arrayName a.id) 0 q) ↔
      (∀ id ∈ a.id :: a.context.sources, id ∈ arrays) ∧
        ∀ n ∈ ArraySetup.dependencies a.context, ∀ m ∈ p.skolems.mentioned n,
          p.IsKnownAfter earlier m := by
  have hV := hS.scoping.vocabulary known
  have harray : (Initializer.part (arrayName a.id) 0 q).IsOfArray :=
    .inl ⟨a.id, .numbered 0, congrArg (fun s => [s]) (Initializer.partName_eq (.array a.id) 0)⟩
  have hnames : (∀ x ∈ (Initializer.part (arrayName a.id) 0 q).names,
      Known IsNodeOrArray known x) ↔ q.Over (Known IsNodeOrArray known) :=
    List.forall_mem_append.trans (and_iff_right (Kind.over_sort hV Kind.over_bool))
  rw [AdmitsOfArray, imp_iff_right harray, hnames, ArraySetup.over_equation?_iff hV h]
  exact and_congr (forall₂_congr fun _ _ => hknown.known_array)
    (forall₂_congr fun _ _ => hknown.over_nodeTerm_iff)

/-- What an array needs when it is declared: its initial value and, if it is set up at once, what it
is made from. -/
theorem along_declarations_iff
    (hknown : Introduces known (p.startingNodes ++ earlier.map Assignment.node) arrays)
    (h : ArraySetup.ofArray config false p.constants p.skolems a = .ok s) :
    Script.Along AdmitsOfArray known s.declarations ↔
      (∀ n ∈ a.context.initialNodes p.constants, ∀ m ∈ p.skolems.mentioned n,
        p.IsKnownAfter earlier m) ∧
      (a.context.sources ≠ [] → p.IsSetUpAtOnce a →
        (∀ id ∈ a.context.sources, id ∈ arrays ++ [a.id]) ∧
          ∀ n ∈ ArraySetup.dependencies a.context, ∀ m ∈ p.skolems.mentioned n,
            p.IsKnownAfter earlier m) := by
  have hV := hS.scoping.vocabulary known
  have hdeclaration : ∀ {isTopLevel : Bool} {c : Command},
      ArraySetup.declaration config p.constants
        (ArraySetup.nodeTerm isTopLevel p.constants p.skolems) a = .ok c →
      (AdmitsOfArray known c ↔ ∀ n ∈ a.context.initialNodes p.constants,
        ∀ m ∈ p.skolems.mentioned n, p.IsKnownAfter earlier m) := by
    intro isTopLevel c hc
    have harray : c.IsOfArray := .inl ⟨a.id, .itself, by
      rw [ArraySetup.declares_declaration hc, arrayName_eq]⟩
    rw [AdmitsOfArray, imp_iff_right harray, ArraySetup.names_declaration_iff hV (over_kind _)
      (over_kind _) (fun c hc => hS.over_constantValue hc) hc]
    exact forall₂_congr fun _ _ => hknown.over_nodeTerm_iff
  -- A free array needs its initial value only. One that is made from others is set up at once if
  -- the elements that it depends on are constants, and waits for the assignments otherwise.
  by_cases hsources : a.context.sources = []
  · obtain ⟨_, declared, hdeclared, rfl⟩ := ArraySetup.exists_of_free hsources h
    simp [hdeclaration hdeclared, hsources]
  · obtain ⟨_, declared, q, hdeclared, hq, rfl⟩ := ArraySetup.exists_of_derived hsources h
    have hafter : Introduces (known ++ [arrayName a.id])
        (p.startingNodes ++ earlier.map Assignment.node) (arrays ++ [a.id]) := by
      simpa using hknown.append (Introduces.of_array a.id)
    have hpart := admitsOfArray_part_iff hS hafter hq
    by_cases hfixed : (ArraySetup.dependencies a.context).all p.constants.fixes = true
    · have hatOnce : p.IsSetUpAtOnce a := hfixed
      simp only [hfixed, if_true, Script.along_cons, Script.along_nil, and_true,
        hdeclaration hdeclared, ArraySetup.declares_declaration hdeclared, hpart]
      simp [hsources, hatOnce]
    · have hwaits : ¬p.IsSetUpAtOnce a := hfixed
      simp [hfixed, hdeclaration hdeclared, hwaits]

/-- What an array needs that waits. -/
theorem along_deferred_iff
    (hknown : Introduces known (p.startingNodes ++ earlier.map Assignment.node) arrays)
    (h : ArraySetup.ofArray config false p.constants p.skolems a = .ok s) :
    Script.Along AdmitsOfArray known s.deferred ↔
      (a.context.sources ≠ [] → ¬p.IsSetUpAtOnce a →
        (∀ id ∈ a.id :: a.context.sources, id ∈ arrays) ∧
          ∀ n ∈ ArraySetup.dependencies a.context, ∀ m ∈ p.skolems.mentioned n,
            p.IsKnownAfter earlier m) := by
  by_cases hsources : a.context.sources = []
  · obtain ⟨_, declared, hdeclared, rfl⟩ := ArraySetup.exists_of_free hsources h
    simp [hsources]
  · obtain ⟨_, declared, q, hdeclared, hq, rfl⟩ := ArraySetup.exists_of_derived hsources h
    have hpart := admitsOfArray_part_iff hS hknown hq
    by_cases hfixed : (ArraySetup.dependencies a.context).all p.constants.fixes = true
    · have hatOnce : p.IsSetUpAtOnce a := hfixed
      simp [hfixed, hatOnce]
    · have hwaits : ¬p.IsSetUpAtOnce a := hfixed
      simp [hfixed, hsources, hwaits, hpart]

end

/-! ### Sections without arrays -/

/-- Commands that declare no array and no initializer of one. -/
theorem along_of_declared {cs : List Command}
    (h : ∀ s ∈ Script.declared cs, ∀ id part, s ≠ (GeneratedSymbol.entity (.array id) part).name) :
    Script.Along AdmitsOfArray known cs := by
  refine Script.along_of_forall fun c hc known' _ harray => ?_
  rcases harray with ⟨id, part, hdeclares⟩ | ⟨id, rfl⟩
  · have hmem : (GeneratedSymbol.entity (.array id) part).name ∈ Script.declared cs :=
      List.mem_flatMap.mpr ⟨c, hc, by simp [hdeclares]⟩
    exact absurd rfl (h _ hmem id part)
  · exact Term.over_symbol.mpr (known_part (by simp : EntityPart.initializer ≠ .itself))

theorem admitsOfArray_note {text : String} : AdmitsOfArray known (.note text) :=
  fun _ x hx => by simp [Command.names] at hx

theorem name_ne_arraySymbol {n : Node} (id : Int) (part : EntityPart) :
    n.name ≠ (GeneratedSymbol.entity (.array id) part).name := fun h => by
  cases @GeneratedSymbol.name_injective (.node n.id) _ h

/-- Commands that introduce nodes. -/
theorem along_nodes {β : Type} {bs : List β} {node : β → Node} {cs : List Command}
    (h : Script.declared cs = bs.map fun b => (node b).name) :
    Script.Along AdmitsOfArray known cs := by
  refine along_of_declared ?_
  rw [h]
  exact List.forall_mem_map.mpr fun b _ => name_ne_arraySymbol

theorem along_of_fits {cs : List Command}
    (h : Script.Along (Command.Fits (Known IsNodeOrArray)) known cs) :
    Script.Along AdmitsOfArray known cs :=
  h.imp fun _ _ _ hc _ => hc.names

/-! ### What is known in a section -/

/-- What a script declares for an array in the first of its two places. -/
def declaredAtOnce (p : Problem) (a : ArrayDatum) : List String :=
  arrayName a.id ::
    if a.context.sources ≠ [] ∧ (ArraySetup.dependencies a.context).all p.constants.fixes then
      [Initializer.partName (arrayName a.id) 0]
    else []

/-- What a script declares for an array in the second of its two places, besides the assertion of
initializers. -/
def declaredLater (p : Problem) (a : ArrayDatum) : List String :=
  if a.context.sources ≠ [] ∧ ¬(ArraySetup.dependencies a.context).all p.constants.fixes then
    [Initializer.partName (arrayName a.id) 0]
  else []

theorem declared_ofArray {s : ArraySetup}
    (h : ArraySetup.ofArray config false p.constants p.skolems a = .ok s) :
    Script.declared s.declarations = p.declaredAtOnce a ∧
      Script.declared s.deferred = p.declaredLater a := by
  unfold declaredAtOnce declaredLater
  by_cases hsources : a.context.sources = []
  · obtain ⟨_, declared, hdeclared, rfl⟩ := ArraySetup.exists_of_free hsources h
    simp [hsources, ArraySetup.declares_declaration hdeclared]
  · obtain ⟨_, declared, q, hdeclared, -, rfl⟩ := ArraySetup.exists_of_derived hsources h
    dsimp only
    split <;> simp_all [ArraySetup.declares_declaration hdeclared]

theorem not_isNodeOrArray_part (id : Int) (i : Nat) :
    ¬IsNodeOrArray (Initializer.partName (arrayName id) i) := by
  rw [show Initializer.partName (arrayName id) i = _ from Initializer.partName_eq (.array id) i,
    isNodeOrArray_name_iff]
  simp

theorem introduces_declaredAtOnce (a : ArrayDatum) :
    Introduces (p.declaredAtOnce a) [] [a.id] := by
  have hrest : Introduces (if a.context.sources ≠ [] ∧
      (ArraySetup.dependencies a.context).all p.constants.fixes then
        [Initializer.partName (arrayName a.id) 0] else []) [] [] := by
    refine Introduces.of_none ?_
    split <;> simp [not_isNodeOrArray_part]
  exact (Introduces.of_array a.id).append hrest

theorem introduces_declaredLater (as : List ArrayDatum) :
    Introduces (as.flatMap p.declaredLater) [] [] := by
  refine Introduces.of_none (List.forall_mem_flatMap.mpr fun a _ => ?_)
  unfold declaredLater
  split <;> simp [not_isNodeOrArray_part]

theorem not_mem_rationals {s : String} (hs : IsNodeOrArray s) :
    s ∉ RationalFunction.all.map RationalFunction.symbol := by
  intro hmem
  obtain ⟨f, -, hf⟩ := List.mem_map.mp hmem
  cases hs with
  | node id => exact GeneratedSymbol.name_ne_rational (.node id) f hf.symm
  | array id => exact GeneratedSymbol.name_ne_rational _ f (hf.trans (arrayName_eq id)).symm

/-- The inputs and constants are known after the first sections. -/
theorem introduces_start (hS : p.Separates IsNodeOrArray) (hplan : p.IsPlan config plan)
    (huniversals : p.universals = []) {tuples constants existentials trackers : List Command}
    (htuples : plan.features.tupleCommands = .ok tuples)
    (hconstants : commandsOf (Declaration.constant config) p.constants = .ok constants)
    (hexistentials : commandsOf plan.existentialCommands p.existentials = .ok existentials)
    (htrackers : plan.trackerCommands = .ok trackers) :
    Introduces (Script.declared (plan.opening tuples ++ constants ++
      .note "--- skolem constants ---" :: existentials ++ trackers)) p.startingNodes [] := by
  -- In front of the constants there are only sorts and functions, which no node is called like.
  have hopening : Introduces (Script.declared (plan.opening tuples)) [] [] := by
    refine Introduces.of_none fun s hmem hs => ?_
    have hcount := hS.count_declared_opening hplan htuples hs
    rw [List.count_eq_zero.mpr (not_mem_rationals hs), ite_self] at hcount
    exact List.count_eq_zero.mp hcount hmem
  -- Without universal inputs the existential ones are all there are, in another order.
  have hquantified : ∀ n, n ∈ p.existentials.map Prod.fst ↔
      n ∈ p.quantified.map QuantifiedInput.node := by
    intro n
    have hperm := perm_quantified p.quantified
    rw [show p.quantified.filterMap QuantifiedInput.universal? = [] from huniversals] at hperm
    rw [hperm.mem_iff]
    rfl
  have hnodes := ((hopening.append (Introduces.of_nodes (p.properConstants.map Constant.node))).append
    (Introduces.of_nodes (p.existentials.map Prod.fst))).append
      (Introduces.of_nodes (p.trackers.map NamedNode.node))
  have hdeclared : Script.declared (plan.opening tuples ++ constants ++
      .note "--- skolem constants ---" :: existentials ++ trackers) =
      Script.declared (plan.opening tuples) ++ (p.properConstants.map Constant.node).map Node.name ++
        (p.existentials.map Prod.fst).map Node.name ++
        (p.trackers.map NamedNode.node).map Node.name := by
    simp only [Script.declared_append, Script.declared_cons, declared_constants hconstants,
      declared_existentials hexistentials, hplan.declared_trackers htrackers, List.map_map]
    rfl
  rw [hdeclared]
  refine hnodes.congr fun n => ?_
  simp only [startingNodes, List.mem_append, ← hquantified]
  tauto

theorem along_start (hS : p.Separates IsNodeOrArray) (hplan : p.IsPlan config plan)
    {tuples constants existentials trackers : List Command}
    (htuples : plan.features.tupleCommands = .ok tuples)
    (hconstants : commandsOf (Declaration.constant config) p.constants = .ok constants)
    (hexistentials : commandsOf plan.existentialCommands p.existentials = .ok existentials)
    (htrackers : plan.trackerCommands = .ok trackers) :
    Script.Along AdmitsOfArray known (plan.opening tuples ++ constants ++
      .note "--- skolem constants ---" :: existentials ++ trackers) := by
  have hopening : ∀ {known : List String}, Script.Along AdmitsOfArray known (plan.opening tuples) :=
    along_of_fits (hS.scoping.along_of_fits (hS.fits_opening hplan htuples))
  simp only [Script.along_append, Script.along_cons, admitsOfArray_note, hopening, and_true,
    along_nodes (declared_constants hconstants), along_nodes (declared_existentials hexistentials),
    along_nodes (hplan.declared_trackers htrackers)]

/-- What the arrays need that are declared before the first definition. -/
theorem along_arrays_iff (hS : p.Separates IsNodeOrArray) (hplan : p.IsPlan config plan)
    (huniversals : p.universals = []) (hknown : Introduces known p.startingNodes []) :
    Script.Along AdmitsOfArray known (plan.arrays.flatMap ArraySetup.declarations) ↔
      p.DeclaresKnown := by
  have harrays := hplan.arrays
  rw [huniversals] at harrays
  rw [along_mapM_iff (g := p.declaredAtOnce) (fun a s h => (declared_ofArray h).1) harrays]
  refine forall₃_congr fun earlier a later => forall_congr' fun hsplit => ?_
  have hearlier : Introduces (known ++ earlier.flatMap p.declaredAtOnce)
      (p.startingNodes ++ [].map Assignment.node) (earlier.map ArrayDatum.id) := by
    simpa using hknown.append (Introduces.flatMap introduces_declaredAtOnce earlier)
  obtain ⟨s, -, hs⟩ := exists_mem_of_mapM harrays (b := a) (by simp [hsplit])
  have hone := along_declarations_iff hS hearlier hs
  rw [List.map_append]
  constructor
  · exact fun h => hone.mp (h s hs)
  · intro h s' hs'
    obtain rfl := Except.ok.inj (hs.symm.trans hs')
    exact hone.mpr h

/-- What the arrays need that wait for the definitions. -/
theorem along_deferredArrays_iff (hS : p.Separates IsNodeOrArray) (hplan : p.IsPlan config plan)
    (huniversals : p.universals = []) (hknown : Introduces known
      (p.startingNodes ++ p.assignments.map Assignment.node) (p.arrays.map ArrayDatum.id)) :
    Script.Along AdmitsOfArray known (plan.arrays.flatMap ArraySetup.deferred) ↔ p.DefersKnown := by
  have harrays := hplan.arrays
  rw [huniversals] at harrays
  have hrefers := refersToKnown_of_checkReferences hplan.references
  rw [along_mapM_iff (g := p.declaredLater) (fun a s h => (declared_ofArray h).2) harrays]
  -- All arrays are declared by now, so that only the elements matter.
  have hone : ∀ {earlier : List ArrayDatum} {a : ArrayDatum} {s : ArraySetup}, a ∈ p.arrays →
      ArraySetup.ofArray config false p.constants p.skolems a = .ok s →
      (Script.Along AdmitsOfArray (known ++ earlier.flatMap p.declaredLater) s.deferred ↔
        (a.context.sources ≠ [] → ¬p.IsSetUpAtOnce a →
          ∀ n ∈ ArraySetup.dependencies a.context, ∀ m ∈ p.skolems.mentioned n,
            p.IsKnownAfter p.assignments m)) := by
    intro earlier a s ha hs
    have hearlier := hknown.append (introduces_declaredLater (p := p) earlier)
    rw [List.append_nil, List.append_nil] at hearlier
    rw [along_deferred_iff hS hearlier hs]
    refine imp_congr_right fun _ => imp_congr_right fun _ => and_iff_right ?_
    exact List.forall_mem_cons.mpr ⟨List.mem_map_of_mem ha, hrefers.source a ha⟩
  constructor
  · intro h a ha
    obtain ⟨earlier, later, hsplit⟩ := List.append_of_mem ha
    obtain ⟨s, -, hs⟩ := exists_mem_of_mapM harrays ha
    exact (hone ha hs).mp (h earlier a later hsplit s hs)
  · intro h earlier a later hsplit s hs
    have ha : a ∈ p.arrays := by simp [hsplit]
    exact (hone ha hs).mpr (h a ha)

/-- The sections of tables declare the symbols of tables. -/
theorem exists_of_mem_declared_tables {s : String}
    (hs : s ∈ Script.declared (plan.constantTables.flatMap TableSetup.constantCommands) ++
      Script.declared (plan.deferredTables.map fun t =>
        TableSetup.deferredDeclaration plan.problem.universals t.table)) :
    ∃ id part, s = (GeneratedSymbol.entity (.table id) part).name := by
  rcases List.mem_append.mp hs with hs | hs
  · rw [Script.declared_flatMap] at hs
    obtain ⟨t, ht, hs⟩ := List.mem_flatMap.mp hs
    rw [TableSetup.declared_constantCommands (List.mem_filter.mp ht).2] at hs
    obtain ⟨g, hg, rfl⟩ := List.mem_map.mp hs
    obtain ⟨part, rfl⟩ := TableSetup.exists_of_mem_symbols hg
    exact ⟨_, part, rfl⟩
  · rw [Script.declared_map (g := fun t => tableName t.table.id) fun _ _ => rfl] at hs
    obtain ⟨t, -, rfl⟩ := List.mem_map.mp hs
    exact ⟨_, .itself, tableName_eq _⟩

theorem introduces_tables (plan : Plan) :
    Introduces (Script.declared (plan.constantTables.flatMap TableSetup.constantCommands) ++
      Script.declared (plan.deferredTables.map fun t =>
        TableSetup.deferredDeclaration plan.problem.universals t.table)) [] [] := by
  refine Introduces.of_none fun s hs => ?_
  obtain ⟨id, part, rfl⟩ := exists_of_mem_declared_tables hs
  simp [isNodeOrArray_name_iff]

/-- Before the first definition the arrays are introduced. -/
theorem introduces_middle (hplan : p.IsPlan config plan) (huniversals : p.universals = [])
    (hfree : ∀ f ∈ p.freeSymbols, ¬IsNodeOrArray f.name) {freeSymbols : List Command}
    (hfreeSymbols : commandsOf (fun s => Declaration.symbol s.name s.signature "") p.freeSymbols =
      .ok freeSymbols) :
    Introduces (Script.declared (plan.middle freeSymbols)) [] (p.arrays.map ArrayDatum.id) := by
  have harrays := hplan.arrays
  rw [huniversals] at harrays
  have hdeclared := declared_mapM (g := p.declaredAtOnce) (fun a s h => (declared_ofArray h).1)
    harrays
  have hsymbols : Introduces (p.freeSymbols.map FreeSymbol.name) [] [] :=
    Introduces.of_none (List.forall_mem_map.mpr hfree)
  have hreversals : Introduces (Script.declared plan.reversalCommands) [] [] := by
    refine Introduces.of_none fun s hs => ?_
    obtain ⟨i, -, rfl⟩ := List.mem_map.mp ((Plan.declared_reversalCommands plan).mem_iff.mp hs)
    exact fun h => by simpa using isNodeOrArray_name_iff (g := .reversal i).mp h
  have hnames : Introduces (p.arrays.flatMap p.declaredAtOnce) [] (p.arrays.map ArrayDatum.id) :=
    Introduces.flatMap introduces_declaredAtOnce p.arrays
  have hall := (((introduces_tables plan).append hnames).append hsymbols).append hreversals
  simp only [Plan.middle, Script.declared_append, Script.declared_cons, Script.declared_nil,
    Command.declares_note, Script.declared_postulates, hdeclared, declared_freeSymbols hfreeSymbols,
    List.nil_append, List.append_nil]
  simpa using hall

/-- Between the inputs and the first definition, only the arrays matter. -/
theorem along_middle_iff (hS : p.Separates IsNodeOrArray) (hplan : p.IsPlan config plan)
    (huniversals : p.universals = []) (hknown : Introduces known p.startingNodes [])
    {freeSymbols : List Command}
    (hfreeSymbols : commandsOf (fun s => Declaration.symbol s.name s.signature "") p.freeSymbols =
      .ok freeSymbols) :
    Script.Along AdmitsOfArray known (plan.middle freeSymbols) ↔ p.DeclaresKnown := by
  have hW := hS.scoping
  -- Whatever stands between the arrays declares names of other forms, and needs nothing here.
  have htables : ∀ {known : List String} {cs : List Command}, (∀ s ∈ Script.declared cs,
      ∃ id part, s = (GeneratedSymbol.entity (.table id) part).name) →
      Script.Along AdmitsOfArray known cs := by
    refine fun h => along_of_declared fun s hs id part heq => ?_
    obtain ⟨tableId, tablePart, rfl⟩ := h s hs
    cases GeneratedSymbol.name_injective heq
  have hconstant : ∀ {known : List String}, Script.Along AdmitsOfArray known
      (plan.constantTables.flatMap TableSetup.constantCommands) :=
    htables fun s hs => exists_of_mem_declared_tables (List.mem_append_left _ hs)
  have hdeferred : ∀ {known : List String}, Script.Along AdmitsOfArray known
      (plan.deferredTables.map fun t =>
        TableSetup.deferredDeclaration plan.problem.universals t.table) :=
    htables fun s hs => exists_of_mem_declared_tables (List.mem_append_right _ hs)
  have hsymbols : ∀ {known : List String}, Script.Along AdmitsOfArray known freeSymbols := by
    refine along_of_fits (along_commandsOf hfreeSymbols fun f _ ds hds known' _ => ?_)
    exact Declaration.along_symbol hW hds (fun k _ => over_kind k) (known_function fun _ => by simp)
  have hreversals : ∀ {known : List String},
      Script.Along AdmitsOfArray known plan.reversalCommands :=
    along_of_fits (hW.along_of_fits (Plan.fits_reversalCommands hW fun _ _ => over_kind _))
  have hpostulates : ∀ {known : List String}, Script.Along AdmitsOfArray known
      (plan.problem.postulates.map .postulate) :=
    along_of_declared (by simp)
  simp only [Plan.middle, Script.along_append, Script.along_cons, Script.along_nil,
    admitsOfArray_note, hconstant, hdeferred, hsymbols, hreversals, hpostulates, true_and, and_true]
  refine along_arrays_iff hS hplan huniversals ?_
  simpa using hknown.append (introduces_tables plan)

theorem exists_setup_of_ofArray {s : ArraySetup}
    (h : ArraySetup.ofArray config false p.constants p.skolems a = .ok s) :
    ∃ count, s.setup = Initializer.setup (arrayName a.id) count := by
  by_cases hsources : a.context.sources = []
  · obtain ⟨_, declared, -, rfl⟩ := ArraySetup.exists_of_free hsources h
    exact ⟨0, rfl⟩
  · obtain ⟨_, declared, q, -, -, rfl⟩ := ArraySetup.exists_of_derived hsources h
    exact ⟨1, rfl⟩

/-- After the definitions, only the arrays matter that wait. -/
theorem along_arrayCommands_iff (hS : p.Separates IsNodeOrArray) (hplan : p.IsPlan config plan)
    (huniversals : p.universals = []) (hknown : Introduces known
      (p.startingNodes ++ p.assignments.map Assignment.node) (p.arrays.map ArrayDatum.id)) :
    Script.Along AdmitsOfArray known plan.arrayCommands ↔ p.DefersKnown := by
  have hsetup : ∀ {known : List String},
      Script.Along AdmitsOfArray known (plan.arrays.flatMap ArraySetup.setup) := by
    refine Script.along_of_forall (List.forall_mem_flatMap.mpr fun s hs c hc _ _ => ?_)
    obtain ⟨a, -, hofArray⟩ := exists_of_mem_mapM hplan.arrays hs
    rw [huniversals] at hofArray
    obtain ⟨count, hsetup⟩ := exists_setup_of_ofArray hofArray
    exact admitsOfArray_setup hS a.id count c (hsetup ▸ hc)
  simp only [Plan.arrayCommands, Script.along_append, Script.along_cons, Script.along_nil,
    admitsOfArray_note, hsetup, true_and, and_true]
  simpa using along_deferredArrays_iff hS hplan huniversals hknown

/-- Without universal nodes, arrays are set up with what has been introduced before just if their
initial values are known before the first definition, and those that need not wait come after the
arrays that they are made from. -/
theorem introducesArrays_iff (hinputs : ∀ x ∈ p.inputs, ∃ q ∈ p.quantified, q.node.id = x.node.id)
    (hnames : ∀ s ∈ p.constructors ++ p.freeSymbols.map FreeSymbol.name, ¬IsNodeOrArray s)
    (huniversals : p.universals = []) {script : CompiledScript}
    (hscript : p.compile config = .ok script) :
    IntroducesArrays script.commands ↔ p.ListsArraysInOrder := by
  obtain ⟨hconstructors, hfree⟩ := List.forall_mem_append.mp hnames
  have hfree := List.forall_mem_map.mp hfree
  have hS := separates_isNodeOrArray hconstructors
  obtain ⟨plan, hplan, hcommands⟩ := exists_plan_of_compile hscript
  obtain ⟨tuples, constants, existentials, trackers, freeSymbols, definitions, conclusion, htuples,
    hconstants, hexistentials, htrackers, hfreeSymbols, hdefinitions, hconclusion, heq⟩ :=
    Plan.exists_sections_of_commands hcommands
  rw [hplan.ofProblem] at hconstants hexistentials hfreeSymbols
  rw [hplan.ofConfig] at hconstants
  rw [hplan.early_of_open huniversals] at hdefinitions
  rw [hplan.conclusionCommands_of_open huniversals] at hconclusion
  obtain rfl := Except.ok.inj hconclusion
  -- What is known when the arrays are declared, and when those that wait are set up.
  have hstart := introduces_start hS hplan huniversals htuples hconstants hexistentials htrackers
  have hmiddle := introduces_middle hplan huniversals hfree hfreeSymbols
  have hdefined : Introduces (Script.declared definitions)
      (p.assignments.map Assignment.node) [] := by
    rw [declared_definitions hdefinitions]
    simpa [Function.comp_def] using Introduces.of_nodes (p.assignments.map Assignment.node)
  have hproperty : IntroducesArrays script.commands ↔
      Script.Along AdmitsOfArray [] script.commands := by
    rw [Script.along_iff]
    rfl
  have hconclusion : ∀ {known : List String}, Script.Along AdmitsOfArray known
      (plan.openCommands (FinalFormula.commands p.skolems
        (FinalFormula.ofProblem p.constraints p.goal p.satisfiability))) :=
    along_of_declared (by simp [declared_openCommands])
  have hdefinitions : ∀ {known : List String}, Script.Along AdmitsOfArray known definitions :=
    along_nodes (declared_definitions hdefinitions)
  rw [listsArraysInOrder_iff hinputs hplan.references,
    ← along_middle_iff hS hplan huniversals hstart hfreeSymbols,
    ← along_arrayCommands_iff hS hplan huniversals
      (by simpa using (hstart.append hmiddle).append hdefined), hproperty, heq]
  rw [Script.along_append, Script.along_append, Script.along_append, Script.along_append,
    and_iff_left hconclusion, and_iff_left hdefinitions, and_iff_right
      (along_start hS hplan htuples hconstants hexistentials htrackers)]
  simp only [Script.declared_append, Script.declared_cons, Command.declares_note, List.nil_append,
    List.append_assoc]

/-! ### Arrays in and out of order -/

/-- An input with its negation, and some arrays. -/
def negatedWith (arrays : List ArrayDatum) : Problem where
  kinds := [.bool]
  inputs := [⟨⟨0, .bool⟩, "x"⟩]
  quantified := [.existential ⟨0, .bool⟩ []]
  arrays := arrays
  assignments := [⟨⟨1, .bool⟩, ⟨.not, [⟨0, .bool⟩]⟩⟩]

/-- An array whose elements are those of a node. -/
def filledArray (initial : Int) : ArrayDatum :=
  ⟨0, "filled", .bool, .bool, .free (some ⟨initial, .bool⟩)⟩

def freeArray : ArrayDatum := ⟨1, "free", .bool, .bool, .free none⟩

/-- The free array with one element changed. -/
def changedArray : ArrayDatum :=
  ⟨2, "changed", .bool, .bool, .mutate 1 (Node.ofBool true) (Node.ofBool false)⟩

theorem hasDistinctParts_negatedWith {arrays : List ArrayDatum}
    (harrays : (arrays.map ArrayDatum.id).Nodup) : (negatedWith arrays).HasDistinctParts where
  nodes := by simp [startingNodes, properConstants, negatedWith, QuantifiedInput.node]
  tables := List.nodup_nil
  arrays := harrays
  freeSymbols := List.nodup_nil
  free := by simp [negatedWith]

theorem isSelfContained_negatedWith (arrays : List ArrayDatum) :
    (negatedWith arrays).IsSelfContained where
  inputs := by simp [negatedWith, QuantifiedInput.node]
  operators := by simp [negatedWith, Lists]

/-- An array may be filled with an input, and changed after it has been declared. -/
theorem introducesArrays_negatedWith :
    ∃ script, (negatedWith [filledArray 0, freeArray, changedArray]).compile {} = .ok script ∧
      IntroducesArrays script.commands := by
  obtain ⟨script, hscript⟩ : ∃ script,
      (negatedWith [filledArray 0, freeArray, changedArray]).compile {} = .ok script := ⟨_, rfl⟩
  have hnames : (negatedWith [filledArray 0, freeArray, changedArray]).constructors ++
      (negatedWith [filledArray 0, freeArray, changedArray]).freeSymbols.map FreeSymbol.name = [] :=
    rfl
  have hinput : ∀ arrays, (negatedWith arrays).IsKnownAfter [] ⟨0, .bool⟩ := fun _ =>
    isKnownAfter_of_starting (m := ⟨0, .bool⟩) List.mem_cons_self rfl
  have hmentioned : ∀ arrays n, (negatedWith arrays).skolems.mentioned n = [n] := fun _ _ => rfl
  have hcases : ∀ a ∈ (negatedWith [filledArray 0, freeArray, changedArray]).arrays,
      a = filledArray 0 ∨ a = freeArray ∨ a = changedArray := by
    simp [negatedWith]
  refine ⟨script, hscript, (introducesArrays_iff (isSelfContained_negatedWith _).inputs
    (by rw [hnames]; simp) rfl hscript).mpr ⟨?_, ?_, ?_⟩⟩
  · intro a ha n hn m hm
    rw [hmentioned, List.mem_singleton] at hm
    have hn : n = ⟨0, .bool⟩ := by
      rcases hcases a ha with rfl | rfl | rfl
      · simpa using (List.mem_filter.mp hn).1
      · simp [freeArray, ArrayContext.initialNodes] at hn
      · simp [changedArray, ArrayContext.initialNodes] at hn
    rw [hm, hn]
    exact hinput _
  -- Only the last array is made from another one, which stands in front of it.
  · rintro (_ | ⟨_, _ | ⟨_, _ | _⟩⟩) a later hsplit - id hid
    all_goals
      simp only [negatedWith, List.nil_append, List.cons_append, List.cons.injEq] at hsplit
    · obtain ⟨rfl, -⟩ := hsplit
      simp [filledArray, ArrayContext.sources] at hid
    · obtain ⟨-, rfl, -⟩ := hsplit
      simp [freeArray, ArrayContext.sources] at hid
    · obtain ⟨-, rfl, rfl, -⟩ := hsplit
      obtain rfl : id = 1 := by simpa [changedArray, ArrayContext.sources] using hid
      simp [freeArray]
    · simp at hsplit
  · intro a _ _ n _ m hm
    have hnone : (negatedWith [filledArray 0, freeArray, changedArray]).skolems.dependencies? n =
        none := rfl
    simp [hnone] at hm

/-- An array may not be filled with the negation, nor be changed before it has been declared. -/
theorem not_introducesArrays_negatedWith :
    ((negatedWith [filledArray 1]).HasDistinctParts ∧
      (negatedWith [filledArray 1]).IsSelfContained ∧ (negatedWith [filledArray 1]).universals = [] ∧
      ∃ script, (negatedWith [filledArray 1]).compile {} = .ok script ∧
        ¬IntroducesArrays script.commands) ∧
    (negatedWith [changedArray, freeArray]).HasDistinctParts ∧
      (negatedWith [changedArray, freeArray]).IsSelfContained ∧
      (negatedWith [changedArray, freeArray]).universals = [] ∧
      ∃ script, (negatedWith [changedArray, freeArray]).compile {} = .ok script ∧
        ¬IntroducesArrays script.commands := by
  refine ⟨⟨hasDistinctParts_negatedWith (by decide), isSelfContained_negatedWith _, rfl, ?_⟩,
    hasDistinctParts_negatedWith (by decide), isSelfContained_negatedWith _, rfl, ?_⟩
  -- The initial value is the result of an assignment, and assignments come later.
  · obtain ⟨script, hscript, hcommands, hdeclared⟩ : ∃ script,
        (negatedWith [filledArray 1]).compile {} = .ok script ∧
          script.commands = script.commands.take 11 ++
            .defineFun (arrayName 0) (.array .bool .bool)
              (.app (.ascribed "const" (.array .bool .bool)) [.node 1]) "" ::
                script.commands.drop 12 ∧
          Script.declared (script.commands.take 11) = ["s0"] := ⟨_, rfl, rfl, rfl⟩
    refine ⟨script, hscript, fun h => ?_⟩
    have hknown := h _ _ _ hcommands (.inl ⟨0, .itself, by rw [← arrayName_eq]; rfl⟩) (.node 1)
      (by simp [Command.names]) "s1" rfl (.node 1 (by simp [GeneratedSymbol.IsReserved]))
    rw [hdeclared] at hknown
    exact absurd hknown (by decide)
  -- The array that the first one is made from comes later.
  · obtain ⟨script, hscript, hcommands, hdeclared⟩ : ∃ script,
        (negatedWith [changedArray, freeArray]).compile {} = .ok script ∧
          script.commands = script.commands.take 12 ++
            Initializer.part (arrayName 2) 0 (.app (.symbol "=") [.symbol (arrayName 2),
              .app (.symbol "store") [.symbol (arrayName 1), .node (-1), .node (-2)]]) ::
                script.commands.drop 13 ∧
          Script.declared (script.commands.take 12) = ["s0", "array_2"] := ⟨_, rfl, rfl, rfl⟩
    refine ⟨script, hscript, fun h => ?_⟩
    have harray : ∀ q, (Initializer.part (arrayName 2) 0 q).IsOfArray := fun q =>
      .inl ⟨2, .numbered 0, congrArg (fun s => [s]) (Initializer.partName_eq (.array 2) 0)⟩
    have hknown := h _ _ _ hcommands (harray _) (.function (arrayName 1))
      (by simp [Initializer.part, Command.names]) _ rfl (.array 1)
    rw [hdeclared] at hknown
    exact absurd hknown (by decide)

end Problem

end SolverScript
