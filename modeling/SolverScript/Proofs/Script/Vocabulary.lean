import SolverScript.Proofs.Encoding.Vocabulary
import SolverScript.Proofs.Script.CommandForms
import SolverScript.Proofs.Semantics.Script
import SolverScript.Proofs.Semantics.Symbols

/-!
# Names that occur in commands

A command mentions names and declares functions. Which names a command may mention can depend on the
functions that are declared before it, and then it matters in which order the commands of a script
come. This file follows a script with a list of what is known so far, and shows for the commands that
set up sorts, data types and symbols that they mention nothing but what they are made for.

## Main definitions

* `Command.declares`, `Command.names` - what a command declares and what it mentions
* `Script.Along` - a property of each command and of what is declared before it
* `Scoping` - which names may be mentioned, depending on what is known
* `Command.Fits` - a command mentions only such names

## Main results

* `Script.along_iff` - properties of commands with what is declared before them
* `Kind.over_invariants` - the invariants of a kind are written with its names
* `Declaration.along_symbol` - the commands that introduce a symbol
-/

namespace SolverScript

/-! ### Declared and mentioned names -/

/-- The names in the definition of a function, besides its own. -/
def FunctionDefinition.names (f : FunctionDefinition) : List Name :=
  (f.parameters.flatMap fun b => .function b.1 :: b.2.names) ++ f.result.names ++
    f.body.term.names.filter (· ≠ .function f.name)

namespace Command

/-- The functions that a command declares or defines. -/
def declares : Command → List String
  | declareEnumeration _ constructors => constructors
  | defineConstructorIndex name _ => [Datatype.indexName name]
  | declareTuple arity =>
    ("mkSBVTuple" ++ Nat.repr arity) ::
      (List.range arity).map fun i => Composite.projection (i + 1) arity
  | declareSum => ["left_SBVEither", "get_left_SBVEither", "right_SBVEither", "get_right_SBVEither"]
  | declareOptional => ["nothing_SBVMaybe", "just_SBVMaybe", "get_just_SBVMaybe"]
  | declareRationals =>
    [RationalFunction.constructor, RationalFunction.numerator, RationalFunction.denominator] ++
      RationalFunction.all.map RationalFunction.symbol
  | declareFun name .. | defineFun name .. | defineReversal _ name => [name]
  | _ => []

/-- The names in a command besides the functions that it declares. The lines of the user are not
read. -/
def names : Command → List Name
  | declareSort name | declareEnumeration name _ => [.sort name]
  | defineConstructorIndex name constructors => (Datatype.constructorIndex name constructors).names
  | declareRationals =>
    (RationalFunction.all.flatMap fun f => f.definition.names).filter
      fun x => !RationalFunction.all.any fun f => x == .function f.symbol
  | declareFun _ domain range _ => domain.flatMap SortExpr.names ++ range.names
  | defineFun _ sort value _ => sort.names ++ value.names
  | defineReversal what name => (what.definition name).names
  | assert formula | assertSoft formula => formula.names
  | assertAll formulas => Term.namesAll formulas
  | assertResults name arguments formulas =>
    .function name :: .function resultName ::
      ((List.range arguments.length).map fun i => .function (argumentName i)) ++
      arguments.flatMap SortExpr.names ++ Term.namesAll formulas
  | assertForAll block => block.term.names
  | _ => []

end Command

@[simp] theorem Command.declares_note (text : String) : (note text).declares = [] := rfl

/-! ### Properties along a script -/

namespace Script

/-- The functions that a script declares or defines, in order. -/
def declared (cs : List Command) : List String := cs.flatMap Command.declares

@[simp] theorem declared_nil : declared [] = [] := rfl

@[simp] theorem declared_cons {c : Command} {cs : List Command} :
    declared (c :: cs) = c.declares ++ declared cs := rfl

@[simp] theorem declared_append {cs ds : List Command} :
    declared (cs ++ ds) = declared cs ++ declared ds :=
  List.flatMap_append

/-- Whether a property holds of each command of a script with what is known before it. -/
def Along (Q : List String → Command → Prop) : List String → List Command → Prop
  | _, [] => True
  | known, c :: cs => Q known c ∧ Along Q (known ++ c.declares) cs

variable {Q R : List String → Command → Prop} {known : List String} {cs ds : List Command}

@[simp] theorem along_nil : Along Q known [] := trivial

@[simp] theorem along_cons {c : Command} :
    Along Q known (c :: cs) ↔ Q known c ∧ Along Q (known ++ c.declares) cs := Iff.rfl

theorem along_append :
    Along Q known (cs ++ ds) ↔ Along Q known cs ∧ Along Q (known ++ declared cs) ds := by
  induction cs generalizing known with
  | nil => simp
  | cons c cs ih => simp [ih, and_assoc]

/-- A property holds along a script just if it holds of every command with what stands before it. -/
theorem along_iff : Along Q known cs ↔
    ∀ earlier c later, cs = earlier ++ c :: later → Q (known ++ declared earlier) c := by
  constructor
  · rintro h earlier c later rfl
    exact (along_cons.mp (along_append.mp h).2).1
  · intro h
    induction cs generalizing known with
    | nil => trivial
    | cons c cs ih =>
      refine ⟨by simpa using h [] c cs rfl, ih fun earlier d later hsplit => ?_⟩
      simpa using h (c :: earlier) d later (by rw [hsplit]; rfl)

theorem Along.imp (h : Along Q known cs) (hQR : ∀ known, ∀ c ∈ cs, Q known c → R known c) :
    Along R known cs := by
  induction cs generalizing known with
  | nil => trivial
  | cons c cs ih =>
    exact ⟨hQR known c List.mem_cons_self h.1,
      ih h.2 fun known d hd => hQR known d (List.mem_cons_of_mem c hd)⟩

/-- What holds of every command whatever is known besides holds along the script. -/
theorem along_of_forall (h : ∀ c ∈ cs, ∀ known', known ⊆ known' → Q known' c) :
    Along Q known cs := by
  rw [along_iff]
  rintro earlier c later rfl
  exact h c (by simp) _ (List.subset_append_left _ _)

end Script

/-- A condition on names that depends on what is known. It admits nodes and symbols that the script
has named, and goes on to admit what it has admitted. -/
structure Scoping (W : List String → Name → Prop) : Prop where
  vocabulary : ∀ known, Vocabulary (W known)
  mono : ∀ {known known' : List String}, known ⊆ known' → ∀ x, W known x → W known' x
  node : ∀ {known : List String} {id : Int}, nodeName id ∈ known → W known (.node id)
  symbol : ∀ {known : List String} (g : GeneratedSymbol), g.name ∈ known →
    W known (.function g.name)
  rational : ∀ {known : List String} (f : RationalFunction), f.symbol ∈ known →
    W known (.function f.symbol)

/-- Whether a command mentions only names that are admitted before it, and whether the functions
that it declares are admitted afterwards. -/
structure Command.Fits (W : List String → Name → Prop) (known : List String) (c : Command) :
    Prop where
  names : ∀ x ∈ c.names, W known x
  declares : ∀ name ∈ c.declares, W (known ++ c.declares) (.function name)

variable {W : List String → Name → Prop} {known : List String} {V : Name → Prop}

namespace Scoping

variable (hW : Scoping W)

include hW

theorem over_mono {known' : List String} (h : known ⊆ known') {t : Term} (ht : t.Over (W known)) :
    t.Over (W known') :=
  fun x hx => hW.mono h x (ht x hx)

theorem fits_mono {known' : List String} (h : known ⊆ known') {c : Command}
    (hc : c.Fits W known) : c.Fits W known' where
  names := fun x hx => hW.mono h x (hc.names x hx)
  declares := fun name hname =>
    hW.mono (List.append_subset.mpr ⟨List.subset_append_of_subset_left _ h,
      List.subset_append_right _ _⟩) _ (hc.declares name hname)

/-- Commands that do not depend on each other may come in any order. -/
theorem along_of_fits {cs : List Command} (h : ∀ c ∈ cs, c.Fits W known) :
    Script.Along (Command.Fits W) known cs :=
  Script.along_of_forall fun c hc _ hknown => hW.fits_mono hknown (h c hc)

/-- A command that declares a symbol of the script. -/
theorem fits_of_symbol {c : Command} (g : GeneratedSymbol) (hc : c.declares = [g.name])
    (hnames : ∀ x ∈ c.names, W known x) : c.Fits W known := by
  refine ⟨hnames, fun name hname => ?_⟩
  obtain rfl := List.mem_singleton.mp (hc ▸ hname)
  exact hW.symbol g (by simp [hc])

theorem fits_declareFun (g : GeneratedSymbol) {domain : List SortExpr} {range : SortExpr}
    {remark : String} (hdomain : ∀ s ∈ domain, s.Over (W known)) (hrange : range.Over (W known)) :
    (Command.declareFun g.name domain range remark).Fits W known :=
  hW.fits_of_symbol g rfl
    (List.forall_mem_append.mpr ⟨List.forall_mem_flatMap.mpr hdomain, hrange⟩)

theorem fits_defineFun (g : GeneratedSymbol) {sort : SortExpr} {value : Term} {remark : String}
    (hsort : sort.Over (W known)) (hvalue : value.Over (W known)) :
    (Command.defineFun g.name sort value remark).Fits W known :=
  hW.fits_of_symbol g rfl (List.forall_mem_append.mpr ⟨hsort, hvalue⟩)

end Scoping

/-- A command that declares nothing. -/
theorem Command.fits_of_names {c : Command} (hc : c.declares = [])
    (hnames : ∀ x ∈ c.names, W known x) : c.Fits W known :=
  ⟨hnames, by simp [hc]⟩

@[simp] theorem Command.fits_note (text : String) : (note text).Fits W known :=
  fits_of_names rfl (by simp [names])

@[simp] theorem Command.fits_setting (line : String) : (setting line).Fits W known :=
  fits_of_names rfl (by simp [names])

@[simp] theorem Command.fits_setLogic (name remark : String) :
    (setLogic name remark).Fits W known :=
  fits_of_names rfl (by simp [names])

@[simp] theorem Command.fits_postulate (p : Postulate) : (postulate p).Fits W known :=
  fits_of_names rfl (by simp [names])

@[simp] theorem Command.fits_assert {formula : Term} :
    (assert formula).Fits W known ↔ formula.Over (W known) :=
  ⟨fun h => h.names, fun h => ⟨h, by simp [declares]⟩⟩

@[simp] theorem Command.fits_assertSoft {formula : Term} :
    (assertSoft formula).Fits W known ↔ formula.Over (W known) :=
  ⟨fun h => h.names, fun h => ⟨h, by simp [declares]⟩⟩

@[simp] theorem Command.fits_assertAll {formulas : List Term} :
    (assertAll formulas).Fits W known ↔ ∀ f ∈ formulas, f.Over (W known) := by
  rw [← Term.forall_mem_namesAll]
  exact ⟨fun h => h.names, fun h => ⟨h, by simp [declares]⟩⟩

theorem SortExpr.forall_mem_flatMap_names {ss : List SortExpr} :
    (∀ x ∈ ss.flatMap names, V x) ↔ ∀ s ∈ ss, s.Over V :=
  List.forall_mem_flatMap

/-! ### Sorts and data types -/

theorem Datatype.over_positionOf (hV : Vocabulary V) (n : Nat) {constructors : List String}
    (h : ∀ c ∈ constructors, V (.function c)) : (positionOf n constructors).Over V := by
  fun_induction positionOf n constructors with
  | case1 => simp
  | case2 => simp
  | case3 n c next rest ih =>
    obtain ⟨hc, hrest⟩ := List.forall_mem_cons.mp h
    simp [hV.function, hc, ih hrest]

/-- The names in a definition satisfy a condition when those of its parts do. -/
theorem FunctionDefinition.forall_mem_names {f : FunctionDefinition}
    (hparameters : ∀ b ∈ f.parameters, V (.function b.1) ∧ b.2.Over V) (hresult : f.result.Over V)
    (hbody : f.body.term.Over fun x => V x ∨ x = .function f.name) : ∀ x ∈ f.names, V x := by
  unfold names
  rw [List.forall_mem_append, List.forall_mem_append, List.forall_mem_flatMap]
  refine ⟨⟨fun b hb => List.forall_mem_cons.mpr (hparameters b hb), hresult⟩, fun x hx => ?_⟩
  obtain ⟨hx, hname⟩ := List.mem_filter.mp hx
  exact (hbody x hx).resolve_right (by simpa using hname)

theorem Declaration.fits_userSort (hW : Scoping W) {s : UserSort} (hsort : W known (.sort s.name))
    (hconstructors : ∀ cs ∈ s.constructors, ∀ c ∈ cs, W known (.function c)) :
    ∀ c ∈ userSort s, c.Fits W known := by
  have hV := hW.vocabulary known
  have hsortNames : ∀ x ∈ [Name.sort s.name], W known x := List.forall_mem_singleton.mpr hsort
  refine forall_mem_userSort ⟨hsortNames, by simp [Command.declares]⟩ fun constructors hs => ?_
  have hnames : ∀ c ∈ constructors, W known (.function c) := hconstructors _ hs
  have hlater := hW.mono (List.subset_append_left known constructors)
  refine ⟨⟨hsortNames, fun c hc => hlater _ (hnames c hc)⟩, ?_, ?_⟩
  · refine FunctionDefinition.forall_mem_names ?_ ?_ ?_
    · simp [Datatype.constructorIndex, hV.function, hsort]
    · simp [Datatype.constructorIndex, Kind.sort, hV.builtin]
    · exact fun x hx => .inl (Datatype.over_positionOf hV 0 hnames x hx)
  · have hindex := (hW.vocabulary (known ++ [Datatype.indexName s.name])).position s.name
      (hW.mono (List.subset_append_left _ _) _ hsort)
    simpa [Command.declares] using hindex

theorem Command.fits_declareTuple (hW : Scoping W) (arity : Nat) :
    (declareTuple arity).Fits W known :=
  ⟨by simp [names], by simp [declares, (hW.vocabulary _).builtin]⟩

theorem RationalFunction.over_body {f : RationalFunction} (hV : Vocabulary V)
    (hfunctions : ∀ g : RationalFunction, V (.function g.symbol)) :
    f.definition.body.term.Over V := by
  have haccessors : V (.function constructor) ∧ V (.function numerator) ∧
      V (.function denominator) := by
    simp [constructor, numerator, denominator, hV.function]
  cases f <;> simp [definition, body, Layout.term, Layout.terms, crosswise, commonDenominator,
    product, wideNumeratorOf, numeratorOf, denominatorOf, hV.function, hV.over_negation, hV.over_int,
    haccessors, hfunctions]

theorem RationalFunction.mem_all (f : RationalFunction) : f ∈ all := by
  cases f <;> simp [all]

/-- The definitions of the functions on rationals need nothing but each other. -/
theorem Command.fits_declareRationals (hW : Scoping W) : declareRationals.Fits W known := by
  constructor
  · intro x hx
    obtain ⟨hx, hother⟩ := List.mem_filter.mp hx
    obtain ⟨f, -, hx⟩ := List.mem_flatMap.mp hx
    -- The condition is widened by what the command declares itself.
    let V : Name → Prop := fun x => W known x ∨ ∃ g : RationalFunction, x = .function g.symbol
    have hV : Vocabulary V :=
      { builtin := fun x hx => .inl ((hW.vocabulary known).builtin x hx)
        position := by
          rintro sort (hsort | ⟨_, hsort⟩)
          · exact .inl ((hW.vocabulary known).position sort hsort)
          · cases hsort }
    have hsort : Kind.rational.sort.Over V := by simp [Kind.sort, hV.builtin]
    have hresult : f.result.sort.Over V := by
      cases f <;> simp [RationalFunction.result, Kind.sort, hV.builtin]
    have hparameters : ∀ b ∈ f.definition.parameters, V (.function b.1) ∧ b.2.Over V := by
      cases f <;>
        simp [RationalFunction.definition, RationalFunction.parameters, hV.function, hsort]
    have hbody := RationalFunction.over_body (f := f) hV fun g => .inr ⟨g, rfl⟩
    rcases FunctionDefinition.forall_mem_names hparameters hresult (fun x hx => .inl (hbody x hx))
      x hx with hx | ⟨g, rfl⟩
    · exact hx
    · exact absurd hother (by simpa using ⟨g, g.mem_all, rfl⟩)
  · have hV := hW.vocabulary (known ++ declareRationals.declares)
    refine List.forall_mem_append.mpr ⟨?_, List.forall_mem_map.mpr fun f hf => ?_⟩
    · simp [RationalFunction.constructor, RationalFunction.numerator,
        RationalFunction.denominator, hV.function]
    · refine hW.rational f (List.mem_append_right _ (List.mem_append_right _ ?_))
      exact List.mem_map_of_mem hf

theorem Features.fits_datatypeCommands (hW : Scoping W) (f : Features) :
    ∀ c ∈ f.datatypeCommands, c.Fits W known :=
  f.forall_mem_datatypeCommands
    ⟨by simp [Command.names], by simp [Command.declares, (hW.vocabulary _).function]⟩
    ⟨by simp [Command.names], by simp [Command.declares, (hW.vocabulary _).function]⟩
    (Command.fits_declareRationals hW)

/-- The functions that reverse are written with the sort that they reverse. -/
theorem Reversible.forall_mem_names (hV : Vocabulary V) {what : Reversible}
    (hkind : what.kind.Over V) (name : String) : ∀ x ∈ (what.definition name).names, V x := by
  have hsort := Kind.over_sort hV hkind
  have hstring : ∀ op : StringOp, V (.function op.symbol) := fun op => hV.builtin _ (.ofString op)
  have hsequence : ∀ op : SequenceOp, V (.function op.symbol) :=
    fun op => hV.builtin _ (.ofSequence op)
  cases what with
  | string =>
    refine FunctionDefinition.forall_mem_names ?_ hsort ?_
    · simpa [definition, hV.function] using hsort
    · have hconcat : V (.function "str.++") := hstring .concat
      have hsubstring : V (.function "str.substr") := hstring .substring
      have hlength : V (.function "str.len") := hstring .length
      simp [definition, stringBody, byEmptiness, restOf, Layout.term, Layout.terms, hV.function,
        hconcat, hsubstring, hlength]
  | list k =>
    have hconcat : V (.function "seq.++") := hsequence .concat
    have hextract : V (.function "seq.extract") := hsequence .extract
    have hlength : V (.function "seq.len") := hsequence .length
    have hunit : V (.function "seq.unit") := hsequence .unit
    have hnth : V (.function "seq.nth") := hsequence .nth
    refine FunctionDefinition.forall_mem_names ?_ hsort ?_
    · simpa [definition, hV.function] using hsort
    · have hsort' : (list k).kind.sort.Over fun x => V x ∨ x = .function name :=
        fun x hx => .inl (hsort x hx)
      simp [definition, listBody, byEmptiness, restOf, Layout.term, Layout.terms, hV.function,
        hconcat, hextract, hlength, hunit, hnth, hsort']

/-! ### Invariants -/

namespace Kind

theorem over_leafInvariants (hV : Vocabulary V) (k : Kind) {t : Term} (ht : t.Over V) :
    ∀ f ∈ leafInvariants k t, f.Over V := by
  have hlength : V (.function "str.len") := hV.builtin _ (.ofString .length)
  unfold leafInvariants
  split <;> simp [ht, hV.function, hlength, RationalFunction.denominator]

theorem over_conjunction (hV : Vocabulary V) {fs : List Term} (hfs : ∀ f ∈ fs, f.Over V) :
    (conjunction fs).Over V := by
  unfold conjunction
  split <;> simp_all [hV.function]

theorem over_implication (hV : Vocabulary V) {premise conclusion : Term} (hpremise : premise.Over V)
    (hconclusion : conclusion.Over V) : (implication premise conclusion).Over V := by
  simp [implication, hV.function, hpremise, hconclusion]

theorem over_whenMadeBy (hV : Vocabulary V) {constructor : String} {parameter whole : Kind}
    {t : Term} {fs : List Term} (hconstructor : V (.function constructor))
    (hparameter : parameter.Over V) (hwhole : whole.Over V) (ht : t.Over V)
    (hfs : ∀ f ∈ fs, f.Over V) : ∀ f ∈ whenMadeBy constructor parameter whole t fs, f.Over V := by
  intro f hf
  obtain ⟨g, hg, rfl⟩ := List.mem_map.mp hf
  have htester := Composite.over_testerWithSignature hV hconstructor
    (List.forall_mem_singleton.mpr hparameter) hwhole
  exact over_implication hV (by simpa [htester] using ht) (hfs g hg)

mutual

/-- The invariants of a kind are written with its names and those of the term that they are stated
for. -/
theorem over_invariantsAt (hV : Vocabulary V) {depth : Nat} {leaf : Kind → Term → List Term}
    {t : Term} {k : Kind} (hleaf : ∀ k t, t.Over V → ∀ f ∈ leaf k t, f.Over V) (hk : k.Over V)
    (ht : t.Over V) : ∀ f ∈ invariantsAt depth leaf t k, f.Over V := by
  have hunary : ∀ {name : String}, V (.function name) →
      (Term.app (.symbol name) [t]).Over V := fun hname => by simp [hname, ht]
  cases k with
  | list k =>
    unfold invariantsAt
    split
    · have hindex : V (.function ("seq" ++ Nat.repr depth)) := hV.builtin _ (.element depth)
      have hnth : V (.function "seq.nth") := hV.builtin _ (.ofSequence .nth)
      have hlength : V (.function "seq.len") := hV.builtin _ (.ofSequence .length)
      have helement : (Term.app (.symbol "seq.nth")
          [t, .symbol ("seq" ++ Nat.repr depth)]).Over V := by simp [ht, hindex, hnth]
      have hinvariants : ∀ f ∈ invariantsAt (depth + 1) leaf _ k, f.Over V :=
        over_invariantsAt hV hleaf (over_list.mp hk) helement
      have hformula := over_conjunction hV hinvariants
      simp [elementwise, implication, sort, hV.function, hV.builtin, ht, hlength, hformula]
    · simp
  | set k =>
    unfold invariantsAt
    split
    · have hmember : V (.function ("set" ++ Nat.repr depth)) := hV.builtin _ (.member depth)
      -- The invariants of the members are stated for a bound variable.
      have hleaf' : ∀ k t, t.Over V → ∀ f ∈ (leaf k
          (.symbol ("set" ++ Nat.repr depth))).map (implication (.app (.symbol "select")
            [t, .symbol ("set" ++ Nat.repr depth)])), f.Over V := by
        intro k t ht f hf
        obtain ⟨g, hg, rfl⟩ := List.mem_map.mp hf
        refine over_implication hV (by simp [hV.function, ht, hmember]) ?_
        exact hleaf k _ (by simpa using hmember) g hg
      have hinvariants : ∀ f ∈ invariantsAt (depth + 1) _ t k, f.Over V :=
        over_invariantsAt hV hleaf' (over_set.mp hk) ht
      have hformula := over_conjunction hV hinvariants
      simp [hmember, over_sort hV (over_set.mp hk), hformula]
    · simp
  | tuple ks => exact over_componentInvariants hV hleaf (over_tuple.mp hk) ht
  | maybe k =>
    have hcomponent := over_maybe.mp hk
    exact over_whenMadeBy hV (Composite.over_maybeConstructor hV true) hcomponent hk ht
      (over_invariantsAt hV hleaf hcomponent
        (hunary (by simp [Composite.maybeAccessor, hV.function])))
  | either l r =>
    obtain ⟨hl, hr⟩ := over_either.mp hk
    refine List.forall_mem_append.mpr ⟨?_, ?_⟩
    · exact over_whenMadeBy hV (Composite.over_sideConstructor hV false) hl hk ht
        (over_invariantsAt hV hleaf hl (hunary (Composite.over_sideAccessor hV false)))
    · exact over_whenMadeBy hV (Composite.over_sideConstructor hV true) hr hk ht
        (over_invariantsAt hV hleaf hr (hunary (Composite.over_sideAccessor hV true)))
  | _ => exact hleaf _ t ht

theorem over_componentInvariants (hV : Vocabulary V) {depth : Nat}
    {leaf : Kind → Term → List Term} {t : Term} {arity position : Nat} {ks : List Kind}
    (hleaf : ∀ k t, t.Over V → ∀ f ∈ leaf k t, f.Over V) (hks : ∀ k ∈ ks, k.Over V)
    (ht : t.Over V) : ∀ f ∈ componentInvariants depth leaf t arity position ks, f.Over V := by
  cases ks with
  | nil => simp [componentInvariants]
  | cons k ks =>
    obtain ⟨hk, hrest⟩ := List.forall_mem_cons.mp hks
    have hprojection : V (.function (Composite.projection position arity)) :=
      hV.builtin _ (.projection position arity)
    refine List.forall_mem_append.mpr ⟨?_, over_componentInvariants hV hleaf hrest ht⟩
    exact over_invariantsAt hV hleaf hk (by simp [ht, hprojection])

end

/-- The invariants of a kind are written with its names and those of the term. -/
theorem over_invariants (hV : Vocabulary V) {k : Kind} (hk : k.Over V) {t : Term} (ht : t.Over V) :
    ∀ f ∈ k.invariants t, f.Over V :=
  over_invariantsAt hV (fun k _ => over_leafInvariants hV k) hk ht

end Kind

/-! ### Symbols and nodes -/

namespace Declaration

theorem forall_mem_of_splitSignature? {P : Kind → Prop} {ks arguments : List Kind} {result : Kind}
    (h : splitSignature? ks = some (arguments, result)) (hks : ∀ k ∈ ks, P k) :
    (∀ k ∈ arguments, P k) ∧ P result := by
  cases ks with
  | nil => cases h
  | cons k ks =>
    cases h
    refine ⟨fun l hl => hks l (List.dropLast_subset _ hl), hks _ ?_⟩
    rw [List.getLastD_cons]
    exact List.getLastD_mem_cons

theorem fits_constantInvariants {name : String} {result : Kind}
    (h : ∀ f ∈ result.invariants (.symbol name), f.Over (W known)) :
    ∀ c ∈ constantInvariants name result, c.Fits W known := by
  unfold constantInvariants
  split <;> simp_all

theorem fits_resultInvariants (hV : Vocabulary (W known)) {name : String} {arguments : List Kind}
    {result : Kind} (hname : W known (.function name))
    (harguments : ∀ k ∈ arguments, k.Over (W known))
    (h : ∀ f ∈ result.invariants (.symbol resultName), f.Over (W known)) :
    ∀ c ∈ resultInvariants name arguments result, c.Fits W known := by
  have hresult : W known (.function resultName) := by simp [resultName, hV.function]
  have hvariables : ∀ i, W known (.function (argumentName i)) := fun i => hV.builtin _ (.argument i)
  refine List.forall_mem_singleton.mpr (Command.fits_of_names rfl ?_)
  simp only [Command.names, List.forall_mem_cons, List.forall_mem_append, List.forall_mem_map,
    SortExpr.forall_mem_flatMap_names, Term.forall_mem_namesAll]
  exact ⟨⟨⟨hname, hresult, fun i _ => hvariables i⟩,
    fun k hk => Kind.over_sort hV (harguments k hk)⟩, h⟩

/-- The commands that introduce a symbol without definition mention the kinds in its signature, and
declare nothing but the symbol. -/
theorem along_symbol (hW : Scoping W) {name remark : String} {ks : List Kind} {cs : List Command}
    (h : symbol name ks remark = .ok cs) (hks : ∀ k ∈ ks, k.Over (W known))
    (hname : W (known ++ [name]) (.function name)) :
    Script.Along (Command.Fits W) known cs := by
  unfold symbol at h
  split at h
  · cases h
  next arguments result hsplit =>
  cases h
  have hV := hW.vocabulary (known ++ [name])
  obtain ⟨harguments, hresult⟩ := forall_mem_of_splitSignature? hsplit hks
  have hlater : ∀ {k : Kind}, k.Over (W known) → k.Over (W (known ++ [name])) :=
    fun hk x hx => hW.mono (List.subset_append_left _ _) x (hk x hx)
  -- The invariants of a constant are about it, those of a function about its bound result.
  have hinvariants : ∀ text, W (known ++ [name]) (.function text) →
      ∀ f ∈ result.invariants (.symbol text), f.Over (W (known ++ [name])) := fun text htext =>
    Kind.over_invariants hV (hlater hresult) (Term.over_symbol.mpr htext)
  refine ⟨⟨?_, by simpa [Command.declares] using hname⟩, hW.along_of_fits ?_⟩
  · refine List.forall_mem_append.mpr ⟨?_, Kind.over_sort (hW.vocabulary known) hresult⟩
    rw [SortExpr.forall_mem_flatMap_names, List.forall_mem_map]
    exact fun k hk => Kind.over_sort (hW.vocabulary known) (harguments k hk)
  · split
    · simp
    split
    · exact fits_constantInvariants (hinvariants name hname)
    · exact fits_resultInvariants hV hname (fun k hk => hlater (harguments k hk))
        (hinvariants resultName (by simp [resultName, hV.function]))

theorem declared_symbol {name remark : String} {ks : List Kind} {cs : List Command}
    (h : symbol name ks remark = .ok cs) : Script.declared cs = [name] := by
  unfold symbol at h
  split at h <;> cases h
  rw [Script.declared_cons, Command.declares]
  split
  · rfl
  split
  · unfold constantInvariants
    split <;> rfl
  · rfl

/-- The definition of a node mentions its kind and what its value mentions. -/
theorem along_defined (hW : Scoping W) {c : Capabilities} {n : Node} {value : Term}
    {remark : String} (hkind : n.kind.Over (W known)) (hvalue : value.Over (W known)) :
    Script.Along (Command.Fits W) known (defined c n value remark) := by
  have hsort := Kind.over_sort (hW.vocabulary known) hkind
  unfold defined
  split
  · exact ⟨hW.fits_defineFun (.node n.id) hsort hvalue, trivial⟩
  · refine ⟨hW.fits_declareFun (.node n.id) (by simp) hsort, ?_, trivial⟩
    -- The equation comes after the declaration.
    change (Command.assert _).Fits W (known ++ [n.name])
    have hnode : W (known ++ [n.name]) (.node n.id) := hW.node (by simp [Node.name])
    have hvalue' := hW.over_mono (List.subset_append_left known [n.name]) hvalue
    simp [Node.term, (hW.vocabulary _).function, hnode, hvalue']

@[simp] theorem declared_defined {c : Capabilities} {n : Node} {value : Term} {remark : String} :
    Script.declared (defined c n value remark) = [n.name] := by
  unfold defined
  split <;> rfl

theorem along_constant (hW : Scoping W) {config : Config} {c : Constant} {cs : List Command}
    (h : constant config c = .ok cs) (hkind : c.node.kind.Over (W known))
    (hvalue : c.value.Over (W known)) : Script.Along (Command.Fits W) known cs := by
  rcases constant_cases h with ⟨-, rfl⟩ | ⟨-, t, ht, rfl⟩
  · trivial
  · exact along_defined hW hkind (Value.over_term (hW.vocabulary known) hvalue ht)

theorem declared_constant {config : Config} {c : Constant} {cs : List Command}
    (h : constant config c = .ok cs) :
    Script.declared cs = if c.node.isTrue || c.node.isFalse then [] else [c.node.name] := by
  rcases constant_cases h with ⟨hreserved, rfl⟩ | ⟨hreserved, t, -, rfl⟩ <;> simp [hreserved]

end Declaration

end SolverScript
