import SolverScript.Kind.Set
import SolverScript.Proofs.Semantics.Names
import SolverScript.Script.SortExpr

/-!
# Kinds with the same sort

The sort of a kind does not show everything: bit-vectors lose their sign, characters become strings,
the two common float formats lose their names, and a user sort keeps its name only. Nothing else is
lost. A sort can be read off its text, because a name ends where a blank or a parenthesis follows,
and the kind can be read off the sort, if no user sort is called like a built-in one.

## Main definitions

* `Kind.erased` - a kind without what its sort does not show
* `UserSort.HasOwnName`, `Kind.HasOwnNames` - user sorts that are not taken for other sorts
* `SortExpr.kind?` - the kind that a sort is the sort of

## Main results

* `SortExpr.render_append_inj` - a text starts with at most one sort
* `Kind.kind?_sort` - what is read off the sort of a kind
* `Kind.render_sort_eq_iff` - kinds have the same sort exactly if they are the same but for what is
  erased
-/

namespace SolverScript

/-! ### What sorts erase -/

namespace Kind

mutual

/-- A kind without what its sort does not show. -/
def erased : Kind → Kind
  | bounded _ width => bounded false width
  | userSort s => userSort ⟨s.name, none⟩
  | float => floating .single
  | double => floating .double
  | char => string
  | list k => list (erased k)
  | set k => set (erased k)
  | tuple ks => tuple (erasedAll ks)
  | maybe k => maybe (erased k)
  | either l r => either (erased l) (erased r)
  | bool => bool
  | unbounded => unbounded
  | real => real
  | floating format => floating format
  | string => string
  | rational => rational

/-- Several kinds without what their sorts do not show. -/
def erasedAll : List Kind → List Kind
  | [] => []
  | k :: ks => erased k :: erasedAll ks

end

theorem length_erasedAll (ks : List Kind) : (erasedAll ks).length = ks.length := by
  induction ks with
  | nil => rfl
  | cons k ks ih => rw [erasedAll, List.length_cons, ih, List.length_cons]

mutual

/-- The sort does not show what is erased. -/
theorem sort_erased (k : Kind) : k.erased.sort = k.sort := by
  cases k with
  | list k => rw [erased, sort, sort, sort_erased k]
  | set k => rw [erased, sort, sort, sort_erased k]
  | maybe k => rw [erased, sort, sort, sort_erased k]
  | either l r => rw [erased, sort, sort, sort_erased l, sort_erased r]
  | tuple ks => rw [erased, sort, sort, sortAll_erasedAll ks]
  | _ => rfl

theorem sortAll_erasedAll (ks : List Kind) : sortAll (erasedAll ks) = sortAll ks := by
  cases ks with
  | nil => rfl
  | cons k ks => rw [erasedAll, sortAll, sortAll, sort_erased k, sortAll_erasedAll ks]

end

end Kind

/-! ### Sorts in a text -/

namespace SortExpr

/-- The characters that can follow a name in a sort. -/
def isDelimiter (c : Char) : Bool := c == ' ' || c == '(' || c == ')'

/-- Whether some characters make up one name. -/
def IsName (cs : List Char) : Prop := cs ≠ [] ∧ ∀ c ∈ cs, isDelimiter c = false

instance (cs : List Char) : Decidable (IsName cs) :=
  decidable_of_iff (cs ≠ [] ∧ cs.all fun c => !isDelimiter c) (by simp [IsName])

/-- Whether a name in front of some characters ends there. -/
def EndsName (rest : List Char) : Prop := ∀ c ∈ rest.head?, isDelimiter c = true

theorem endsName_cons {c : Char} (h : isDelimiter c = true) (rest : List Char) :
    EndsName (c :: rest) := by
  rintro _ ⟨⟩
  exact h

mutual

/-- Whether all names in a sort are names, and none of those that are applied looks like the one
that marks indices. -/
def IsPlain : SortExpr → Prop
  | named name => IsName name.toList
  | indexed name _ => IsName name.toList
  | applied name arguments => IsName name.toList ∧ name ≠ "_" ∧ ArePlain arguments

/-- Whether all names in several sorts are names. -/
def ArePlain : List SortExpr → Prop
  | [] => True
  | s :: ss => IsPlain s ∧ ArePlain ss

end

variable {cs ds rest rest' : List Char}

theorem takeWhile_name (hcs : ∀ c ∈ cs, isDelimiter c = false) (hrest : EndsName rest) :
    (cs ++ rest).takeWhile (fun c => !isDelimiter c) = cs := by
  rw [List.takeWhile_append_of_pos fun c hc => by simp [hcs c hc]]
  cases rest with
  | nil => simp
  | cons c rest => simp [hrest c rfl]

/-- A text starts with at most one name. -/
theorem name_append_inj (hcs : ∀ c ∈ cs, isDelimiter c = false)
    (hds : ∀ c ∈ ds, isDelimiter c = false) (hrest : EndsName rest) (hrest' : EndsName rest')
    (h : cs ++ rest = ds ++ rest') : cs = ds ∧ rest = rest' := by
  have hname : cs = ds := by
    rw [← takeWhile_name hcs hrest, h, takeWhile_name hds hrest']
  subst hname
  exact ⟨rfl, List.append_cancel_left h⟩

/-- A name does not look like a list in parentheses. -/
theorem IsName.append_ne (hcs : IsName cs) : cs ++ rest ≠ '(' :: rest' := by
  intro h
  obtain ⟨hne, hall⟩ := hcs
  cases cs with
  | nil => exact hne rfl
  | cons c cs =>
    obtain ⟨rfl, -⟩ := List.cons_eq_cons.mp h
    exact absurd (hall '(' List.mem_cons_self) (by decide)

theorem isDelimiter_of_mem_repr {n : Nat} {c : Char} (hc : c ∈ (Nat.repr n).toList) :
    isDelimiter c = false := by
  rw [Nat.toList_repr] at hc
  have hdigit := Nat.isDigit_of_mem_toDigits (by decide) (by decide) hc
  have hdelimiters : ∀ d ∈ [' ', '(', ')'], d.isDigit = false := by simp
  rw [← Bool.not_eq_true]
  intro h
  have hmem : c ∈ [' ', '(', ')'] := by
    simpa only [isDelimiter, Bool.or_eq_true, beq_iff_eq, or_assoc, List.mem_cons,
      List.not_mem_nil, or_false] using h
  rw [hdelimiters c hmem] at hdigit
  cases hdigit

theorem isName_repr (n : Nat) : IsName (Nat.repr n).toList := by
  refine ⟨?_, fun c hc => isDelimiter_of_mem_repr hc⟩
  rw [Nat.toList_repr]
  exact Nat.toDigits_ne_nil

/-- Behind a name, indices start with a blank, and without indices there is a parenthesis. -/
theorem endsName_renderIndices (ns : List Nat) :
    EndsName ((renderIndices ns).toList ++ ')' :: rest) := by
  cases ns with
  | nil => exact endsName_cons rfl rest
  | cons n ns =>
    rw [renderIndices, String.append_assoc, String.toList_append]
    exact endsName_cons rfl _

theorem endsName_renderAll (ss : List SortExpr) :
    EndsName ((renderAll ss).toList ++ ')' :: rest) := by
  cases ss with
  | nil => exact endsName_cons rfl rest
  | cons s ss =>
    rw [renderAll, String.append_assoc, String.toList_append]
    exact endsName_cons rfl _

theorem renderIndices_append_inj {ms ns : List Nat}
    (h : (renderIndices ms).toList ++ ')' :: rest = (renderIndices ns).toList ++ ')' :: rest') :
    ms = ns ∧ rest = rest' := by
  induction ms generalizing ns with
  | nil =>
    cases ns with
    | nil => exact ⟨rfl, (List.cons_eq_cons.mp h).2⟩
    | cons n ns => simp [renderIndices] at h
  | cons m ms ih =>
    cases ns with
    | nil => simp [renderIndices] at h
    | cons n ns =>
      simp only [renderIndices, String.toList_append, List.append_assoc] at h
      obtain ⟨hrepr, hindices⟩ := name_append_inj (isName_repr m).2 (isName_repr n).2
        (endsName_renderIndices ms) (endsName_renderIndices ns) (List.append_cancel_left h)
      obtain ⟨rfl, hend⟩ := ih hindices
      exact ⟨by rw [Numeral.repr_injective (String.toList_inj.mp hrepr)], hend⟩

/-- The characters of a sort with indices, with what follows. -/
theorem render_indexed_append (name : String) (ns : List Nat) (rest : List Char) :
    (indexed name ns).render.toList ++ rest =
      '(' :: (['_'] ++ ([' '] ++ (name.toList ++ ((renderIndices ns).toList ++ ')' :: rest)))) := by
  simp [render]

theorem render_applied_append (name : String) (ss : List SortExpr) (rest : List Char) :
    (applied name ss).render.toList ++ rest =
      '(' :: (name.toList ++ ((renderAll ss).toList ++ ')' :: rest)) := by
  simp [render]

/-- An application does not look like a sort with indices. -/
theorem render_applied_append_ne {name other : String} {ss : List SortExpr} {ns : List Nat}
    (h : (applied name ss).IsPlain) :
    (applied name ss).render.toList ++ rest ≠ (indexed other ns).render.toList ++ rest' := by
  rw [render_applied_append, render_indexed_append]
  intro heq
  obtain ⟨hname, hmark, -⟩ := h
  have hmarkName : IsName ['_'] := by decide
  have hsame := (name_append_inj hname.2 hmarkName.2 (endsName_renderAll ss)
    (endsName_cons rfl _) (List.cons_eq_cons.mp heq).2).1
  exact hmark (String.toList_inj.mp hsame)

mutual

/-- A text starts with at most one sort. -/
theorem render_append_inj {s t : SortExpr} {rest rest' : List Char} (hs : s.IsPlain)
    (ht : t.IsPlain) (hrest : EndsName rest) (hrest' : EndsName rest')
    (h : s.render.toList ++ rest = t.render.toList ++ rest') : s = t ∧ rest = rest' := by
  -- What follows is arbitrary: in a list of arguments it is the next argument. A plain name has no
  -- parenthesis, so that the first character tells names from applications.
  cases s with
  | named m =>
    cases t with
    | named n =>
      obtain ⟨hname, hrest⟩ := name_append_inj hs.2 ht.2 hrest hrest' h
      exact ⟨by rw [String.toList_inj.mp hname], hrest⟩
    | indexed n ns =>
      rw [render_indexed_append] at h
      exact absurd h hs.append_ne
    | applied n ts =>
      rw [render_applied_append] at h
      exact absurd h hs.append_ne
  | indexed m ms =>
    cases t with
    | named n =>
      rw [render_indexed_append] at h
      exact absurd h.symm ht.append_ne
    | indexed n ns =>
      rw [render_indexed_append, render_indexed_append] at h
      obtain ⟨hname, hindices⟩ := name_append_inj hs.2 ht.2 (endsName_renderIndices ms)
        (endsName_renderIndices ns)
        (List.append_cancel_left (List.append_cancel_left (List.cons_eq_cons.mp h).2))
      obtain ⟨rfl, hend⟩ := renderIndices_append_inj hindices
      exact ⟨by rw [String.toList_inj.mp hname], hend⟩
    | applied n ts => exact absurd h.symm (render_applied_append_ne ht)
  | applied m ss =>
    cases t with
    | named n =>
      rw [render_applied_append] at h
      exact absurd h.symm ht.append_ne
    | indexed n ns => exact absurd h (render_applied_append_ne hs)
    | applied n ts =>
      rw [render_applied_append, render_applied_append] at h
      obtain ⟨hname, harguments⟩ := name_append_inj hs.1.2 ht.1.2 (endsName_renderAll ss)
        (endsName_renderAll ts) (List.cons_eq_cons.mp h).2
      obtain ⟨rfl, hend⟩ := renderAll_append_inj hs.2.2 ht.2.2 harguments
      exact ⟨by rw [String.toList_inj.mp hname], hend⟩

theorem renderAll_append_inj {ss ts : List SortExpr} {rest rest' : List Char} (hss : ArePlain ss)
    (hts : ArePlain ts)
    (h : (renderAll ss).toList ++ ')' :: rest = (renderAll ts).toList ++ ')' :: rest') :
    ss = ts ∧ rest = rest' := by
  cases ss with
  | nil =>
    cases ts with
    | nil => exact ⟨rfl, (List.cons_eq_cons.mp h).2⟩
    | cons t ts => simp [renderAll] at h
  | cons s ss =>
    cases ts with
    | nil => simp [renderAll] at h
    | cons t ts =>
      simp only [renderAll, String.toList_append, List.append_assoc] at h
      obtain ⟨rfl, hmore⟩ := render_append_inj hss.1 hts.1 (endsName_renderAll ss)
        (endsName_renderAll ts) (List.append_cancel_left h)
      obtain ⟨rfl, hend⟩ := renderAll_append_inj hss.2 hts.2 hmore
      exact ⟨rfl, hend⟩

end

/-- Sorts can be told apart by their texts. -/
theorem render_inj {s t : SortExpr} (hs : s.IsPlain) (ht : t.IsPlain) (h : s.render = t.render) :
    s = t := by
  have hnil : EndsName [] := nofun
  exact (render_append_inj hs ht hnil hnil (by rw [h])).1

/-! ### Sorts and kinds -/

/-- The names that are sorts of their own. -/
def builtInNames : List String := ["Bool", "Int", "Real", "String", "SBVRational", "SBVTuple0"]

/-- The container kind that a name makes of other kinds. -/
def container? : String → List Kind → Option Kind
  | "Seq", [k] => some (.list k)
  | "Array", [k, .bool] => some (.set k)
  | "SBVMaybe", [k] => some (.maybe k)
  | "SBVEither", [l, r] => some (.either l r)
  | _, _ => none

mutual

/-- The kind that a sort is the sort of. Names that are not built in are those of user sorts. -/
def kind? : SortExpr → Option Kind
  | named name =>
    if name = "Bool" then some .bool
    else if name = "Int" then some .unbounded
    else if name = "Real" then some .real
    else if name = "String" then some .string
    else if name = "SBVRational" then some .rational
    else if name = "SBVTuple0" then some (.tuple [])
    else some (.userSort ⟨name, none⟩)
  | indexed _ [w] => if h : 0 < w then some (.bounded false ⟨w, h⟩) else none
  | indexed _ [e, s] =>
    if he : 2 ≤ e then if hs : 2 ≤ s then some (.floating ⟨e, s, he, hs⟩) else none else none
  | indexed _ _ => none
  | applied name arguments => do
    let ks ← kinds? arguments
    if name = "SBVTuple" ++ Nat.repr ks.length then some (.tuple ks) else container? name ks

/-- The kinds that several sorts are the sorts of. -/
def kinds? : List SortExpr → Option (List Kind)
  | [] => some []
  | s :: ss => do return (← kind? s) :: (← kinds? ss)

end

theorem kinds?_nil : kinds? [] = some [] := rfl

theorem kinds?_cons {s : SortExpr} {ss : List SortExpr} {k : Kind} {ks : List Kind}
    (hs : kind? s = some k) (hss : kinds? ss = some ks) : kinds? (s :: ss) = some (k :: ks) := by
  rw [kinds?, hs, hss]
  rfl

/-- A name that is not built in is that of a user sort. -/
theorem kind?_named {name : String} (h : name ∉ builtInNames) :
    kind? (named name) = some (.userSort ⟨name, none⟩) := by
  simp only [builtInNames, List.mem_cons, List.not_mem_nil, or_false, not_or] at h
  simp [kind?, h]

theorem isName_tupleName (n : Nat) : IsName ("SBVTuple" ++ Nat.repr n).toList := by
  have hletters : IsName "SBVTuple".toList := by decide
  rw [String.toList_append]
  refine ⟨by simp, fun c hc => ?_⟩
  cases List.mem_append.mp hc with
  | inl hc => exact hletters.2 c hc
  | inr hc => exact isDelimiter_of_mem_repr hc

/-- Names that do not start like those of tuples are not those of tuples. -/
theorem ne_tupleName {name : String} (h : name.toList.take 8 ≠ "SBVTuple".toList) (n : Nat) :
    name ≠ "SBVTuple" ++ Nat.repr n := by
  rintro rfl
  exact h (by simp)

/-- A sort with arguments is that of a container, unless it is called like a tuple. -/
theorem kind?_applied {name : String} {arguments : List SortExpr} {ks : List Kind}
    (hname : ∀ n, name ≠ "SBVTuple" ++ Nat.repr n) (hks : kinds? arguments = some ks) :
    kind? (applied name arguments) = container? name ks := by
  rw [kind?, hks]
  exact if_neg (hname _)

end SortExpr

/-- Whether a user sort has a name that is not taken for another sort. -/
structure UserSort.HasOwnName (s : UserSort) : Prop where
  isName : SortExpr.IsName s.name.toList
  own : s.name ∉ SortExpr.builtInNames

namespace Kind

/-- Whether all user sorts inside a kind have names of their own. -/
def HasOwnNames (k : Kind) : Prop := ∀ s, userSort s ∈ k.subkinds → s.HasOwnName

theorem HasOwnNames.either_left {l r : Kind} (h : (either l r).HasOwnNames) : l.HasOwnNames :=
  fun s hs => h s (List.mem_cons_of_mem _ (List.mem_append_left _ hs))

theorem HasOwnNames.either_right {l r : Kind} (h : (either l r).HasOwnNames) : r.HasOwnNames :=
  fun s hs => h s (List.mem_cons_of_mem _ (List.mem_append_right _ hs))

theorem HasOwnNames.list {k : Kind} (h : (list k).HasOwnNames) : k.HasOwnNames :=
  fun s hs => h s (List.mem_cons_of_mem _ hs)

theorem HasOwnNames.set {k : Kind} (h : (set k).HasOwnNames) : k.HasOwnNames :=
  fun s hs => h s (List.mem_cons_of_mem _ hs)

theorem HasOwnNames.maybe {k : Kind} (h : (maybe k).HasOwnNames) : k.HasOwnNames :=
  fun s hs => h s (List.mem_cons_of_mem _ hs)

theorem length_sortAll (ks : List Kind) : (sortAll ks).length = ks.length := by
  induction ks with
  | nil => rfl
  | cons k ks ih => rw [sortAll, List.length_cons, ih, List.length_cons]

theorem sort_tuple {ks : List Kind} (hne : ks ≠ []) :
    (tuple ks).sort = .applied ("SBVTuple" ++ Nat.repr ks.length) (sortAll ks) := by
  obtain ⟨k, ks, rfl⟩ := List.exists_cons_of_ne_nil hne
  rw [← length_sortAll]
  rfl

mutual

theorem isPlain_sort {k : Kind} (h : k.HasOwnNames) : k.sort.IsPlain := by
  cases k with
  | userSort s => exact (h s List.mem_cons_self).isName
  | list k => exact ⟨by decide, by decide, isPlain_sort h.list, trivial⟩
  | set k =>
    have hbool : SortExpr.IsName "Bool".toList := by decide
    exact ⟨by decide, by decide, isPlain_sort h.set, hbool, trivial⟩
  | maybe k => exact ⟨by decide, by decide, isPlain_sort h.maybe, trivial⟩
  | either l r =>
    exact ⟨by decide, by decide, isPlain_sort h.either_left, isPlain_sort h.either_right, trivial⟩
  | tuple ks =>
    have hks : ∀ s, userSort s ∈ subkindsAll ks → s.HasOwnName :=
      fun s hs => h s (List.mem_cons_of_mem _ hs)
    cases ks with
    | nil =>
      change SortExpr.IsName _
      decide
    | cons k ks =>
      rw [sort_tuple (List.cons_ne_nil k ks)]
      exact ⟨SortExpr.isName_tupleName _, (SortExpr.ne_tupleName (by decide) _).symm,
        arePlain_sortAll hks⟩
  | _ =>
    change SortExpr.IsName _
    decide

theorem arePlain_sortAll {ks : List Kind} (h : ∀ s, userSort s ∈ subkindsAll ks → s.HasOwnName) :
    SortExpr.ArePlain (sortAll ks) := by
  cases ks with
  | nil => trivial
  | cons k ks =>
    exact ⟨isPlain_sort fun s hs => h s (List.mem_append_left _ hs),
      arePlain_sortAll fun s hs => h s (List.mem_append_right _ hs)⟩

end

mutual

/-- What is read off the sort of a kind is the kind, but for what is erased. -/
theorem kind?_sort {k : Kind} (h : k.HasOwnNames) : k.sort.kind? = some k.erased := by
  cases k with
  | userSort s => exact SortExpr.kind?_named (h s List.mem_cons_self).own
  | list k =>
    have hks := SortExpr.kinds?_cons (kind?_sort h.list) SortExpr.kinds?_nil
    exact SortExpr.kind?_applied (SortExpr.ne_tupleName (by decide)) hks
  | set k =>
    have hbool := SortExpr.kinds?_cons (s := .named "Bool") rfl SortExpr.kinds?_nil
    have hks := SortExpr.kinds?_cons (kind?_sort h.set) hbool
    exact SortExpr.kind?_applied (SortExpr.ne_tupleName (by decide)) hks
  | maybe k =>
    have hks := SortExpr.kinds?_cons (kind?_sort h.maybe) SortExpr.kinds?_nil
    exact SortExpr.kind?_applied (SortExpr.ne_tupleName (by decide)) hks
  | either l r =>
    have hright := SortExpr.kinds?_cons (kind?_sort h.either_right) SortExpr.kinds?_nil
    have hks := SortExpr.kinds?_cons (kind?_sort h.either_left) hright
    exact SortExpr.kind?_applied (SortExpr.ne_tupleName (by decide)) hks
  | tuple ks =>
    -- The name of the sort tells the number of components. The empty tuple has no arguments.
    have hks : ∀ s, userSort s ∈ subkindsAll ks → s.HasOwnName :=
      fun s hs => h s (List.mem_cons_of_mem _ hs)
    cases ks with
    | nil => rfl
    | cons k ks =>
      rw [sort_tuple (List.cons_ne_nil k ks), SortExpr.kind?, kinds?_sortAll hks]
      simp [length_erasedAll, erased]
  | bounded _ width =>
    have hwidth : 0 < width.bits := width.2
    simp [sort, SortExpr.kind?, hwidth, erased]
  | floating format =>
    simp [sort, FloatFormat.sort, SortExpr.kind?, format.two_le_exponent,
      format.two_le_significand, erased]
  | _ => rfl

theorem kinds?_sortAll {ks : List Kind} (h : ∀ s, userSort s ∈ subkindsAll ks → s.HasOwnName) :
    SortExpr.kinds? (sortAll ks) = some (erasedAll ks) := by
  cases ks with
  | nil => rfl
  | cons k ks =>
    have hk : k.HasOwnNames := fun s hs => h s (List.mem_append_left _ hs)
    exact SortExpr.kinds?_cons (kind?_sort hk)
      (kinds?_sortAll fun s hs => h s (List.mem_append_right _ hs))

end

/-- Kinds are declared with the same sort exactly if they are the same when the signs of
bit-vectors, the difference between characters and strings, the names of the two common float
formats and the constructors of user sorts are forgotten. -/
theorem render_sort_eq_iff {a b : Kind} (ha : a.HasOwnNames) (hb : b.HasOwnNames) :
    a.sort.render = b.sort.render ↔ a.erased = b.erased := by
  constructor
  · intro h
    have hsort : a.sort = b.sort := SortExpr.render_inj (isPlain_sort ha) (isPlain_sort hb) h
    have hkind := kind?_sort ha
    rw [hsort, kind?_sort hb] at hkind
    exact (Option.some.inj hkind).symm
  · intro h
    rw [← sort_erased a, h, sort_erased b]

/-- Pairs of a signed byte and an enumerated colour have the sort of pairs of an unsigned byte and
an opaque colour, and not that of pairs of an unsigned byte and a string. -/
theorem render_sort_eq_iff_byteAndColor :
    let byte : Bool → Kind := fun signed => bounded signed ⟨8, by decide⟩
    let pair := tuple [byte true, userSort ⟨"Color", some ["Red", "Green"]⟩]
    pair.sort.render = (tuple [byte false, userSort ⟨"Color", none⟩]).sort.render ∧
      pair.sort.render ≠ (tuple [byte false, string]).sort.render := by
  intro byte pair
  have hcolor (signed : Bool) (constructors : Option (List String)) :
      (tuple [byte signed, userSort ⟨"Color", constructors⟩]).HasOwnNames := by
    intro s hs
    obtain rfl : s = ⟨"Color", constructors⟩ := by simpa [byte, subkinds, subkindsAll] using hs
    have hname : SortExpr.IsName "Color".toList := by decide
    exact ⟨hname, by simp [SortExpr.builtInNames]⟩
  have hstring : (tuple [byte false, string]).HasOwnNames := by
    intro s hs
    simp [byte, subkinds, subkindsAll] at hs
  refine ⟨(render_sort_eq_iff (hcolor true _) (hcolor false _)).mpr rfl, fun h => ?_⟩
  have herased := (render_sort_eq_iff (hcolor true _) hstring).mp h
  simp [erased, erasedAll] at herased

end Kind

end SolverScript
