import SolverScript.Proofs.Encoding.Expansion
import SolverScript.Proofs.Problem.Nodes
import SolverScript.Proofs.Semantics.Symbols

/-!
# The text of operations whose operands depend on others

A node that depends on others is written as an application. The text of an operation is the text
that it has if no node depends on others, with the word of each such node replaced by an
application, wherever the operator places the node and however often. This needs names in which no
such word occurs, and no truth value that depends on others: the names of truth values are also
literals.

## Main definitions

* `SkolemMap.replace` - words with the nodes that depend on others replaced
* `SkolemMap.Spares` - names that the replacement leaves alone
* `Scope.ReplacesWords` - the text of an operation is the one without dependencies, with words
  replaced

## Main results

* `SkolemMap.becomes_node` - the name of a node becomes what the node is written as
* `Scope.replacesWords` - the text of an operation whose operands depend on others
-/

namespace SolverScript

/-- The letter and the number of a node, which are its name unless it is a truth value. -/
def Node.word (n : Node) : String := "s" ++ Numeral.decimal n.id

namespace SkolemMap

variable (skolems : SkolemMap)

/-- A word, or the application to its dependencies if it is the word of a node that has some. -/
def replace (word : List Char) : List Char :=
  match latest? (fun n => n.word.toList == word) skolems with
  | some dependencies =>
    ("(" ++ joined " " (String.ofList word :: dependencies.map Node.name) ++ ")").toList
  | none => word

/-- Whether a name is none of a node that depends on others, and has no word of such a node in it.
Nothing is open at its end that would change the words behind it. -/
def Spares : Name → Prop
  | .node id => skolems.dependencies? ⟨id, .bool⟩ = none
  | .function text | .sort text | .keyword text =>
    IsClosed text ∧ ∀ entry ∈ skolems, .word entry.1.word.toList ∉ lexemes text

variable {skolems}

theorem replace_of_forall_ne {word : List Char}
    (h : ∀ entry ∈ skolems, entry.1.word.toList ≠ word) : skolems.replace word = word := by
  unfold replace
  split
  · next dependencies hfound =>
    obtain ⟨n, hmem, hkey⟩ := exists_of_latest? hfound
    exact absurd (beq_iff_eq.mp hkey) (h _ hmem)
  · rfl

theorem isNumbered_word (n : Node) : (Lexeme.word n.word.toList).isNumbered = true := by
  have hdigits : (Numeral.decimal n.id).toList.all Numeral.isDecimalChar = true :=
    List.all_eq_true.mpr fun c => Numeral.isDecimalChar_of_mem
  obtain ⟨c, cs, hlist⟩ : ∃ c cs, (Numeral.decimal n.id).toList = c :: cs :=
    List.exists_cons_of_ne_nil (Numeral.toList_decimal_ne_nil n.id)
  rw [hlist] at hdigits
  rw [Node.word, String.toList_append, hlist]
  exact hdigits

/-- The words of nodes are numbered. -/
theorem onlyNumbered_replace : OnlyNumbered skolems.replace := by
  intro word hword
  refine replace_of_forall_ne fun entry _ hentry => ?_
  rw [← hentry, isNumbered_word] at hword
  cases hword

/-- What depends on nothing is written by its name. -/
theorem expansion_of_independent {n : Node} (h : skolems.dependencies? n = none) :
    skolems.expansion n.id = .node n.id := by
  have hid : skolems.dependencies? ⟨n.id, .bool⟩ = none := h
  rw [expansion, nodeTerm, hid]
  rfl

/-- A node is found by its word. -/
theorem latest?_word (id : Int) :
    latest? (fun n : Node => n.word.toList == ("s" ++ Numeral.decimal id).toList) skolems =
      skolems.dependencies? ⟨id, .bool⟩ := by
  have hkey : (fun n : Node => n.word.toList == ("s" ++ Numeral.decimal id).toList) =
      Node.same ⟨id, .bool⟩ := by
    funext n
    have hword : n.word.toList = ("s" ++ Numeral.decimal id).toList ↔ id = n.id := by
      rw [String.toList_inj, Node.word, String.append_right_inj,
        Numeral.decimal_injective.eq_iff, eq_comm]
    rw [Bool.eq_iff_iff, beq_iff_eq, hword, Node.same, beq_iff_eq]
  rw [hkey, dependencies?]

/-- Nodes are written by their names. -/
theorem renderAll_term (ns : List Node) :
    Term.renderAll (ns.map Node.term) = ns.map Node.name := by
  induction ns with
  | nil => rfl
  | cons n ns ih => rw [List.map_cons, List.map_cons, Term.renderAll, ih]; rfl

/-- The name of a node becomes what the node is written as. -/
theorem becomes_node {id : Int} (h : (id = -1 ∨ id = -2) → skolems.expansion id = .node id) :
    Becomes skolems.replace IsDelimited (nodeName id) (skolems.expansion id).render := by
  by_cases hreserved : id = -1 ∨ id = -2
  · rw [h hreserved]
    have hkept (text : String) (htext : IsWordText text)
        (hnumber : (Lexeme.word text.toList).isNumbered = false) :
        Becomes skolems.replace IsDelimited text text :=
      (KeepsWords.of_word htext (onlyNumbered_replace _ hnumber)).becomes
    rcases hreserved with rfl | rfl
    · exact hkept "true" (by decide) (by decide)
    · exact hkept "false" (by decide) (by decide)
  · obtain ⟨ht, hf⟩ := not_or.mp hreserved
    have hword : IsWordText ("s" ++ Numeral.decimal id) := .append (by decide) (.decimal id)
    have hrender : (skolems.expansion id).render =
        String.ofList (skolems.replace ("s" ++ Numeral.decimal id).toList) := by
      unfold expansion nodeTerm replace
      rw [latest?_word]
      cases skolems.dependencies? ⟨id, .bool⟩ with
      | none => simp [Node.term, Term.render, nodeName_of_ne ht hf]
      | some dependencies =>
        simp [Node.term, Term.render, nodeName_of_ne ht hf, renderAll_term, String.append_assoc]
    rw [nodeName_of_ne ht hf, hrender]
    exact hword.becomes (by simp)

theorem Spares.becomes {x : Name} (h : skolems.Spares x) :
    x.Becomes skolems.replace skolems.expansion := by
  have hkept {text : String}
      (h : IsClosed text ∧ ∀ entry ∈ skolems, .word entry.1.word.toList ∉ lexemes text) :
      KeepsWords skolems.replace text := by
    refine ⟨h.1, fun w hw => replace_of_forall_ne fun entry hentry heq => ?_⟩
    exact h.2 entry hentry (heq ▸ hw)
  cases x with
  | node id => exact becomes_node fun _ => expansion_of_independent h
  | function text | sort text | keyword text => exact hkept h

end SkolemMap

section

variable {replacement : List Char → List Char} {expansion : Int → Term}

/-- The names of tables and arrays are words that start with other letters than those of nodes. -/
theorem Entity.becomes_name (hreplacement : OnlyNumbered replacement) (e : Entity) :
    (Name.function e.name).Becomes replacement expansion := by
  have hnumbered (letters : String) (hletters : IsWordText letters) (id : Int)
      (hfirst : ∀ cs, (Lexeme.word (letters.toList ++ cs)).isNumbered = false) :
      KeepsWords replacement (letters ++ Numeral.decimal id) := by
    refine .of_word (hletters.append (.decimal id)) (hreplacement _ ?_)
    rw [String.toList_append]
    exact hfirst _
  cases e with
  | table id => exact hnumbered "table" (by decide) id fun _ => rfl
  | array id => exact hnumbered "array_" (by decide) id fun _ => rfl

theorem RationalFunction.becomes_symbol (hreplacement : OnlyNumbered replacement)
    (f : RationalFunction) : (Name.function f.symbol).Becomes replacement expansion := by
  refine KeepsWords.of_word ?_ (hreplacement _ ?_)
  · cases f <;> decide
  · cases f <;> decide

end

namespace Scope

/-- Whether an operation in which nodes depend on others has a text if it has one without
dependencies, which is that text with the words of these nodes replaced. -/
def ReplacesWords (scope : Scope) (operation : Operation) : Prop :=
  (scope.term operation).toOption.map Term.render =
    (scope.withoutDependencies.term operation).toOption.map fun t =>
      replaceWords scope.skolems.replace t.render

/-- Operands are replaced wherever an operation places them. The truth values that it refers to
depend on nothing, and the names that it is written with have no words of nodes with dependencies.
-/
theorem replacesWords (scope : Scope) (operation : Operation)
    (hliterals : ∀ n ∈ operation.references, n.IsReserved →
      scope.skolems.dependencies? n = none)
    (hkinds : ∀ n ∈ operation.operands, ∀ x ∈ n.kind.names, scope.skolems.Spares x)
    (hnames : ∀ x ∈ scope.operatorNames operation.operator,
      (∀ e : Entity, x ≠ .function e.name) → scope.skolems.Spares x) :
    scope.ReplacesWords operation := by
  have hreplacement : OnlyNumbered scope.skolems.replace := SkolemMap.onlyNumbered_replace
  -- Without dependencies a node has a single name, which becomes the node applied to what it
  -- depends on.
  have hover : ResultOver (Name.Becomes scope.skolems.replace scope.skolems.expansion)
      (scope.withoutDependencies.term operation) := by
    refine resultOver_term (vocabulary_becomes hreplacement) (fun n hn => ?_)
      (fun n hn x hx => (hkinds n hn x hx).becomes) (fun x hx => ?_)
      fun _ f => f.becomes_symbol hreplacement
    · refine Term.over_node.mpr (SkolemMap.becomes_node fun hreserved => ?_)
      exact SkolemMap.expansion_of_independent (hliterals n hn hreserved)
    · by_cases hentity : ∃ e : Entity, x = .function e.name
      · obtain ⟨e, rfl⟩ := hentity
        exact e.becomes_name hreplacement
      · exact (hnames x hx (not_exists.mp hentity)).becomes
  have hexpands := scope.expands_term operation fun id hid =>
    SkolemMap.expansion_of_independent (hnames (.node id) hid fun _ => nofun)
  rw [ReplacesWords]
  generalize scope.withoutDependencies.term operation = plain at hexpands hover ⊢
  generalize scope.term operation = dependent at hexpands ⊢
  cases hexpands with
  | error e e' => rfl
  | ok t =>
    have hbecomes := Term.becomes_render hreplacement (hover t rfl)
    exact congrArg some hbecomes.replaceWords_eq.symm

/-- A scope in which the second node and a table depend on the first node. -/
def dependingOnFirst : Scope where
  skolems := [(⟨1, .unbounded⟩, [⟨0, .unbounded⟩])]
  tables := [(0, ⟨"prices", [⟨0, .unbounded⟩]⟩)]

/-- A look-up by the second node, which is also the default. -/
def lookupBySecond : Operation :=
  ⟨.lookup ⟨0, .unbounded, .unbounded, 2, ⟨1, .unbounded⟩, ⟨1, .unbounded⟩⟩, []⟩

theorem replacesWords_lookupBySecond : dependingOnFirst.ReplacesWords lookupBySecond := by
  refine replacesWords _ _ ?_ (by simp [lookupBySecond]) ?_
  · simp [lookupBySecond, Operation.references, Operator.hiddenOperands, Node.IsReserved]
  · intro x hx _
    have hnames : x ∈ [.function "prices", .node 0] := hx
    simp only [List.mem_cons, List.not_mem_nil, or_false] at hnames
    rcases hnames with rfl | rfl
    · exact ⟨by decide, List.forall_mem_singleton.mpr (by decide +kernel)⟩
    · rfl

example : (dependingOnFirst.term lookupBySecond).toOption.map Term.render =
    some "(ite (or (< (s1 s0) 0) (<= 2 (s1 s0))) (s1 s0) (prices s0 (s1 s0)))" := by
  decide +kernel

/-- A truth value that depends on others is replaced where it is an operand, and not where its
literal belongs to the encoding. Words within the name of a function are not replaced at all, and a
quote in it makes a literal of what follows. -/
theorem not_replacesWords :
    ¬ReplacesWords { skolems := [(⟨-1, .bool⟩, [⟨1, .bool⟩])] }
        ⟨.set .insert, [⟨-1, .bool⟩, ⟨0, .set .bool⟩]⟩ ∧
      ¬ReplacesWords { skolems := [(⟨0, .bool⟩, [⟨1, .bool⟩])] } ⟨.uninterpreted "f s0", []⟩ ∧
      ¬ReplacesWords { skolems := [(⟨0, .bool⟩, [⟨1, .bool⟩])] }
        ⟨.uninterpreted "\"", [⟨0, .bool⟩]⟩ := by
  have htexts {scope : Scope} {operation : Operation} (text text' : String)
      (htext : (scope.term operation).toOption.map Term.render = some text)
      (htext' : ((scope.withoutDependencies.term operation).toOption.map fun t =>
        replaceWords scope.skolems.replace t.render) = some text') (hne : text ≠ text') :
      ¬ReplacesWords scope operation := by
    intro h
    rw [ReplacesWords, htext, htext'] at h
    exact hne (Option.some.inj h)
  refine ⟨?_, ?_, ?_⟩
  · exact htexts "(store s0 (true s1) true)" "(store s0 true true)"
      (by decide +kernel) (by decide +kernel) (by decide)
  · exact htexts "f s0" "f (s0 s1)"
      (by decide +kernel) (by decide +kernel) (by decide)
  · exact htexts "(\" (s0 s1))" "(\" s0)"
      (by decide +kernel) (by decide +kernel) (by decide)

end Scope

end SolverScript
