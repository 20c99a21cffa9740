import SolverScript.Graph.Node
import SolverScript.Problem.Basic
import SolverScript.Proofs.Semantics.Digits

/-!
# Names of nodes and tables

Nodes and tables are named by numbers. Different nodes have different names, and so have different
tables. Apart from the truth values the names of nodes start with a letter that no function of the
standard theory starts with.

## Main results

* `nodeName_injective`, `tableName_injective` - names tell nodes and tables apart
* `nodeName_ne_tableName` - a node is not called like a table
-/

namespace SolverScript

namespace Numeral

/-- A number is known by its decimal digits. -/
theorem repr_injective : Function.Injective Nat.repr := by
  intro m n h
  have hdigits := congrArg String.toList h
  simp only [Nat.toList_repr] at hdigits
  have hm := digitsValueFrom?_toDigits (b := 10) (by decide) (by decide) m
  rw [hdigits, digitsValueFrom?_toDigits (by decide) (by decide)] at hm
  exact (Option.some.inj hm).symm

private theorem repr_ne_minus (n : Nat) (s : String) : Nat.repr n ≠ "-" ++ s := by
  intro h
  -- A minus sign is not a digit.
  have hmem : '-' ∈ Nat.toDigits 10 n := by
    rw [← Nat.toList_repr, h]
    simp
  exact absurd (Nat.isDigit_of_mem_toDigits (by decide) (by decide) hmem) (by decide)

/-- An integer is known by its decimal numeral. -/
theorem decimal_injective : Function.Injective decimal := by
  intro i j h
  cases i with
  | ofNat m =>
    cases j with
    | ofNat n => exact congrArg _ (repr_injective h)
    | negSucc n => exact absurd h (repr_ne_minus m _)
  | negSucc m =>
    cases j with
    | ofNat n => exact absurd h.symm (repr_ne_minus n _)
    | negSucc n =>
      have hrepr : "-" ++ Nat.repr (m + 1) = "-" ++ Nat.repr (n + 1) := h
      have hsucc : m + 1 = n + 1 := repr_injective (by simpa using hrepr)
      rw [Nat.succ.inj hsucc]

end Numeral

/-- Names of nodes other than the truth values are numbered. -/
theorem nodeName_of_ne {id : Int} (ht : id ≠ -1) (hf : id ≠ -2) :
    nodeName id = "s" ++ Numeral.decimal id := by
  simp [nodeName, ht, hf]

/-- The first letter of a node's name. -/
theorem head?_nodeName (id : Int) :
    (nodeName id).toList.head? =
      some (if id = -1 then 't' else if id = -2 then 'f' else 's') := by
  unfold nodeName
  split
  · rfl
  · split
    · rfl
    · simp

/-- A name that starts with another letter does not belong to a node. -/
theorem nodeName_ne_of_head {id : Int} (ht : id ≠ -1) (hf : id ≠ -2) {name : String}
    (hname : name.toList.head? ≠ some 's') : nodeName id ≠ name := by
  rintro rfl
  simp [head?_nodeName, ht, hf] at hname

/-- Different nodes have different names. -/
theorem nodeName_injective : Function.Injective nodeName := by
  intro i j h
  have hhead := congrArg (fun name => name.toList.head?) h
  simp only [head?_nodeName, Option.some.injEq] at hhead
  -- The truth values have first letters of their own; the other names are numbered.
  by_cases hi : i = -1 ∨ i = -2
  · rcases hi with rfl | rfl <;> grind
  · rw [not_or] at hi
    have hj : j ≠ -1 ∧ j ≠ -2 := by grind
    rw [nodeName_of_ne hi.1 hi.2, nodeName_of_ne hj.1 hj.2] at h
    exact Numeral.decimal_injective (by simpa using h)

/-- Names tell nodes apart. -/
@[simp] theorem nodeName_inj {i j : Int} : nodeName i = nodeName j ↔ i = j :=
  nodeName_injective.eq_iff

/-- Different tables have different names. -/
theorem tableName_injective : Function.Injective tableName := by
  intro i j h
  exact Numeral.decimal_injective (by simpa [tableName] using h)

/-- A node is not called like something that belongs to a table. -/
theorem nodeName_ne_tableName_append (id table : Int) (rest : String) :
    nodeName id ≠ tableName table ++ rest := by
  intro h
  -- The name of a truth value starts like the one of a table, but goes on in another way.
  have hsecond := congrArg (fun name => name.toList[1]?) h
  have hhead := congrArg (fun name => name.toList.head?) h
  simp only [head?_nodeName] at hhead
  split at hhead
  · next hid =>
    subst hid
    simp [nodeName, tableName] at hsecond
  · split at hhead <;> simp [tableName] at hhead

/-- A node is not called like a table. -/
theorem nodeName_ne_tableName (id table : Int) : nodeName id ≠ tableName table := by
  simpa using nodeName_ne_tableName_append id table ""

/-- A node is not called like something that belongs to an array. -/
theorem nodeName_ne_arrayName_append (id array : Int) (rest : String) :
    nodeName id ≠ arrayName array ++ rest := by
  intro h
  have hhead := congrArg (fun name => name.toList.head?) h
  simp only [head?_nodeName] at hhead
  split at hhead
  · simp [arrayName] at hhead
  · split at hhead <;> simp [arrayName] at hhead

end SolverScript
