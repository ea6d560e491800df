import Mathlib.Data.List.Nodup

/-!
# Linked lists

Cells that point to each other: `next i` is the pointer of cell `i`, and `none` ends a list.
-/

namespace LinkedList

variable {α : Type*} {next next' : α → Option α} {head : Option α} {l : List α}

/-- From a pointer on, the cells of `l` are linked one behind the other. -/
def Chain (next : α → Option α) : Option α → List α → Prop
  | head, [] => head = none
  | head, i :: l => head = some i ∧ Chain next (next i) l

@[simp] theorem chain_nil : Chain next head [] ↔ head = none := Iff.rfl

@[simp] theorem chain_cons {i : α} :
    Chain next head (i :: l) ↔ head = some i ∧ Chain next (next i) l := Iff.rfl

/-- Only the pointers of the cells in the list matter. -/
theorem Chain.congr (chain : Chain next head l) (same : ∀ i ∈ l, next' i = next i) :
    Chain next' head l := by
  induction l generalizing head with
  | nil => exact chain
  | cons i l ih =>
    refine ⟨chain.1, ?_⟩
    rw [same i List.mem_cons_self]
    exact ih chain.2 fun j member => same j (List.mem_cons_of_mem _ member)

/-- A pointer determines its list. -/
theorem Chain.unique {l' : List α} (chain : Chain next head l) (chain' : Chain next head l') :
    l = l' := by
  induction l generalizing head l' with
  | nil =>
    cases l' with
    | nil => rfl
    | cons i l' => exact nomatch chain.symm.trans chain'.1
  | cons i l ih =>
    cases l' with
    | nil => exact nomatch chain'.symm.trans chain.1
    | cons j l' =>
      obtain rfl := Option.some.inj (chain.1.symm.trans chain'.1)
      rw [ih chain.2 chain'.2]

theorem Chain.eq_nil (chain : Chain next none l) : l = [] := chain.unique rfl

theorem Chain.mem_of_some {i : α} (chain : Chain next (some i) l) : i ∈ l := by
  cases l with
  | nil => exact nomatch chain
  | cons j l =>
    obtain rfl := Option.some.inj chain.1
    exact List.mem_cons_self

/-- A list that begins with a cell goes on with what this cell points to. -/
theorem Chain.exists_cons {i : α} (chain : Chain next (some i) l) :
    ∃ rest, l = i :: rest ∧ Chain next (next i) rest := by
  cases l with
  | nil => exact nomatch chain
  | cons j l =>
    obtain rfl := Option.some.inj chain.1
    exact ⟨l, rfl, chain.2⟩

/-- No cell of a list points to itself. -/
theorem Chain.next_ne_self (chain : Chain next head l) (nodup : l.Nodup) {i : α} (member : i ∈ l) :
    next i ≠ some i := by
  induction l generalizing head with
  | nil => exact nomatch member
  | cons j l ih =>
    obtain ⟨absent, rest⟩ := List.nodup_cons.mp nodup
    obtain rfl | inside := List.mem_cons.mp member
    · intro loop
      have again := chain.2
      rw [loop] at again
      exact absent again.mem_of_some
    · exact ih chain.2 rest inside

end LinkedList
