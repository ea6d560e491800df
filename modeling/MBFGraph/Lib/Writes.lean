import MBFGraph.Lib.Overwrite

/-!
# Writing a list in pieces

`applyWrites` stores a list of runs, one after the other, each at its own position. Where all
runs that cover a position agree with a source list, the result agrees with it there, in every
order. A block is one of the pieces of a fixed size that a list is divided into.
-/

namespace Overwrite

variable {α : Type} [Inhabited α]

/-- Inside the run the run is read, also where it was stored behind the end. -/
theorem getElem?_overwrite_run {l ys : List α} {a i : Nat} (above : a ≤ i)
    (below : i < a + ys.length) : (overwrite l a ys)[i]? = ys[i - a]? := by
  by_cases inside : a ≤ l.length
  · rw [getElem?_overwrite inside, if_pos ⟨above, below⟩]
  · have nonempty : ys ≠ [] := by
      rintro rfl
      simp only [List.length_nil] at below
      omega
    have whole : l.take a = l := List.take_of_length_le (by omega)
    have padded : (l ++ List.replicate (a - l.length) default).length = a := by
      rw [List.length_append, List.length_replicate]; omega
    unfold overwrite
    rw [if_neg nonempty, whole, List.append_assoc, List.getElem?_append_right (by omega), padded,
      List.getElem?_append_left (by omega)]

/-- What the list held outside the run it still holds. -/
theorem getElem?_overwrite_kept {l ys : List α} {a i : Nat} {x : α} (old : l[i]? = some x)
    (outside : ¬(a ≤ i ∧ i < a + ys.length)) : (overwrite l a ys)[i]? = some x := by
  have present : i < l.length := (List.getElem?_eq_some_iff.mp old).1
  by_cases inside : a ≤ l.length
  · rw [getElem?_overwrite inside, if_neg outside, old]
  · by_cases empty : ys = []
    · rw [empty, overwrite_nil, old]
    · have whole : l.take a = l := List.take_of_length_le (by omega)
      unfold overwrite
      rw [if_neg empty, whole, List.append_assoc, List.append_assoc,
        List.getElem?_append_left present, old]

/-- The runs, one after the other. -/
def applyWrites (writes : List (Nat × List α)) (l : List α) : List α :=
  writes.foldl (fun l w => overwrite l w.1 w.2) l

@[simp] theorem applyWrites_nil (l : List α) : applyWrites [] l = l := rfl

theorem applyWrites_cons (w : Nat × List α) (writes : List (Nat × List α)) (l : List α) :
    applyWrites (w :: writes) l = applyWrites writes (overwrite l w.1 w.2) := rfl

/-- A run covers a position. -/
def Covers (w : Nat × List α) (i : Nat) : Prop := w.1 ≤ i ∧ i < w.1 + w.2.length

/-- Runs that agree on a position leave their value there, if there is one or if the list had the
value already. -/
theorem getElem?_applyWrites {writes : List (Nat × List α)} {l : List α} {i : Nat} {x : α}
    (agree : ∀ w ∈ writes, Covers w i → w.2[i - w.1]? = some x)
    (reached : (∃ w ∈ writes, Covers w i) ∨ l[i]? = some x) :
    (applyWrites writes l)[i]? = some x := by
  induction writes generalizing l with
  | nil => simpa using reached
  | cons w writes ih =>
    rw [applyWrites_cons]
    apply ih fun v member => agree v (List.mem_cons_of_mem _ member)
    by_cases covers : Covers w i
    · right
      rw [getElem?_overwrite_run covers.1 covers.2]
      exact agree w List.mem_cons_self covers
    · rcases reached with ⟨v, member, vCovers⟩ | old
      · rcases List.mem_cons.mp member with rfl | later
        · exact absurd vCovers covers
        · exact Or.inl ⟨v, later, vCovers⟩
      · exact Or.inr (getElem?_overwrite_kept old covers)

/-- A position that no run covers keeps its value; behind the end it reads as the default. -/
theorem getD_applyWrites_of_not_covered {writes : List (Nat × List α)} {l : List α} {i : Nat}
    (none_ : ∀ w ∈ writes, ¬ Covers w i) :
    (applyWrites writes l).getD i default = l.getD i default := by
  induction writes generalizing l with
  | nil => rfl
  | cons w writes ih =>
    have outside : ¬(w.1 ≤ i ∧ i < w.1 + w.2.length) := none_ w List.mem_cons_self
    rw [applyWrites_cons, ih fun v member => none_ v (List.mem_cons_of_mem _ member),
      getD_overwrite, if_neg outside]

/-- Block `r` of a list that is divided into blocks of `size` elements. -/
def block (size : Nat) (l : List α) (r : Nat) : List α := (l.drop (r * size)).take size

variable {size : Nat}

omit [Inhabited α] in
theorem getElem?_block (l : List α) (r : Nat) {i : Nat} (below : i < size) :
    (block size l r)[i]? = l[r * size + i]? := by
  unfold block
  rw [List.getElem?_take_of_lt below, List.getElem?_drop]

omit [Inhabited α] in
theorem length_block {l : List α} {r : Nat} (inside : (r + 1) * size ≤ l.length) :
    (block size l r).length = size := by
  rw [Nat.succ_mul] at inside
  unfold block
  rw [List.length_take, List.length_drop]
  omega

omit [Inhabited α] in
/-- Neighbouring blocks make up one piece. -/
theorem flatMap_block (l : List α) (r n : Nat) :
    (List.range' r n).flatMap (block size l) = (l.drop (r * size)).take (n * size) := by
  induction n generalizing r with
  | zero => simp
  | succ n ih =>
    have next : (r + 1) * size = r * size + size := Nat.succ_mul r size
    rw [List.range'_succ, List.flatMap_cons, ih, next, Nat.succ_mul n, Nat.add_comm (n * size),
      List.take_add, List.drop_drop]
    rfl

/-- A block that is overwritten is replaced, the others stay. -/
theorem block_overwrite {l ys : List α} {r : Nat} (whole : ys.length = size)
    (inside : (r + 1) * size ≤ l.length) (q : Nat) :
    block size (overwrite l (r * size) ys) q = if q = r then ys else block size l q := by
  rw [Nat.succ_mul] at inside
  apply List.ext_getElem?
  intro i
  by_cases below : i < size
  · rw [getElem?_block _ _ below, getElem?_overwrite (by omega), whole]
    by_cases same : q = r
    · subst same
      rw [if_pos rfl, if_pos ⟨by omega, by omega⟩]
      congr 1
      omega
    · have apart : ¬(r * size ≤ q * size + i ∧ q * size + i < r * size + size) := by
        rintro ⟨above, under⟩
        rcases Nat.lt_or_gt_of_ne same with less | more
        · have := Nat.mul_le_mul_right size (Nat.succ_le_of_lt less)
          rw [Nat.succ_mul] at this
          omega
        · have := Nat.mul_le_mul_right size (Nat.succ_le_of_lt more)
          rw [Nat.succ_mul] at this
          omega
      rw [if_neg apart, if_neg same, getElem?_block _ _ below]
  · have past : ∀ zs : List α, zs.length ≤ size → zs[i]? = none := fun zs short =>
      List.getElem?_eq_none (by omega)
    have short : ∀ zs : List α, ∀ r, (block size zs r).length ≤ size := fun zs r =>
      List.length_take_le _ _
    rw [past _ (short _ _)]
    split
    · rw [past _ (by omega)]
    · rw [past _ (short _ _)]

omit [Inhabited α] in
/-- A position lies in the block of its quotient. -/
theorem getElem?_eq_of_block_eq {xs ys : List α} (positive : 0 < size) {i : Nat}
    (same : block size xs (i / size) = block size ys (i / size)) : xs[i]? = ys[i]? := by
  have below := Nat.mod_lt i positive
  have split : i / size * size + i % size = i := by
    rw [Nat.mul_comm]; exact Nat.div_add_mod i size
  rw [← split, ← getElem?_block xs (i / size) below, ← getElem?_block ys (i / size) below, same]

end Overwrite
