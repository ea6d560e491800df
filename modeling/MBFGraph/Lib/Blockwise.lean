import Mathlib

/-!
# Transforming a list block by block

`blockwise f w sizes l` cuts `l` into blocks of the given numbers of elements, each of `w` entries, and gives every
block to `f`, which may depend on the number of elements. What is left behind the last block stays as it is.
-/

namespace Blockwise

variable {α : Type} {w : Nat} {f g : Nat → List α → List α}

def blockwise (f : Nat → List α → List α) (w : Nat) : List Nat → List α → List α
  | [], l => l
  | n :: sizes, l => f n (l.take (n * w)) ++ blockwise f w sizes (l.drop (n * w))

theorem blockwise_cons (f : Nat → List α → List α) (n : Nat) (sizes : List Nat) (l : List α) :
    blockwise f w (n :: sizes) l = f n (l.take (n * w)) ++ blockwise f w sizes (l.drop (n * w)) := rfl

/-- A transformation that keeps the lengths of blocks. -/
def KeepsLength (f : Nat → List α → List α) (w : Nat) : Prop :=
  ∀ n block, block.length = n * w → (f n block).length = n * w

theorem length_block {n : Nat} {sizes : List Nat} {l : List α} (fits : (n :: sizes).sum * w ≤ l.length) :
    (l.take (n * w)).length = n * w ∧ sizes.sum * w ≤ (l.drop (n * w)).length := by
  rw [List.sum_cons, Nat.add_mul] at fits
  rw [List.length_take, List.length_drop]
  omega

theorem length_blockwise (keeps : KeepsLength f w) {sizes : List Nat} {l : List α}
    (fits : sizes.sum * w ≤ l.length) : (blockwise f w sizes l).length = l.length := by
  induction sizes generalizing l with
  | nil => rfl
  | cons n sizes ih =>
    obtain ⟨block, rest⟩ := length_block fits
    rw [blockwise_cons, List.length_append, keeps n _ block, ih rest, List.length_drop]
    rw [List.sum_cons, Nat.add_mul] at fits
    omega

/-- Blocks that fill the list are transformed alone. -/
theorem blockwise_single {n : Nat} {l : List α} (whole : l.length = n * w) : blockwise f w [n] l = f n l := by
  rw [blockwise_cons, List.take_of_length_le whole.le, List.drop_eq_nil_of_le whole.le]
  exact List.append_nil (f n l)

/-- A transformation that undoes another on every block undoes it on the list. -/
theorem blockwise_blockwise (keeps : KeepsLength f w) {sizes : List Nat} {l : List α}
    (fits : sizes.sum * w ≤ l.length)
    (inverse : ∀ n ∈ sizes, ∀ block, block.length = n * w → g n (f n block) = block) :
    blockwise g w sizes (blockwise f w sizes l) = l := by
  induction sizes generalizing l with
  | nil => rfl
  | cons n sizes ih =>
    obtain ⟨block, rest⟩ := length_block fits
    have image := keeps n _ block
    rw [blockwise_cons, blockwise_cons, List.take_left' image, List.drop_left' image,
      inverse n List.mem_cons_self _ block, ih rest fun m member => inverse m (List.mem_cons_of_mem n member), List.take_append_drop]

end Blockwise
