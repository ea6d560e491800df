import MBFGraph.Lib.ByteBits
import MBFGraph.Lib.Groups

/-!
# Files of records of one size

A writer lays blocks of one size end to end, a reader cuts the file into whole records. With one
size on both sides the reader gets the blocks back; the fields of a record are words at fixed
addresses.
-/

namespace Records

open ByteBits Groups Overwrite

section Blocks

variable {α β : Type}

/-- Blocks of the reader's record size are read back. -/
theorem fullGroups_flatMap {block : β → List α} {n : Nat} (positive : 0 < n)
    (sizes : ∀ x, (block x).length = n) (xs : List β) :
    fullGroups n (xs.flatMap block) = xs.map block := by
  induction xs using List.reverseRecOn with
  | nil => simp
  | append_singleton xs x ih =>
    have total : (xs.flatMap block).length = xs.length * n := by
      clear ih
      induction xs with
      | nil => simp
      | cons y ys ih =>
        rw [List.flatMap_cons, List.length_append, sizes, ih, List.length_cons, Nat.succ_mul]
        omega
    have count : (xs.length + 1) * n / n = xs.length + 1 := Nat.mul_div_cancel _ positive
    rw [List.flatMap_append, List.flatMap_singleton, List.map_append, ← ih]
    unfold fullGroups
    rw [List.length_append, total, sizes, ← Nat.succ_mul, count, Nat.mul_div_cancel _ positive,
      List.range_succ, List.map_append]
    congr 1
    · apply List.map_congr_left
      intro g member
      have below := List.mem_range.mp member
      apply group_append_left
      rw [total, ← Nat.succ_mul]
      exact Nat.mul_le_mul_right n below
    · simp only [List.map_cons, List.map_nil, List.cons.injEq, and_true]
      unfold group
      rw [← total, List.drop_left, List.take_of_length_le (Nat.le_of_eq (sizes x))]

/-- Record `k` of a file. -/
theorem getElem?_fullGroups {n k : Nat} {xs : List α} (inside : (k + 1) * n ≤ xs.length)
    (positive : 0 < n) : (fullGroups n xs)[k]? = some (group n k xs) := by
  have below : k < xs.length / n := (Nat.le_div_iff_mul_le positive).mpr inside
  unfold fullGroups
  rw [List.getElem?_map, List.getElem?_range below, Option.map_some]

/-- A list that fits in a group is one. -/
theorem groups_of_length_le {n : Nat} {xs : List α} (some_ : xs ≠ []) (fits : xs.length ≤ n) :
    groups n xs = [xs] := by
  have length := List.length_pos_iff.mpr some_
  unfold groups
  rcases Nat.lt_or_eq_of_le fits with less | rfl
  · have none_ : xs.length / n = 0 := Nat.div_eq_of_lt less
    have whole : rest n xs = xs := by
      unfold rest
      rw [none_, Nat.zero_mul, List.drop_zero]
    rw [whole, if_neg some_]
    unfold fullGroups
    rw [none_]
    rfl
  · have one : xs.length / xs.length = 1 := Nat.div_self length
    have nothing : rest xs.length xs = [] := (rest_eq_nil_iff _ _).mpr (Nat.mod_self _)
    rw [nothing, if_pos rfl]
    unfold fullGroups
    rw [one]
    simp [group]

/-- The groups from the front. -/
theorem groups_of_ne_nil {n : Nat} {xs : List α} (positive : 0 < n) (some_ : xs ≠ []) :
    groups n xs = xs.take n :: groups n (xs.drop n) := by
  rcases Nat.le_total xs.length n with fits | long
  · rw [groups_of_length_le some_ fits, List.take_of_length_le fits, List.drop_eq_nil_of_le fits,
      groups_nil]
  · have length : (xs.take n).length = n := List.length_take_of_le long
    have front : xs.take n ≠ [] := by
      rw [← List.length_pos_iff, length]
      exact positive
    conv_lhs => rw [← List.take_append_drop n xs]
    rw [groups_append positive (by rw [length, Nat.mod_self]),
      groups_of_length_le front (Nat.le_of_eq length)]
    rfl

/-- A group is not empty, it is not too long, and it keeps the alignment. -/
theorem forall_mem_groups {n unit : Nat} (positive : 0 < n) (aligned : unit ∣ n) {xs : List α}
    (whole : unit ∣ xs.length) :
    ∀ piece ∈ groups n xs, piece ≠ [] ∧ piece.length ≤ n ∧ unit ∣ piece.length := by
  induction size : xs.length using Nat.strongRecOn generalizing xs with
  | ind m ih =>
    intro piece member
    by_cases some_ : xs = []
    · rw [some_, groups_nil] at member
      exact absurd member List.not_mem_nil
    · have length := List.length_pos_iff.mpr some_
      rw [groups_of_ne_nil positive some_] at member
      rcases List.mem_cons.mp member with rfl | later
      · rw [← List.length_pos_iff, List.length_take]
        refine ⟨by omega, by omega, ?_⟩
        rcases Nat.le_total n xs.length with long | short
        · rwa [Nat.min_eq_left long]
        · rwa [Nat.min_eq_right short]
      · refine ih (xs.drop n).length (by rw [List.length_drop]; omega) ?_ rfl piece later
        rw [List.length_drop]
        exact Nat.dvd_sub whole aligned

/-- A list that does not fit in one group has two at least. -/
theorem one_lt_length_groups {n : Nat} {xs : List α} (positive : 0 < n) (long : n < xs.length) :
    1 < (groups n xs).length := by
  rw [length_groups]
  have once : 1 ≤ xs.length / n := (Nat.le_div_iff_mul_le positive).mpr (by omega)
  split
  · rename_i whole
    obtain ⟨k, count⟩ := Nat.dvd_of_mod_eq_zero whole
    rw [count, Nat.mul_div_cancel_left k positive]
    by_contra few
    have : n * k ≤ n * 1 := Nat.mul_le_mul_left n (by omega)
    omega
  · omega

end Blocks

section Words

variable {w n : Nat}

/-- A word that lies in a file is loaded from its address. -/
theorem load_bytesOf (room : w ≤ 8 * n) (before behind : List Byte) (word : BitVec w) :
    load w (before ++ (bytesOf n word ++ behind)) before.length = word := by
  apply BitVec.eq_of_getLsbD_eq
  intro t inside
  have first : ¬ 8 * before.length + t < 8 * before.length := by omega
  have second : 8 * before.length + t - 8 * before.length = t := by omega
  have third : t < 8 * (bytesOf n word).length := by rw [length_bytesOf]; omega
  have fourth : t < 8 * n := by omega
  rw [getLsbD_load, bitAt_append, if_neg first, second, bitAt_append, if_pos third,
    bitAt_bytesOf, decide_eq_true inside, decide_eq_true fourth, Bool.true_and, Bool.true_and]

theorem load_overwrite_self (room : w ≤ 8 * n) (bytes : List Byte) (a : Nat) (word : BitVec w) :
    load w (overwrite bytes a (bytesOf n word)) a = word := by
  apply BitVec.eq_of_getLsbD_eq
  intro t inside
  have stored : 8 * a ≤ 8 * a + t ∧ 8 * a + t < 8 * (a + (bytesOf n word).length) := by
    rw [length_bytesOf]
    omega
  have shifted : 8 * a + t - 8 * a = t := by omega
  have bound : t < 8 * n := by omega
  rw [getLsbD_load, bitAt_overwrite, if_pos stored, shifted, bitAt_bytesOf,
    decide_eq_true inside, decide_eq_true bound, Bool.true_and, Bool.true_and]

/-- A store elsewhere leaves a word alone. -/
theorem load_overwrite_of_disjoint {bytes run : List Byte} {a b : Nat}
    (disjoint : 8 * b + w ≤ 8 * a ∨ a + run.length ≤ b) :
    load w (overwrite bytes a run) b = load w bytes b := by
  apply BitVec.eq_of_getLsbD_eq
  intro t inside
  have outside : ¬ (8 * a ≤ 8 * b + t ∧ 8 * b + t < 8 * (a + run.length)) := by omega
  rw [getLsbD_load, getLsbD_load, bitAt_overwrite, if_neg outside]

/-- A word of a record is the word of the file at the record's address plus the word's. -/
theorem load_group {size g a : Nat} (inside : 8 * a + w ≤ 8 * size) (bytes : List Byte) :
    load w (group size g bytes) a = load w bytes (g * size + a) := by
  apply BitVec.eq_of_getLsbD_eq
  intro t below
  have bound : 8 * a + t < 8 * size := by omega
  have address : 8 * (g * size) + (8 * a + t) = 8 * (g * size + a) + t := by ring
  unfold group
  rw [getLsbD_load, getLsbD_load, bitAt_take, bitAt_drop, decide_eq_true bound, Bool.true_and,
    address]

/-- A word inside one of the blocks of a file. -/
theorem load_flatMap {β : Type} {block : β → List Byte} {size g a : Nat} {x : β}
    (sizes : ∀ x, (block x).length = size) {xs : List β} (found : xs[g]? = some x)
    (inside : 8 * a + w ≤ 8 * size) :
    load w (xs.flatMap block) (g * size + a) = load w (block x) a := by
  apply BitVec.eq_of_getLsbD_eq
  intro t below
  have bound : 8 * a + t < 8 * size := by omega
  have address : 8 * (g * size + a) + t = 8 * (g * size) + (8 * a + t) := by ring
  rw [getLsbD_load, getLsbD_load, address, bitAt_flatMap sizes xs found bound]

end Words

end Records
