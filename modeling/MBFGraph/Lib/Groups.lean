import Mathlib

/-!
# Cutting a list into groups of one length

A producer that collects records and ships them whenever `n` are at hand leaves a list of full
groups and a partial one. `fullGroups` and `rest` are these two parts in closed form, and
`fullGroups_snoc`, `rest_snoc` are the step of such a producer. `groups` adds the partial group
at the end, as a producer does that ships what is left when the input is over.
-/

namespace Groups

variable {α : Type}

/-- Group number `g` of `xs`: the records `g * n`, …, `g * n + n - 1`. -/
def group (n g : Nat) (xs : List α) : List α := (xs.drop (g * n)).take n

/-- The groups of exactly `n` records. -/
def fullGroups (n : Nat) (xs : List α) : List (List α) :=
  (List.range (xs.length / n)).map fun g => group n g xs

/-- The records behind the last full group. -/
def rest (n : Nat) (xs : List α) : List α := xs.drop (xs.length / n * n)

/-- All groups, the last of them possibly shorter. -/
def groups (n : Nat) (xs : List α) : List (List α) :=
  fullGroups n xs ++ if rest n xs = [] then [] else [rest n xs]

@[simp] theorem fullGroups_nil (n : Nat) : fullGroups n ([] : List α) = [] := by
  simp [fullGroups]

@[simp] theorem rest_nil (n : Nat) : rest n ([] : List α) = [] := by
  simp [rest]

@[simp] theorem groups_nil (n : Nat) : groups n ([] : List α) = [] := by
  simp [groups]

@[simp] theorem length_fullGroups (n : Nat) (xs : List α) :
    (fullGroups n xs).length = xs.length / n := by
  simp [fullGroups]

@[simp] theorem length_rest (n : Nat) (xs : List α) : (rest n xs).length = xs.length % n := by
  have split := Nat.div_add_mod xs.length n
  rw [Nat.mul_comm] at split
  simp only [rest, List.length_drop]
  omega

theorem rest_eq_nil_iff (n : Nat) (xs : List α) : rest n xs = [] ↔ xs.length % n = 0 := by
  rw [← List.length_eq_zero_iff, length_rest]

theorem length_groups (n : Nat) (xs : List α) :
    (groups n xs).length = xs.length / n + if xs.length % n = 0 then 0 else 1 := by
  unfold groups
  rw [List.length_append, length_fullGroups]
  by_cases aligned : xs.length % n = 0
  · simp [(rest_eq_nil_iff n xs).mpr aligned, aligned]
  · have partialGroup : rest n xs ≠ [] := fun h => aligned ((rest_eq_nil_iff n xs).mp h)
    simp [partialGroup, aligned]

/-- Behind the list a group is empty. -/
theorem group_of_length_le {n g : Nat} {xs : List α} (behind : xs.length ≤ g * n) :
    group n g xs = [] := by
  simp [group, List.drop_eq_nil_of_le behind]

theorem length_group (n g : Nat) (xs : List α) :
    (group n g xs).length = min n (xs.length - g * n) := by
  simp [group]

theorem getElem?_group {n g k : Nat} (xs : List α) (inside : k < n) :
    (group n g xs)[k]? = xs[g * n + k]? := by
  simp [group, inside]

theorem group_append_left {n g : Nat} {xs ys : List α} (inside : g * n + n ≤ xs.length) :
    group n g (xs ++ ys) = group n g xs := by
  unfold group
  rw [List.drop_append_of_le_length (by omega), List.take_append_of_le_length]
  simp only [List.length_drop]
  omega

theorem group_rest (n : Nat) (xs : List α) (positive : 0 < n) :
    group n (xs.length / n) xs = rest n xs := by
  unfold group rest
  apply List.take_of_length_le
  have bound := Nat.mod_lt xs.length positive
  have split := Nat.div_add_mod xs.length n
  rw [Nat.mul_comm] at split
  simp only [List.length_drop]
  omega

/-- Record `x` completes a group: the full groups gain it, nothing is left. -/
theorem fullGroups_snoc_full {n : Nat} {xs : List α} (x : α) (positive : 0 < n)
    (completes : (rest n xs).length + 1 = n) :
    fullGroups n (xs ++ [x]) = fullGroups n xs ++ [rest n xs ++ [x]] := by
  have remainder : xs.length % n + 1 = n := by simpa using completes
  have split := Nat.div_add_mod xs.length n
  have total : xs.length + 1 = n * (xs.length / n + 1) := by
    rw [Nat.mul_add]; omega
  have count : (xs.length + 1) / n = xs.length / n + 1 := by
    rw [total, Nat.mul_div_cancel_left _ positive]
  unfold fullGroups
  rw [List.length_append, List.length_singleton, count, List.range_succ, List.map_append]
  congr 1
  · apply List.map_congr_left
    intro g member
    have below := List.mem_range.mp member
    apply group_append_left
    calc g * n + n = (g + 1) * n := by ring
      _ ≤ xs.length / n * n := Nat.mul_le_mul_right n below
      _ ≤ xs.length := Nat.div_mul_le_self _ _
  · have behind : xs.length / n * n ≤ xs.length := Nat.div_mul_le_self _ _
    simp only [List.map_cons, List.map_nil, List.cons.injEq, and_true]
    unfold group rest
    rw [List.drop_append_of_le_length behind, List.take_of_length_le]
    simp only [List.length_append, List.length_drop, List.length_singleton]
    rw [Nat.mul_comm] at split
    omega

theorem rest_snoc_full {n : Nat} {xs : List α} (x : α)
    (completes : (rest n xs).length + 1 = n) : rest n (xs ++ [x]) = [] := by
  rw [rest_eq_nil_iff, List.length_append, List.length_singleton]
  have remainder : xs.length % n + 1 = n := by simpa using completes
  have split := Nat.div_add_mod xs.length n
  have total : xs.length + 1 = n * (xs.length / n + 1) := by
    rw [Nat.mul_add]; omega
  rw [total, Nat.mul_mod_right]

private theorem snoc_div {n m : Nat} (open_ : m % n + 1 < n) : (m + 1) / n = m / n := by
  have split := Nat.div_add_mod m n
  have total : m + 1 = n * (m / n) + (m % n + 1) := by omega
  rw [total, Nat.mul_add_div (by omega), Nat.div_eq_of_lt open_, Nat.add_zero]

/-- Record `x` does not complete a group: it joins what is left. -/
theorem fullGroups_snoc_partial {n : Nat} {xs : List α} (x : α)
    (open_ : (rest n xs).length + 1 < n) : fullGroups n (xs ++ [x]) = fullGroups n xs := by
  have remainder : xs.length % n + 1 < n := by simpa using open_
  unfold fullGroups
  rw [List.length_append, List.length_singleton, snoc_div remainder]
  apply List.map_congr_left
  intro g member
  have below := List.mem_range.mp member
  apply group_append_left
  calc g * n + n = (g + 1) * n := by ring
    _ ≤ xs.length / n * n := Nat.mul_le_mul_right n below
    _ ≤ xs.length := Nat.div_mul_le_self _ _

theorem rest_snoc_partial {n : Nat} {xs : List α} (x : α)
    (open_ : (rest n xs).length + 1 < n) : rest n (xs ++ [x]) = rest n xs ++ [x] := by
  have remainder : xs.length % n + 1 < n := by simpa using open_
  unfold rest
  rw [List.length_append, List.length_singleton, snoc_div remainder,
    List.drop_append_of_le_length (Nat.div_mul_le_self _ _)]

/-- The full groups and the rest put together give the list back. -/
theorem fullGroups_flatten_append_rest (n : Nat) (xs : List α) :
    (fullGroups n xs).flatten ++ rest n xs = xs := by
  have taken : ∀ q, (List.range q).flatMap (fun g => group n g xs) = xs.take (q * n) := by
    intro q
    induction q with
    | zero => simp
    | succ q ih =>
      rw [List.range_succ, List.flatMap_append, ih, List.flatMap_singleton, group,
        ← List.take_add, Nat.succ_mul]
  unfold fullGroups rest
  rw [← List.flatMap_def, taken, List.take_append_drop]

@[simp] theorem flatten_groups (n : Nat) (xs : List α) : (groups n xs).flatten = xs := by
  conv_rhs => rw [← fullGroups_flatten_append_rest n xs]
  unfold groups
  rw [List.flatten_append]
  split
  · rename_i nothing
    simp [nothing]
  · simp

/-- Group `g` of the list of all groups. -/
theorem getElem?_groups {n g : Nat} (xs : List α) (positive : 0 < n)
    (inside : g * n < xs.length) : (groups n xs)[g]? = some (group n g xs) := by
  unfold groups
  rw [List.getElem?_append, length_fullGroups]
  by_cases full : g < xs.length / n
  · rw [if_pos full]
    simp [fullGroups, full]
  · rw [if_neg full]
    have le : g ≤ xs.length / n := (Nat.le_div_iff_mul_le positive).mpr (by omega)
    have last : g = xs.length / n := by omega
    have split := Nat.div_add_mod xs.length n
    rw [Nat.mul_comm] at split
    subst last
    have notAligned : ¬ xs.length % n = 0 := by omega
    have partialGroup : rest n xs ≠ [] := fun h => notAligned ((rest_eq_nil_iff n xs).mp h)
    simp [partialGroup, group_rest n xs positive]

/-- A prefix of whole groups can be cut off. -/
theorem groups_append {n : Nat} {xs ys : List α} (positive : 0 < n) (aligned : xs.length % n = 0) :
    groups n (xs ++ ys) = groups n xs ++ groups n ys := by
  obtain ⟨q, total⟩ := Nat.dvd_of_mod_eq_zero aligned
  have counts : (xs ++ ys).length / n = q + ys.length / n := by
    rw [List.length_append, total, Nat.mul_add_div positive]
  have count : xs.length / n = q := by rw [total, Nat.mul_div_cancel_left _ positive]
  have left : fullGroups n (xs ++ ys) = fullGroups n xs ++ fullGroups n ys := by
    unfold fullGroups
    rw [counts, count, List.range_add, List.map_append, List.map_map]
    congr 1
    · apply List.map_congr_left
      intro g member
      have below := List.mem_range.mp member
      apply group_append_left
      rw [total]
      calc g * n + n = n * (g + 1) := by ring
        _ ≤ n * q := Nat.mul_le_mul_left n below
    · apply List.map_congr_left
      intro g _
      have index : (q + g) * n = xs.length + g * n := by rw [total]; ring
      have behind : xs.drop (xs.length + g * n) = [] := List.drop_eq_nil_of_le (by omega)
      simp [group, index, List.drop_append, behind]
  have right : rest n (xs ++ ys) = rest n ys := by
    unfold rest
    have index : (q + ys.length / n) * n = xs.length + ys.length / n * n := by rw [total]; ring
    have behind : xs.drop (xs.length + ys.length / n * n) = [] :=
      List.drop_eq_nil_of_le (by omega)
    rw [counts, index]
    simp [List.drop_append, behind]
  have nothing : rest n xs = [] := (rest_eq_nil_iff n xs).mpr aligned
  unfold groups
  rw [left, right, nothing]
  simp [List.append_assoc]

end Groups
