import Mathlib

/-!
# Overwriting a region of a list

A file or a memory area is a list; `overwrite l a ys` stores the run `ys` at position `a`.
Positions are counted in list elements, so the same lemmas serve byte arrays and arrays of
records. `overwrite` is total: a run placed past the end of the list is padded, as a file
grows when it is written behind its end.
-/

namespace Overwrite

variable {α : Type} [Inhabited α]

/-- Store `ys` at position `a` of `l`; the list grows if the run ends behind it. -/
def overwrite (l : List α) (a : Nat) (ys : List α) : List α :=
  if ys = [] then l
  else l.take a ++ List.replicate (a - l.length) default ++ ys ++ l.drop (a + ys.length)

@[simp] theorem overwrite_nil (l : List α) (a : Nat) : overwrite l a [] = l := by
  simp [overwrite]

/-- Inside the list the padding is empty. -/
theorem overwrite_of_le {l ys : List α} {a : Nat} (inside : a ≤ l.length) :
    overwrite l a ys = l.take a ++ ys ++ l.drop (a + ys.length) := by
  unfold overwrite
  split
  · rename_i empty
    simp [empty]
  · simp [Nat.sub_eq_zero_of_le inside]

/-- Up to the end of the run: what was in front of it, and the run. -/
theorem take_overwrite_end {l : List α} (ys : List α) {a : Nat} (inside : a ≤ l.length) :
    (overwrite l a ys).take (a + ys.length) = l.take a ++ ys := by
  have front : (l.take a ++ ys).length = a + ys.length := by
    rw [List.length_append, List.length_take, Nat.min_eq_left inside]
  rw [overwrite_of_le inside, ← front, List.take_left]

/-- In front of the run nothing changes. -/
theorem take_overwrite_of_le {l : List α} (ys : List α) {a n : Nat} (inside : a ≤ l.length) (before : n ≤ a) :
    (overwrite l a ys).take n = l.take n := by
  rw [overwrite_of_le inside, List.append_assoc,
    List.take_append_of_le_length (by rw [List.length_take]; omega), List.take_take,
    Nat.min_eq_left before]

/-- A run written at the end of the list is appended. -/
@[simp] theorem overwrite_length (l ys : List α) : overwrite l l.length ys = l ++ ys := by
  rw [overwrite_of_le (Nat.le_refl _)]
  simp

theorem overwrite_zero (l ys : List α) : overwrite l 0 ys = ys ++ l.drop ys.length := by
  rw [overwrite_of_le (Nat.zero_le _)]
  simp

theorem length_overwrite {l ys : List α} {a : Nat} (inside : a ≤ l.length) :
    (overwrite l a ys).length = max l.length (a + ys.length) := by
  rw [overwrite_of_le inside]
  simp only [List.length_append, List.length_take, List.length_drop]
  omega

/-- A run that ends inside the list keeps its length. -/
theorem length_overwrite_inside {l ys : List α} {a : Nat} (inside : a + ys.length ≤ l.length) :
    (overwrite l a ys).length = l.length := by
  rw [length_overwrite (by omega)]
  omega

/-- What is read after an overwrite: the run where it was stored, the old list elsewhere. -/
theorem getElem?_overwrite {l ys : List α} {a : Nat} (inside : a ≤ l.length) (i : Nat) :
    (overwrite l a ys)[i]? =
      if a ≤ i ∧ i < a + ys.length then ys[i - a]? else l[i]? := by
  rw [overwrite_of_le inside, List.append_assoc, List.getElem?_append]
  have taken : (l.take a).length = a := by simp; omega
  rw [taken]
  by_cases before : i < a
  · have notIn : ¬(a ≤ i ∧ i < a + ys.length) := by omega
    simp [before, notIn]
  · rw [if_neg before, List.getElem?_append]
    by_cases within : i - a < ys.length
    · have isIn : a ≤ i ∧ i < a + ys.length := by omega
      simp [within, isIn]
    · have notIn : ¬(a ≤ i ∧ i < a + ys.length) := by omega
      rw [if_neg within, if_neg notIn, List.getElem?_drop]
      congr 1
      omega

/-- The same for reads with a default, without a bound on the position: what lies between the
end of the list and a run stored behind it reads as the default. -/
theorem getD_overwrite (l ys : List α) (a i : Nat) :
    (overwrite l a ys).getD i default =
      if a ≤ i ∧ i < a + ys.length then ys.getD (i - a) default else l.getD i default := by
  simp only [List.getD_eq_getElem?_getD]
  by_cases inside : a ≤ l.length
  · rw [getElem?_overwrite inside]
    split <;> rfl
  · by_cases empty : ys = []
    · have nowhere : ¬(a ≤ i ∧ i < a + ys.length) := by simp [empty]
      rw [if_neg nowhere, empty, overwrite_nil]
    · -- behind the end: the old list, the padding, the run
      have behind : l.drop (a + ys.length) = [] := List.drop_eq_nil_of_le (by omega)
      have whole : l.take a = l := List.take_of_length_le (by omega)
      have padded : (l ++ List.replicate (a - l.length) default).length = a := by
        rw [List.length_append, List.length_replicate]; omega
      unfold overwrite
      rw [if_neg empty, behind, List.append_nil, whole, List.getElem?_append, padded]
      by_cases before : i < a
      · have nowhere : ¬(a ≤ i ∧ i < a + ys.length) := by omega
        rw [if_pos before, if_neg nowhere, List.getElem?_append]
        by_cases old : i < l.length
        · rw [if_pos old]
        · rw [if_neg old, List.getElem?_eq_none (Nat.le_of_not_lt old), List.getElem?_replicate]
          split <;> rfl
      · rw [if_neg before]
        by_cases within : i < a + ys.length
        · rw [if_pos ⟨by omega, within⟩]
        · have pastRun : ys[i - a]? = none := List.getElem?_eq_none (by omega)
          have pastList : l[i]? = none := List.getElem?_eq_none (by omega)
          rw [if_neg (fun h => within h.2), pastRun, pastList]

/-- Writing a run, then the run that follows it, is writing both at once. -/
theorem overwrite_append (l ys zs : List α) (a : Nat) (inside : a ≤ l.length) :
    overwrite (overwrite l a ys) (a + ys.length) zs = overwrite l a (ys ++ zs) := by
  have grown : a + ys.length ≤ (overwrite l a ys).length := by
    rw [length_overwrite inside]; omega
  apply List.ext_getElem?
  intro i
  rw [getElem?_overwrite grown, getElem?_overwrite inside, getElem?_overwrite inside,
    List.getElem?_append, List.length_append]
  by_cases first : a ≤ i ∧ i < a + ys.length
  · have notSecond : ¬(a + ys.length ≤ i ∧ i < a + ys.length + zs.length) := by omega
    have both : a ≤ i ∧ i < a + (ys.length + zs.length) := by omega
    have inFirst : i - a < ys.length := by omega
    simp [first, notSecond, both, inFirst]
  · by_cases second : a + ys.length ≤ i ∧ i < a + ys.length + zs.length
    · have both : a ≤ i ∧ i < a + (ys.length + zs.length) := by omega
      have notFirst : ¬ i - a < ys.length := by omega
      rw [if_pos second, if_pos both, if_neg notFirst]
      congr 1
      omega
    · have neither : ¬(a ≤ i ∧ i < a + (ys.length + zs.length)) := by omega
      rw [if_neg second, if_neg first, if_neg neither]

/-- A run stored over a tail that is not longer replaces it. -/
theorem overwrite_tail {xs ys zs : List α} (shorter : ys.length ≤ zs.length) :
    overwrite (xs ++ ys) xs.length zs = xs ++ zs := by
  rw [overwrite_of_le (by simp), List.take_left, List.drop_append, List.drop_eq_nil_of_le (by omega),
    List.drop_eq_nil_of_le (by omega), List.append_nil, List.append_nil]

/-- Overwriting a run by itself changes nothing. -/
theorem overwrite_self {l ys : List α} {a : Nat} (inside : a ≤ l.length)
    (same : (l.drop a).take ys.length = ys) : overwrite l a ys = l := by
  rw [overwrite_of_le inside]
  conv_rhs => rw [← List.take_append_drop a l, ← List.take_append_drop ys.length (l.drop a), same]
  rw [List.drop_drop, List.append_assoc]

end Overwrite
