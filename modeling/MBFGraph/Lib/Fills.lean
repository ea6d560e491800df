import MBFGraph.Lib.Writes

/-!
# Loops that fill a buffer

A loop nest stores runs of elements into a buffer. If every run has the elements that a function gives for its
positions, and every position is in a run or right from the start, the buffer holds the values of the function.
In which order the runs are stored, and whether they overlap, does not matter.
-/

namespace Fills

open Overwrite

variable {α : Type}

/-- The values of `i` in `for (i = first; i + (step - 1) < stop; i += step)`. -/
def steps (first stop step : Nat) : List Nat := List.range' first ((stop - first) / step) step

theorem of_mem_steps {first stop step i : Nat} (member : i ∈ steps first stop step) :
    ∃ k, i = first + step * k ∧ i + step ≤ stop := by
  obtain ⟨k, few, rfl⟩ := List.mem_range'.mp member
  refine ⟨k, rfl, ?_⟩
  have enough : step * (k + 1) ≤ stop - first :=
    (Nat.mul_le_mul_left step few).trans (Nat.mul_div_le _ _)
  rw [Nat.mul_succ] at enough
  have some_ : 0 < (stop - first) / step := Nat.lt_of_le_of_lt (Nat.zero_le k) few
  have more : 0 < stop - first := by
    by_contra none_
    rw [Nat.eq_zero_of_not_pos none_, Nat.zero_div] at some_
    exact absurd some_ (Nat.lt_irrefl 0)
  omega

/-- The step that a number belongs to. -/
theorem exists_mem_steps {first stop step x : Nat} (positive : 0 < step) (above : first ≤ x)
    (below : x < stop - (stop - first) % step) :
    ∃ i ∈ steps first stop step, i ≤ x ∧ x < i + step := by
  have number : (x - first) / step < (stop - first) / step := by
    have whole := Nat.div_add_mod (stop - first) step
    refine (Nat.div_lt_iff_lt_mul positive).mpr ?_
    rw [Nat.mul_comm]
    omega
  have split := Nat.div_add_mod (x - first) step
  have less := Nat.mod_lt (x - first) positive
  exact ⟨first + step * ((x - first) / step), List.mem_range'.mpr ⟨_, number, rfl⟩, by omega, by omega⟩

/-- The first `n` values of a function. -/
def filled (n : Nat) (f : Nat → α) : List α := (List.range n).map f

@[simp] theorem length_filled (n : Nat) (f : Nat → α) : (filled n f).length = n := by
  unfold filled
  rw [List.length_map, List.length_range]

theorem getElem?_filled {n i : Nat} (f : Nat → α) (inside : i < n) : (filled n f)[i]? = some (f i) := by
  unfold filled
  rw [List.getElem?_map, List.getElem?_range inside]
  rfl

/-- `n` elements from `a` on. -/
def run (n : Nat) (l : List α) (a : Nat) : List α := (l.drop a).take n

theorem getElem?_run {n t : Nat} (l : List α) (a : Nat) (below : t < n) : (run n l a)[t]? = l[a + t]? := by
  unfold run
  rw [List.getElem?_take_of_lt below, List.getElem?_drop]

theorem length_run {n a : Nat} {l : List α} (inside : a + n ≤ l.length) : (run n l a).length = n := by
  unfold run
  rw [List.length_take, List.length_drop]
  omega

variable [Inhabited α] {writes : List (Nat × List α)} {l : List α} {f : Nat → α}

/-- The runs hold values of the function, inside of the buffer. -/
def Fill (writes : List (Nat × List α)) (n : Nat) (f : Nat → α) : Prop :=
  ∀ w ∈ writes, w.1 + w.2.length ≤ n ∧ ∀ t < w.2.length, w.2[t]? = some (f (w.1 + t))

theorem Fill.length_eq {n : Nat} (fill : Fill writes n f) (whole : l.length = n) :
    (applyWrites writes l).length = n := by
  induction writes generalizing l with
  | nil => exact whole
  | cons w writes ih =>
    have first := (fill w List.mem_cons_self).1
    rw [← whole] at first
    exact ih (fun v member => fill v (List.mem_cons_of_mem _ member)) ((length_overwrite_inside first).trans whole)

/-- A position that a run covers, or that was right before, is right. -/
theorem Fill.getElem? {n i : Nat} (fill : Fill writes n f)
    (reached : (∃ w ∈ writes, Covers w i) ∨ l[i]? = some (f i)) : (applyWrites writes l)[i]? = some (f i) := by
  refine getElem?_applyWrites (fun w member covers => ?_) reached
  have value := (fill w member).2 (i - w.1) (by have := covers.1; have := covers.2; omega)
  rwa [Nat.add_sub_cancel' covers.1] at value

/-- Every position is covered, or was right before. -/
theorem Fill.eq_filled {n : Nat} (fill : Fill writes n f) (whole : l.length = n)
    (reached : ∀ i < n, (∃ w ∈ writes, Covers w i) ∨ l[i]? = some (f i)) :
    applyWrites writes l = filled n f := by
  have sameLength := fill.length_eq whole
  apply List.ext_getElem?
  intro i
  by_cases inside : i < n
  · rw [fill.getElem? (reached i inside), getElem?_filled f inside]
  · rw [List.getElem?_eq_none (by omega), List.getElem?_eq_none (by rw [length_filled]; omega)]

end Fills
