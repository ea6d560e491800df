import Mathlib.Data.Nat.Basic

/-!
# Delta swaps

A delta swap exchanges the bits that a mask selects with the bits a fixed distance above them, in three
operations on words. Where the bits of a result come from is a function on their numbers, so that a sequence of
swaps is checked by composing these functions.
-/

namespace DeltaSwap

variable {w : Nat}

/-- Exchange the bits in `mask` with those `distance` above. -/
def deltaSwap (mask : BitVec w) (distance : Nat) (x : BitVec w) : BitVec w :=
  let t := (x ^^^ (x >>> distance)) &&& mask
  x ^^^ t ^^^ (t <<< distance)

/-- Where bit `i` of the result comes from. -/
def source (mask : BitVec w) (distance i : Nat) : Nat :=
  if mask.getLsbD i then i + distance
  else if distance ≤ i ∧ mask.getLsbD (i - distance) then i - distance
  else i

/-- The partner of a selected bit is in the word, and it is not selected. -/
def Swaps (mask : BitVec w) (distance : Nat) : Prop :=
  ∀ i < w, mask.getLsbD i = true → i + distance < w ∧ mask.getLsbD (i + distance) = false

instance (mask : BitVec w) (distance : Nat) : Decidable (Swaps mask distance) :=
  inferInstanceAs (Decidable (∀ i < w, mask.getLsbD i = true → _ ∧ _))

theorem getLsbD_deltaSwap {mask : BitVec w} {distance : Nat} (swaps : Swaps mask distance) (x : BitVec w) {i : Nat}
    (inside : i < w) : (deltaSwap mask distance x).getLsbD i = x.getLsbD (source mask distance i) := by
  unfold deltaSwap source
  simp only [BitVec.getLsbD_xor, BitVec.getLsbD_and, BitVec.getLsbD_ushiftRight, BitVec.getLsbD_shiftLeft]
  by_cases selected : mask.getLsbD i = true
  · -- the partner below is not selected, since its partner is
    have below : ¬(distance ≤ i ∧ mask.getLsbD (i - distance) = true) := by
      rintro ⟨le, partner⟩
      have other := (swaps (i - distance) (by omega) partner).2
      rw [Nat.sub_add_cancel le, selected] at other
      contradiction
    rw [if_pos selected, selected, Nat.add_comm distance i]
    by_cases le : distance ≤ i
    · have unselected : mask.getLsbD (i - distance) = false := by
        rw [← Bool.not_eq_true]
        exact fun partner => below ⟨le, partner⟩
      simp [unselected]
    · have above : i < distance := Nat.lt_of_not_le le
      simp [above]
  · rw [if_neg selected]
    have unselected : mask.getLsbD i = false := (Bool.not_eq_true _).mp selected
    by_cases below : distance ≤ i ∧ mask.getLsbD (i - distance) = true
    · obtain ⟨le, partner⟩ := below
      rw [if_pos ⟨le, partner⟩]
      rw [unselected, partner, Nat.add_sub_cancel' le, decide_eq_true inside, decide_eq_false (Nat.not_lt.mpr le)]
      simp only [Bool.and_false, Bool.xor_false, Bool.not_false, Bool.true_and, Bool.and_true]
      rw [Bool.xor_left_comm, Bool.xor_self, Bool.xor_false]
    · rw [if_neg below]
      by_cases le : distance ≤ i
      · have partner : mask.getLsbD (i - distance) = false := by
          rw [← Bool.not_eq_true]
          exact fun partner => below ⟨le, partner⟩
        simp [unselected, partner]
      · simp [unselected, Nat.lt_of_not_le le]

end DeltaSwap
