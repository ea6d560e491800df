import Mathlib.Data.Finset.Card
import Mathlib.Data.Finset.Range

/-!
# Elimination in rounds

Every number below `n` starts each round anew, and stays if nothing that stayed in the round before
beats it. A number is beaten by smaller ones only. The sets of consecutive rounds contain each other,
in turns, so two of the same size are equal; and from round `n` on nothing changes.
-/

namespace Elimination

variable (beats : Nat → Nat → Prop) [∀ u v, Decidable (beats u v)] (n : Nat)

/-- What stays in a round. -/
def survivors : Nat → Finset Nat
  | 0 => Finset.range n
  | k + 1 => (Finset.range n).filter fun v => ∀ u ∈ survivors k, ¬ beats u v

variable {beats n}

theorem mem_survivors_succ {k v : Nat} :
    v ∈ survivors beats n (k + 1) ↔ v < n ∧ ∀ u ∈ survivors beats n k, ¬ beats u v := by
  rw [survivors, Finset.mem_filter, Finset.mem_range]

theorem mem_survivors_succ_of_lt {k v : Nat} (known : v < n) :
    v ∈ survivors beats n (k + 1) ↔ ∀ u ∈ survivors beats n k, ¬ beats u v := by
  rw [mem_survivors_succ, and_iff_right known]

theorem lt_of_mem_survivors {k v : Nat} (member : v ∈ survivors beats n k) : v < n := by
  cases k with
  | zero => exact Finset.mem_range.mp member
  | succ k => exact (mem_survivors_succ.mp member).1

theorem survivors_anti {j k : Nat} (sub : survivors beats n j ⊆ survivors beats n k) :
    survivors beats n (k + 1) ⊆ survivors beats n (j + 1) := by
  intro v member
  obtain ⟨known, stays⟩ := mem_survivors_succ.mp member
  exact mem_survivors_succ.mpr ⟨known, fun u other => stays u (sub other)⟩

/-- Consecutive rounds contain each other. -/
theorem survivors_comparable (k : Nat) :
    survivors beats n (k + 1) ⊆ survivors beats n k ∨
      survivors beats n k ⊆ survivors beats n (k + 1) := by
  induction k with
  | zero => exact .inl fun v member => Finset.mem_range.mpr (lt_of_mem_survivors member)
  | succ k ih => exact ih.elim (fun sub => .inr (survivors_anti sub)) fun sub => .inl (survivors_anti sub)

theorem survivors_eq_of_card_eq {k : Nat}
    (card : (survivors beats n (k + 1)).card = (survivors beats n k).card) :
    survivors beats n (k + 1) = survivors beats n k := by
  rcases (survivors_comparable k : survivors beats n (k + 1) ⊆ survivors beats n k ∨ _) with sub | sub
  · exact Finset.eq_of_subset_of_card_le sub card.ge
  · exact (Finset.eq_of_subset_of_card_le sub card.le).symm

/-- A number is settled once all smaller numbers are. -/
theorem mem_survivors_succ_iff (smaller : ∀ u v, beats u v → u < v) {v k : Nat} (settled : v < k) :
    v ∈ survivors beats n (k + 1) ↔ v ∈ survivors beats n k := by
  induction k generalizing v with
  | zero => exact absurd settled (Nat.not_lt_zero v)
  | succ k ih =>
    rw [mem_survivors_succ, mem_survivors_succ]
    refine and_congr_right fun _ => forall_congr' fun u => ?_
    by_cases beaten : beats u v
    · rw [ih (by have := smaller u v beaten; omega)]
    · simp only [beaten, not_false_eq_true, imp_true_iff]

theorem survivors_stable (smaller : ∀ u v, beats u v → u < v) {k : Nat} (late : n ≤ k) :
    survivors beats n (k + 1) = survivors beats n k := by
  ext v
  by_cases known : v < n
  · exact mem_survivors_succ_iff smaller (by omega)
  · exact iff_of_false (fun member => known (lt_of_mem_survivors member))
      fun member => known (lt_of_mem_survivors member)

/-- If nobody is beaten in a round, nobody beats anybody. -/
theorem not_beats_of_none (smaller : ∀ u v, beats u v → u < v) {k : Nat}
    (none_ : ∀ u ∈ survivors beats n k, ∀ v, ¬ beats u v) {u v : Nat} (known : u < n) :
    ¬ beats u v := by
  induction u using Nat.strong_induction_on generalizing v with
  | _ u ih =>
    -- nothing beats `u`, so it survives
    refine none_ u ?_ v
    cases k with
    | zero => exact Finset.mem_range.mpr known
    | succ k =>
      refine mem_survivors_succ.mpr ⟨known, fun w member beaten => ?_⟩
      exact ih w (smaller w u beaten) (lt_of_mem_survivors member) beaten

end Elimination
