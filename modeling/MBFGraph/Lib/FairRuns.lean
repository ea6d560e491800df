import MBFGraph.Lib.Interleaving

/-!
# Fair schedules

A schedule without end is fair if every party gets its turn again and again. A goal is reached under every fair
schedule if there is always a party whose step comes nearer to it, and which stays so until it gets its turn, or
until another party has come nearer (`reaches_of_fair`).
-/

namespace Interleaving

variable {S P : Type*} (step : S → P → S)

/-- The states along a schedule. -/
def states (s : S) (schedule : Nat → P) : Nat → S
  | 0 => s
  | n + 1 => step (states s schedule n) (schedule n)

/-- Every party gets its turn again and again. -/
def Fair (schedule : Nat → P) : Prop := ∀ p n, ∃ m, n ≤ m ∧ schedule m = p

variable {step} {s : S} {schedule : Nat → P}

theorem states_keeps {inv : S → Prop} (keeps : ∀ s p, inv s → inv (step s p)) (start : inv s) (n : Nat) :
    inv (states step s schedule n) := by
  induction n with
  | zero => exact start
  | succ n ih => exact keeps _ _ ih

/-- The rule for progress. -/
theorem reaches_of_fair {inv goal : S → Prop} {helps : S → P → Prop} (size : S → Nat)
    (keeps : ∀ s p, inv s → inv (step s p)) (some_helps : ∀ s, inv s → goal s ∨ ∃ p, helps s p)
    (nearer : ∀ s p, inv s → helps s p → size (step s p) < size s)
    (others : ∀ s p q, inv s → helps s p →
      size (step s q) < size s ∨ size (step s q) = size s ∧ helps (step s q) p)
    (start : inv s) (fair : Fair schedule) : ∃ n, goal (states step s schedule n) := by
  have holds : ∀ n, inv (states step s schedule n) := states_keeps keeps start
  -- until the turn of a helpful party, or until the size is smaller
  have waits : ∀ d n p, helps (states step s schedule n) p → schedule (n + d) = p →
      ∃ m, size (states step s schedule m) < size (states step s schedule n) := by
    intro d
    induction d with
    | zero =>
      intro n p helpful turn
      refine ⟨n + 1, ?_⟩
      change size (step _ (schedule n)) < _
      rw [show schedule n = p from turn]
      exact nearer _ _ (holds n) helpful
    | succ d ih =>
      intro n p helpful turn
      rcases others _ p (schedule n) (holds n) helpful with less | ⟨same, still⟩
      · exact ⟨n + 1, less⟩
      · obtain ⟨m, less⟩ := ih (n + 1) p still (by rw [Nat.add_assoc, Nat.add_comm 1]; exact turn)
        exact ⟨m, same ▸ less⟩
  have reaches : ∀ size' n, size (states step s schedule n) = size' →
      ∃ m, goal (states step s schedule m) := by
    intro size'
    induction size' using Nat.strong_induction_on with
    | _ size' ih =>
      rintro n rfl
      rcases some_helps _ (holds n) with reached | ⟨p, helpful⟩
      · exact ⟨n, reached⟩
      · obtain ⟨turn, le, isTurn⟩ := fair p n
        obtain ⟨m, less⟩ := waits (turn - n) n p helpful (by rw [Nat.add_sub_cancel' le]; exact isTurn)
        exact ih _ less m rfl
  exact reaches _ 0 rfl

end Interleaving
