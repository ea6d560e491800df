import Mathlib.Data.Nat.Init

/-!
# Parties that take turns

Several parties make one step after the other on a common state, in any order. A schedule says whose
turn it is. A party that has to wait makes a step that changes nothing.
-/

namespace Interleaving

variable {S P : Type*} (step : S → P → S)

/-- The state after the turns of a schedule. -/
def run (s : S) (schedule : List P) : S := schedule.foldl step s

variable {step} {s : S}

@[simp] theorem run_nil : run step s [] = s := rfl

@[simp] theorem run_cons (p : P) (schedule : List P) :
    run step s (p :: schedule) = run step (step s p) schedule := rfl

theorem run_append (first second : List P) :
    run step s (first ++ second) = run step (run step s first) second :=
  List.foldl_append

/-- What each step keeps holds after every schedule. -/
theorem run_keeps {inv : S → Prop} (keeps : ∀ s p, inv s → inv (step s p)) (start : inv s)
    (schedule : List P) : inv (run step s schedule) := by
  induction schedule generalizing s with
  | nil => exact start
  | cons p schedule ih => exact ih (keeps s p start)

section

variable (step) (meets : S → P → Prop)

/-- Each turn of a schedule is taken in a state that meets a condition. -/
def Along : S → List P → Prop
  | _, [] => True
  | s, p :: schedule => meets s p ∧ Along (step s p) schedule

instance Along.decidable [∀ s p, Decidable (meets s p)] :
    ∀ (s : S) (schedule : List P), Decidable (Along step meets s schedule)
  | _, [] => isTrue trivial
  | s, p :: schedule =>
    have := Along.decidable (step s p) schedule
    inferInstanceAs (Decidable (meets s p ∧ Along step meets (step s p) schedule))

end

variable {meets : S → P → Prop}

theorem Along.take {schedule : List P} (along : Along step meets s schedule) (n : Nat) :
    Along step meets s (schedule.take n) := by
  induction schedule generalizing s n with
  | nil => rwa [List.take_nil]
  | cons p schedule ih =>
    cases n with
    | zero => trivial
    | succ n => exact ⟨along.1, ih along.2 n⟩

/-- What is kept by the steps that meet a condition holds after a schedule of such steps. -/
theorem run_keeps_along {inv : S → Prop} (keeps : ∀ s p, inv s → meets s p → inv (step s p))
    (start : inv s) {schedule : List P} (along : Along step meets s schedule) :
    inv (run step s schedule) := by
  induction schedule generalizing s with
  | nil => exact start
  | cons p schedule ih => exact ih (keeps s p start along.1) along.2

/-- Where a step can always be found that comes nearer to a goal, the goal can be reached. -/
theorem exists_run {inv goal : S → Prop} (size : S → Nat)
    (keeps : ∀ s p, inv s → inv (step s p))
    (nearer : ∀ s, inv s → goal s ∨ ∃ p, size (step s p) < size s) (start : inv s) :
    ∃ schedule, goal (run step s schedule) := by
  induction n : size s using Nat.strong_induction_on generalizing s with
  | _ n ih =>
    subst n
    obtain reached | ⟨p, less⟩ := nearer s start
    · exact ⟨[], reached⟩
    · obtain ⟨schedule, reached⟩ := ih _ less (keeps s p start) rfl
      exact ⟨p :: schedule, reached⟩

end Interleaving
