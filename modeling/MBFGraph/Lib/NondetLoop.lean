import Mathlib.Order.RelClasses
import Mathlib.Data.Nat.Init

/-!
# Loops whose body makes choices

A loop that runs its body until a test behind it holds, where the body may go on from a state in
several ways, or not at all. `AlwaysEnds` is total correctness: whatever is chosen, the body can
run, the loop comes to its end, and the end is as wanted.
-/

namespace NondetLoop

variable {S : Type*}

/-- Whatever is chosen, the loop comes to its end, and `post` holds there. -/
inductive AlwaysEnds (step : S → S → Prop) (stop post : S → Prop) : S → Prop
  | loop {s : S} (can : ∃ s', step s s') (done : ∀ s', step s s' → stop s' → post s')
      (rest : ∀ s', step s s' → ¬ stop s' → AlwaysEnds step stop post s') :
      AlwaysEnds step stop post s

variable {step : S → S → Prop} {stop post post' : S → Prop} {s : S}

namespace AlwaysEnds

/-- The body is never stuck. -/
theorem can_step (ends : AlwaysEnds step stop post s) : ∃ s', step s s' := by
  cases ends with
  | loop can _ _ => exact can

/-- What holds at every end holds at some end. -/
theorem exists_post (ends : AlwaysEnds step stop post s) : ∃ s', post s' := by
  induction ends with
  | loop can done _ ih =>
    obtain ⟨s', stepped⟩ := can
    by_cases stopped : stop s'
    · exact ⟨s', done s' stepped stopped⟩
    · exact ih s' stepped stopped

/-- The last pass of some run, in front of which an invariant holds. -/
theorem exists_last (ends : AlwaysEnds step stop post s) (inv : S → Prop) (holds : inv s)
    (keeps : ∀ s s', inv s → step s s' → inv s') :
    ∃ s₀ s', inv s₀ ∧ step s₀ s' ∧ post s' := by
  induction ends with
  | @loop s can done _ ih =>
    obtain ⟨s', stepped⟩ := can
    by_cases stopped : stop s'
    · exact ⟨s, s', holds, stepped, done s' stepped stopped⟩
    · exact ih s' stepped stopped (keeps s s' holds stepped)

theorem mono (ends : AlwaysEnds step stop post s) (imp : ∀ s', post s' → post' s') :
    AlwaysEnds step stop post' s := by
  induction ends with
  | loop can done _ ih =>
    exact loop can (fun s' stepped stopped => imp s' (done s' stepped stopped)) ih

/-- What two proofs find at the end holds at one end. -/
theorem and (ends : AlwaysEnds step stop post s) (ends' : AlwaysEnds step stop post' s) :
    AlwaysEnds step stop (fun s' => post s' ∧ post' s') s := by
  induction ends with
  | loop can done _ ih =>
    cases ends' with
    | loop _ done' rest' =>
      exact loop can (fun s' stepped stopped => ⟨done s' stepped stopped, done' s' stepped stopped⟩)
        fun s' stepped goesOn => ih s' stepped goesOn (rest' s' stepped goesOn)

/-- The rule for a loop with an invariant and a measure. -/
theorem of_invariant (inv : S → Prop) (measure : S → Nat) (holds : inv s)
    (can : ∀ s, inv s → ∃ s', step s s')
    (done : ∀ s s', inv s → step s s' → stop s' → post s')
    (keeps : ∀ s s', inv s → step s s' → ¬ stop s' → inv s' ∧ measure s' < measure s) :
    AlwaysEnds step stop post s := by
  induction h : measure s using Nat.strongRecOn generalizing s with
  | _ n ih =>
    refine loop (can s holds) (fun s' => done s s' holds) fun s' stepped goesOn => ?_
    obtain ⟨holds', less⟩ := keeps s s' holds stepped goesOn
    exact ih (measure s') (h ▸ less) holds' rfl

/-- The rule for a loop whose body need not run behind the end. -/
theorem of_running_invariant (inv : S → Prop) (measure : S → Nat) (holds : inv s) (goesOn : ¬ stop s)
    (can : ∀ s, inv s → ¬ stop s → ∃ s', step s s') (done : ∀ s, inv s → stop s → post s)
    (keeps : ∀ s s', inv s → ¬ stop s → step s s' → inv s' ∧ measure s' < measure s) :
    AlwaysEnds step stop post s := by
  refine of_invariant (fun s => inv s ∧ ¬ stop s) measure ⟨holds, goesOn⟩ (fun s h => can s h.1 h.2) ?_ ?_
  · intro s s' h stepped stopped
    exact done s' (keeps s s' h.1 h.2 stepped).1 stopped
  · intro s s' h stepped goesOn'
    obtain ⟨kept, less⟩ := keeps s s' h.1 h.2 stepped
    exact ⟨⟨kept, goesOn'⟩, less⟩

end AlwaysEnds

/-- Whatever a step chooses, it can be made, and `post` holds behind it. -/
def Always (step : S → S → Prop) (post : S → Prop) (s : S) : Prop :=
  (∃ s', step s s') ∧ ∀ s', step s s' → post s'

/-- A loop with its test in front. -/
def WhileEnds (step : S → S → Prop) (stop post : S → Prop) (s : S) : Prop :=
  (stop s → post s) ∧ (¬ stop s → AlwaysEnds step stop post s)

/-- The rule for a loop with its test in front. -/
theorem WhileEnds.of_invariant (inv : S → Prop) (measure : S → Nat) (holds : inv s)
    (can : ∀ s, inv s → ∃ s', step s s') (done : ∀ s, inv s → stop s → post s)
    (keeps : ∀ s s', inv s → ¬ stop s → step s s' → inv s' ∧ measure s' < measure s) :
    WhileEnds step stop post s := by
  refine ⟨done s holds, fun goesOn => ?_⟩
  exact AlwaysEnds.of_running_invariant inv measure holds goesOn (fun s inv' _ => can s inv') done keeps

end NondetLoop
