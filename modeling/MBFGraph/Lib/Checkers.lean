import Mathlib.Data.Option.Basic

/-!
# Checking what another run would write

A program that can run in two modes: one writes, the other reads what is there and fails where it
is not what the first would have written. `Checks v c` says that `v` is the checking mode of `c`:
it succeeds exactly if `c` does and changes nothing. A run of checked steps is checked, provided
that later steps do not write where earlier ones did.
-/

namespace Checkers

variable {S A : Type*}

/-- What a writing program may do to a state. `keeps s s'`: the content is the same. `advances`:
something was written, behind everything written before. -/
structure Journal (S : Type*) where
  inside : S → Prop
  keeps : S → S → Prop
  advances : S → S → Prop
  keeps_refl : ∀ s, keeps s s
  keeps_trans : ∀ {a b c}, keeps a b → keeps b c → keeps a c
  keeps_symm : ∀ {a b}, keeps a b → keeps b a
  advances_refl : ∀ s, advances s s
  advances_trans : ∀ {a b c}, inside a → advances a b → advances b c → advances a c
  inside_of_advances : ∀ {a b}, inside a → advances a b → inside b
  keeps_of_later : ∀ {a b c}, inside a → advances a b → advances b c → keeps a c → keeps a b

variable {J : Journal S}

/-- `v` checks what `c` writes. -/
structure Checks (J : Journal S) (v c : S → Option S) : Prop where
  eq_some_iff : ∀ {s}, J.inside s → ∀ s', v s = some s' ↔ c s = some s' ∧ J.keeps s s'
  advances : ∀ {s}, J.inside s → ∀ s', c s = some s' → J.advances s s'

namespace Checks

/-- A step without writes or comparisons. -/
theorem silent {f : S → S} (keeps : ∀ s, J.keeps s (f s)) (advances : ∀ s, J.advances s (f s)) :
    Checks J (fun s => some (f s)) (fun s => some (f s)) where
  eq_some_iff _ s' := by
    constructor
    · intro same
      obtain rfl := Option.some.inj same
      exact ⟨rfl, keeps _⟩
    · exact fun both => both.1
  advances _ s' same := by
    obtain rfl := Option.some.inj same
    exact advances _

theorem pure : Checks J some some := silent J.keeps_refl J.advances_refl

theorem failure : Checks J (fun _ => none) (fun _ => none) where
  eq_some_iff _ s' := by simp
  advances _ s' none_ := by simp at none_

/-- Both modes take the same branch. -/
theorem ite {p : S → Prop} [DecidablePred p] {v v' c c' : S → Option S} (yes : Checks J v c)
    (no : Checks J v' c') :
    Checks J (fun s => if p s then v s else v' s) (fun s => if p s then c s else c' s) where
  eq_some_iff {s} inside s' := by
    by_cases branch : p s
    · simp only [if_pos branch]
      exact yes.eq_some_iff inside s'
    · simp only [if_neg branch]
      exact no.eq_some_iff inside s'
  advances {s} inside s' ran := by
    by_cases branch : p s
    · simp only [if_pos branch] at ran
      exact yes.advances inside s' ran
    · simp only [if_neg branch] at ran
      exact no.advances inside s' ran

/-- One after the other. -/
theorem bind {v v' c c' : S → Option S} (first : Checks J v c) (second : Checks J v' c') :
    Checks J (fun s => (v s).bind v') (fun s => (c s).bind c') where
  eq_some_iff {s} inside s' := by
    simp only [Option.bind_eq_some_iff]
    constructor
    · rintro ⟨mid, firstRan, secondRan⟩
      obtain ⟨written, keeps⟩ := (first.eq_some_iff inside mid).mp firstRan
      have midInside := J.inside_of_advances inside (first.advances inside mid written)
      obtain ⟨written', keeps'⟩ := (second.eq_some_iff midInside s').mp secondRan
      exact ⟨⟨mid, written, written'⟩, J.keeps_trans keeps keeps'⟩
    · rintro ⟨⟨mid, written, written'⟩, keeps⟩
      have advances := first.advances inside mid written
      have midInside := J.inside_of_advances inside advances
      have advances' := second.advances midInside s' written'
      have keepsMid := J.keeps_of_later inside advances advances' keeps
      refine ⟨mid, (first.eq_some_iff inside mid).mpr ⟨written, keepsMid⟩, ?_⟩
      exact (second.eq_some_iff midInside s').mpr
        ⟨written', J.keeps_trans (J.keeps_symm keepsMid) keeps⟩
  advances {s} inside s' ran := by
    obtain ⟨mid, written, written'⟩ := Option.bind_eq_some_iff.mp ran
    have advances := first.advances inside mid written
    exact J.advances_trans inside advances
      (second.advances (J.inside_of_advances inside advances) s' written')

/-- A loop over a list. -/
theorem foldlM {v c : S → A → Option S} {xs : List A}
    (step : ∀ x ∈ xs, Checks J (fun s => v s x) (fun s => c s x)) :
    Checks J (fun s => xs.foldlM v s) (fun s => xs.foldlM c s) := by
  induction xs with
  | nil => exact pure
  | cons x xs ih =>
    exact (step x List.mem_cons_self).bind
      (ih fun y member => step y (List.mem_cons_of_mem _ member))

end Checks

end Checkers
