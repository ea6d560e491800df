import MBFGraph.Lib.ByteBits

/-!
# Passes over a bitset

A pass either fails on every bitset of a size or changes it in a known way: it sets bits (`Marks`), or gives
the bits of a region new values (`Rewrites`). Both are closed under running one pass after the other.
-/

namespace BitPasses

open ByteBits

/-- A pass over bitsets of `size` bytes that sets the bits `marks`. -/
structure Marks (size : Nat) (inside : Prop) (marks : Nat → Prop)
    (pass : List Byte → Option (List Byte)) : Prop where
  fails : ¬ inside → ∀ bitset, bitset.length = size → pass bitset = none
  marked : inside → ∀ bitset, bitset.length = size → ∃ after, pass bitset = some after ∧
    after.length = size ∧ ∀ p, bitAt after p = true ↔ bitAt bitset p = true ∨ marks p

/-- A pass that gives the bits in `covers` the values `value`. -/
structure Rewrites (size : Nat) (inside : Prop) (covers value : Nat → Prop)
    (pass : List Byte → Option (List Byte)) : Prop where
  fails : ¬ inside → ∀ bitset, bitset.length = size → pass bitset = none
  rewritten : inside → ∀ bitset, bitset.length = size → ∃ after, pass bitset = some after ∧
    after.length = size ∧
    ∀ p, bitAt after p = true ↔ (covers p ∧ value p) ∨ (¬ covers p ∧ bitAt bitset p = true)

variable {α : Type} {size : Nat} {inside : α → Prop} {marks covers value : α → Nat → Prop}
  {pass : α → List Byte → Option (List Byte)}

/-- Passes one after the other. -/
theorem Marks.foldlM {xs : List α}
    (each : ∀ x ∈ xs, Marks size (inside x) (marks x) (pass x)) :
    Marks size (∀ x ∈ xs, inside x) (fun p => ∃ x ∈ xs, marks x p)
      (fun bitset => xs.foldlM (fun bitset x => pass x bitset) bitset) := by
  induction xs with
  | nil =>
    refine ⟨fun outside => absurd (by simp) outside, fun _ bitset length => ⟨bitset, rfl, length, ?_⟩⟩
    simp
  | cons x xs ih =>
    have first := each x List.mem_cons_self
    have rest := ih fun y member => each y (List.mem_cons_of_mem _ member)
    simp only [List.foldlM_cons, List.mem_cons, forall_eq_or_imp, exists_eq_or_imp]
    constructor
    · intro outside bitset length
      by_cases here : inside x
      · obtain ⟨between, result, length', -⟩ := first.marked here bitset length
        rw [result]
        exact rest.fails (fun later => outside ⟨here, later⟩) between length'
      · rw [first.fails here bitset length]
        rfl
    · rintro ⟨here, later⟩ bitset length
      obtain ⟨between, result, length', bits⟩ := first.marked here bitset length
      obtain ⟨after, result', length'', bits'⟩ := rest.marked later between length'
      refine ⟨after, by rw [result]; exact result', length'', fun p => ?_⟩
      rw [bits', bits, or_assoc]

/-- Passes over regions of their own, on an empty bitset. -/
theorem Rewrites.foldlM {xs : List α}
    (each : ∀ x ∈ xs, Rewrites size (inside x) (covers x) (value x) (pass x))
    (apart : xs.Pairwise fun x y => ∀ p, covers x p → ¬ covers y p) :
    Rewrites size (∀ x ∈ xs, inside x) (fun p => ∃ x ∈ xs, covers x p)
      (fun p => ∃ x ∈ xs, covers x p ∧ value x p)
      (fun bitset => xs.foldlM (fun bitset x => pass x bitset) bitset) := by
  induction xs with
  | nil =>
    refine ⟨fun outside => absurd (by simp) outside, fun _ bitset length => ⟨bitset, rfl, length, ?_⟩⟩
    simp
  | cons x xs ih =>
    have first := each x List.mem_cons_self
    obtain ⟨fromX, apart⟩ := List.pairwise_cons.mp apart
    have rest := ih (fun y member => each y (List.mem_cons_of_mem _ member)) apart
    simp only [List.foldlM_cons, List.mem_cons, forall_eq_or_imp, exists_eq_or_imp]
    constructor
    · intro outside bitset length
      by_cases here : inside x
      · obtain ⟨between, result, length', -⟩ := first.rewritten here bitset length
        rw [result]
        exact rest.fails (fun later => outside ⟨here, later⟩) between length'
      · rw [first.fails here bitset length]
        rfl
    · rintro ⟨here, later⟩ bitset length
      obtain ⟨between, result, length', bits⟩ := first.rewritten here bitset length
      obtain ⟨after, result', length'', bits'⟩ := rest.rewritten later between length'
      refine ⟨after, by rw [result]; exact result', length'', fun p => ?_⟩
      rw [bits', bits]
      have only (mine : covers x p) : ¬ ∃ y ∈ xs, covers y p :=
        fun ⟨y, member, theirs⟩ => fromX y member p mine theirs
      constructor
      · rintro (⟨covered, found⟩ | ⟨uncovered, ⟨mine, set⟩ | ⟨notMine, old⟩⟩)
        · exact Or.inl ⟨Or.inr covered, Or.inr found⟩
        · exact Or.inl ⟨Or.inl mine, Or.inl ⟨mine, set⟩⟩
        · exact Or.inr ⟨fun either => either.elim notMine uncovered, old⟩
      · rintro (⟨-, ⟨mine, set⟩ | ⟨y, member, theirs, set⟩⟩ | ⟨uncovered, old⟩)
        · exact Or.inr ⟨only mine, Or.inl ⟨mine, set⟩⟩
        · exact Or.inl ⟨⟨y, member, theirs⟩, ⟨y, member, theirs, set⟩⟩
        · exact Or.inr ⟨fun covered => uncovered (Or.inr covered),
            Or.inr ⟨fun mine => uncovered (Or.inl mine), old⟩⟩

end BitPasses
