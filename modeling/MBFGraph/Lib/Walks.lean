import Mathlib.Data.Nat.Find
import Mathlib.Data.Finset.Card
import Mathlib.Data.Finset.Range

/-!
# Walks and distances

Walks in a directed graph that is given by a list of edges, and the length of a shortest walk.
-/

namespace Walks

variable {V : Type*}

/-- A walk of the given length. -/
inductive Walk (edges : List (V × V)) (u : V) : Nat → V → Prop
  | nil : Walk edges u 0 u
  | snoc {d : Nat} {v w : V} (walk : Walk edges u d v) (edge : (v, w) ∈ edges) :
      Walk edges u (d + 1) w

/-- There is a walk. -/
def Reachable (edges : List (V × V)) (u v : V) : Prop := ∃ d, Walk edges u d v

/-- A shortest walk has this length. -/
structure Dist (edges : List (V × V)) (u v : V) (d : Nat) : Prop where
  walk : Walk edges u d v
  least : ∀ d', Walk edges u d' v → d ≤ d'

variable {edges : List (V × V)} {u v w : V} {d : Nat}

theorem dist_self : Dist edges u u 0 := ⟨.nil, fun _ _ => Nat.zero_le _⟩

theorem Dist.unique {d' : Nat} (dist : Dist edges u v d) (dist' : Dist edges u v d') : d = d' :=
  Nat.le_antisymm (dist.least d' dist'.walk) (dist'.least d dist.walk)

theorem Walk.exists_dist (walk : Walk edges u d v) : ∃ d' ≤ d, Dist edges u v d' := by
  classical
  have some_ : ∃ d, Walk edges u d v := ⟨d, walk⟩
  exact ⟨Nat.find some_, Nat.find_min' some_ walk, Nat.find_spec some_,
    fun d' => Nat.find_min' some_⟩

theorem Dist.eq_of_zero (dist : Dist edges u v 0) : v = u := by
  cases dist.walk
  rfl

/-- The last edge of a shortest walk. -/
theorem Dist.exists_last (dist : Dist edges u w (d + 1)) :
    ∃ v, Dist edges u v d ∧ (v, w) ∈ edges := by
  cases dist.walk with
  | @snoc _ v _ walk edge =>
    refine ⟨v, ⟨walk, fun d' walk' => ?_⟩, edge⟩
    have := dist.least (d' + 1) (walk'.snoc edge)
    omega

/-- An edge leads at most one level further. -/
theorem Dist.exists_next (dist : Dist edges u v d) (edge : (v, w) ∈ edges) :
    ∃ d' ≤ d + 1, Dist edges u w d' :=
  (dist.walk.snoc edge).exists_dist

/-- No level is left out. -/
theorem Dist.exists_of_le {d' : Nat} (dist : Dist edges u v d) (le : d' ≤ d) :
    ∃ w, Dist edges u w d' := by
  induction d generalizing v with
  | zero => exact ⟨v, Nat.le_zero.mp le ▸ dist⟩
  | succ d ih =>
    rcases Nat.le_succ_iff.mp le with less | rfl
    · obtain ⟨w, before, _⟩ := dist.exists_last
      exact ih before less
    · exact ⟨v, dist⟩

/-- A set that the edges do not leave. -/
theorem Walk.mem_of_closed {closed : V → Prop} (first : closed u)
    (step : ∀ v w, closed v → (v, w) ∈ edges → closed w) (walk : Walk edges u d v) : closed v := by
  induction walk with
  | nil => exact first
  | snoc _ edge ih => exact step _ _ ih edge

/-- Walks stay among the vertices. -/
theorem Walk.lt_of_inside {edges : List (Nat × Nat)} {u v d n : Nat} (first : u < n)
    (inside : ∀ e ∈ edges, e.2 < n) (walk : Walk edges u d v) : v < n := by
  cases walk with
  | nil => exact first
  | snoc _ edge => exact inside _ edge

/-- Shortest walks are shorter than the number of vertices. -/
theorem Dist.lt_of_inside {edges : List (Nat × Nat)} {u v d n : Nat} (dist : Dist edges u v d)
    (inside : ∀ w j, Dist edges u w j → w < n) : d < n := by
  choose! level isLevel using fun j (le : j ≤ d) => dist.exists_of_le le
  have card := Finset.card_le_card_of_injOn level (s := Finset.range (d + 1)) (t := Finset.range n)
    (fun j member => by
      have le := Nat.lt_succ_iff.mp (Finset.mem_range.mp (Finset.mem_coe.mp member))
      exact Finset.mem_coe.mpr (Finset.mem_range.mpr (inside _ j (isLevel j le))))
    (fun i memberI j memberJ same => by
      have leI := Nat.lt_succ_iff.mp (Finset.mem_range.mp (Finset.mem_coe.mp memberI))
      have leJ := Nat.lt_succ_iff.mp (Finset.mem_range.mp (Finset.mem_coe.mp memberJ))
      have onLevel := isLevel j leJ
      rw [← same] at onLevel
      exact (isLevel i leI).unique onLevel)
  rw [Finset.card_range, Finset.card_range] at card
  exact card

end Walks
