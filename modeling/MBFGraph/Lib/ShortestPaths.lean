import MBFGraph.Lib.Relaxation
import Mathlib.Algebra.Order.Monoid.WithTop
import Mathlib.Data.Prod.Lex

/-!
# Shortest paths

Walks in a graph whose edges have weights, and two relaxation problems: distances from one source
(`fromSource`), and the smallest root of every vertex together with the distance from it
(`fromRoots`). What relaxation leaves behind is put in terms of walks.
-/

namespace ShortestPaths

open Relaxation

variable {W : Type}

/-- A walk and its weight. An edge is a source, a destination and a weight. -/
inductive Walk [Add W] [Zero W] (edges : List (Nat × Nat × W)) (u : Nat) : W → Nat → Prop
  | nil : Walk edges u 0 u
  | snoc {d x : W} {v w : Nat} (walk : Walk edges u d v) (edge : (v, w, x) ∈ edges) :
      Walk edges u (d + x) w

/-- There is a walk. -/
def Reachable [Add W] [Zero W] (edges : List (Nat × Nat × W)) (u v : Nat) : Prop :=
  ∃ d, Walk edges u d v

/-- The weight of a shortest walk, and `⊤` where there is none. -/
structure IsDistance [Add W] [Zero W] [LE W] (edges : List (Nat × Nat × W)) (u v : Nat)
    (d : WithTop W) : Prop where
  least : ∀ q : W, d = q → IsLeast {x | Walk edges u x v} q
  unreachable : d = ⊤ → ¬ Reachable edges u v

section Walks

variable [AddCommMonoid W] {edges : List (Nat × Nat × W)} {n source : Nat}

/-- A walk to a vertex begins in one. -/
theorem Walk.start_lt {u v : Nat} {d : W} (inside : ∀ e ∈ edges, e.1 < n) (walk : Walk edges u d v)
    (known : v < n) : u < n := by
  induction walk with
  | nil => exact known
  | snoc _ edge ih => exact ih (inside _ edge)

/-- Distances from a source. -/
def fromSource (edges : List (Nat × Nat × W)) (n source : Nat) :
    Problem Nat (Nat × W) (WithTop W) where
  known v := v < n
  edges := edges
  head := Prod.fst
  carry x d := d + x.2
  first v := if v = source then 0 else ⊤

/-- What is brought is the weight of a walk, or nothing. -/
theorem walk_of_brings {k v : Nat} {d : WithTop W} (brings : Brings (fromSource edges n source) k v d) :
    d = ⊤ ∨ ∃ q : W, d = q ∧ Walk edges source q v := by
  induction brings with
  | @first v known =>
    by_cases isSource : v = source
    · right
      refine ⟨0, ?_, isSource ▸ .nil⟩
      simp only [fromSource, isSource, if_true, WithTop.coe_zero]
    · left
      simp only [fromSource, isSource, if_false]
  | @along k e l _ edge ih =>
    rcases ih with rfl | ⟨q, rfl, walk⟩
    · exact .inl (WithTop.top_add _)
    · exact .inr ⟨q + e.2.2, rfl, walk.snoc edge⟩

theorem brings_of_walk {q : W} {v : Nat} (known : source < n) (walk : Walk edges source q v) :
    ∃ k, Brings (fromSource edges n source) k v q := by
  induction walk with
  | nil =>
    refine ⟨0, ?_⟩
    have first : (fromSource edges n source).first source = ((0 : W) : WithTop W) := if_pos rfl
    rw [← first]
    exact .first known
  | @snoc d x v w walk edge ih =>
    obtain ⟨k, brings⟩ := ih
    exact ⟨k + 1, Brings.along (e := (v, w, x)) brings edge⟩

/-- The smallest vertex from which a vertex is reached, and the distance from there. -/
def fromRoots (edges : List (Nat × Nat × W)) (n : Nat) : Problem Nat (Nat × W) (Nat ×ₗ W) where
  known v := v < n
  edges := edges
  head := Prod.fst
  carry x l := toLex ((ofLex l).1, (ofLex l).2 + x.2)
  first v := toLex (v, 0)

theorem brings_fromRoots_iff {v r : Nat} {d : W} :
    (∃ k, Brings (fromRoots edges n) k v (toLex (r, d))) ↔ r < n ∧ Walk edges r d v := by
  constructor
  · rintro ⟨k, brings⟩
    generalize isLabel : toLex (r, d) = l at brings
    induction brings generalizing r d with
    | @first v known =>
      obtain ⟨rfl, rfl⟩ := Prod.mk.inj (toLex.injective isLabel)
      exact ⟨known, .nil⟩
    | @along k e l _ edge ih =>
      obtain ⟨rfl, rfl⟩ := Prod.mk.inj (toLex.injective isLabel)
      obtain ⟨known, walk⟩ := ih rfl
      exact ⟨known, walk.snoc edge⟩
  · rintro ⟨known, walk⟩
    induction walk with
    | nil => exact ⟨0, .first known⟩
    | @snoc d x v w walk edge ih =>
      obtain ⟨k, brings⟩ := ih
      exact ⟨k + 1, Brings.along (e := (v, w, x)) brings edge⟩

end Walks

section Order

variable [AddCommMonoid W] [LinearOrder W] {edges : List (Nat × Nat × W)} {n source : Nat}

theorem IsDistance.unique {u v : Nat} {d d' : WithTop W} (dist : IsDistance edges u v d)
    (dist' : IsDistance edges u v d') : d = d' := by
  cases d with
  | top =>
    cases d' with
    | top => rfl
    | coe q => exact absurd ⟨q, (dist'.least q rfl).1⟩ (dist.unreachable rfl)
  | coe q =>
    cases d' with
    | top => exact absurd ⟨q, (dist.least q rfl).1⟩ (dist'.unreachable rfl)
    | coe q' => rw [(dist.least q rfl).unique (dist'.least q' rfl)]

/-- The best label is the distance. -/
theorem isDistance_of_isLeast {v : Nat} {d : WithTop W} (known : source < n)
    (least : IsLeast {b | ∃ j, Brings (fromSource edges n source) j v b} d) :
    IsDistance edges source v d where
  least q isLabel := by
    subst isLabel
    obtain ⟨j, brings⟩ := least.1
    constructor
    · rcases walk_of_brings brings with isTop | ⟨q', same, walk⟩
      · exact absurd isTop (WithTop.coe_ne_top)
      · rw [WithTop.coe_inj.mp same]
        exact walk
    · intro x walk
      exact WithTop.coe_le_coe.mp (least.2 (brings_of_walk known walk))
  unreachable isTop := by
    rintro ⟨q, walk⟩
    have le := least.2 (brings_of_walk known walk)
    rw [isTop, top_le_iff] at le
    exact WithTop.coe_ne_top le

/-- The best label is the smallest root and the distance from it. -/
theorem isLeast_of_isLeast {v r : Nat} {d : W}
    (least : IsLeast {b | ∃ j, Brings (fromRoots edges n) j v b} (toLex (r, d))) :
    IsLeast {u | u < n ∧ Reachable edges u v} r ∧ IsLeast {x | Walk edges r x v} d := by
  obtain ⟨known, walk⟩ := brings_fromRoots_iff.mp least.1
  refine ⟨⟨⟨known, d, walk⟩, ?_⟩, walk, ?_⟩
  · rintro u ⟨other, x, walk'⟩
    rcases Prod.Lex.le_iff.mp (least.2 (brings_fromRoots_iff.mpr ⟨other, walk'⟩)) with less | same
    · exact less.le
    · exact same.1.le
  · intro x walk'
    rcases Prod.Lex.le_iff.mp (least.2 (brings_fromRoots_iff.mpr ⟨known, walk'⟩)) with less | same
    · exact absurd less (lt_irrefl r)
    · exact same.2

variable [IsOrderedAddMonoid W]

theorem fromSource_mono (x : Nat × W) : Monotone ((fromSource edges n source).carry x) :=
  fun _ _ le => add_le_add_left le _

theorem fromSource_le (nonneg : ∀ e ∈ edges, 0 ≤ e.2.2) :
    ∀ e ∈ (fromSource edges n source).edges, ∀ d, d ≤ (fromSource edges n source).carry e.2 d :=
  fun e edge _ => le_add_of_nonneg_right (WithTop.coe_nonneg.mpr (nonneg e edge))

theorem fromRoots_mono (x : Nat × W) : Monotone ((fromRoots edges n).carry x) := by
  intro a b le
  rcases Prod.Lex.le_iff.mp le with less | ⟨same, le⟩
  · exact Prod.Lex.le_iff.mpr (.inl less)
  · exact Prod.Lex.le_iff.mpr (.inr ⟨same, add_le_add_left le _⟩)

theorem fromRoots_le (nonneg : ∀ e ∈ edges, 0 ≤ e.2.2) :
    ∀ e ∈ (fromRoots edges n).edges, ∀ l, l ≤ (fromRoots edges n).carry e.2 l :=
  fun e edge _ => Prod.Lex.le_iff.mpr (.inr ⟨rfl, le_add_of_nonneg_right (nonneg e edge)⟩)

end Order

end ShortestPaths
