import Mathlib.SetTheory.Cardinal.Finite
import Mathlib.Data.Fintype.Card
import Mathlib.Logic.Relation

/-!
# Components and their labels

The components of a graph on the numbers below `n`, given by a list of edges. A labelling that
agrees along the edges, and gives every number a label of its own component, has as many fixed
points as there are components.
-/

namespace Components

/-- The edges, as a relation on the numbers below `n`. -/
def Edge (edges : List (Nat × Nat)) (n : Nat) (u v : Fin n) : Prop := (u.val, v.val) ∈ edges

/-- The same component. -/
def Connected (edges : List (Nat × Nat)) : Nat → Nat → Prop :=
  Relation.EqvGen fun u v => (u, v) ∈ edges

/-- The number of components. -/
noncomputable def count (edges : List (Nat × Nat)) (n : Nat) : Nat := Nat.card (Quot (Edge edges n))

variable {edges : List (Nat × Nat)} {n u v : Nat}

theorem Connected.lt_iff (inside : ∀ e ∈ edges, e.1 < n ∧ e.2 < n) (connected : Connected edges u v) :
    u < n ↔ v < n := by
  induction connected with
  | rel u v edge => exact iff_of_true (inside _ edge).1 (inside _ edge).2
  | refl u => exact Iff.rfl
  | symm u v _ ih => exact ih.symm
  | trans u v w _ _ ih ih' => exact ih.trans ih'

/-- Connected vertices are the same in the quotient. -/
theorem Connected.quot_eq (inside : ∀ e ∈ edges, e.1 < n ∧ e.2 < n)
    (connected : Connected edges u v) (hu : u < n) (hv : v < n) :
    Quot.mk (Edge edges n) ⟨u, hu⟩ = Quot.mk (Edge edges n) ⟨v, hv⟩ := by
  induction connected with
  | rel u v edge => exact Quot.sound edge
  | refl u => rfl
  | symm u v _ ih => exact (ih hv hu).symm
  | trans u v w first _ ih ih' =>
    have between := (Connected.lt_iff inside first).mp hu
    exact (ih hu between).trans (ih' between hv)

/-- A labelling that agrees along the edges agrees on a component. -/
theorem Connected.label_eq {α : Type*} (label : Nat → α)
    (agrees : ∀ e ∈ edges, label e.1 = label e.2) (connected : Connected edges u v) :
    label u = label v := by
  induction connected with
  | rel u v edge => exact agrees _ edge
  | refl u => rfl
  | symm u v _ ih => exact ih.symm
  | trans u v w _ _ ih ih' => exact ih.trans ih'

/-- Every component has one label that is its own label. -/
theorem card_quot_eq {r : Fin n → Fin n → Prop} (label : Fin n → Fin n)
    (agrees : ∀ u v, r u v → label u = label v)
    (own : ∀ v, Quot.mk r (label v) = Quot.mk r v) :
    Nat.card (Quot r) = (Finset.univ.filter fun v => label v = v).card := by
  have idem : ∀ v, label (label v) = label v := fun v =>
    congrArg (Quot.lift label agrees) (own v)
  have equiv : Quot r ≃ {v : Fin n // label v = v} :=
    { toFun := Quot.lift (fun v => ⟨label v, idem v⟩) fun u v edge => Subtype.ext (agrees u v edge)
      invFun := fun v => Quot.mk r v.1
      left_inv := fun q => by
        induction q using Quot.ind with
        | mk v => exact own v
      right_inv := fun v => Subtype.ext v.2 }
  rw [Nat.card_congr equiv, Nat.card_eq_fintype_card, Fintype.card_subtype]

/-- The number of components is the number of fixed points of a labelling. -/
theorem count_eq {label : Nat → Nat} (inside : ∀ e ∈ edges, e.1 < n ∧ e.2 < n)
    (agrees : ∀ e ∈ edges, label e.1 = label e.2)
    (own : ∀ v < n, Connected edges (label v) v) :
    count edges n = ((Finset.range n).filter fun v => label v = v).card := by
  have labelLt : ∀ v < n, label v < n := fun v hv => ((own v hv).lt_iff inside).mpr hv
  have card := card_quot_eq (r := Edge edges n) (fun v => ⟨label v, labelLt v v.2⟩)
    (fun u v edge => Fin.ext (agrees _ edge))
    (fun v => (own v v.2).quot_eq inside (labelLt v v.2) v.2)
  unfold count
  rw [card]
  refine Finset.card_bij (fun v _ => v.1) ?_ ?_ ?_
  · intro v member
    rw [Finset.mem_filter] at member ⊢
    exact ⟨Finset.mem_range.mpr v.2, congrArg Fin.val member.2⟩
  · intro u _ v _ same
    exact Fin.ext same
  · intro v member
    rw [Finset.mem_filter, Finset.mem_range] at member
    exact ⟨⟨v, member.1⟩, Finset.mem_filter.mpr ⟨Finset.mem_univ _, Fin.ext member.2⟩, rfl⟩

end Components
