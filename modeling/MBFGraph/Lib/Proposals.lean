import Mathlib.Data.Finset.Card
import Mathlib.Logic.Function.Iterate
import Mathlib.Logic.Relation
import Mathlib.Order.Lattice.Nat

/-!
# Proposals along least edges

Each vertex of a finite set proposes to another one, and the one that is proposed to does not propose along a
larger edge. Where the edges are ordered totally, the two propose to each other as soon as their edges are
equal. So from every vertex the proposals lead to exactly one pair that propose to each other; its smaller
end is the root, and `depth` counts the proposals on the way.
-/

namespace Proposals

variable {V K : Type*} [LinearOrder V] [LinearOrder K]

/-- `key v` is the edge along which `v` proposes to `next v`. -/
structure AlongLeast (S : Finset V) (next : V → V) (key : V → K) : Prop where
  stays : ∀ v ∈ S, next v ∈ S
  ne_self : ∀ v ∈ S, next v ≠ v
  descends : ∀ v ∈ S, key (next v) ≤ key v
  returns : ∀ v ∈ S, key (next v) = key v → next (next v) = v

/-- The smaller end of a pair that propose to each other. -/
def IsRoot (S : Finset V) (next : V → V) (v : V) : Prop := v ∈ S ∧ next (next v) = v ∧ v < next v

instance (S : Finset V) (next : V → V) : DecidablePred (IsRoot S next) := fun _ =>
  inferInstanceAs (Decidable (_ ∧ _ ∧ _))

/-- The number of proposals up to the root. -/
noncomputable def depth (S : Finset V) (next : V → V) (v : V) : Nat :=
  sInf {n | IsRoot S next (next^[n] v)}

/-- The root that the proposals lead to. -/
noncomputable def root (S : Finset V) (next : V → V) (v : V) : V := next^[depth S next v] v

variable {S : Finset V} {next : V → V} {key : V → K}

/-- Who proposes to a root is no root. -/
theorem IsRoot.not_next {r : V} (isRoot : IsRoot S next r) : ¬ IsRoot S next (next r) := by
  rintro ⟨-, -, less⟩
  rw [isRoot.2.1] at less
  exact lt_asymm less isRoot.2.2

theorem depth_of_isRoot {r : V} (isRoot : IsRoot S next r) : depth S next r = 0 :=
  Nat.sInf_eq_zero.mpr (Or.inl isRoot)

theorem root_of_isRoot {r : V} (isRoot : IsRoot S next r) : root S next r = r := by
  unfold root
  rw [depth_of_isRoot isRoot]
  rfl

namespace AlongLeast

variable (along : AlongLeast S next key)

include along

omit [LinearOrder V] in
theorem iterate_mem {v : V} (member : v ∈ S) (n : Nat) : next^[n] v ∈ S := by
  induction n with
  | zero => exact member
  | succ n ih =>
    rw [Function.iterate_succ_apply']
    exact along.stays _ ih

/-- The proposals lead to a root: the keys become smaller until two propose to each other. -/
theorem exists_root {v : V} (member : v ∈ S) : ∃ n, IsRoot S next (next^[n] v) := by
  induction below : (S.filter fun u => key u < key v).card using Nat.strongRecOn generalizing v with
  | _ n ih =>
    rcases lt_or_eq_of_le (along.descends v member) with smaller | equal
    · have fewer : (S.filter fun u => key u < key (next v)).card < n := by
        rw [← below]
        refine Finset.card_lt_card (Finset.ssubset_iff_subset_ne.mpr ⟨fun u inside => ?_, fun same => ?_⟩)
        · rw [Finset.mem_filter] at inside ⊢
          exact ⟨inside.1, inside.2.trans smaller⟩
        · have inside : next v ∈ S.filter fun u => key u < key v :=
            Finset.mem_filter.mpr ⟨along.stays v member, smaller⟩
          rw [← same] at inside
          exact lt_irrefl _ (Finset.mem_filter.mp inside).2
      obtain ⟨m, isRoot⟩ := ih _ fewer (along.stays v member) rfl
      exact ⟨m + 1, isRoot⟩
    · have returns := along.returns v member equal
      rcases lt_or_gt_of_ne (along.ne_self v member) with less | more
      · refine ⟨1, along.stays v member, ?_, ?_⟩
        · change next (next (next v)) = next v
          rw [returns]
        · change next v < next (next v)
          rwa [returns]
      · exact ⟨0, member, returns, more⟩

theorem isRoot_root {v : V} (member : v ∈ S) : IsRoot S next (root S next v) :=
  Nat.sInf_mem (s := {n | IsRoot S next (next^[n] v)}) (along.exists_root member)

theorem depth_eq_zero_iff {v : V} (member : v ∈ S) : depth S next v = 0 ↔ IsRoot S next v := by
  refine ⟨fun zero => ?_, depth_of_isRoot⟩
  have isRoot := along.isRoot_root member
  unfold root at isRoot
  rwa [zero] at isRoot

/-- One proposal is one step to the root. -/
theorem depth_eq_succ {v : V} (member : v ∈ S) (noRoot : ¬ IsRoot S next v) :
    depth S next v = depth S next (next v) + 1 := by
  have positive : 0 < depth S next v :=
    Nat.pos_of_ne_zero fun zero => noRoot ((along.depth_eq_zero_iff member).mp zero)
  obtain ⟨d, isDepth⟩ : ∃ d, depth S next v = d + 1 := ⟨_, (Nat.succ_pred_eq_of_pos positive).symm⟩
  have atRoot := along.isRoot_root member
  unfold root at atRoot
  rw [isDepth, Function.iterate_succ_apply] at atRoot
  have le : depth S next (next v) ≤ d := Nat.sInf_le atRoot
  have atRoot' := along.isRoot_root (along.stays v member)
  unfold root at atRoot'
  rw [← Function.iterate_succ_apply] at atRoot'
  have ge : depth S next v ≤ depth S next (next v) + 1 := Nat.sInf_le atRoot'
  omega

/-- A proposal does not leave the component. -/
theorem root_next {v : V} (member : v ∈ S) : root S next (next v) = root S next v := by
  have step {u : V} (member : u ∈ S) (noRoot : ¬ IsRoot S next u) :
      root S next (next u) = root S next u := by
    have later : root S next u = next^[depth S next (next u) + 1] u := by
      unfold root
      rw [along.depth_eq_succ member noRoot]
    rw [later, Function.iterate_succ_apply]
    rfl
  by_cases isRoot : IsRoot S next v
  · have back := step (along.stays v member) isRoot.not_next
    rw [isRoot.2.1] at back
    exact back.symm
  · exact step member isRoot

theorem root_ne_of_not_isRoot {v : V} (member : v ∈ S) (noRoot : ¬ IsRoot S next v) :
    root S next v ≠ v := fun same => noRoot (same ▸ along.isRoot_root member)

/-- Every number of steps up to the depth of a vertex is the depth of one. -/
theorem exists_depth {v : V} (member : v ∈ S) {k : Nat} (le : k ≤ depth S next v) :
    ∃ u ∈ S, depth S next u = k := by
  induction isDepth : depth S next v generalizing v with
  | zero => exact ⟨v, member, by omega⟩
  | succ d ih =>
    by_cases here : k = d + 1
    · exact ⟨v, member, by omega⟩
    · have noRoot : ¬ IsRoot S next v := fun isRoot => by
        rw [depth_of_isRoot isRoot] at isDepth
        omega
      have later := along.depth_eq_succ member noRoot
      exact ih (along.stays v member) (by omega) (by omega)

theorem depth_lt_card {v : V} (member : v ∈ S) : depth S next v < S.card := by
  have inside : Finset.range (depth S next v + 1) ⊆ S.image (depth S next) := by
    intro k below
    obtain ⟨u, uMember, isDepth⟩ :=
      along.exists_depth member (Nat.lt_succ_iff.mp (Finset.mem_range.mp below))
    exact Finset.mem_image.mpr ⟨u, uMember, isDepth⟩
  have := Finset.card_le_card inside
  rw [Finset.card_range] at this
  exact Nat.lt_of_lt_of_le (Nat.lt_of_succ_le this) Finset.card_image_le

/-- Each pair has one larger and one smaller end. -/
theorem card_larger_ends : (S.filter fun v => next (next v) = v ∧ next v < v).card =
    (S.filter (IsRoot S next)).card := by
  refine Finset.card_bij' (fun v _ => next v) (fun v _ => next v) ?_ ?_ ?_ ?_
  · intro v member
    obtain ⟨inside, returns, less⟩ := Finset.mem_filter.mp member
    have isRoot : IsRoot S next (next v) :=
      ⟨along.stays v inside, by rw [returns], by rwa [returns]⟩
    exact Finset.mem_filter.mpr ⟨isRoot.1, isRoot⟩
  · intro v member
    obtain ⟨inside, -, returns, less⟩ := Finset.mem_filter.mp member
    exact Finset.mem_filter.mpr ⟨along.stays v inside, by rw [returns], by rwa [returns]⟩
  · intro v member
    exact (Finset.mem_filter.mp member).2.1
  · intro v member
    exact (Finset.mem_filter.mp member).2.2.1

end AlongLeast

/-- What the proposals join has one root. -/
theorem root_eq_of_eqvGen {r : V → V → Prop} (along : AlongLeast S next key)
    (isProposal : ∀ u v, r u v → u ∈ S ∧ next u = v) {u v : V} (joined : Relation.EqvGen r u v) :
    root S next u = root S next v := by
  induction joined with
  | rel u v proposal =>
    obtain ⟨member, rfl⟩ := isProposal u v proposal
    exact (along.root_next member).symm
  | refl u => rfl
  | symm u v _ ih => exact ih.symm
  | trans u v w _ _ ih ih' => exact ih.trans ih'

/-- A vertex and its root are joined. -/
theorem eqvGen_root {r : V → V → Prop} (along : AlongLeast S next key)
    (proposes : ∀ v ∈ S, r v (next v)) {v : V} (member : v ∈ S) :
    Relation.EqvGen r v (root S next v) := by
  have all (n : Nat) : Relation.EqvGen r v (next^[n] v) := by
    induction n with
    | zero => exact .refl v
    | succ n ih =>
      rw [Function.iterate_succ_apply']
      exact .trans _ _ _ ih (.rel _ _ (proposes _ (along.iterate_mem member n)))
  exact all _

end Proposals
