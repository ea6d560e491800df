import MBFGraph.UpdateUtility.Proofs.ExternalMerge
import MBFGraph.UpdateUtility.Proofs.MBFSort

/-!
# External sorting, proved

What `split` collects is sorted, and `merge` makes one file of it. As `operator<` of MBFSort is total on distinct
edges, its output does not depend on the schedule, the memory or the library.
-/

namespace MBFGraph

namespace ExternalSort

open KWayMerge NondetLoop

section

variable {α : Type} {comp : α → α → Bool} {params : MergeParams}

variable {capacity : Nat}

theorem sorted_blocks (sort : StdSort comp) (positive : 0 < capacity) (file : List α) :
    (∀ run ∈ (inputLoop capacity (file.length + 1) file).map sort.sort, Sorted comp run ∧ run ≠ []) ∧
      ((inputLoop capacity (file.length + 1) file).map sort.sort).flatten.Perm file := by
  obtain ⟨whole, nonempty⟩ := inputLoop_spec positive (Nat.lt_succ_self file.length)
  constructor
  · intro run member
    obtain ⟨block, isBlock, rfl⟩ := List.mem_map.mp member
    refine ⟨sort.sorted block, fun empty => nonempty block isBlock ?_⟩
    have perm := sort.perm block
    rw [empty] at perm
    exact perm.nil_eq.symm
  · have each (blocks : List (List α)) : (blocks.map sort.sort).flatten.Perm blocks.flatten := by
      induction blocks with
      | nil => exact List.Perm.refl _
      | cons block blocks ih =>
        rw [List.map_cons, List.flatten_cons, List.flatten_cons]
        exact (sort.perm block).append ih
    exact (each _).trans (List.Perm.of_eq whole)

variable [Inhabited α]

/-- If no thread of `split` ends between the two reads, the output has all records. -/
theorem sort_calm (weak : StrictWeak comp) (sort : StdSort comp) (heaps : StdHeap Nat) (two : 2 ≤ params.kmerge)
    (one : 1 ≤ params.merges) (positive : 0 < capacity) (file : List α) :
    AlwaysEnds (CalmStep comp sort) (fun sp => sp.pc = .closed)
      (fun sp => AlwaysEnds (MergeStep comp params heaps) (fun mp => mp.pc = .ended) (Merged comp file)
        (mergeStart sp.ofiles))
      (splitStart (inputLoop capacity (file.length + 1) file)) := by
  obtain ⟨runs, content⟩ := sorted_blocks sort positive file
  refine (split_calm sort _).mono fun sp collected => ?_
  exact merge_ends weak heaps two one (fun run member => runs run (collected.subset member))
    (collected.flatten.trans content)

/-- Whatever `split` leaves behind, the output is sorted, and has no record that is not in the input. -/
theorem sort_ends (weak : StrictWeak comp) (sort : StdSort comp) (heaps : StdHeap Nat) (two : 2 ≤ params.kmerge)
    (one : 1 ≤ params.merges) (positive : 0 < capacity) (file : List α) :
    AlwaysEnds (SplitStep comp sort) (fun sp => sp.pc = .closed)
      (fun sp => AlwaysEnds (MergeStep comp params heaps) (fun mp => mp.pc = .ended)
        (fun mp => ∀ out, mergeResult mp = .ok out → Sorted comp out ∧ out.Subperm file) (mergeStart sp.ofiles))
      (splitStart (inputLoop capacity (file.length + 1) file)) := by
  obtain ⟨runs, content⟩ := sorted_blocks sort positive file
  refine (split_ends sort _).mono fun sp ended => ?_
  obtain ⟨-, files⟩ := ended
  have within : sp.ofiles.flatten.Subperm file := by
    have all := files.flatten.trans content
    rw [List.flatten_append] at all
    exact (List.sublist_append_left _ _).subperm.trans all.subperm
  have merges := merge_ends weak heaps two one
    (fun run member => runs run (files.subset (List.mem_append_left _ member))) (List.Perm.refl sp.ofiles.flatten)
  refine merges.mono fun mp merged out result => ?_
  by_cases none_ : sp.ofiles.flatten = []
  · rw [merged.1 none_] at result
    exact absurd result (by simp)
  · obtain ⟨file', result', sorted, perm⟩ := merged.2 none_
    obtain rfl : file' = out := Except.ok.inj (result'.symm.trans result)
    exact ⟨sorted, perm.subperm.trans within⟩

end

/-! ## MBFSort -/

variable {bloomSetBits : Nat} {params : MergeParams}

theorem less_weak : StrictWeak (SimpleEdge.less bloomSetBits) := by
  constructor
  · intro A B less
    rw [← Bool.not_eq_true, SimpleEdge.less_iff] at *
    exact lt_asymm less
  · intro A B C
    simp only [← Bool.not_eq_true, SimpleEdge.less_iff, not_lt]
    exact fun first second => second.trans first

/-- The edges in the order of MBFSort. -/
def sortedEdges (bloomSetBits : Nat) (file : List SimpleEdge) : List SimpleEdge :=
  file.insertionSort fun A B => SimpleEdge.less bloomSetBits B A = false

theorem sorted_sortedEdges (file : List SimpleEdge) :
    Sorted (SimpleEdge.less bloomSetBits) (sortedEdges bloomSetBits file) := by
  have total : Std.Total fun A B => SimpleEdge.less bloomSetBits B A = false :=
    ⟨fun A B => less_weak.total B A⟩
  have trans : IsTrans SimpleEdge fun A B => SimpleEdge.less bloomSetBits B A = false :=
    ⟨fun A B C first second => less_weak.negTrans C B A second first⟩
  exact List.pairwise_insertionSort _ file

/-- There is only one way to sort edges. -/
theorem eq_sortedEdges {file out : List SimpleEdge} (sorted : Sorted (SimpleEdge.less bloomSetBits) out)
    (perm : out.Perm file) : out = sortedEdges bloomSetBits file := by
  refine List.Perm.eq_of_pairwise ?_ sorted (sorted_sortedEdges file)
    (perm.trans (List.perm_insertionSort _ file).symm)
  intro A B _ _ first second
  rw [← Bool.not_eq_true, SimpleEdge.less_iff, not_lt] at first second
  exact SimpleEdge.key_injective (le_antisymm first second)

/-- A `std::sort` for edges. -/
def edgeSort (bloomSetBits : Nat) : StdSort (SimpleEdge.less bloomSetBits) where
  sort := sortedEdges bloomSetBits
  sorted := sorted_sortedEdges
  perm l := List.perm_insertionSort _ l

/-- The values of `MergeParams` that `main` leaves as they are. -/
def defaultParams : MergeParams := ⟨4, 4⟩

end ExternalSort

end MBFGraph
