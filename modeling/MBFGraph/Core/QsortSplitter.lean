import MBFGraph.Core.Autotuner
import MBFGraph.Core.XSplitter

/-!
# The quicksort splitter

`x_split_qsort` (`x-splitter.hpp:224-276`), which `make_index` runs instead of `x_split` if there is the
option `qsort`. Positions count records, as for `x_split`. What `qsort` leaves is an argument.
-/

namespace MBFGraph

open Overwrite

/-- `M` of the splitters, with the number of partitions that goes with it. -/
structure PartitionMap where
  partitions : Nat
  map : Nat → Nat
  partitions_pow : ∃ k, partitions = 2 ^ k
  map_lt : ∀ key, map key < partitions

/-- `map_super_partition_wrap`. -/
def Mapping.superPartitionWrap (m : Mapping) : PartitionMap :=
  ⟨m.superPartitions, m.mapSuperPartition, m.superPartitions_pow, m.mapSuperPartition_lt⟩

/-- `map_cached_partition_wrap`. -/
def Mapping.cachedPartitionWrap (m : Mapping) : PartitionMap :=
  ⟨m.cachedPartitions, m.mapCachedPartition, m.cachedPartitions_pow, m.mapCachedPartition_lt⟩

section Qsort

variable {α : Type} (key : α → Nat) (qsortKeys : Nat)

/-- `qsort_compare`. -/
def qsortCompare (left right : α) : Int :=
  let keyLeft := key left &&& (qsortKeys - 1)
  let keyRight := key right &&& (qsortKeys - 1)
  if keyLeft < keyRight then -1 else if keyLeft = keyRight then 0 else 1

/-- What `qsort` may leave of some records. -/
structure Qsorted (records sorted : List α) : Prop where
  perm : sorted.Perm records
  ascending : sorted.Pairwise fun left right => qsortCompare key qsortKeys left right ≤ 0

/-- `x_split_qsort` on `items` records of the buffer, of which `qsort` leaves `sorted`. -/
def xSplitQsort [Inhabited α] (items : Nat) (sorted : List α) (buffer : List α) (index : Nat → Nat)
    (workq : List Nat) : List α × (Nat → Nat) × List Nat :=
  if qsortKeys = 1 then (buffer, index, if 0 < items then queue workq 0 else workq)
  else
    let buffer := overwrite buffer (index 0) sorted
    let outputBase := index 0
    let counts := sorted.foldl (fun index record =>
      let outputId := key record &&& (qsortKeys - 1)
      Function.update index outputId (index outputId + 1)) (Function.update index 0 0)
    let placed := placeOutputs true (List.range qsortKeys) (counts, outputBase, workq)
    (buffer, placed.1, placed.2.2)

end Qsort

/-- The records of partition `i` of a slice with `items` records, as `get_substream` finds them. -/
def partitionRange {α : Type} (partitions items : Nat) (buffer : List α) (index : Nat → Nat)
    (i : Nat) : List α :=
  (buffer.drop (index i)).take
    ((if i < partitions - 1 then index (i + 1) else items + index 0) - index i)

/-- The slice of a processor in front of a splitter, behind `reset_index`. -/
structure Slice {α : Type} (base items : Nat) (st : SplitState α) : Prop where
  index : ∀ i, st.inIndex i = if i = 0 then base else 0
  auxIndex : ∀ i, st.outIndex i = 0
  inside : base + items ≤ st.inBuffer.length
  auxInside : base + items ≤ st.outBuffer.length

end MBFGraph
