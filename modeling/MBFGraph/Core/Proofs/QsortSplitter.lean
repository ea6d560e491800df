import MBFGraph.Core.Proofs.Partition
import MBFGraph.Core.QsortSplitter

/-!
# The two splitters agree

Both leave the prefix sums over the buckets of the slice as the index, and in each range a permutation of
the bucket (`LeavesBuckets`).
-/

namespace MBFGraph

open Overwrite CountingSort

section

variable {α : Type} {key : α → Nat} {k base : Nat} {records sorted : List α}

/-- What a splitter has left of the records of a slice. -/
structure LeavesBuckets (key : α → Nat) (partitions base : Nat) (records : List α) (workq : List Nat)
    (buffer : List α) (index : Nat → Nat) (workq' : List Nat) : Prop where
  index : ∀ i < partitions, index i = base + place key records 0 i
  pieces : ∀ i < partitions, ((buffer.drop (base + place key records 0 i)).take
    (bucket key records i).length).Perm (bucket key records i)
  mem_workq : ∀ j, j ∈ workq' ↔ j ∈ workq ∨ j < partitions ∧ bucket key records j ≠ []

/-- The ranges of the partitions are the pieces. -/
theorem LeavesBuckets.range {workq workq' : List Nat} {buffer : List α} {index : Nat → Nat}
    (leaves : LeavesBuckets key (2 ^ k) base records workq buffer index workq')
    (keys : ∀ r ∈ records, key r < 2 ^ k) {i : Nat} (below : i < 2 ^ k) :
    (partitionRange (2 ^ k) records.length buffer index i).Perm (bucket key records i) := by
  have next := place_succ (f := key) records 0 i
  rw [Nat.zero_add] at next
  have size : (if i < 2 ^ k - 1 then index (i + 1) else records.length + index 0) - index i =
      (bucket key records i).length := by
    have start := leaves.index 0 (Nat.two_pow_pos k)
    rw [place_zero] at start
    rw [leaves.index i below, start]
    split
    · rw [leaves.index (i + 1) (by omega)]
      omega
    · have all : place key records 0 (i + 1) = records.length :=
        place_eq_length fun r member => ⟨Nat.zero_le _, by have := keys r member; omega⟩
      omega
  unfold partitionRange
  rw [size, leaves.index i below]
  exact leaves.pieces i below

/-- What two splitters leave of the same slice. -/
theorem LeavesBuckets.agree {workq workq₁ workq₂ : List Nat} {buffer₁ buffer₂ : List α}
    {index₁ index₂ : Nat → Nat} (first : LeavesBuckets key (2 ^ k) base records workq buffer₁ index₁ workq₁)
    (second : LeavesBuckets key (2 ^ k) base records workq buffer₂ index₂ workq₂)
    (keys : ∀ r ∈ records, key r < 2 ^ k) :
    (∀ i < 2 ^ k, index₁ i = index₂ i) ∧
      (∀ i < 2 ^ k, (partitionRange (2 ^ k) records.length buffer₁ index₁ i).Perm
        (partitionRange (2 ^ k) records.length buffer₂ index₂ i)) ∧
      ∀ j, j ∈ workq₁ ↔ j ∈ workq₂ := by
  refine ⟨fun i below => ?_, fun i below => ?_, fun j => ?_⟩
  · rw [first.index i below, second.index i below]
  · exact (first.range keys below).trans (second.range keys below).symm
  · rw [first.mem_workq, second.mem_workq]

theorem SplitInto.leavesBuckets {st st' : SplitState α}
    (into : SplitInto key base records (2 ^ k) st st') :
    LeavesBuckets key (2 ^ k) base records st.workq st'.inBuffer st'.inIndex st'.workq :=
  ⟨into.index, fun i below => (into.pieces i below).symm ▸ List.Perm.refl _, into.mem_workq⟩

theorem unmasked {n : Nat} (below : n < 2 ^ k) : n &&& (2 ^ k - 1) = n := by
  rw [Nat.and_two_pow_sub_one_eq_mod, Nat.mod_eq_of_lt below]

/-- A permutation has the same buckets, but for their order. -/
theorem bucket_perm (perm : sorted.Perm records) (i : Nat) :
    (bucket key sorted i).Perm (bucket key records i) := perm.filter _

theorem place_perm (perm : sorted.Perm records) (t : Nat) :
    place key sorted 0 t = place key records 0 t := by
  unfold place
  congr 1
  refine List.map_congr_left fun i _ => ?_
  rw [(bucket_perm perm (0 + i)).length_eq]

/-- By what the comparison says the keys do not fall. -/
theorem Qsorted.keys_ascending (qsorted : Qsorted key (2 ^ k) records sorted)
    (keys : ∀ r ∈ records, key r < 2 ^ k) : sorted.Pairwise fun x y => key x ≤ key y := by
  refine qsorted.ascending.imp_of_mem fun {x y} memberX memberY le => ?_
  unfold qsortCompare at le
  rw [unmasked (keys x (qsorted.perm.mem_iff.mp memberX)),
    unmasked (keys y (qsorted.perm.mem_iff.mp memberY))] at le
  dsimp only at le
  split at le
  · omega
  · split at le
    · omega
    · contradiction

/-- `x_split_qsort` on the records of a slice. -/
theorem leavesBuckets_xSplitQsort [Inhabited α] (qsorted : Qsorted key (2 ^ k) records sorted)
    (keys : ∀ r ∈ records, key r < 2 ^ k) {buffer : List α} {index : Nat → Nat}
    (isIndex : ∀ i, index i = if i = 0 then base else 0)
    (piece : (buffer.drop base).take records.length = records)
    (inside : base + records.length ≤ buffer.length) (workq : List Nat) :
    LeavesBuckets key (2 ^ k) base records workq
      (xSplitQsort key (2 ^ k) records.length sorted buffer index workq).1
      (xSplitQsort key (2 ^ k) records.length sorted buffer index workq).2.1
      (xSplitQsort key (2 ^ k) records.length sorted buffer index workq).2.2 := by
  have start := isIndex 0
  rw [if_pos rfl] at start
  unfold xSplitQsort
  split
  · rename_i one
    have all : bucket key records 0 = records := by
      refine List.filter_eq_self.mpr fun r member => ?_
      have below := keys r member
      rw [one] at below
      exact decide_eq_true (Nat.lt_one_iff.mp below)
    rw [one]
    refine ⟨fun i below => ?_, fun i below => ?_, fun j => ?_⟩
    · obtain rfl : i = 0 := Nat.lt_one_iff.mp below
      exact start
    · obtain rfl : i = 0 := Nat.lt_one_iff.mp below
      rw [all, place_zero, Nat.add_zero, piece]
    · rw [Nat.lt_one_iff]
      dsimp only
      split
      · rename_i some_
        rw [mem_queue]
        constructor
        · rintro (rfl | queued)
          · exact Or.inr ⟨rfl, by rw [all]; exact List.ne_nil_of_length_pos some_⟩
          · exact Or.inl queued
        · rintro (queued | ⟨rfl, -⟩)
          · exact Or.inr queued
          · exact Or.inl rfl
      · rename_i empty
        have nothing : records = [] := List.length_eq_zero_iff.mp (by omega)
        simp [nothing, bucket]
  · have keys' : ∀ r ∈ sorted, key r < 2 ^ k := fun r member => keys r (qsorted.perm.mem_iff.mp member)
    have same (j : Nat) : bucket (fun r => key r &&& (2 ^ k - 1)) sorted j = bucket key sorted j :=
      List.filter_congr fun r member => by simp only [unmasked (keys' r member)]
    have numbers : (List.range (2 ^ k)).map (fun t => 0 + t) = List.range (2 ^ k) := by simp
    have length : sorted.length = records.length := qsorted.perm.length_eq
    have counted : ∀ t < 2 ^ k, (sorted.foldl (fun index record =>
        Function.update index (key record &&& (2 ^ k - 1)) (index (key record &&& (2 ^ k - 1)) + 1))
          (Function.update index 0 0)) (0 + t) = (bucket key sorted (0 + t)).length := by
      intro t _
      rw [foldl_count, same]
      by_cases isFirst : 0 + t = 0
      · rw [isFirst, Function.update_self, Nat.zero_add]
      · rw [Function.update_of_ne isFirst, isIndex, if_neg isFirst, Nat.zero_add]
    have placed := placed_placeOutputs true base workq (2 ^ k) counted
    rw [numbers] at placed
    rw [start]
    refine ⟨fun i below => ?_, fun i below => ?_, fun j => ?_⟩
    · have here := placed.index i below
      rw [Nat.zero_add, place_perm qsorted.perm] at here
      exact here
    · have room := place_le_length (f := key) sorted 0 (i + 1)
      rw [place_succ] at room
      have sortedPiece := piece_of_sorted (qsorted.keys_ascending keys) (fun _ _ => Nat.zero_le _) i
      rw [Nat.zero_add] at room sortedPiece
      rw [← (bucket_perm qsorted.perm i).length_eq, ← place_perm qsorted.perm,
        piece_overwrite (by omega) room, sortedPiece]
      exact bucket_perm qsorted.perm i
    · refine (placed.mem_workq j).trans (or_congr_right ?_)
      have nonempty : bucket key sorted j ≠ [] ↔ bucket key records j ≠ [] := by
        rw [Ne, Ne, ← List.length_eq_zero_iff, ← List.length_eq_zero_iff,
          (bucket_perm qsorted.perm j).length_eq]
      rw [nonempty]
      constructor
      · rintro ⟨-, t, below, rfl, some_⟩
        rw [Nat.zero_add] at some_ ⊢
        exact ⟨below, some_⟩
      · rintro ⟨below, some_⟩
        exact ⟨rfl, j, below, (Nat.zero_add j).symm, some_⟩

end

/-- For every slice, every map to a power of two of partitions and every fanout the two splitters leave
the same index, the same records in the range of each partition, and the same partitions in the work
queue. -/
theorem splittersAgree {α : Type} [Inhabited α] (T : α → Nat) (M : PartitionMap)
    {fanout base items : Nat} {st : SplitState α} (slice : Slice base items st)
    (power : M.partitions = 1 ∨ ∃ d, 0 < d ∧ fanout = 2 ^ d ∧ fanout ≤ M.partitions)
    {sorted : List α} (qsorted : Qsorted (fun r => M.map (T r)) M.partitions
      ((st.inBuffer.drop base).take items) sorted) :
    (∃ fuel, (xSplit (fun r => M.map (T r)) fanout M.partitions items fuel st).isSome) ∧
      ∀ fuel st', xSplit (fun r => M.map (T r)) fanout M.partitions items fuel st = some st' →
        let q := xSplitQsort (fun r => M.map (T r)) M.partitions items sorted st.inBuffer st.inIndex
          st.workq
        (∀ i < M.partitions, st'.inIndex i = q.2.1 i) ∧
          (∀ i < M.partitions, (partitionRange M.partitions items st'.inBuffer st'.inIndex i).Perm
            (partitionRange M.partitions items q.1 q.2.1 i)) ∧
          ∀ j, j ∈ st'.workq ↔ j ∈ q.2.2 := by
  obtain ⟨k, isPower⟩ := M.partitions_pow
  have below (r : α) : M.map (T r) < 2 ^ k := isPower ▸ M.map_lt (T r)
  rw [isPower] at power qsorted ⊢
  have length : ((st.inBuffer.drop base).take items).length = items := by
    rw [List.length_take, List.length_drop]
    have inside := slice.inside
    omega
  constructor
  · obtain one | ⟨d, bits, rfl, -⟩ := power
    · refine ⟨0, ?_⟩
      unfold xSplit
      rw [if_pos one]
      rfl
    · exact ⟨k + 1, xSplit_isSome _ bits items st⟩
  · intro fuel st' isDone
    generalize isRecords : (st.inBuffer.drop base).take items = records at *
    obtain rfl := length
    have room (aux : Bool) : base + records.length ≤ (st.area aux).length := by
      unfold SplitState.area
      split
      · exact slice.inside
      · exact slice.auxInside
    have into := splitInto_xSplit (power.imp_right fun ⟨d, bits, isFanout, _⟩ => ⟨d, bits, isFanout⟩)
      (fun r _ => below r) slice.index slice.auxIndex isRecords room isDone
    exact into.leavesBuckets.agree
      (leavesBuckets_xSplitQsort qsorted (fun r _ => below r) slice.index isRecords slice.inside st.workq)
      fun r _ => below r

/-- Three records behind another one, with two super partitions. -/
def threeBehindOne : SplitState Nat :=
  ⟨[9, 3, 1, 2], [0, 0, 0, 0], fun i => if i = 0 then 1 else 0, fun _ => 0, [], false⟩

/-- Two super partitions and one cached partition. -/
def twoSuperPartitions : Mapping := ⟨2, 1, Mapping.isPow_two, Mapping.isPow_one⟩

theorem splittersAgree_three :
    (∃ fuel, (xSplit (fun r => twoSuperPartitions.superPartitionWrap.map r) 2
        twoSuperPartitions.superPartitionWrap.partitions 3 fuel threeBehindOne).isSome) ∧
      ∀ fuel st', xSplit (fun r => twoSuperPartitions.superPartitionWrap.map r) 2
          twoSuperPartitions.superPartitionWrap.partitions 3 fuel threeBehindOne = some st' →
        let q := xSplitQsort (fun r => twoSuperPartitions.superPartitionWrap.map r)
          twoSuperPartitions.superPartitionWrap.partitions 3 [2, 1, 3] threeBehindOne.inBuffer
          threeBehindOne.inIndex threeBehindOne.workq
        (∀ i < 2, st'.inIndex i = q.2.1 i) ∧
          (∀ i < 2, (partitionRange 2 3 st'.inBuffer st'.inIndex i).Perm
            (partitionRange 2 3 q.1 q.2.1 i)) ∧
          ∀ j, j ∈ st'.workq ↔ j ∈ q.2.2 :=
  splittersAgree (fun r => r) twoSuperPartitions.superPartitionWrap
    ⟨fun _ => rfl, fun _ => rfl, by decide, by decide⟩ (Or.inr ⟨1, by decide, rfl, by decide⟩)
    ⟨by decide, by decide⟩

end MBFGraph
