import Mathlib

/-!
# Memory buffers

`memory_buffer` (`split_stream.hpp:65-231`): an area, and an index that says for each processor
where the records of each partition start. The unit of positions and sizes is one element of the
area: a byte for the streams, a record for the splitter, whose offsets all are multiples of the
record size.
-/

namespace MBFGraph

/-- `buffer[0 .. bufsize)` with its index. -/
structure MemoryBuffer (α : Type) where
  buffer : List α
  index : Nat → Nat → Nat
  perCpuSizes : Nat → Nat
  indexEntries : Nat
  indexed : Bool
  dirty : Bool

namespace MemoryBuffer

variable {α : Type}

/-- A buffer that was filled by a read. -/
def unindexed (buffer : List α) : MemoryBuffer α :=
  ⟨buffer, fun _ _ => 0, fun _ => 0, 0, false, false⟩

/-- `reset_index` for all processors. -/
def resetIndex (b : MemoryBuffer α) : MemoryBuffer α :=
  { b with index := fun _ _ => 0, perCpuSizes := fun _ => 0 }

/-- `set_flat_index` behind a `reset_index`: one partition, all of it in the slice of processor
0. -/
def setFlatIndex (b : MemoryBuffer α) : MemoryBuffer α :=
  { b with
    perCpuSizes := Function.update b.perCpuSizes 0 b.buffer.length
    index := Function.update b.index 0 (Function.update (b.index 0) 0 0)
    indexEntries := 1
    indexed := true }

/-- The size that `get_substream` returns. -/
def substreamSize (b : MemoryBuffer α) (processor partition : Nat) : Nat :=
  if partition < b.indexEntries - 1 then
    b.index processor (partition + 1) - b.index processor partition
  else
    b.perCpuSizes processor + b.index processor 0 - b.index processor partition

/-- `get_substream`. -/
def getSubstream (b : MemoryBuffer α) (processor partition : Nat) : List α :=
  (b.buffer.drop (b.index processor partition)).take (b.substreamSize processor partition)

@[simp] theorem unindexed_buffer (buffer : List α) : (unindexed buffer).buffer = buffer := rfl

@[simp] theorem resetIndex_buffer (b : MemoryBuffer α) : b.resetIndex.buffer = b.buffer := rfl

theorem getSubstream_of_empty {b : MemoryBuffer α} (empty : b.buffer = [])
    (processor partition : Nat) : b.getSubstream processor partition = [] := by
  simp [getSubstream, empty]

/-- What `make_index` leaves besides the records of the partitions: an index with an entry for
each partition, in which the slices of the processors follow each other and cover the buffer. -/
structure Indexed (processors partitions : Nat) (b : MemoryBuffer α) : Prop where
  indexEntries : b.indexEntries = partitions
  slices : ∀ p < processors, b.index p 0 = ((List.range p).map b.perCpuSizes).sum
  total : ((List.range processors).map b.perCpuSizes).sum = b.buffer.length

/-- With one partition the substreams are the slices, and together they are the buffer. -/
theorem Indexed.flatMap_getSubstream {processors : Nat} {b : MemoryBuffer α}
    (indexed : b.Indexed processors 1) :
    (List.range processors).flatMap (fun p => b.getSubstream p 0) = b.buffer := by
  have front : ∀ n ≤ processors, (List.range n).flatMap (fun p => b.getSubstream p 0) =
      b.buffer.take ((List.range n).map b.perCpuSizes).sum := by
    intro n below
    induction n with
    | zero => simp
    | succ n ih =>
      rw [List.range_succ, List.flatMap_append, ih (by omega), List.flatMap_singleton,
        List.map_append, List.sum_append, List.map_singleton, List.sum_singleton, List.take_add]
      congr 1
      have last : ¬ (0 < b.indexEntries - 1) := by rw [indexed.indexEntries]; omega
      unfold getSubstream substreamSize
      rw [if_neg last, indexed.slices n (by omega), Nat.add_sub_cancel]
  rw [front processors (Nat.le_refl _), indexed.total, List.take_length]

end MemoryBuffer

end MBFGraph
