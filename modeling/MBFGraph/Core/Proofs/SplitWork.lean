import MBFGraph.Core.Proofs.Partition

/-!
# The work that the splitter queues

The partitions in the work queue, each with its substreams of all processors, are the records of the
buffer, every record once; and the index of a buffer that was split covers it. Whoever takes the
partitions from the queue therefore sees every record once, in whatever order they are taken.
-/

namespace MBFGraph

open CountingSort

section Buckets

variable {α : Type} {f : α → Nat}

/-- The first buckets hold the records that belong to them. -/
theorem perm_flatMap_bucket (records : List α) (n : Nat) :
    ((List.range n).flatMap fun j => bucket f records j).Perm
      (records.filter fun r => decide (f r < n)) := by
  induction n with
  | zero => simp
  | succ n ih =>
    rw [List.range_succ, List.flatMap_append, List.flatMap_singleton]
    refine (ih.append_right _).trans ?_
    have split := List.filter_append_perm (fun r => decide (f r < n))
      (records.filter fun r => decide (f r < n + 1))
    rw [List.filter_filter, List.filter_filter] at split
    refine List.Perm.trans (List.Perm.of_eq ?_) split
    congr 1
    · refine List.filter_congr fun r _ => ?_
      rw [← Bool.decide_and]
      exact decide_eq_decide.mpr ⟨fun less => ⟨less, by omega⟩, And.left⟩
    · refine List.filter_congr fun r _ => ?_
      rw [← decide_not, ← Bool.decide_and]
      exact decide_eq_decide.mpr ⟨fun same => ⟨by omega, by omega⟩, fun between => by omega⟩

/-- All buckets together. -/
theorem perm_buckets {records : List α} {n : Nat} (below : ∀ r ∈ records, f r < n) :
    ((List.range n).flatMap fun j => bucket f records j).Perm records := by
  have all := perm_flatMap_bucket (f := f) records n
  rwa [List.filter_eq_self.mpr fun r member => decide_eq_true (below r member)] at all

/-- Rows first or columns first. -/
theorem perm_flatMap_comm {β γ : Type} (xs : List α) (ys : List β) (g : α → β → List γ) :
    (xs.flatMap fun x => ys.flatMap fun y => g x y).Perm
      (ys.flatMap fun y => xs.flatMap fun x => g x y) := by
  induction xs with
  | nil => simp
  | cons x xs ih =>
    simp only [List.flatMap_cons]
    exact (ih.append_left _).trans (List.flatMap_append_perm ys _ _)

theorem flatMap_filter_of_empty {γ : Type} {p : α → Bool} {g : α → List γ} {all : List α}
    (empty : ∀ k ∈ all, p k = false → g k = []) : (all.filter p).flatMap g = all.flatMap g := by
  induction all with
  | nil => rfl
  | cons k all ih =>
    have rest := ih fun k' member => empty k' (List.mem_cons_of_mem k member)
    rw [List.filter_cons, List.flatMap_cons, ← rest]
    cases keep : p k with
    | true => rw [if_pos rfl, List.flatMap_cons]
    | false =>
      rw [if_neg Bool.false_ne_true, empty k List.mem_cons_self keep]
      rfl

/-- What is empty need not be queued. -/
theorem perm_flatMap_queue {γ : Type} {queue all : List Nat} {g : Nat → List γ}
    (nodup : queue.Nodup) (nodup' : all.Nodup) (sub : ∀ k ∈ queue, k ∈ all)
    (empty : ∀ k ∈ all, k ∉ queue → g k = []) : (queue.flatMap g).Perm (all.flatMap g) := by
  have same : queue.Perm (all.filter fun k => decide (k ∈ queue)) := by
    rw [List.perm_ext_iff_of_nodup nodup (nodup'.filter _)]
    intro k
    simp only [List.mem_filter, decide_eq_true_eq]
    exact ⟨fun member => ⟨sub k member, member⟩, And.right⟩
  rw [← flatMap_filter_of_empty fun k member absent =>
    empty k member (of_decide_eq_false absent)]
  exact same.flatMap_right g

end Buckets

section Slices

variable {α : Type} {key : α → Nat} {processors : Nat} {b b' : SplitBuffers α}

/-- The sizes of the first slices add up to where the next one starts. -/
theorem sum_perCpuSizes {n : Nat} (le : n ≤ processors) :
    ((List.range n).map (sliceProcessors processors b).stream.perCpuSizes).sum =
      if n = processors ∧ n ≠ 0 then b.stream.buffer.length else b.sliceStart processors n := by
  induction n with
  | zero => simp [SplitBuffers.sliceStart_zero]
  | succ n ih =>
    have follow := SplitBuffers.slices_follow (b := b) (show n < processors by omega)
    rw [List.range_succ, List.map_append, List.sum_append, ih (by omega), if_neg (by omega),
      List.map_singleton, List.sum_singleton, ← SplitBuffers.length_slice (by omega), follow]
    by_cases last : n + 1 = processors
    · rw [if_pos last, if_pos ⟨last, Nat.succ_ne_zero n⟩]
    · rw [if_neg last, if_neg fun all => last all.1]

/-- An index over the slices covers the buffer. -/
theorem indexed_of_slices {partitions : Nat} {s : MemoryBuffer α} (positive : 0 < processors)
    (length : s.buffer.length = b.stream.buffer.length)
    (sizes : s.perCpuSizes = (sliceProcessors processors b).stream.perCpuSizes)
    (starts : ∀ p < processors, s.index p 0 = b.sliceStart processors p)
    (entries : s.indexEntries = partitions) : s.Indexed processors partitions where
  indexEntries := entries
  slices p below := by
    rw [sizes, sum_perCpuSizes (Nat.le_of_lt below), if_neg (by omega), starts p below]
  total := by
    rw [sizes, sum_perCpuSizes (Nat.le_refl _), if_pos ⟨rfl, by omega⟩, length]

/-- The slices are the buffer. -/
theorem flatMap_slice (positive : 0 < processors) :
    (List.range processors).flatMap (b.slice processors) = b.stream.buffer := by
  have indexed : MemoryBuffer.Indexed processors 1
      { (sliceProcessors processors b).stream with indexEntries := 1 } :=
    indexed_of_slices (b := b) positive rfl rfl (fun _ _ => rfl) rfl
  have covered := indexed.flatMap_getSubstream
  refine Eq.trans (List.flatMap_congr fun p _ => ?_) covered
  unfold MemoryBuffer.getSubstream MemoryBuffer.substreamSize
  rw [if_neg (show ¬ 0 < 1 - 1 by decide), Nat.add_sub_cancel]
  rfl

/-- The substreams of the queued partitions are the records. -/
theorem Partitioned.perm_workq {partitions : Nat} (partitioned : Partitioned key processors partitions b b')
    (positive : 0 < processors) (keys : ∀ r ∈ b.stream.buffer, key r < partitions) :
    (b'.workq.flatMap fun k => (List.range processors).flatMap fun p =>
      b'.stream.getSubstream p k).Perm b.stream.buffer := by
  have queued := perm_flatMap_queue (g := fun k => (List.range processors).flatMap fun p =>
      b'.stream.getSubstream p k) partitioned.nodup (List.nodup_range (n := partitions))
    (fun k member => List.mem_range.mpr ((partitioned.mem_workq k).mp member).1)
    (fun k member absent => by
      refine List.flatMap_eq_nil_iff.mpr fun p isProcessor => ?_
      by_contra some_
      exact absent ((partitioned.mem_workq k).mpr
        ⟨List.mem_range.mp member, p, List.mem_range.mp isProcessor, some_⟩))
  refine queued.trans ((perm_flatMap_comm _ _ _).trans ?_)
  have slices := flatMap_slice (b := b) positive
  conv_rhs => rw [← slices]
  refine List.Perm.flatMap_left _ fun p isProcessor => ?_
  have below := List.mem_range.mp isProcessor
  have substreams : ((List.range partitions).flatMap fun k => b'.stream.getSubstream p k) =
      (List.range partitions).flatMap fun k => bucket key (b.slice processors p) k :=
    List.flatMap_congr fun k member => partitioned.substream p below k (List.mem_range.mp member)
  rw [substreams]
  exact perm_buckets fun r member => keys r (List.mem_of_mem_drop (List.mem_of_mem_take member))

variable [Inhabited α] {k fanout fuel : Nat}

/-- What `make_index` leaves has an index that covers the buffer. -/
theorem indexed_of_makeIndex (positive : 0 < processors)
    (power : 2 ^ k = 1 ∨ ∃ d, 0 < d ∧ fanout = 2 ^ d)
    (keys : ∀ r ∈ b.stream.buffer, key r < 2 ^ k) (unindexed : b.stream.indexed = false)
    (length : b.auxBuffer.length = b.stream.buffer.length)
    (auxIndex : ∀ p < processors, ∀ k, b.auxIndex p k = 0)
    (isDone : makeIndex key processors fanout (2 ^ k) fuel b = some b') :
    b'.stream.Indexed processors (2 ^ k) := by
  obtain ⟨done, fold, buffer, index, -, -, sizes, entries⟩ := makeIndex_eq_some unindexed isDone
  obtain ⟨processed, -⟩ := processed_foldlM power keys length auxIndex positive (Nat.le_refl _) fold
  refine indexed_of_slices positive ?_ (sizes.trans processed.perCpuSizes) (fun p below => ?_) entries
  · rw [buffer]
    exact processed.length _
  · rw [(processed.substream keys buffer index sizes entries below (Nat.two_pow_pos k)).1, place_zero,
      Nat.add_zero]

/-- With one partition the buffer stays as it is. -/
theorem buffer_makeIndex_one (positive : 0 < processors) (keys : ∀ r ∈ b.stream.buffer, key r < 1)
    (unindexed : b.stream.indexed = false) (length : b.auxBuffer.length = b.stream.buffer.length)
    (auxIndex : ∀ p < processors, ∀ k, b.auxIndex p k = 0)
    (isDone : makeIndex key processors fanout 1 fuel b = some b') :
    b'.stream.Indexed processors 1 ∧ b'.stream.buffer = b.stream.buffer := by
  have indexed : b'.stream.Indexed processors 1 :=
    indexed_of_makeIndex (k := 0) positive (Or.inl rfl) keys unindexed length auxIndex isDone
  have partitioned : Partitioned key processors 1 b b' :=
    partitioned_of_makeIndex (k := 0) positive (Or.inl rfl) keys unindexed length auxIndex isDone
  refine ⟨indexed, ?_⟩
  rw [← indexed.flatMap_getSubstream, ← flatMap_slice positive]
  refine List.flatMap_congr fun p isProcessor => ?_
  rw [partitioned.substream p (List.mem_range.mp isProcessor) 0 Nat.one_pos]
  refine List.filter_eq_self.mpr fun r member => decide_eq_true ?_
  have := keys r (List.mem_of_mem_drop (List.mem_of_mem_take member))
  omega

end Slices

end MBFGraph
