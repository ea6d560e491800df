import MBFGraph.Core.Autotuner

/-!
# Iterating over the vertex state

`state_count`, `state_prepare` and `do_state_iter` (`autotuner.hpp:86-99`, `x-lib.hpp:67-88`,
`527-537`): how many vertices a cached partition has, where its records lie in the state buffer,
and which processor visits which of them.
-/

namespace MBFGraph

/-- The part of `configuration` that the drivers use. -/
structure Configuration extends Mapping where
  processors : Nat
  vertices : Nat
  processors_pow : ∃ k, processors = 2 ^ k
  vertices_pos : 0 < vertices

namespace Configuration

variable (c : Configuration)

theorem processors_pos : 0 < c.processors := by
  obtain ⟨k, pow⟩ := c.processors_pow
  rw [pow]; exact Nat.two_pow_pos k

/-- `state_count`: the number of vertices of a cached partition. -/
def stateCount (superp partition : Nat) : Nat :=
  let base := (partition <<< c.superPartitionShift) ||| superp
  let shift := c.partitionShift + c.superPartitionShift
  let count := ((c.vertices - 1) >>> shift) <<< shift
  -- the source subtracts one and adds it again, in unsigned arithmetic
  if count ||| base < c.vertices then (count >>> shift) + 1 else count >>> shift

/-- `vertex_state_buffer_size`: the vertices of a super partition, up to a whole disk page. -/
def vertexStateBufferSize (vertexSize : Nat) : Nat :=
  (c.vertices / c.superPartitions * vertexSize + 8192 - 1) / 8192 * 8192

/-- `index[0][partition]` of `state_prepare`, counted in records. -/
def firstRecord (superp partition : Nat) : Nat :=
  ((List.range partition).map (c.stateCount superp)).sum

/-- The number of records of a super partition. -/
def records (superp : Nat) : Nat := c.firstRecord superp c.cachedPartitions

/-- The cached partitions that `state_iter_work` visits on a processor. -/
def stateIterPartitions (processorId : Nat) : List Nat :=
  let partitionsPerCpu := c.cachedPartitions / c.processors
  let remainder := c.cachedPartitions - partitionsPerCpu * c.processors
  let count :=
    if processorId = c.processors - 1 then partitionsPerCpu + remainder else partitionsPerCpu
  List.range' (partitionsPerCpu * processorId) count

/-- The vertices that it visits: partition and index in the partition. -/
def stateIter (superp processorId : Nat) : List (Nat × Nat) :=
  (c.stateIterPartitions processorId).flatMap fun i =>
    (List.range (c.stateCount superp i)).map fun k => (i, k)

/-- The cached partitions of one of `processors` processors. -/
def iterPartitions (processors processorId : Nat) : List Nat :=
  let partitionsPerCpu := c.cachedPartitions / processors
  let remainder := c.cachedPartitions - partitionsPerCpu * processors
  let count :=
    if processorId = processors - 1 then partitionsPerCpu + remainder else partitionsPerCpu
  List.range' (partitionsPerCpu * processorId) count

/-- `state_iter_work::operator()` on one of `processors` processors. -/
def stateIterWork (processors superp processorId : Nat) : List (Nat × Nat) :=
  (c.iterPartitions processors processorId).flatMap fun i =>
    (List.range (c.stateCount superp i)).map fun k => (i, k)

theorem stateIterWork_eq (superp processorId : Nat) :
    c.stateIterWork c.processors superp processorId = c.stateIter superp processorId := rfl

variable {c}

/-- A cached partition holds the vertices whose inverse image is below `vertices`. -/
theorem lt_stateCount_iff {superp partition offset : Nat} (hs : superp < c.superPartitions)
    (hp : partition < c.cachedPartitions) :
    offset < c.stateCount superp partition ↔
      c.mapInverse superp partition offset < c.vertices := by
  have positive := c.vertices_pos
  have expand : 2 ^ (c.partitionShift + c.superPartitionShift) =
      c.cachedPartitions * c.superPartitions := by
    rw [Nat.pow_add, ← c.cachedPartitions_eq, ← c.superPartitions_eq]
  have baseEq : (partition <<< c.superPartitionShift) ||| superp =
      partition * c.superPartitions + superp := by
    rw [c.superPartitions_eq] at hs ⊢
    rw [← Nat.shiftLeft_add_eq_or_of_lt hs, Nat.shiftLeft_eq]
  have baseLt : partition * c.superPartitions + superp <
      2 ^ (c.partitionShift + c.superPartitionShift) := by
    rw [expand]
    calc partition * c.superPartitions + superp < (partition + 1) * c.superPartitions := by
          rw [Nat.succ_mul]; omega
      _ ≤ c.cachedPartitions * c.superPartitions := Nat.mul_le_mul_right _ hp
  have inverse : c.mapInverse superp partition offset =
      offset * 2 ^ (c.partitionShift + c.superPartitionShift) +
        (partition * c.superPartitions + superp) := by
    rw [c.mapInverse_eq hs hp, expand]; ring
  rw [inverse]
  unfold stateCount
  simp only [baseEq]
  rw [← Nat.shiftLeft_add_eq_or_of_lt baseLt, Nat.shiftLeft_shiftRight, Nat.shiftLeft_eq,
    Nat.shiftRight_eq_div_pow]
  generalize 2 ^ (c.partitionShift + c.superPartitionShift) = size at baseLt
  generalize partition * c.superPartitions + superp = base at baseLt
  have split := Nat.div_add_mod (c.vertices - 1) size
  have bound := Nat.mod_lt (c.vertices - 1) (show 0 < size by omega)
  rw [Nat.mul_comm] at split
  generalize (c.vertices - 1) / size = count at split
  have before : offset < count → offset * size + base < c.vertices := by
    intro less
    have := Nat.mul_le_mul_right size (Nat.succ_le_of_lt less)
    rw [Nat.succ_mul] at this
    omega
  have behind : count < offset → ¬ offset * size + base < c.vertices := by
    intro more
    have := Nat.mul_le_mul_right size (Nat.succ_le_of_lt more)
    rw [Nat.succ_mul] at this
    omega
  split
  · rename_i last
    constructor
    · intro below
      rcases Nat.lt_or_eq_of_le (Nat.lt_succ_iff.mp below) with less | equal
      · exact before less
      · rw [equal]; exact last
    · intro inside
      by_contra above
      exact behind (by omega) inside
  · rename_i notLast
    constructor
    · exact before
    · intro inside
      rcases Nat.lt_trichotomy offset count with less | equal | more
      · exact less
      · rw [equal] at inside; exact absurd inside notLast
      · exact absurd inside (behind more)

/-- Any number of processors share the cached partitions, in order. -/
theorem flatMap_iterPartitions {processors : Nat} (positive : 0 < processors) :
    (List.range processors).flatMap (c.iterPartitions processors) =
      List.range c.cachedPartitions := by
  have le := Nat.div_mul_le_self c.cachedPartitions processors
  obtain ⟨last, hlast⟩ : ∃ last, processors = last + 1 := ⟨processors - 1, by omega⟩
  have front : ∀ n ≤ last, (List.range n).flatMap (c.iterPartitions processors) =
      List.range (c.cachedPartitions / processors * n) := by
    intro n inside
    induction n with
    | zero => simp
    | succ n ih =>
      have notLast : n ≠ processors - 1 := by omega
      rw [List.range_succ, List.flatMap_append, ih (by omega), List.flatMap_singleton]
      simp only [iterPartitions, notLast, if_false]
      rw [List.range_eq_range', List.range_eq_range', Nat.mul_succ, ← List.range'_append_1,
        Nat.zero_add]
  have total : c.cachedPartitions / processors * last + (c.cachedPartitions / processors +
      (c.cachedPartitions - c.cachedPartitions / processors * processors)) =
      c.cachedPartitions := by
    rw [hlast] at le ⊢
    rw [Nat.mul_succ] at le ⊢
    omega
  have isLast : last = processors - 1 := by omega
  rw [show List.range processors = List.range last ++ [last] by rw [hlast, List.range_succ],
    List.flatMap_append, front last (Nat.le_refl _), List.flatMap_singleton]
  simp only [iterPartitions, ← isLast, if_true]
  have glue : ∀ a b n, a + b = n → List.range a ++ List.range' a b = List.range n := by
    intro a b n sum
    rw [← sum, List.range_eq_range', List.range_eq_range', ← List.range'_append_1, Nat.zero_add]
  exact glue _ _ _ total

/-- The processors share the cached partitions, in order. -/
theorem flatMap_stateIterPartitions :
    (List.range c.processors).flatMap c.stateIterPartitions = List.range c.cachedPartitions :=
  flatMap_iterPartitions c.processors_pos

/-- The processors together visit every vertex of the super partition once, in record order. -/
theorem flatMap_stateIter (superp : Nat) :
    (List.range c.processors).flatMap (c.stateIter superp) =
      (List.range c.cachedPartitions).flatMap fun i =>
        (List.range (c.stateCount superp i)).map fun k => (i, k) := by
  rw [← flatMap_stateIterPartitions, List.flatMap_assoc]
  rfl

/-- However many processors there are, they come to the same vertices in the same order. -/
theorem flatMap_stateIterWork {processors : Nat} (positive : 0 < processors) (superp : Nat) :
    (List.range processors).flatMap (c.stateIterWork processors superp) =
      (List.range c.processors).flatMap (c.stateIter superp) := by
  rw [flatMap_stateIter, ← flatMap_iterPartitions positive, List.flatMap_assoc]
  rfl

theorem mem_stateIter_iff {superp i k : Nat} :
    (∃ p < c.processors, (i, k) ∈ c.stateIter superp p) ↔
      i < c.cachedPartitions ∧ k < c.stateCount superp i := by
  have all : (∃ p < c.processors, (i, k) ∈ c.stateIter superp p) ↔
      (i, k) ∈ (List.range c.processors).flatMap (c.stateIter superp) := by
    simp only [List.mem_flatMap, List.mem_range]
  rw [all, flatMap_stateIter]
  simp only [List.mem_flatMap, List.mem_range, List.mem_map, Prod.mk.injEq]
  constructor
  · rintro ⟨_, hi, _, hk, rfl, rfl⟩
    exact ⟨hi, hk⟩
  · rintro ⟨hi, hk⟩
    exact ⟨i, hi, k, hk, rfl, rfl⟩

/-- In record order the records are numbered through. -/
theorem map_record_stateIter (superp : Nat) :
    ((List.range c.processors).flatMap (c.stateIter superp)).map
        (fun v => c.firstRecord superp v.1 + v.2) = List.range (c.records superp) := by
  rw [flatMap_stateIter]
  unfold records
  induction c.cachedPartitions with
  | zero => simp [firstRecord]
  | succ n ih =>
    have next : c.firstRecord superp (n + 1) = c.firstRecord superp n + c.stateCount superp n := by
      simp [firstRecord, List.range_succ]
    rw [List.range_succ, List.flatMap_append, List.map_append, ih, List.flatMap_singleton,
      List.map_map, next, List.range_add]
    rfl

/-- The vertices that the processors visit, in record order. -/
def vertexIds (c : Configuration) (superp : Nat) : List Nat :=
  ((List.range c.processors).flatMap (c.stateIter superp)).map
    fun v => c.mapInverse superp v.1 v.2

theorem mem_vertexIds_iff {superp v : Nat} (hs : superp < c.superPartitions) :
    v ∈ c.vertexIds superp ↔ v < c.vertices ∧ c.mapSuperPartition v = superp := by
  have visited : v ∈ c.vertexIds superp ↔ ∃ i k, (i < c.cachedPartitions ∧
      k < c.stateCount superp i) ∧ c.mapInverse superp i k = v := by
    simp only [vertexIds, List.mem_map, List.mem_flatMap, List.mem_range, Prod.exists,
      ← mem_stateIter_iff]
  rw [visited]
  constructor
  · rintro ⟨i, k, ⟨hi, hk⟩, rfl⟩
    exact ⟨(lt_stateCount_iff hs hi).mp hk, c.mapSuperPartition_mapInverse hs hi⟩
  · rintro ⟨inside, rfl⟩
    have partition := c.mapCachedPartition_lt v
    refine ⟨_, c.mapOffset v, ⟨partition, ?_⟩, c.mapInverse_map v⟩
    rw [lt_stateCount_iff hs partition, c.mapInverse_map]
    exact inside

/-- No vertex is visited twice. -/
theorem nodup_vertexIds {superp : Nat} (hs : superp < c.superPartitions) :
    (c.vertexIds superp).Nodup := by
  have records := map_record_stateIter (c := c) superp
  have visits : ((List.range c.processors).flatMap (c.stateIter superp)).Nodup :=
    List.Nodup.of_map _ (records ▸ List.nodup_range)
  refine visits.map_on ?_
  rintro ⟨i, k⟩ visit ⟨i', k'⟩ visit' same
  simp only [List.mem_flatMap, List.mem_range, mem_stateIter_iff] at visit visit'
  have partition := congrArg c.mapCachedPartition same
  have offset := congrArg c.mapOffset same
  rw [c.mapCachedPartition_mapInverse hs visit.1, c.mapCachedPartition_mapInverse hs visit'.1]
    at partition
  rw [c.mapOffset_mapInverse hs visit.1, c.mapOffset_mapInverse hs visit'.1] at offset
  exact Prod.ext partition offset

end Configuration

end MBFGraph
