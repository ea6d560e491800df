import Mathlib

/-!
# Vertex mapping

The part of `configuration` (`autotuner.hpp`) that every algorithm indexes memory through: a
vertex id is split into its super partition (the low bits), its cached partition (the bits above
them) and its offset inside the cached partition (the rest).
-/

namespace MBFGraph

/-- `vertex_t` of a build with `COMPACT_GRAPH` (`types.h:21`). -/
abbrev VertexT := BitVec 32

/-- The id that marks a deleted edge. -/
def tombstone : Nat := 0xFFFFFFFF

/-- The partition counts of `configuration`. `make_config` lets only powers of two through
(`check_pow_2`, `x-lib.hpp:441-443`). -/
structure Mapping where
  superPartitions : Nat
  cachedPartitions : Nat
  superPartitions_pow : ∃ k, superPartitions = 2 ^ k
  cachedPartitions_pow : ∃ k, cachedPartitions = 2 ^ k

theorem Mapping.isPow_self (k : Nat) : ∃ j, 2 ^ k = 2 ^ j := ⟨k, rfl⟩

theorem Mapping.isPow_one : ∃ k, 1 = 2 ^ k := ⟨0, rfl⟩

theorem Mapping.isPow_two : ∃ k, 2 = 2 ^ k := ⟨1, rfl⟩

/-- The loop of `setup_mapping` (`autotuner.hpp:62-75`): how often `temp` can be halved before
it is zero. -/
def halvings : Nat → Nat
  | 0 => 0
  | temp + 1 => halvings ((temp + 1) / 2) + 1

theorem halvings_of_lt {k : Nat} {temp : Nat} (low : temp < 2 ^ k) : halvings temp ≤ k := by
  induction k generalizing temp with
  | zero =>
    have zero : temp = 0 := by simpa using low
    simp [zero, halvings]
  | succ k ih =>
    cases temp with
    | zero => simp [halvings]
    | succ temp =>
      have half : (temp + 1) / 2 < 2 ^ k := by
        rw [Nat.pow_succ] at low
        omega
      have := ih half
      simp only [halvings]
      omega

theorem le_halvings {k : Nat} {temp : Nat} (high : 2 ^ k ≤ temp) : k + 1 ≤ halvings temp := by
  induction k generalizing temp with
  | zero =>
    cases temp with
    | zero => simp at high
    | succ temp => simp only [halvings]; omega
  | succ k ih =>
    cases temp with
    | zero => have := Nat.two_pow_pos (k + 1); omega
    | succ temp =>
      have half : 2 ^ k ≤ (temp + 1) / 2 := by
        rw [Nat.pow_succ] at high
        omega
      have := ih half
      simp only [halvings]
      omega

/-- On a power of two the loop counts the exponent. -/
theorem halvings_two_pow_sub_one (k : Nat) : halvings (2 ^ k - 1) = k := by
  have positive := Nat.two_pow_pos k
  apply Nat.le_antisymm (halvings_of_lt (by omega))
  cases k with
  | zero => exact Nat.zero_le _
  | succ k =>
    apply le_halvings
    have := Nat.two_pow_pos k
    rw [Nat.pow_succ]
    omega

namespace Mapping

variable (m : Mapping)

/-- `super_partition_shift`. -/
def superPartitionShift : Nat := halvings (m.superPartitions - 1)

/-- `partition_shift`. -/
def partitionShift : Nat := halvings (m.cachedPartitions - 1)

/-- `map_offset` (`autotuner.hpp:156`). -/
def mapOffset (key : Nat) : Nat := key >>> (m.superPartitionShift + m.partitionShift)

/-- `map_cached_partition` (`autotuner.hpp:160`). -/
def mapCachedPartition (key : Nat) : Nat :=
  (key >>> m.superPartitionShift) &&& (m.cachedPartitions - 1)

/-- `map_super_partition` (`autotuner.hpp:164`), also `map_super_partition_wrap::map`. -/
def mapSuperPartition (key : Nat) : Nat := key &&& (m.superPartitions - 1)

/-- `map_inverse` (`autotuner.hpp:168`). -/
def mapInverse (superPartition partition offset : Nat) : Nat :=
  (((offset <<< m.partitionShift) ||| partition) <<< m.superPartitionShift) ||| superPartition

theorem superPartitions_eq : m.superPartitions = 2 ^ m.superPartitionShift := by
  obtain ⟨k, pow⟩ := m.superPartitions_pow
  unfold superPartitionShift
  rw [pow, halvings_two_pow_sub_one]

theorem cachedPartitions_eq : m.cachedPartitions = 2 ^ m.partitionShift := by
  obtain ⟨k, pow⟩ := m.cachedPartitions_pow
  unfold partitionShift
  rw [pow, halvings_two_pow_sub_one]

theorem superPartitions_pos : 0 < m.superPartitions := by
  rw [superPartitions_eq]; exact Nat.two_pow_pos _

theorem cachedPartitions_pos : 0 < m.cachedPartitions := by
  rw [cachedPartitions_eq]; exact Nat.two_pow_pos _

theorem mapSuperPartition_eq_mod (key : Nat) :
    m.mapSuperPartition key = key % m.superPartitions := by
  unfold mapSuperPartition
  rw [superPartitions_eq, Nat.and_two_pow_sub_one_eq_mod]

theorem mapCachedPartition_eq (key : Nat) :
    m.mapCachedPartition key = key / m.superPartitions % m.cachedPartitions := by
  unfold mapCachedPartition
  rw [cachedPartitions_eq, Nat.and_two_pow_sub_one_eq_mod, Nat.shiftRight_eq_div_pow,
    superPartitions_eq]

theorem mapOffset_eq (key : Nat) :
    m.mapOffset key = key / m.superPartitions / m.cachedPartitions := by
  unfold mapOffset
  rw [Nat.shiftRight_eq_div_pow, Nat.pow_add, ← superPartitions_eq, ← cachedPartitions_eq,
    Nat.div_div_eq_div_mul]

theorem mapSuperPartition_lt (key : Nat) : m.mapSuperPartition key < m.superPartitions := by
  rw [mapSuperPartition_eq_mod]; exact Nat.mod_lt _ m.superPartitions_pos

theorem mapCachedPartition_lt (key : Nat) : m.mapCachedPartition key < m.cachedPartitions := by
  rw [mapCachedPartition_eq]; exact Nat.mod_lt _ m.cachedPartitions_pos

/-- With one super partition every key maps to it. -/
theorem mapSuperPartition_of_one (one : m.superPartitions = 1) (key : Nat) :
    m.mapSuperPartition key = 0 := by
  rw [mapSuperPartition_eq_mod, one, Nat.mod_one]

theorem mapInverse_eq {superp partition offset : Nat} (hs : superp < m.superPartitions)
    (hp : partition < m.cachedPartitions) :
    m.mapInverse superp partition offset =
      (offset * m.cachedPartitions + partition) * m.superPartitions + superp := by
  unfold mapInverse
  rw [superPartitions_eq] at hs
  rw [cachedPartitions_eq] at hp
  rw [← Nat.shiftLeft_add_eq_or_of_lt hp, ← Nat.shiftLeft_add_eq_or_of_lt hs,
    Nat.shiftLeft_eq, Nat.shiftLeft_eq, ← superPartitions_eq, ← cachedPartitions_eq]

/-- A vertex is found again from its three coordinates. -/
theorem mapInverse_map (key : Nat) :
    m.mapInverse (m.mapSuperPartition key) (m.mapCachedPartition key) (m.mapOffset key) = key := by
  rw [mapInverse_eq m (m.mapSuperPartition_lt key) (m.mapCachedPartition_lt key), mapOffset_eq,
    mapCachedPartition_eq, mapSuperPartition_eq_mod]
  have outer := Nat.div_add_mod (key / m.superPartitions) m.cachedPartitions
  have inner := Nat.div_add_mod key m.superPartitions
  rw [Nat.mul_comm] at outer inner
  rw [outer, inner]

variable {m} {superp partition offset : Nat}

theorem mapSuperPartition_mapInverse (hs : superp < m.superPartitions)
    (hp : partition < m.cachedPartitions) :
    m.mapSuperPartition (m.mapInverse superp partition offset) = superp := by
  rw [mapInverse_eq m hs hp, mapSuperPartition_eq_mod, Nat.mul_add_mod_of_lt hs]

theorem mapCachedPartition_mapInverse (hs : superp < m.superPartitions)
    (hp : partition < m.cachedPartitions) :
    m.mapCachedPartition (m.mapInverse superp partition offset) = partition := by
  rw [mapInverse_eq m hs hp, mapCachedPartition_eq, Nat.mul_comm _ m.superPartitions,
    Nat.mul_add_div (by omega), Nat.div_eq_of_lt hs, Nat.add_zero, Nat.mul_add_mod_of_lt hp]

theorem mapOffset_mapInverse (hs : superp < m.superPartitions)
    (hp : partition < m.cachedPartitions) :
    m.mapOffset (m.mapInverse superp partition offset) = offset := by
  rw [mapInverse_eq m hs hp, mapOffset_eq, Nat.mul_comm _ m.superPartitions,
    Nat.mul_add_div (by omega), Nat.div_eq_of_lt hs, Nat.add_zero, Nat.mul_comm offset,
    Nat.mul_add_div (by omega), Nat.div_eq_of_lt hp, Nat.add_zero]

end Mapping

end MBFGraph
