import Mathlib

/-!
# Autotuning

`configuration::autotune` (`autotuner.hpp:181-212`) picks the numbers of partitions. `unsigned long`
wraps at 2^64; `none` is a loop that does not end or a division by zero.
-/

namespace MBFGraph

/-- The value that an `unsigned long` keeps. -/
def wrap64 (n : Nat) : Nat := n % 2 ^ 64

/-- `a - b` on `unsigned long`. -/
def sub64 (a b : Nat) : Nat := wrap64 (a + (2 ^ 64 - wrap64 b))

/-- Rounding to the 53 bits of a `double`, ties to even. -/
def roundDouble (n : Nat) : Nat :=
  let unit := 2 ^ (Nat.log2 n - 52)
  let down := n / unit
  let rest := n % unit
  if unit < 2 * rest ∨ 2 * rest = unit ∧ down % 2 = 1 then (down + 1) * unit else down * unit

/-- `ram_budget <= RAM_ADJUST * available_ram`; the `double` 0.9 is 8106479329266893 / 2^53. -/
def fitsInRam (ramBudget availableRam : Nat) : Bool :=
  decide (roundDouble ramBudget * 2 ^ 53 ≤ roundDouble (8106479329266893 * roundDouble availableRam))

/-- The independent variables of `configuration`. -/
structure Machine where
  processors : Nat
  vertices : Nat
  vertexSize : Nat
  vertexFootprint : Nat
  llcSize : Nat
  llcLineSize : Nat
  availableRam : Nat
  maxStreams : Nat
  maxBuffers : Nat
  numIoqs : Nat
  memoryBufferObjectSize : Nat
  diskStreamObjectSize : Nat
  ioqObjectSize : Nat
  qsort : Bool

/-- The dependent variables. -/
structure Tuned where
  superPartitions : Nat
  cachedPartitions : Nat
  fanout : Nat
  streamUnit : Nat
  bufferSize : Nat
  vertexStateBufferSize : Nat
deriving DecidableEq

namespace Machine

variable (m : Machine)

/-- The loop of `set_cache`. -/
def halveTo (cacheLines : Nat) : Nat → Nat
  | 0 => 0
  | fanout + 1 => if cacheLines < fanout + 1 then halveTo cacheLines ((fanout + 1) / 2)
      else fanout + 1
decreasing_by omega

/-- `calculate_ram_budget`: the budget, `buffer_size` and `vertex_state_buffer_size`. -/
def calculateRamBudget (superPartitions cachedPartitions streamUnit : Nat) : Nat × Nat × Nat :=
  let vertexStateBufferSize :=
    wrap64 (m.vertices / superPartitions * m.vertexSize + 8192 - 1) / 8192 * 8192
  let auxCnt := if m.qsort then 0 else 1
  let ramBudget := wrap64 (vertexStateBufferSize +
    (m.maxBuffers + auxCnt) * cachedPartitions * 8 + (m.maxBuffers + auxCnt) * m.processors * 8 +
    m.maxBuffers * cachedPartitions * 8 + m.maxBuffers * m.processors * 8 +
    m.numIoqs * streamUnit + m.numIoqs * m.ioqObjectSize +
    m.maxStreams * m.diskStreamObjectSize + m.maxBuffers * m.memoryBufferObjectSize)
  let bufferSize := sub64 m.availableRam ramBudget / wrap64 (m.maxBuffers + 1)
  (ramBudget, sub64 (bufferSize - bufferSize % 8192) 8192, vertexStateBufferSize)

/-- The loop over `super_partitions`, which doubles: `some none` if no number fits. -/
def tuneSuperPartitions (partitions streamUnit : Nat) : Nat → Nat → Option (Option Tuned)
  | 0, _ => none
  | fuel + 1, superPartitions =>
    if superPartitions ≤ partitions then
      if superPartitions = 0 ∨ m.llcLineSize = 0 ∨ wrap64 (m.maxBuffers + 1) = 0 then none
      else
        let cachedPartitions := partitions / superPartitions
        let fanout := halveTo (m.llcSize / m.llcLineSize) cachedPartitions
        let budget := m.calculateRamBudget superPartitions cachedPartitions streamUnit
        if fitsInRam budget.1 m.availableRam ∧
            wrap64 (streamUnit * superPartitions) ≤ budget.2.1 then
          some (some ⟨superPartitions, cachedPartitions, fanout, streamUnit, budget.2.1, budget.2.2⟩)
        else tuneSuperPartitions partitions streamUnit fuel (wrap64 (superPartitions * 2))
    else some none

/-- The loop over `stream_unit`, which is halved: `some none` if autotuning fails. -/
def tuneStreamUnit (partitions : Nat) : Nat → Nat → Option (Option Tuned)
  | 0, _ => none
  | fuel + 1, streamUnit =>
    if 8192 < streamUnit then
      (m.tuneSuperPartitions partitions streamUnit 66 1).bind fun found =>
        match found with
        | some tuned => some (some tuned)
        | none => tuneStreamUnit partitions fuel (streamUnit / 2)
    else some none

/-- The loop that doubles `partitions`. After 64 turns `partitions` is zero and stays so. -/
def growPartitions (verticesPerPartition : Nat) : Nat → Nat → Option Nat
  | 0, _ => none
  | fuel + 1, partitions =>
    if wrap64 (verticesPerPartition * partitions) < m.vertices then
      growPartitions verticesPerPartition fuel (wrap64 (partitions * 2))
    else some partitions

/-- `autotune`, if it returns true. -/
def autotune : Option Tuned :=
  if m.vertexFootprint = 0 then none
  else (m.growPartitions (m.llcSize / m.vertexFootprint) 66 1).bind fun partitions =>
    (m.tuneStreamUnit (if partitions < m.processors then m.processors else partitions) 12
      (16 * 1024 * 1024)).bind id

end Machine

/-- A power of two below 2^64 that is doubled stays one, or becomes zero. -/
theorem wrap64_double (q : Nat) (below : q < 64) :
    (∃ r < 64, wrap64 (2 ^ q * 2) = 2 ^ r) ∨ wrap64 (2 ^ q * 2) = 0 := by
  unfold wrap64
  rw [← Nat.pow_succ]
  rcases Nat.lt_or_ge (q + 1) 64 with more | last
  · exact Or.inl ⟨q + 1, more, Nat.mod_eq_of_lt (Nat.pow_lt_pow_right (by decide) more)⟩
  · obtain rfl : q = 63 := by omega
    exact Or.inr rfl

theorem growPartitions_pow {m : Machine} {verticesPerPartition : Nat} (fuel : Nat) {partitions p : Nat}
    (power : (∃ q < 64, p = 2 ^ q) ∨ p = 0 ∧ 0 < m.vertices)
    (found : m.growPartitions verticesPerPartition fuel p = some partitions) :
    ∃ q < 64, partitions = 2 ^ q := by
  induction fuel generalizing p with
  | zero => contradiction
  | succ fuel ih =>
    unfold Machine.growPartitions at found
    split at found
    · rename_i more
      have vertices : 0 < m.vertices := by omega
      refine ih ?_ found
      rcases power with ⟨q, below, rfl⟩ | ⟨rfl, -⟩
      · exact (wrap64_double q below).imp_right fun zero => ⟨zero, vertices⟩
      · exact Or.inr ⟨rfl, vertices⟩
    · rename_i enough
      obtain rfl := Option.some.inj found
      rcases power with ⟨q, below, isPower⟩ | ⟨rfl, vertices⟩
      · exact ⟨q, below, isPower⟩
      · rw [Nat.mul_zero] at enough
        exact absurd vertices enough

end MBFGraph
