import MBFGraph.Core.Tuning

/-!
# What autotuning finds

The two loops of `autotune` look through a list of candidates (`candidates`) for the first one that
passes the test (`tuneStreamUnit_eq`). So what autotuning finds, and whether it ends, can be said
without the loops.
-/

namespace MBFGraph

namespace Machine

variable (m : Machine)

/-! ## The test -/

/-- The test in the inner loop. -/
def accepts (partitions : Nat) (candidate : Nat × Nat) : Bool :=
  let budget := m.calculateRamBudget candidate.2 (partitions / candidate.2) candidate.1
  fitsInRam budget.1 m.availableRam && decide (wrap64 (candidate.1 * candidate.2) ≤ budget.2.1)

/-- What autotuning leaves if it takes a candidate. -/
def tunedAt (partitions : Nat) (candidate : Nat × Nat) : Tuned :=
  let budget := m.calculateRamBudget candidate.2 (partitions / candidate.2) candidate.1
  ⟨candidate.2, partitions / candidate.2,
    halveTo (m.llcSize / m.llcLineSize) (partitions / candidate.2), candidate.1, budget.2.1,
    budget.2.2⟩

/-- The candidates with the exponents `j` to `j + rest - 1`. -/
def superpCandidates (streamUnit j rest : Nat) : List (Nat × Nat) :=
  (List.range' j rest).map fun j => (streamUnit, 2 ^ j)

/-- Neither a division by zero nor a wrong size makes the loops fail. -/
def Divides : Prop := m.llcLineSize ≠ 0 ∧ wrap64 (m.maxBuffers + 1) ≠ 0

variable {m}

/-- The loop over `super_partitions`. With `2 ^ 63` partitions it comes to zero super partitions. -/
theorem tuneSuperPartitions_eq (divides : m.Divides) {q j rest : Nat} (small : q < 64)
    (isRest : j + rest = q + 1) (streamUnit : Nat) {fuel : Nat} (enough : rest + 1 ≤ fuel) :
    m.tuneSuperPartitions (2 ^ q) streamUnit fuel (wrap64 (2 ^ j)) =
      match (superpCandidates streamUnit j rest).find? (m.accepts (2 ^ q)) with
      | some candidate => some (some (m.tunedAt (2 ^ q) candidate))
      | none => if q < 63 then some none else none := by
  induction rest generalizing j fuel with
  | zero =>
    obtain ⟨fuel, rfl⟩ : ∃ f, fuel = f + 1 := ⟨fuel - 1, by omega⟩
    obtain rfl : j = q + 1 := by omega
    unfold tuneSuperPartitions
    simp only [superpCandidates, List.range'_zero, List.map_nil, List.find?_nil]
    by_cases last : q < 63
    · have pow : wrap64 (2 ^ (q + 1)) = 2 ^ (q + 1) :=
        Nat.mod_eq_of_lt (Nat.pow_lt_pow_right (by decide) (by omega))
      have more : ¬ wrap64 (2 ^ (q + 1)) ≤ 2 ^ q := by
        rw [pow, Nat.pow_le_pow_iff_right (by decide)]
        omega
      rw [if_neg more, if_pos last]
    · obtain rfl : q = 63 := by omega
      have zero : wrap64 (2 ^ (63 + 1)) = 0 := by decide
      rw [zero, if_pos (Nat.zero_le _), if_pos (.inl rfl), if_neg last]
  | succ rest ih =>
    obtain ⟨fuel, rfl⟩ : ∃ f, fuel = f + 1 := ⟨fuel - 1, by omega⟩
    have pow : wrap64 (2 ^ j) = 2 ^ j :=
      Nat.mod_eq_of_lt (Nat.pow_lt_pow_right (by decide) (by omega))
    have le : 2 ^ j ≤ 2 ^ q := (Nat.pow_le_pow_iff_right (by decide)).mpr (by omega)
    have double : wrap64 (2 ^ j * 2) = wrap64 (2 ^ (j + 1)) := by rw [Nat.pow_succ]
    have noFailure : ¬ (2 ^ j = 0 ∨ m.llcLineSize = 0 ∨ wrap64 (m.maxBuffers + 1) = 0) := by
      rintro (zero | zero | zero)
      · exact absurd zero (Nat.two_pow_pos j).ne'
      · exact divides.1 zero
      · exact divides.2 zero
    unfold tuneSuperPartitions
    rw [pow, if_pos le, if_neg noFailure]
    have split : superpCandidates streamUnit j (rest + 1) =
        (streamUnit, 2 ^ j) :: superpCandidates streamUnit (j + 1) rest := by
      simp [superpCandidates, List.range'_succ]
    rw [split, List.find?_cons]
    by_cases accepted : m.accepts (2 ^ q) (streamUnit, 2 ^ j) = true
    · have test := accepted
      unfold accepts at test
      rw [Bool.and_eq_true, decide_eq_true_eq] at test
      rw [accepted]
      simp only
      rw [if_pos test]
      rfl
    · have test := accepted
      unfold accepts at test
      rw [Bool.and_eq_true, decide_eq_true_eq] at test
      rw [Bool.not_eq_true] at accepted
      rw [accepted]
      simp only
      rw [if_neg test, double]
      exact ih (by omega) (by omega)

/-- Without the divisions the loop does not get far. -/
theorem tuneSuperPartitions_crash (crash : ¬ m.Divides) {partitions : Nat}
    (positive : 1 ≤ partitions) (streamUnit fuel : Nat) :
    m.tuneSuperPartitions partitions streamUnit fuel 1 = none := by
  cases fuel with
  | zero => rfl
  | succ fuel =>
    have failure : 1 = 0 ∨ m.llcLineSize = 0 ∨ wrap64 (m.maxBuffers + 1) = 0 := by
      unfold Divides at crash
      tauto
    unfold tuneSuperPartitions
    rw [if_pos positive, if_pos failure]

/-! ## The search -/

/-- The candidates from the stream unit `2 ^ (24 - a)` on. -/
def candidatesFrom (q a rest : Nat) : List (Nat × Nat) :=
  (List.range' a rest).flatMap fun a => superpCandidates (2 ^ (24 - a)) 0 (q + 1)

/-- All candidates for `2 ^ q` partitions, in the order of the search: stream units from 16 MiB down
to 16 KiB, and powers of two of super partitions for each. With `2 ^ 63` partitions the search does
not get to the second stream unit. -/
def candidates (q : Nat) : List (Nat × Nat) := candidatesFrom q 0 (if q < 63 then 11 else 1)

theorem candidatesFrom_succ (q a rest : Nat) :
    candidatesFrom q a (rest + 1) =
      superpCandidates (2 ^ (24 - a)) 0 (q + 1) ++ candidatesFrom q (a + 1) rest := by
  simp [candidatesFrom, List.range'_succ]

theorem tuneStreamUnit_from (divides : m.Divides) {q a rest : Nat} (small : q < 63)
    (isRest : a + rest = 11) {fuel : Nat} (enough : rest + 1 ≤ fuel) :
    m.tuneStreamUnit (2 ^ q) fuel (2 ^ (24 - a)) =
      some (((candidatesFrom q a rest).find? (m.accepts (2 ^ q))).map (m.tunedAt (2 ^ q))) := by
  induction rest generalizing a fuel with
  | zero =>
    obtain ⟨fuel, rfl⟩ : ∃ f, fuel = f + 1 := ⟨fuel - 1, by omega⟩
    obtain rfl : a = 11 := by omega
    unfold tuneStreamUnit
    rw [if_neg (by decide)]
    rfl
  | succ rest ih =>
    obtain ⟨fuel, rfl⟩ : ∃ f, fuel = f + 1 := ⟨fuel - 1, by omega⟩
    have large : 8192 < 2 ^ (24 - a) :=
      Nat.lt_of_lt_of_le (by decide : 8192 < 2 ^ 14) (Nat.pow_le_pow_right (by decide) (by omega))
    have half : 2 ^ (24 - a) / 2 = 2 ^ (24 - (a + 1)) := by
      rw [show 24 - a = 24 - (a + 1) + 1 by omega, Nat.pow_succ, Nat.mul_div_cancel _ (by decide)]
    have sweep := tuneSuperPartitions_eq divides (q := q) (j := 0) (by omega) (Nat.zero_add (q + 1))
      (2 ^ (24 - a)) (show q + 1 + 1 ≤ 66 by omega)
    have one : wrap64 (2 ^ 0) = 1 := rfl
    rw [one] at sweep
    unfold tuneStreamUnit
    rw [if_pos large, sweep, half, candidatesFrom_succ, List.find?_append]
    cases (superpCandidates (2 ^ (24 - a)) 0 (q + 1)).find? (m.accepts (2 ^ q)) with
    | some candidate => rfl
    | none =>
      simp only [if_pos small, Option.bind_some, Option.none_or]
      exact ih (by omega) (by omega)

/-- The search finds the first candidate that passes the test. -/
theorem tuneStreamUnit_eq (divides : m.Divides) {q : Nat} (small : q < 64) {fuel : Nat}
    (enough : 12 ≤ fuel) :
    m.tuneStreamUnit (2 ^ q) fuel (16 * 1024 * 1024) =
      match (candidates q).find? (m.accepts (2 ^ q)) with
      | some candidate => some (some (m.tunedAt (2 ^ q) candidate))
      | none => if q < 63 then some none else none := by
  have unit : 16 * 1024 * 1024 = 2 ^ (24 - 0) := by decide
  rw [unit]
  unfold candidates
  by_cases less : q < 63
  · rw [if_pos less, tuneStreamUnit_from divides less (Nat.zero_add 11) enough]
    cases (candidatesFrom q 0 11).find? (m.accepts (2 ^ q)) with
    | some candidate => rfl
    | none => rw [if_pos less]; rfl
  · obtain ⟨fuel, rfl⟩ : ∃ f, fuel = f + 1 := ⟨fuel - 1, by omega⟩
    have sweep := tuneSuperPartitions_eq divides (q := q) (j := 0) small (Nat.zero_add (q + 1))
      (2 ^ (24 - 0)) (show q + 1 + 1 ≤ 66 by omega)
    have one : wrap64 (2 ^ 0) = 1 := rfl
    rw [one] at sweep
    unfold tuneStreamUnit
    have only : (if q < 63 then 11 else 1) = 0 + 1 := if_neg less
    rw [if_pos (by decide), sweep, only, candidatesFrom_succ, List.find?_append]
    cases (superpCandidates (2 ^ (24 - 0)) 0 (q + 1)).find? (m.accepts (2 ^ q)) with
    | some candidate => rfl
    | none =>
      rw [if_neg less]
      rfl

/-! ## Growing the number of partitions -/

theorem growPartitions_eq {verticesPerPartition k : Nat} (small : k < 64)
    (few : ∀ i < k, verticesPerPartition * 2 ^ i < m.vertices)
    (enough : m.vertices ≤ verticesPerPartition * 2 ^ k)
    (fits : verticesPerPartition * 2 ^ k < 2 ^ 64) {j rest : Nat} (isRest : j + rest = k)
    {fuel : Nat} (turns : rest + 1 ≤ fuel) :
    m.growPartitions verticesPerPartition fuel (2 ^ j) = some (2 ^ k) := by
  induction rest generalizing j fuel with
  | zero =>
    obtain ⟨fuel, rfl⟩ : ∃ f, fuel = f + 1 := ⟨fuel - 1, by omega⟩
    obtain rfl : j = k := by omega
    unfold growPartitions
    rw [wrap64, Nat.mod_eq_of_lt fits, if_neg (Nat.not_lt.mpr enough)]
  | succ rest ih =>
    obtain ⟨fuel, rfl⟩ : ∃ f, fuel = f + 1 := ⟨fuel - 1, by omega⟩
    have less := few j (by omega)
    have unwrapped : verticesPerPartition * 2 ^ j < 2 ^ 64 :=
      Nat.lt_of_le_of_lt (Nat.mul_le_mul_left _ (Nat.pow_le_pow_right (by decide) (by omega))) fits
    have double : wrap64 (2 ^ j * 2) = 2 ^ (j + 1) := by
      rw [← Nat.pow_succ]
      exact Nat.mod_eq_of_lt (Nat.pow_lt_pow_right (by decide) (by omega))
    unfold growPartitions
    rw [show wrap64 (verticesPerPartition * 2 ^ j) = verticesPerPartition * 2 ^ j from
      Nat.mod_eq_of_lt unwrapped, if_pos less, double]
    exact ih (by omega) (by omega)

/-- The first power of two that is large enough. -/
theorem exists_growPartitions {verticesPerPartition k : Nat} (small : k < 64)
    (enough : m.vertices ≤ verticesPerPartition * 2 ^ k)
    (fits : verticesPerPartition * 2 ^ k < 2 ^ 64) :
    ∃ first ≤ k, (∀ i < first, verticesPerPartition * 2 ^ i < m.vertices) ∧
      m.vertices ≤ verticesPerPartition * 2 ^ first ∧
      verticesPerPartition * 2 ^ first < 2 ^ 64 ∧
      m.growPartitions verticesPerPartition 66 1 = some (2 ^ first) := by
  have some_ : ∃ i, m.vertices ≤ verticesPerPartition * 2 ^ i := ⟨k, enough⟩
  have le : Nat.find some_ ≤ k := Nat.find_min' some_ enough
  have few : ∀ i < Nat.find some_, verticesPerPartition * 2 ^ i < m.vertices := fun i less =>
    Nat.lt_of_not_le (Nat.find_min some_ less)
  have unwrapped : verticesPerPartition * 2 ^ Nat.find some_ < 2 ^ 64 :=
    Nat.lt_of_le_of_lt (Nat.mul_le_mul_left _ (Nat.pow_le_pow_right (by decide) le)) fits
  refine ⟨Nat.find some_, le, few, Nat.find_spec some_, unwrapped, ?_⟩
  exact growPartitions_eq (by omega) few (Nat.find_spec some_) unwrapped (Nat.zero_add _) (by omega)

/-- The number of partitions that the search starts from. -/
def startPartitions (partitions : Nat) : Nat :=
  if partitions < m.processors then m.processors else partitions

theorem startPartitions_pow {k q : Nat} (isPow : m.processors = 2 ^ q) :
    m.startPartitions (2 ^ k) = 2 ^ max k q := by
  unfold startPartitions
  rw [isPow]
  split
  · rename_i less
    rw [Nat.pow_lt_pow_iff_right (by decide)] at less
    rw [max_eq_right less.le]
  · rename_i notLess
    rw [Nat.pow_lt_pow_iff_right (by decide)] at notLess
    rw [max_eq_left (by omega)]

end Machine

/-- `autotune` returns: `partitions` grows until there are enough, without a product or `partitions`
itself being wrapped, and the search comes to its end. The inner loops need at most 66 turns
(`tuneSuperPartitions_eq`). -/
def AutotuneReturns (m : Machine) : Prop :=
  m.vertexFootprint ≠ 0 ∧ ∃ fuel k result, k < 64 ∧
    m.growPartitions (m.llcSize / m.vertexFootprint) fuel 1 = some (2 ^ k) ∧
    m.vertices ≤ m.llcSize / m.vertexFootprint * 2 ^ k ∧
    m.llcSize / m.vertexFootprint * 2 ^ k < 2 ^ 64 ∧
    m.tuneStreamUnit (m.startPartitions (2 ^ k)) fuel (16 * 1024 * 1024) = some result

namespace Machine

variable {m : Machine}

theorem tuneStreamUnit_crash (crash : ¬ m.Divides) {partitions : Nat} (positive : 1 ≤ partitions)
    (fuel : Nat) : m.tuneStreamUnit partitions fuel (16 * 1024 * 1024) = none := by
  cases fuel with
  | zero => rfl
  | succ fuel =>
    unfold tuneStreamUnit
    rw [if_pos (by decide), tuneSuperPartitions_crash crash positive]
    rfl

/-- With `2 ^ 63` partitions the search has to find a candidate at once. -/
theorem exists_accepts_of_tuneStreamUnit (divides : m.Divides) {fuel : Nat} {result : Option Tuned}
    (found : m.tuneStreamUnit (2 ^ 63) fuel (16 * 1024 * 1024) = some result) :
    ∃ j < 64, m.accepts (2 ^ 63) (16 * 1024 * 1024, 2 ^ j) = true := by
  cases fuel with
  | zero => contradiction
  | succ fuel =>
    have sweep := tuneSuperPartitions_eq divides (q := 63) (j := 0) (by decide) (Nat.zero_add 64)
      (16 * 1024 * 1024) (Nat.le_refl 65 |>.trans (by decide : 65 ≤ 66))
    have one : wrap64 (2 ^ 0) = 1 := rfl
    rw [one] at sweep
    unfold tuneStreamUnit at found
    rw [if_pos (by decide), sweep] at found
    cases isFirst : (superpCandidates (16 * 1024 * 1024) 0 64).find? (m.accepts (2 ^ 63)) with
    | none => rw [isFirst] at found; contradiction
    | some candidate =>
      have accepted := List.find?_some isFirst
      obtain ⟨j, inRange, rfl⟩ := List.mem_map.mp (List.mem_of_find?_eq_some isFirst)
      rw [List.mem_range'_1] at inRange
      exact ⟨j, by omega, accepted⟩

/-- A candidate with the largest stream unit. -/
theorem mem_candidates_first {q j : Nat} (le : j ≤ q) :
    (16 * 1024 * 1024, 2 ^ j) ∈ candidates q := by
  refine List.mem_flatMap.mpr ⟨0, ?_, ?_⟩
  · rw [List.mem_range'_1]
    split <;> omega
  · exact List.mem_map.mpr ⟨j, by rw [List.mem_range'_1]; omega, rfl⟩

end Machine

/-- Autotuning returns exactly if the cache holds a vertex and doubling reaches the number of vertices
below `2 ^ 64`, no division is by zero, and there are fewer than `2 ^ 63` partitions or a candidate
with the largest stream unit passes the test. -/
theorem autotuneReturns_iff (m : Machine) (powers : ∃ q < 64, m.processors = 2 ^ q)
    (footprint : 1 ≤ m.vertexFootprint) :
    AutotuneReturns m ↔
      (∃ k < 64, m.vertices ≤ m.llcSize / m.vertexFootprint * 2 ^ k ∧
        m.llcSize / m.vertexFootprint * 2 ^ k < 2 ^ 64) ∧
      m.llcLineSize ≠ 0 ∧ wrap64 (m.maxBuffers + 1) ≠ 0 ∧
      (m.processors < 2 ^ 63 ∧ m.vertices ≤ m.llcSize / m.vertexFootprint * 2 ^ 62 ∨
        ∃ j < 64, m.accepts (2 ^ 63) (16 * 1024 * 1024, 2 ^ j) = true) := by
  obtain ⟨q, smallQ, isPow⟩ := powers
  constructor
  · rintro ⟨-, fuel, k, result, small, grown, enough, fits, found⟩
    rw [Machine.startPartitions_pow isPow] at found
    have divides : m.Divides := by
      by_contra crash
      rw [Machine.tuneStreamUnit_crash crash (Nat.two_pow_pos _)] at found
      contradiction
    refine ⟨⟨k, small, enough, fits⟩, divides.1, divides.2, ?_⟩
    by_cases few : max k q < 63
    · left
      refine ⟨?_, enough.trans (Nat.mul_le_mul_left _ (Nat.pow_le_pow_right (by decide) (by omega)))⟩
      rw [isPow]
      exact Nat.pow_lt_pow_right (by decide) (by omega)
    · right
      rw [show max k q = 63 by omega] at found
      exact Machine.exists_accepts_of_tuneStreamUnit divides found
  · rintro ⟨⟨k, small, enough, fits⟩, line, buffers, last⟩
    have divides : m.Divides := ⟨line, buffers⟩
    obtain ⟨first, le, few, enough, fits, grown⟩ := Machine.exists_growPartitions small enough fits
    have search := Machine.tuneStreamUnit_eq divides (q := max first q) (by omega)
      (show 12 ≤ 66 by decide)
    rw [← Machine.startPartitions_pow isPow] at search
    refine ⟨Nat.ne_of_gt footprint, 66, first, ?_⟩
    cases isFound : (Machine.candidates (max first q)).find?
      (m.accepts (m.startPartitions (2 ^ first))) with
    | some candidate =>
      rw [isFound] at search
      exact ⟨_, by omega, grown, enough, fits, search⟩
    | none =>
      rw [isFound] at search
      have less : max first q < 63 := by
        by_contra more
        have all : max first q = 63 := by omega
        rcases last with ⟨processors, vertices⟩ | ⟨j, smallJ, accepted⟩
        · rw [isPow, Nat.pow_lt_pow_iff_right (by decide)] at processors
          have := few 62 (by omega)
          omega
        · rw [Machine.startPartitions_pow isPow, all, List.find?_eq_none] at isFound
          exact isFound _ (Machine.mem_candidates_first (by omega)) accepted
      simp only [if_pos less] at search
      exact ⟨_, by omega, grown, enough, fits, search⟩

/-- 100 vertices of 8 bytes on one processor. -/
def smallMachine (llcSize availableRam : Nat) : Machine where
  processors := 1
  vertices := 100
  vertexSize := 8
  vertexFootprint := 24
  llcSize := llcSize
  llcLineSize := 64
  availableRam := availableRam
  maxStreams := 5
  maxBuffers := 4
  numIoqs := 1
  memoryBufferObjectSize := 128
  diskStreamObjectSize := 512
  ioqObjectSize := 256
  qsort := false

theorem autotuneReturns_iff_small :
    AutotuneReturns (smallMachine (2 ^ 20) (2 ^ 30)) ↔
      (∃ k < 64, 100 ≤ 2 ^ 20 / 24 * 2 ^ k ∧ 2 ^ 20 / 24 * 2 ^ k < 2 ^ 64) ∧
      64 ≠ 0 ∧ wrap64 (4 + 1) ≠ 0 ∧
      (1 < 2 ^ 63 ∧ 100 ≤ 2 ^ 20 / 24 * 2 ^ 62 ∨
        ∃ j < 64, (smallMachine (2 ^ 20) (2 ^ 30)).accepts (2 ^ 63) (16 * 1024 * 1024, 2 ^ j) = true) :=
  autotuneReturns_iff _ ⟨0, by decide, rfl⟩ (by decide)

/-- A cache of 16 bytes has no room for a vertex with a footprint of 24 bytes. -/
theorem not_autotuneReturns_tiny : ¬ AutotuneReturns (smallMachine 16 (2 ^ 30)) := by
  rintro ⟨-, fuel, k, result, -, -, enough, -⟩
  have none_ : (smallMachine 16 (2 ^ 30)).llcSize / (smallMachine 16 (2 ^ 30)).vertexFootprint = 0 :=
    rfl
  rw [none_, Nat.zero_mul] at enough
  exact absurd enough (by decide)

/-! ## The memory limit -/

/-- Rounding to a double changes little. -/
theorem roundDouble_bounds (n : Nat) :
    n * (2 ^ 52 - 1) ≤ roundDouble n * 2 ^ 52 ∧ roundDouble n * 2 ^ 52 ≤ n * (2 ^ 52 + 1) := by
  have unitSmall : n = 0 ∨ 2 ^ (Nat.log2 n - 52) = 1 ∨ 2 ^ (Nat.log2 n - 52) * 2 ^ 52 ≤ n := by
    by_cases zero : n = 0
    · exact .inl zero
    · by_cases small : Nat.log2 n ≤ 52
      · exact .inr (.inl (by rw [Nat.sub_eq_zero_of_le small, Nat.pow_zero]))
      · refine .inr (.inr ?_)
        rw [← Nat.pow_add, Nat.sub_add_cancel (by omega)]
        exact Nat.log2_self_le zero
  have near : roundDouble n ≤ n + 2 ^ (Nat.log2 n - 52) ∧ n ≤ roundDouble n + 2 ^ (Nat.log2 n - 52) ∧
      (2 ^ (Nat.log2 n - 52) = 1 → roundDouble n = n) := by
    unfold roundDouble
    have positive := Nat.two_pow_pos (Nat.log2 n - 52)
    generalize 2 ^ (Nat.log2 n - 52) = unit at positive
    have split := Nat.div_add_mod n unit
    have less := Nat.mod_lt n positive
    rw [Nat.mul_comm] at split
    simp only [Nat.add_mul, Nat.one_mul]
    refine ⟨?_, ?_, fun one => ?_⟩
    · split <;> omega
    · split <;> omega
    · subst one
      rw [Nat.mod_one, if_neg (by omega), Nat.div_one, Nat.mul_one]
  obtain ⟨above, below, exact_⟩ := near
  rcases unitSmall with zero | one | small
  · have none_ : roundDouble n = 0 := by rw [zero]; decide
    omega
  · have same := exact_ one
    omega
  · omega

/-- What fits in nine tenths of the memory fits in the memory. -/
theorem le_of_fitsInRam {ramBudget availableRam : Nat} (fits : fitsInRam ramBudget availableRam = true) :
    ramBudget ≤ availableRam := by
  have test := of_decide_eq_true fits
  have budget := (roundDouble_bounds ramBudget).1
  have ram := (roundDouble_bounds availableRam).2
  have scaled := (roundDouble_bounds (8106479329266893 * roundDouble availableRam)).2
  omega

namespace Machine

variable (m : Machine)

/-- The memory that a candidate needs besides the buffers, as `calculate_ram_budget` adds it up. -/
def needs (partitions : Nat) (candidate : Nat × Nat) : Nat :=
  (m.calculateRamBudget candidate.2 (partitions / candidate.2) candidate.1).1

/-- A candidate that leaves less than a page for each buffer, or whose units for all super partitions
are `2 ^ 64` bytes or more. -/
def Tight (partitions : Nat) (candidate : Nat × Nat) : Prop :=
  fitsInRam (m.needs partitions candidate) m.availableRam = true ∧
    (m.availableRam < m.needs partitions candidate + (m.maxBuffers + 1) * 8192 ∨
      2 ^ 64 ≤ candidate.1 * candidate.2)

/-- A candidate that leaves room for a unit for each super partition, and a page more, in each
buffer. -/
def Roomy (partitions : Nat) (candidate : Nat × Nat) : Prop :=
  fitsInRam (m.needs partitions candidate) m.availableRam = true ∧
    m.needs partitions candidate + (m.maxBuffers + 1) * (candidate.1 * candidate.2 + 8192) ≤
      m.availableRam

theorem exists_of_mem_candidates {q : Nat} {candidate : Nat × Nat}
    (member : candidate ∈ candidates q) :
    ∃ i j, 14 ≤ i ∧ i ≤ 24 ∧ j ≤ q ∧ candidate = (2 ^ i, 2 ^ j) := by
  obtain ⟨a, inRange, sweep⟩ := List.mem_flatMap.mp member
  obtain ⟨j, exponent, rfl⟩ := List.mem_map.mp sweep
  rw [List.mem_range'_1] at inRange exponent
  have few : a ≤ 10 := by split at inRange <;> omega
  exact ⟨24 - a, j, by omega, by omega, by omega, rfl⟩

variable {m}

/-- The size of a buffer, for a budget that fits. -/
theorem bufferSize_eq (ram : m.availableRam < 2 ^ 64) (buffers : m.maxBuffers + 1 < 2 ^ 64)
    {partitions : Nat} {candidate : Nat × Nat} (le : m.needs partitions candidate ≤ m.availableRam) :
    (m.calculateRamBudget candidate.2 (partitions / candidate.2) candidate.1).2.1 =
      let room := (m.availableRam - m.needs partitions candidate) / (m.maxBuffers + 1)
      if room < 8192 then 2 ^ 64 - 8192 else room - room % 8192 - 8192 := by
  have value : (m.calculateRamBudget candidate.2 (partitions / candidate.2) candidate.1).2.1 =
      sub64 (sub64 m.availableRam (m.needs partitions candidate) / wrap64 (m.maxBuffers + 1) -
        sub64 m.availableRam (m.needs partitions candidate) / wrap64 (m.maxBuffers + 1) % 8192)
        8192 := rfl
  have rest : sub64 m.availableRam (m.needs partitions candidate) =
      m.availableRam - m.needs partitions candidate := by
    unfold sub64 wrap64
    omega
  have count : wrap64 (m.maxBuffers + 1) = m.maxBuffers + 1 := Nat.mod_eq_of_lt buffers
  have small : (m.availableRam - m.needs partitions candidate) / (m.maxBuffers + 1) < 2 ^ 64 :=
    Nat.lt_of_le_of_lt (Nat.div_le_self _ _) (by omega)
  rw [value, rest, count]
  simp only
  generalize (m.availableRam - m.needs partitions candidate) / (m.maxBuffers + 1) = room at small
  unfold sub64 wrap64
  split <;> omega

/-- The test accepts the candidates with room, and those that are so tight that something wraps. -/
theorem accepts_iff (ram : m.availableRam < 2 ^ 64) (buffers : m.maxBuffers + 1 < 2 ^ 64) {q : Nat}
    (small : q < 64) {candidate : Nat × Nat} (member : candidate ∈ candidates q) (partitions : Nat) :
    m.accepts partitions candidate = true ↔
      m.Roomy partitions candidate ∨ m.Tight partitions candidate := by
  unfold accepts Roomy Tight
  simp only
  rw [Bool.and_eq_true, decide_eq_true_eq, ← and_or_left]
  change fitsInRam (m.needs partitions candidate) m.availableRam = true ∧ _ ↔ _
  refine and_congr_right fun fits => ?_
  have le := le_of_fitsInRam fits
  rw [bufferSize_eq ram buffers le]
  simp only
  obtain ⟨i, j, least, most, exponent, rfl⟩ := exists_of_mem_candidates member
  simp only
  rw [← Nat.pow_add]
  have positive : 0 < m.maxBuffers + 1 := Nat.succ_pos _
  have room_lt : (m.availableRam - m.needs partitions (2 ^ i, 2 ^ j)) / (m.maxBuffers + 1) < 8192 ↔
      m.availableRam < m.needs partitions (2 ^ i, 2 ^ j) + (m.maxBuffers + 1) * 8192 := by
    rw [Nat.div_lt_iff_lt_mul positive, Nat.mul_comm]
    omega
  have le_room : 2 ^ (i + j) + 8192 ≤
      (m.availableRam - m.needs partitions (2 ^ i, 2 ^ j)) / (m.maxBuffers + 1) ↔
      m.needs partitions (2 ^ i, 2 ^ j) + (m.maxBuffers + 1) * (2 ^ (i + j) + 8192) ≤
        m.availableRam := by
    rw [Nat.le_div_iff_mul_le positive, Nat.mul_comm]
    omega
  rw [← room_lt, ← le_room]
  have pages : 2 ^ (i + j) % 8192 = 0 :=
    Nat.mod_eq_zero_of_dvd (Nat.pow_dvd_pow 2 (show 13 ≤ i + j by omega))
  generalize (m.availableRam - m.needs partitions (2 ^ i, 2 ^ j)) / (m.maxBuffers + 1) = room
  by_cases unwrapped : i + j < 64
  · have pow : 2 ^ (i + j) ≤ 2 ^ 63 := Nat.pow_le_pow_right (by decide) (by omega)
    rw [wrap64, Nat.mod_eq_of_lt (by omega)]
    split <;> omega
  · have large : 2 ^ 64 ≤ 2 ^ (i + j) := Nat.pow_le_pow_right (by decide) (by omega)
    have zero : wrap64 (2 ^ (i + j)) = 0 :=
      Nat.mod_eq_zero_of_dvd (Nat.pow_dvd_pow 2 (Nat.le_of_not_lt unwrapped))
    rw [zero]
    exact iff_of_true (Nat.zero_le _) (.inr (.inr large))

end Machine


/-- What autotuning promises about memory: everything together is available, a buffer holds a stream
unit for each super partition and is made of pages, and no subtraction has wrapped. -/
structure Affordable (m : Machine) (t : Tuned) (needs : Nat) : Prop where
  available : needs + (m.maxBuffers + 1) * t.bufferSize ≤ m.availableRam
  units : t.streamUnit * t.superPartitions ≤ t.bufferSize
  positive : 0 < t.bufferSize
  pages : 8192 ∣ t.bufferSize
  unwrapped : needs ≤ m.availableRam
  unwrapped' : 8192 ≤ (m.availableRam - needs) / (m.maxBuffers + 1) -
    (m.availableRam - needs) / (m.maxBuffers + 1) % 8192

/-- Whenever autotuning succeeds, its result is affordable. -/
def RespectsMemory (m : Machine) : Prop :=
  ∀ t, m.autotune = some t → Affordable m t
    (m.calculateRamBudget t.superPartitions t.cachedPartitions t.streamUnit).1

namespace Machine

variable {m : Machine}

/-- The search begins with `2 ^ q` partitions: the first loop ends, and no division is by zero. -/
def Searches (m : Machine) (q : Nat) : Prop :=
  m.vertexFootprint ≠ 0 ∧ m.Divides ∧ ∃ partitions,
    m.growPartitions (m.llcSize / m.vertexFootprint) 66 1 = some partitions ∧
      m.startPartitions partitions = 2 ^ q

/-- Autotuning succeeds with the first candidate that passes the test. -/
theorem autotune_eq_some_iff (powers : ∃ q < 64, m.processors = 2 ^ q) {t : Tuned} :
    m.autotune = some t ↔ ∃ q < 64, m.Searches q ∧ ∃ candidate,
      (candidates q).find? (m.accepts (2 ^ q)) = some candidate ∧ t = m.tunedAt (2 ^ q) candidate := by
  obtain ⟨p, smallP, isPow⟩ := powers
  unfold autotune
  constructor
  · intro tuned
    split at tuned
    · contradiction
    · rename_i footprint
      obtain ⟨partitions, grown, rest⟩ := Option.bind_eq_some_iff.mp tuned
      obtain ⟨result, found, same⟩ := Option.bind_eq_some_iff.mp rest
      obtain ⟨k, smallK, rfl⟩ := growPartitions_pow 66 (Or.inl ⟨0, by decide, rfl⟩) grown
      have isStart := startPartitions_pow (m := m) (k := k) isPow
      change m.tuneStreamUnit (m.startPartitions (2 ^ k)) 12 (16 * 1024 * 1024) = some result at found
      rw [isStart] at found
      have divides : m.Divides := by
        by_contra crash
        rw [tuneStreamUnit_crash crash (Nat.two_pow_pos _)] at found
        contradiction
      refine ⟨max k p, by omega, ⟨footprint, divides, _, grown, isStart⟩, ?_⟩
      rw [id] at same
      rw [tuneStreamUnit_eq divides (by omega) (Nat.le_refl 12), same] at found
      cases isFirst : (candidates (max k p)).find? (m.accepts (2 ^ max k p)) with
      | some candidate =>
        rw [isFirst] at found
        exact ⟨candidate, rfl, (Option.some.inj (Option.some.inj found)).symm⟩
      | none =>
        rw [isFirst] at found
        simp only at found
        split at found
        · exact absurd (Option.some.inj found) (by simp)
        · contradiction
  · rintro ⟨q, small, ⟨footprint, divides, partitions, grown, isStart⟩, candidate, isFirst, rfl⟩
    rw [if_neg footprint, grown, Option.bind_some]
    change (m.tuneStreamUnit (m.startPartitions partitions) 12 (16 * 1024 * 1024)).bind id = _
    rw [isStart, tuneStreamUnit_eq divides small (Nat.le_refl 12), isFirst]
    rfl

/-- A candidate with room is affordable. -/
theorem Roomy.affordable (ram : m.availableRam < 2 ^ 64) (buffers : m.maxBuffers + 1 < 2 ^ 64)
    {q : Nat} {candidate : Nat × Nat} (member : candidate ∈ candidates q) {partitions : Nat}
    (roomy : m.Roomy partitions candidate) :
    Affordable m (m.tunedAt partitions candidate) (m.needs partitions candidate) := by
  obtain ⟨fits, room⟩ := roomy
  have le := le_of_fitsInRam fits
  have positive : 0 < m.maxBuffers + 1 := Nat.succ_pos _
  have size : (m.tunedAt partitions candidate).bufferSize = _ := bufferSize_eq ram buffers le
  obtain ⟨i, j, least, -, -, rfl⟩ := exists_of_mem_candidates member
  simp only [← Nat.pow_add] at room
  have pages : 2 ^ (i + j) % 8192 = 0 :=
    Nat.mod_eq_zero_of_dvd (Nat.pow_dvd_pow 2 (show 13 ≤ i + j by omega))
  have large : 2 ^ 13 ≤ 2 ^ (i + j) :=
    Nat.pow_le_pow_right (by decide) (show 13 ≤ i + j by omega)
  have units : (m.tunedAt partitions (2 ^ i, 2 ^ j)).streamUnit *
      (m.tunedAt partitions (2 ^ i, 2 ^ j)).superPartitions = 2 ^ (i + j) := (Nat.pow_add 2 i j).symm
  have enough : 2 ^ (i + j) + 8192 ≤
      (m.availableRam - m.needs partitions (2 ^ i, 2 ^ j)) / (m.maxBuffers + 1) := by
    rw [Nat.le_div_iff_mul_le positive, Nat.mul_comm]
    omega
  have all := Nat.mul_div_le (m.availableRam - m.needs partitions (2 ^ i, 2 ^ j)) (m.maxBuffers + 1)
  generalize isShare : (m.availableRam - m.needs partitions (2 ^ i, 2 ^ j)) / (m.maxBuffers + 1) =
    share at size enough all
  rw [if_neg (by omega)] at size
  constructor
  · rw [size]
    have less := Nat.mul_le_mul_left (m.maxBuffers + 1) (show share - share % 8192 - 8192 ≤ share by omega)
    omega
  · rw [units, size]
    omega
  · rw [size]
    omega
  · rw [size]
    omega
  · exact le
  · rw [isShare]
    omega

/-- A tight one is not. -/
theorem Tight.not_affordable {candidate : Nat × Nat} {partitions : Nat} (tight : m.Tight partitions candidate) :
    ¬ Affordable m (m.tunedAt partitions candidate) (m.needs partitions candidate) := by
  intro affordable
  rcases tight.2 with short | wrapped
  · have enough := affordable.unwrapped'
    have room : (m.availableRam - m.needs partitions candidate) / (m.maxBuffers + 1) < 8192 := by
      rw [Nat.div_lt_iff_lt_mul (Nat.succ_pos _), Nat.mul_comm]
      omega
    omega
  · have units : candidate.1 * candidate.2 ≤ (m.tunedAt partitions candidate).bufferSize :=
      affordable.units
    have bounded : (m.tunedAt partitions candidate).bufferSize < 2 ^ 64 :=
      Nat.mod_lt _ (Nat.two_pow_pos 64)
    omega

end Machine

/-- Autotuning respects the memory limit exactly if in its search every tight candidate comes behind
one with room. -/
theorem respectsMemory_iff (m : Machine) (powers : ∃ q < 64, m.processors = 2 ^ q)
    (ram : m.availableRam < 2 ^ 64) (buffers : m.maxBuffers < 2 ^ 64) :
    RespectsMemory m ↔ ∀ q < 64, m.Searches q →
      ∀ front candidate back, Machine.candidates q = front ++ candidate :: back →
        m.Tight (2 ^ q) candidate → ∃ earlier ∈ front, m.Roomy (2 ^ q) earlier := by
  have divided : ∀ {q}, m.Searches q → m.maxBuffers + 1 < 2 ^ 64 := by
    rintro q ⟨-, divides, -⟩
    refine Nat.lt_of_le_of_ne buffers fun all => divides.2 ?_
    rw [all]
    exact Nat.mod_self _
  constructor
  · intro respects q small searches front candidate back isSplit tight
    have buffers := divided searches
    by_contra none_
    push Not at none_
    have accepted : m.accepts (2 ^ q) candidate = true :=
      (Machine.accepts_iff ram buffers small (by rw [isSplit]; simp) _).mpr (.inr tight)
    have isSome : ((Machine.candidates q).find? (m.accepts (2 ^ q))).isSome := by
      rw [List.find?_isSome]
      exact ⟨candidate, by rw [isSplit]; simp, accepted⟩
    obtain ⟨first, isFirst⟩ := Option.isSome_iff_exists.mp isSome
    have affordable := respects _ ((Machine.autotune_eq_some_iff powers).mpr
      ⟨q, small, searches, first, isFirst, rfl⟩)
    -- the first candidate that is accepted is the tight one, or one in front of it
    have isTight : m.Tight (2 ^ q) first := by
      rw [isSplit, List.find?_append] at isFirst
      cases inFront : front.find? (m.accepts (2 ^ q)) with
      | none =>
        rw [inFront, Option.none_or, List.find?_cons, accepted] at isFirst
        exact Option.some.inj isFirst ▸ tight
      | some earlier =>
        rw [inFront, Option.some_or] at isFirst
        obtain rfl := Option.some.inj isFirst
        have member := List.mem_of_find?_eq_some inFront
        have test := (Machine.accepts_iff ram buffers small
          (by rw [isSplit]; exact List.mem_append_left _ member) _).mp (List.find?_some inFront)
        exact test.resolve_left (none_ earlier member)
    exact isTight.not_affordable affordable
  · intro behind t tuned
    obtain ⟨q, small, searches, candidate, isFirst, rfl⟩ :=
      (Machine.autotune_eq_some_iff powers).mp tuned
    have buffers := divided searches
    obtain ⟨accepted, front, back, isSplit, refused⟩ := List.find?_eq_some_iff_append.mp isFirst
    have member : candidate ∈ Machine.candidates q := by rw [isSplit]; simp
    have notTight : ¬ m.Tight (2 ^ q) candidate := by
      intro tight
      obtain ⟨earlier, inFront, roomy⟩ := behind q small searches front candidate back isSplit tight
      have test := (Machine.accepts_iff ram buffers small
        (by rw [isSplit]; exact List.mem_append_left _ inFront) _).mpr (.inl roomy)
      have refusal := refused earlier inFront
      rw [test] at refusal
      exact absurd refusal (by decide)
    have roomy := ((Machine.accepts_iff ram buffers small member _).mp accepted).resolve_right notTight
    exact roomy.affordable ram buffers member

/-- With 1 GiB of memory nothing is tight. -/
theorem respectsMemory_iff_small :
    RespectsMemory (smallMachine (2 ^ 20) (2 ^ 30)) ↔ ∀ q < 64,
      (smallMachine (2 ^ 20) (2 ^ 30)).Searches q →
      ∀ front candidate back, Machine.candidates q = front ++ candidate :: back →
        (smallMachine (2 ^ 20) (2 ^ 30)).Tight (2 ^ q) candidate →
        ∃ earlier ∈ front, (smallMachine (2 ^ 20) (2 ^ 30)).Roomy (2 ^ q) earlier :=
  respectsMemory_iff _ ⟨0, by decide, rfl⟩ (by decide) (by decide)

/-- With 40000 bytes of memory the four buffers get `2 ^ 64 - 8192` bytes each. -/
theorem not_respectsMemory_tight : ¬ RespectsMemory (smallMachine (2 ^ 20) 40000) := by
  intro respects
  have tuned : (smallMachine (2 ^ 20) 40000).autotune =
      some ⟨1, 1, 1, 16384, 2 ^ 64 - 8192, 8192⟩ := by decide +kernel
  have available := (respects _ tuned).available
  revert available
  decide +kernel

end MBFGraph
