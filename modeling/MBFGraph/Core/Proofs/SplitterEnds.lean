import MBFGraph.Core.XSplitter
import MBFGraph.Core.Tuning

/-!
# When the splitter comes to an end

The rounds of `x_split` do not depend on the records. With powers of two, a fanout of two at least
makes every round add bits of the partition number; with a fanout of one no round adds any.
-/

namespace MBFGraph

section Rounds

theorem shiftOf_two_pow (k : Nat) : shiftOf (2 ^ k) = some k := by
  induction k with
  | zero =>
    unfold shiftOf
    rfl
  | succ k ih =>
    obtain ⟨n, isAdd⟩ : ∃ n, 2 ^ (k + 1) = n + 2 :=
      ⟨2 ^ (k + 1) - 2, by have := Nat.two_pow_pos k; rw [Nat.pow_succ]; omega⟩
    have half : (n + 2) / 2 = 2 ^ k := by rw [← isAdd, Nat.pow_succ]; omega
    rw [isAdd]
    unfold shiftOf
    rw [half, ih]
    rfl

/-- What holds in front of every round of a split by powers of two. -/
structure Splitting (k : Nat) (c : SplitControl) : Prop where
  product : c.numIn * 2 ^ c.shift = 2 ^ k
  fanout : c.fanout = 2 ^ c.shiftDelta
  progress : 0 < c.shiftDelta ∨ c.numIn = 2 ^ k

theorem Splitting.numIn_pos {k : Nat} {c : SplitControl} (splitting : Splitting k c) :
    0 < c.numIn := by
  apply Nat.pos_of_ne_zero
  intro zero
  have product := splitting.product
  rw [zero, Nat.zero_mul] at product
  exact absurd product (Nat.two_pow_pos k).ne

theorem Splitting.numIn_le {k : Nat} {c : SplitControl} (splitting : Splitting k c) :
    c.numIn ≤ 2 ^ k := by
  rw [← splitting.product]
  exact Nat.le_mul_of_pos_right _ (Nat.two_pow_pos _)

/-- Everything is split exactly if no bit is left. -/
theorem Splitting.numIn_lt_iff {k : Nat} {c : SplitControl} (splitting : Splitting k c) :
    c.numIn < 2 ^ k ↔ 0 < c.shift := by
  rw [← splitting.product]
  constructor
  · intro less
    apply Nat.pos_of_ne_zero
    intro zero
    rw [zero, Nat.pow_zero, Nat.mul_one] at less
    exact Nat.lt_irrefl _ less
  · intro more
    have two : 1 < 2 ^ c.shift := Nat.one_lt_two_pow (Nat.pos_iff_ne_zero.mp more)
    calc c.numIn = c.numIn * 1 := (Nat.mul_one _).symm
      _ < c.numIn * 2 ^ c.shift := Nat.mul_lt_mul_of_pos_left two splitting.numIn_pos

/-- The head of a round takes `shift_delta` bits, or those that are left. -/
theorem next_eq {c : SplitControl} (fanout : c.fanout = 2 ^ c.shiftDelta) :
    c.next = ⟨c.numIn * 2 ^ min c.shift c.shiftDelta, c.shift - min c.shift c.shiftDelta,
      min c.shift c.shiftDelta, 2 ^ min c.shift c.shiftDelta⟩ := by
  unfold SplitControl.next
  by_cases fewer : c.shift < c.shiftDelta
  · simp only [if_pos fewer, Nat.min_eq_left (Nat.le_of_lt fewer)]
  · simp only [if_neg fewer, fanout, Nat.min_eq_right (Nat.le_of_not_lt fewer)]

theorem Splitting.next {k : Nat} {c : SplitControl} (splitting : Splitting k c)
    (more : c.numIn < 2 ^ k) :
    Splitting k c.next ∧ c.next.shift < c.shift ∧ c.numIn < c.next.numIn ∧
      c.next.numIn = c.numIn * c.next.fanout := by
  have bits := splitting.numIn_lt_iff.mp more
  have delta := splitting.progress.resolve_right (Nat.ne_of_lt more)
  rw [next_eq splitting.fanout]
  generalize takenEq : min c.shift c.shiftDelta = taken
  have positive : 0 < taken := by omega
  have le : taken ≤ c.shift := by omega
  refine ⟨⟨?_, rfl, Or.inl positive⟩, by change c.shift - taken < c.shift; omega, ?_, rfl⟩
  · change c.numIn * 2 ^ taken * 2 ^ (c.shift - taken) = 2 ^ k
    rw [Nat.mul_assoc, ← Nat.pow_add, Nat.add_sub_cancel' le, splitting.product]
  · change c.numIn < c.numIn * 2 ^ taken
    have two : 1 < 2 ^ taken := Nat.one_lt_two_pow (Nat.pos_iff_ne_zero.mp positive)
    exact (Nat.lt_mul_iff_one_lt_right splitting.numIn_pos).mpr two

/-- By induction on the bits that are left. -/
theorem Splitting.growsTo {k : Nat} (bits : Nat) {c : SplitControl} (splitting : Splitting k c)
    (left : c.shift ≤ bits) : GrowsTo (2 ^ k) c := by
  induction bits generalizing c with
  | zero =>
    have notLess : ¬ c.numIn < 2 ^ k := fun less => by
      have := splitting.numIn_lt_iff.mp less
      omega
    exact .done (Nat.le_antisymm splitting.numIn_le (Nat.le_of_not_lt notLess))
  | succ bits ih =>
    rcases Nat.lt_or_eq_of_le splitting.numIn_le with more | all
    · obtain ⟨splitting', fewer, grows, -⟩ := splitting.next more
      exact .round more grows (ih splitting' (by omega))
    · exact .done all

/-- In front of the first round, with a fanout of two at least. -/
theorem splitting_start {k d : Nat} (bits : 0 < d) :
    ∃ c, startControl (2 ^ d) (2 ^ k) = some c ∧ Splitting k c ∧ c.shift = k ∧ c.numIn = 1 := by
  have least : (if 2 ^ k < 2 ^ d then 2 ^ k else 2 ^ d) = 2 ^ min k d := by
    by_cases fewer : k < d
    · rw [if_pos (Nat.pow_lt_pow_right (by decide) fewer), Nat.min_eq_left (Nat.le_of_lt fewer)]
    · have le := Nat.le_of_not_lt fewer
      rw [if_neg (Nat.not_lt_of_le (Nat.pow_le_pow_right (by decide) le)), Nat.min_eq_right le]
  refine ⟨⟨1, k, min k d, 2 ^ min k d⟩, ?_, ⟨Nat.one_mul _, rfl, ?_⟩, rfl, rfl⟩
  · unfold startControl
    rw [least, shiftOf_two_pow, Option.bind_some, shiftOf_two_pow, Option.map_some]
  · change 0 < min k d ∨ 1 = 2 ^ k
    rcases Nat.eq_zero_or_pos k with rfl | positive
    · exact Or.inr rfl
    · exact Or.inl (by omega)

variable {α : Type} [Inhabited α] (key : α → Nat)

theorem splitInput_isSome {k : Nat} (c : SplitControl) {d : SplitControl} (splitting : Splitting k d)
    (base items i : Nat) (acc : SplitState α × Nat) :
    (splitInput key (2 ^ k) c d base items acc i).isSome := by
  have noFailure : ¬(d.numIn = 2 ^ k ∧ d.shift ≠ 0) := by
    rintro ⟨all, more⟩
    have less := splitting.numIn_lt_iff.mpr (Nat.pos_of_ne_zero more)
    omega
  unfold splitInput
  simp only [if_neg noFailure]
  split
  · rfl
  · split <;> rfl

theorem splitInputs_isSome {k : Nat} (c : SplitControl) {d : SplitControl} (splitting : Splitting k d)
    (base items : Nat) (inputs : List Nat) (acc : SplitState α × Nat) :
    (splitInputs key (2 ^ k) c d base items inputs acc).isSome := by
  unfold splitInputs
  induction inputs generalizing acc with
  | nil => rfl
  | cons i inputs ih =>
    obtain ⟨acc', isNext⟩ := Option.isSome_iff_exists.mp
      (splitInput_isSome key c splitting base items i acc)
    rw [List.foldlM_cons, isNext]
    exact ih acc'

/-- The rounds come to an end, by induction on the bits that are left. -/
theorem splitRounds_isSome {k : Nat} (items bits : Nat) {c : SplitControl}
    (splitting : Splitting k c) (left : c.shift ≤ bits) (st : SplitState α) :
    (splitRounds key (2 ^ k) items (bits + 1) c st).isSome := by
  induction bits generalizing c st with
  | zero =>
    have notLess : ¬ c.numIn < 2 ^ k := fun less => by
      have := splitting.numIn_lt_iff.mp less
      omega
    unfold splitRounds
    rw [if_neg notLess]
    rfl
  | succ bits ih =>
    unfold splitRounds
    split
    · rename_i more
      obtain ⟨splitting', fewer, -, product⟩ := splitting.next more
      have multiple : c.next.numIn % c.numIn = 0 := by
        rw [product]
        exact Nat.mul_mod_right _ _
      obtain ⟨done, isDone⟩ := Option.isSome_iff_exists.mp (splitInputs_isSome key c
        splitting' (st.inIndex 0) items (List.range c.numIn) (st, st.inIndex 0))
      simp only [splitting'.numIn_le, multiple, and_self, if_true, isDone, Option.bind_some]
      exact ih splitting' (by omega) done.1.swap
    · rfl

theorem xSplit_isSome {k d : Nat} (bits : 0 < d) (items : Nat) (st : SplitState α) :
    (xSplit key (2 ^ d) (2 ^ k) items (k + 1) st).isSome := by
  unfold xSplit
  split
  · rfl
  · obtain ⟨c, start, splitting, shift, -⟩ := splitting_start (k := k) bits
    rw [start, Option.bind_some]
    exact splitRounds_isSome key items k splitting (Nat.le_of_eq shift) st

/-- With a fanout of one no round adds anything, and the loop does not end. -/
theorem splitRounds_of_fanout_one {final : Nat} (items fuel : Nat) {c : SplitControl}
    (fanout : c.fanout = 1) (delta : c.shiftDelta = 0) (more : c.numIn < final)
    (st : SplitState α) : splitRounds key final items fuel c st = none := by
  induction fuel generalizing c st with
  | zero => rfl
  | succ fuel ih =>
    have same : c.next = c := by
      obtain ⟨numIn, shift, shiftDelta, fanout'⟩ := c
      obtain rfl : shiftDelta = 0 := delta
      obtain rfl : fanout' = 1 := fanout
      simp [SplitControl.next]
    unfold splitRounds
    rw [if_pos more]
    simp only [same]
    split
    · refine Option.bind_eq_none_iff.mpr fun done _ => ?_
      exact ih fanout delta more done.1.swap
    · rfl

theorem startControl_of_le {final fanout : Nat} (le : fanout ≤ final) :
    startControl fanout final = (shiftOf final).bind fun shift =>
      (shiftOf fanout).map fun shiftDelta => ⟨1, shift, shiftDelta, fanout⟩ := by
  unfold startControl
  simp only [if_neg (Nat.not_lt_of_le le)]

theorem xSplit_of_small_fanout {final fanout : Nat} (several : 1 < final) (small : fanout ≤ 1)
    (items fuel : Nat) (st : SplitState α) : xSplit key fanout final items fuel st = none := by
  unfold xSplit
  rw [if_neg (by omega), startControl_of_le (by omega)]
  cases shiftOf final with
  | none => rfl
  | some shift =>
    obtain rfl | rfl : fanout = 0 ∨ fanout = 1 := by omega
    · have noEnd : shiftOf 0 = none := by
        unfold shiftOf
        rfl
      rw [noEnd]
      rfl
    · rw [show shiftOf 1 = some 0 from shiftOf_two_pow 0]
      exact splitRounds_of_fanout_one key items fuel rfl rfl several st

end Rounds

section MakeIndex

variable {α : Type} [Inhabited α] (key : α → Nat)

theorem isSome_splitProcessor (fanout partitions fuel : Nat) (b : SplitBuffers α) (p : Nat) :
    (splitProcessor key fanout partitions fuel b p).isSome =
      (xSplit key fanout partitions (b.stream.perCpuSizes p) fuel
        ⟨b.stream.buffer, b.auxBuffer, b.stream.index p, b.auxIndex p, b.workq, false⟩).isSome := by
  unfold splitProcessor
  rw [Option.isSome_map]

theorem makeIndex_isSome {k fanout fuel : Nat} {processors : Nat} {b : SplitBuffers α}
    (ends : ∀ items (st : SplitState α), (xSplit key fanout k items fuel st).isSome) :
    (makeIndex key processors fanout k fuel b).isSome := by
  unfold makeIndex
  split
  · rfl
  · rw [Option.isSome_map]
    generalize sliceProcessors processors b = b'
    generalize false = twizzle
    induction List.range processors generalizing b' twizzle with
    | nil => rfl
    | cons p ps ih =>
      obtain ⟨done, isDone⟩ := Option.isSome_iff_exists.mp
        ((isSome_splitProcessor key fanout k fuel b' p).trans (ends _ _))
      rw [List.foldlM_cons, isDone]
      exact ih _ _

/-- When the split of processor 0 does not end, `make_index` does not. -/
theorem makeIndex_eq_none {k fanout fuel : Nat} {processors : Nat} {b : SplitBuffers α}
    (positive : 0 < processors) (fresh : b.stream.indexed = false)
    (never : ∀ items (st : SplitState α), xSplit key fanout k items fuel st = none) :
    makeIndex key processors fanout k fuel b = none := by
  obtain ⟨n, rfl⟩ : ∃ n, processors = n + 1 := ⟨processors - 1, by omega⟩
  unfold makeIndex
  rw [if_neg (by rw [fresh]; exact Bool.false_ne_true), List.range_succ_eq_map, List.foldlM_cons]
  unfold splitProcessor
  rw [never]
  rfl

/-- A split by a power of two ends exactly if there is nothing to split or the fanout is two at
least. -/
theorem splitEnds_iff {k processors fanout : Nat} {b : SplitBuffers α} (positive : 0 < processors)
    (fresh : b.stream.indexed = false) (power : 2 ≤ fanout → ∃ d, fanout = 2 ^ d) :
    SplitEnds key processors fanout (2 ^ k) b ↔ 2 ^ k = 1 ∨ 2 ≤ fanout := by
  constructor
  · rintro ⟨⟨fuel, returns⟩, -⟩
    by_contra neither
    rw [not_or] at neither
    have several : 1 < 2 ^ k := by have := Nat.two_pow_pos k; omega
    have none_ := makeIndex_eq_none key positive fresh fun items st =>
      xSplit_of_small_fanout key several (show fanout ≤ 1 by omega) items fuel st
    rw [none_] at returns
    contradiction
  · intro either
    by_cases one : 2 ^ k = 1
    · refine ⟨⟨0, makeIndex_isSome key fun items st => ?_⟩, fun several => absurd one several⟩
      unfold xSplit
      rw [if_pos one]
      rfl
    · obtain ⟨d, rfl⟩ := power (either.resolve_left one)
      have bits : 0 < d := by
        apply Nat.pos_of_ne_zero
        rintro rfl
        exact absurd (either.resolve_left one) (by decide)
      obtain ⟨c, start, splitting, shift, -⟩ := splitting_start (k := k) bits
      exact ⟨⟨k + 1, makeIndex_isSome key fun items st => xSplit_isSome key bits items st⟩,
        fun _ => ⟨c, start, splitting.growsTo k (Nat.le_of_eq shift)⟩⟩

end MakeIndex

section Autotune

variable {m : Machine}

/-- The fanout keeps two partitions if there are two cache lines. -/
theorem halveTo_two_pow (cacheLines c : Nat) :
    (2 ≤ Machine.halveTo cacheLines (2 ^ c) ↔ 2 ≤ 2 ^ c ∧ 2 ≤ cacheLines) ∧
      (2 ≤ Machine.halveTo cacheLines (2 ^ c) → ∃ d, Machine.halveTo cacheLines (2 ^ c) = 2 ^ d) := by
  have unfolds : ∀ n, 0 < n → Machine.halveTo cacheLines n =
      if cacheLines < n then Machine.halveTo cacheLines (n / 2) else n := by
    intro n positive
    obtain ⟨n, rfl⟩ : ∃ m, n = m + 1 := ⟨n - 1, by omega⟩
    rw [Machine.halveTo]
  have zero : Machine.halveTo cacheLines 0 = 0 := by rw [Machine.halveTo]
  induction c with
  | zero =>
    rw [unfolds _ (by decide)]
    split
    · have half : 2 ^ 0 / 2 = 0 := rfl
      rw [half, zero]
      omega
    · exact ⟨by omega, fun _ => ⟨0, rfl⟩⟩
  | succ c ih =>
    have half : 2 ^ (c + 1) / 2 = 2 ^ c := by rw [Nat.pow_succ]; omega
    have positive := Nat.two_pow_pos c
    rw [unfolds _ (Nat.two_pow_pos _), half]
    split
    · refine ⟨ih.1.trans ?_, ih.2⟩
      rw [Nat.pow_succ] at *
      omega
    · refine ⟨?_, fun _ => ⟨c + 1, rfl⟩⟩
      rw [Nat.pow_succ] at *
      omega

/-- What `autotune` leaves, for a number of partitions. -/
structure TunedFor (m : Machine) (partitions : Nat) (t : Tuned) : Prop where
  superPartitions : ∃ j, t.superPartitions = 2 ^ j
  le : t.superPartitions ≤ partitions
  cachedPartitions : t.cachedPartitions = partitions / t.superPartitions
  fanout : t.fanout = Machine.halveTo (m.llcSize / m.llcLineSize) t.cachedPartitions

theorem tunedFor_tuneSuperPartitions {partitions streamUnit : Nat} (fuel : Nat) {superp : Nat}
    {t : Tuned} (power : (∃ j < 64, superp = 2 ^ j) ∨ superp = 0)
    (found : m.tuneSuperPartitions partitions streamUnit fuel superp = some (some t)) :
    TunedFor m partitions t := by
  induction fuel generalizing superp with
  | zero => contradiction
  | succ fuel ih =>
    unfold Machine.tuneSuperPartitions at found
    split at found
    · rename_i le
      split at found
      · contradiction
      · rename_i noFailure
        obtain ⟨j, below, rfl⟩ := power.resolve_right fun zero => noFailure (Or.inl zero)
        simp only at found
        split at found
        · obtain rfl := Option.some.inj (Option.some.inj found)
          exact ⟨⟨j, rfl⟩, le, rfl, rfl⟩
        · exact ih (wrap64_double j below) found
    · have failed := Option.some.inj found
      contradiction

theorem tunedFor_tuneStreamUnit {partitions : Nat} (fuel : Nat) {streamUnit : Nat} {t : Tuned}
    (found : m.tuneStreamUnit partitions fuel streamUnit = some (some t)) :
    TunedFor m partitions t := by
  induction fuel generalizing streamUnit with
  | zero => contradiction
  | succ fuel ih =>
    unfold Machine.tuneStreamUnit at found
    split at found
    · obtain ⟨result, isResult, rest⟩ := Option.bind_eq_some_iff.mp found
      cases result with
      | some tuned =>
        obtain rfl := Option.some.inj (Option.some.inj rest)
        exact tunedFor_tuneSuperPartitions 66 (Or.inl ⟨0, by decide, rfl⟩) isResult
      | none => exact ih rest
    · have failed := Option.some.inj found
      contradiction

/-- With a power of two of processors, both numbers of partitions are powers of two. -/
theorem autotune_spec {t : Tuned} (power : ∃ q, m.processors = 2 ^ q)
    (tuned : m.autotune = some t) :
    (∃ j, t.superPartitions = 2 ^ j) ∧ (∃ c, t.cachedPartitions = 2 ^ c) ∧
      t.fanout = Machine.halveTo (m.llcSize / m.llcLineSize) t.cachedPartitions := by
  unfold Machine.autotune at tuned
  split at tuned
  · contradiction
  · obtain ⟨partitions, grown, rest⟩ := Option.bind_eq_some_iff.mp tuned
    obtain ⟨result, found, same⟩ := Option.bind_eq_some_iff.mp rest
    rw [id] at same
    rw [same] at found
    obtain ⟨p, isPower⟩ : ∃ p, (if partitions < m.processors then m.processors else partitions) =
        2 ^ p := by
      split
      · exact power
      · obtain ⟨k, -, isPow⟩ := growPartitions_pow 66 (Or.inl ⟨0, by decide, rfl⟩) grown
        exact ⟨k, isPow⟩
    obtain ⟨⟨j, isSuper⟩, le, cached, fanout⟩ := tunedFor_tuneStreamUnit 12 found
    rw [isPower] at le cached
    rw [isSuper] at le cached
    have exponent : j ≤ p := (Nat.pow_le_pow_iff_right (by decide)).mp le
    exact ⟨⟨j, isSuper⟩, ⟨p - j, by rw [cached, Nat.pow_div exponent (by decide)]⟩, fanout⟩

end Autotune

section Calls

variable {α : Type} [Inhabited α]

/-- Both calls of `make_index` come to their end. -/
def BothSplitsEnd (m : Machine) (t : Tuned) (cachedKey superKey : α → Nat) (b : SplitBuffers α) :
    Prop :=
  SplitEnds cachedKey m.processors t.fanout t.cachedPartitions b ∧
    SplitEnds superKey m.processors t.fanout t.superPartitions b

theorem bothSplitsEnd_iff_of_tuned {m : Machine} {t : Tuned} {cachedKey superKey : α → Nat}
    {b : SplitBuffers α} (power : ∃ q, m.processors = 2 ^ q) (tuned : m.autotune = some t)
    (fresh : b.stream.indexed = false) :
    BothSplitsEnd m t cachedKey superKey b ↔
      t.superPartitions = 1 ∧ t.cachedPartitions = 1 ∨
        2 ≤ t.cachedPartitions ∧ 2 ≤ m.llcSize / m.llcLineSize := by
  have positive : 0 < m.processors := by
    obtain ⟨q, isPower⟩ := power
    rw [isPower]
    exact Nat.two_pow_pos q
  obtain ⟨⟨j, isSuper⟩, ⟨c, isCached⟩, isFanout⟩ := autotune_spec power tuned
  obtain ⟨enough, pow⟩ := halveTo_two_pow (m.llcSize / m.llcLineSize) c
  have superPositive := Nat.two_pow_pos j
  have cachedPositive := Nat.two_pow_pos c
  unfold BothSplitsEnd
  rw [isFanout, isSuper, isCached, splitEnds_iff _ positive fresh pow,
    splitEnds_iff _ positive fresh pow, enough]
  omega

end Calls

/-- For a configuration that autotuning accepts, the splits come to an end exactly if there is one
partition only, or two cached partitions at least and two cache lines. -/
theorem bothSplitsEnd_iff {α : Type} [Inhabited α] (m : Machine) (t : Tuned)
    (power : ∃ q, m.processors = 2 ^ q) (tuned : m.autotune = some t)
    (cachedKey superKey : α → Nat) (b : SplitBuffers α) (fresh : b.stream.indexed = false) :
    BothSplitsEnd m t cachedKey superKey b ↔
      t.superPartitions = 1 ∧ t.cachedPartitions = 1 ∨
        2 ≤ t.cachedPartitions ∧ 2 ≤ m.llcSize / m.llcLineSize :=
  bothSplitsEnd_iff_of_tuned power tuned fresh

/-- A buffer without records. -/
def noRecords : SplitBuffers Nat := ⟨MemoryBuffer.unindexed [], [], fun _ _ => 0, []⟩

/-- Two million vertices of 8 bytes and plenty of memory, on a machine with 1 MiB of cache. -/
def roomyMachine : Machine where
  processors := 1
  vertices := 2 ^ 21
  vertexSize := 8
  vertexFootprint := 24
  llcSize := 2 ^ 20
  llcLineSize := 64
  availableRam := 2 ^ 30
  maxStreams := 3
  maxBuffers := 5
  numIoqs := 1
  memoryBufferObjectSize := 128
  diskStreamObjectSize := 512
  ioqObjectSize := 128
  qsort := false

theorem bothSplitsEnd_iff_roomy :
    BothSplitsEnd roomyMachine ⟨1, 64, 64, 16777216, 173350912, 16777216⟩ id id noRecords ↔
      1 = 1 ∧ 64 = 1 ∨ 2 ≤ 64 ∧ 2 ≤ 2 ^ 20 / 64 :=
  bothSplitsEnd_iff roomyMachine ⟨1, 64, 64, 16777216, 173350912, 16777216⟩ ⟨0, rfl⟩
    (by decide +kernel) id id noRecords rfl

/-- The same vertices with 24 MiB of cache and 17 MiB of memory: two partitions, both of them super
partitions, and so no fanout. -/
def tightMachine : Machine :=
  { roomyMachine with llcSize := 24 * 2 ^ 20, availableRam := 17 * 2 ^ 20 }

theorem not_bothSplitsEnd_tight :
    ¬ ∀ (m : Machine) (t : Tuned) (b : SplitBuffers Nat), (∃ q, m.processors = 2 ^ q) →
      m.autotune = some t → b.stream.indexed = false → BothSplitsEnd m t id id b := by
  intro all
  have tuned : tightMachine.autotune = some ⟨2, 1, 1, 524288, 1474560, 8388608⟩ := by
    decide +kernel
  have ends := (bothSplitsEnd_iff_of_tuned ⟨0, rfl⟩ tuned rfl).mp
    (all tightMachine _ noRecords ⟨0, rfl⟩ tuned rfl)
  rcases ends with ⟨one, -⟩ | ⟨two, -⟩
  · exact absurd one (by decide)
  · exact absurd two (by decide)

end MBFGraph
