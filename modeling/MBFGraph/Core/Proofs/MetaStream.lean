import MBFGraph.Core.Proofs.QueryKernel

/-!
# The filter query over a whole file

`do_meta_stream` and `meta_work` cut a filter file into calls of consecutive groups. Query and
plain membership agree exactly if no call is so long that its 32-bit addresses wrap.
-/

namespace MBFGraph

open ByteBits Stores

section Specification

variable (o : BloomOptions)

/-- The inverse of `bshuf_bitshuffle`. -/
def bshufBitunshuffle (input : List Byte) (size elemSize : Nat) : List Byte :=
  ofBits (size * elemSize) fun b => bitAt input (b % (8 * elemSize) * size + b / (8 * elemSize))

/-- Filter `p` of a filter file, un-shuffled: bit `row`. -/
def filterBit (file : List Byte) (p row : Nat) : Bool :=
  let group := (file.drop (p / simdLen * groupBytes o)).take (groupBytes o)
  bitAt (bshufBitunshuffle group simdLen (o.bitsPerBF / 8)) (p % simdLen * o.bitsPerBF + row)

/-- Some listed vertex has all its hash positions set in filter `p`. -/
def Member (file : List Byte) (vs : List VertexT) (p : Nat) : Prop :=
  ∃ v ∈ vs, ∀ row ∈ kernelHash o.bitsPerBF v, filterBit o file p row = true

/-- The groups that a call processes. -/
def callGroups (call : MetaCall) : List Nat :=
  List.range' (call.bfOffset / groupBytes o) (call.bufin.length / groupBytes o)

/-- The query of a file in buffers, all processors in any order, leaves exactly the membership
bits. -/
def QueryMatches (processors edges : Nat) (buffers : List (List Byte)) (vs junk : List VertexT) :
    Prop :=
  ∃ calls stores, doMetaStream o processors buffers 0 = some calls ∧
    queryStores o (vs ++ junk) vs.length calls = some stores ∧
    calls.flatMap (callGroups o) = List.range (buffers.flatten.length / groupBytes o) ∧
    ∀ order, order.Perm stores →
      (∀ s ∈ order, s.addr + 32 ≤ (clearedBitset o edges).length) ∧
      ∀ p, bitAt (applyStores order (clearedBitset o edges)) p = true ↔
        p < 256 * (buffers.flatten.length / groupBytes o) ∧ Member o buffers.flatten vs p

/-- How `meta_work` divides `n` groups. -/
def callSizes (processors n : Nat) : List Nat :=
  if n ≤ 2 * processors then [n]
  else
    List.replicate (processors - 1) (n / processors) ++ [n - n / processors * (processors - 1)]

end Specification

section Division

variable {o : BloomOptions}

/-- Un-shuffling undoes shuffling. -/
theorem bshufBitunshuffle_bshufBitshuffle {input : List Byte} {size elemSize : Nat}
    (length : input.length = size * elemSize) (positive : 0 < size) :
    bshufBitunshuffle (bshufBitshuffle input size elemSize).1 size elemSize = input := by
  apply ext_bitAt (by simp [bshufBitunshuffle, length])
  intro b below
  have total : b < 8 * (size * elemSize) := by simpa [bshufBitunshuffle] using below
  have elemPos : 0 < 8 * elemSize := by
    rcases Nat.eq_zero_or_pos elemSize with zero | pos
    · simp [zero] at total
    · omega
  have row : b / (8 * elemSize) < size :=
    (Nat.div_lt_iff_lt_mul elemPos).mpr (by rw [Nat.mul_left_comm]; exact total)
  have column := Nat.mod_lt b elemPos
  have inside : b % (8 * elemSize) * size + b / (8 * elemSize) < 8 * (size * elemSize) := by
    calc b % (8 * elemSize) * size + b / (8 * elemSize)
        < b % (8 * elemSize) * size + size := by omega
      _ = (b % (8 * elemSize) + 1) * size := by ring
      _ ≤ 8 * elemSize * size := Nat.mul_le_mul_right size column
      _ = 8 * (size * elemSize) := by ring
  have split := Nat.div_add_mod b (8 * elemSize)
  unfold bshufBitunshuffle bshufBitshuffle
  rw [bitAt_ofBits, bitAt_ofBits]
  rw [Nat.mul_comm (b % (8 * elemSize)) size] at inside ⊢
  simp only [total, inside, decide_true, Bool.true_and, Nat.mul_add_mod, Nat.mod_eq_of_lt row,
    Nat.mul_add_div positive, Nat.div_eq_of_lt row, Nat.add_zero]
  congr 1
  rw [Nat.mul_comm]
  exact split

/-- The bit of an un-shuffled filter, as the kernel addresses it. -/
theorem filterBit_eq (file : List Byte) (p : Nat) {row : Nat} (inside : row < o.bitsPerBF) :
    filterBit o file p row =
      bitAt file (8 * (p / 256 * groupBytes o + 32 * row) + p % 256) := by
  have bytes := o.bytes_mul_eight
  have bits := groupBytes_bits (o := o)
  have column : p % simdLen < 256 := Nat.mod_lt _ (by decide)
  have rowOf : (p % simdLen * o.bitsPerBF + row) % o.bitsPerBF = row := by
    rw [Nat.mul_comm, Nat.mul_add_mod, Nat.mod_eq_of_lt inside]
  have columnOf : (p % simdLen * o.bitsPerBF + row) / o.bitsPerBF = p % simdLen := by
    rw [Nat.mul_comm, Nat.mul_add_div o.bitsPerBF_pos, Nat.div_eq_of_lt inside, Nat.add_zero]
  have inMatrix : p % simdLen * o.bitsPerBF + row < 8 * (simdLen * (o.bitsPerBF / 8)) := by
    calc p % simdLen * o.bitsPerBF + row < (p % simdLen + 1) * o.bitsPerBF := by
          rw [Nat.succ_mul]; omega
      _ ≤ 256 * o.bitsPerBF := Nat.mul_le_mul_right _ column
      _ = 8 * (simdLen * (o.bitsPerBF / 8)) := by unfold simdLen; omega
  have inGroup : row * simdLen + p % simdLen < 8 * groupBytes o := by
    unfold simdLen at column ⊢; omega
  unfold filterBit bshufBitunshuffle
  simp only [bitAt_ofBits, bytes, inMatrix, decide_true, Bool.true_and, rowOf, columnOf,
    bitAt_take, inGroup, bitAt_drop]
  congr 1
  unfold simdLen
  ring

theorem sum_callSizes (processors n : Nat) :
    (callSizes processors n).sum = n := by
  unfold callSizes
  split
  · simp
  · have le : n / processors * (processors - 1) ≤ n :=
      Nat.le_trans (Nat.mul_le_mul_left _ (Nat.sub_le _ _)) (Nat.div_mul_le_self n processors)
    rw [List.sum_append, List.sum_replicate, List.sum_singleton, smul_eq_mul, Nat.mul_comm]
    omega

/-- Calls of one size, as `meta_work` computes them by processor number. -/
theorem cutCalls_replicate (q c : Nat) (ks : List Nat) (start : Nat) (file : List Byte) :
    cutCalls o (List.replicate q c ++ ks) start file =
      ((List.range q).map fun p =>
        ⟨(file.drop (c * groupBytes o * p)).take (c * groupBytes o),
          start * groupBytes o + c * groupBytes o * p⟩) ++
        cutCalls o ks (start + c * q) (file.drop (c * groupBytes o * q)) := by
  induction q generalizing start file with
  | zero => simp
  | succ q ih =>
    rw [List.replicate_succ, List.cons_append, cutCalls_cons, ih, List.range_succ_eq_map, List.map_cons, List.map_map, List.cons_append, List.drop_drop]
    have next : start + c + c * q = start + c * (q + 1) := by ring
    have behind : c * groupBytes o + c * groupBytes o * q = c * groupBytes o * (q + 1) := by ring
    rw [next, behind]
    refine congrArg₂ List.cons (by simp) (congrArg (· ++ _) ?_)
    apply List.map_congr_left
    intro p _
    have shift : c * groupBytes o + c * groupBytes o * p = c * groupBytes o * (p + 1) := by ring
    have offset : (start + c) * groupBytes o + c * groupBytes o * p =
        start * groupBytes o + c * groupBytes o * (p + 1) := by ring
    simp only [Function.comp_apply, List.drop_drop, shift, offset, Nat.succ_eq_add_one]

theorem cutCalls_append {ks : List Nat} {xs : List Byte}
    (size : xs.length = ks.sum * groupBytes o) (ls : List Nat) (ys : List Byte) (start : Nat) :
    cutCalls o (ks ++ ls) start (xs ++ ys) =
      cutCalls o ks start xs ++ cutCalls o ls (start + ks.sum) ys := by
  induction ks generalizing start xs with
  | nil =>
    have empty : xs = [] := List.length_eq_zero_iff.mp (by simpa using size)
    simp [empty, cutCalls]
  | cons k ks ih =>
    have total : (k + ks.sum) * groupBytes o = k * groupBytes o + ks.sum * groupBytes o :=
      Nat.add_mul _ _ _
    rw [List.sum_cons, total] at size
    rw [List.cons_append, cutCalls_cons, cutCalls_cons, List.take_append_of_le_length (by omega), List.drop_append_of_le_length (by omega),
      ih (by rw [List.length_drop]; omega), List.sum_cons, Nat.add_assoc, List.cons_append]

/-- `meta_work` cuts a buffer of `n` groups into the calls of `callSizes`. -/
theorem metaWork_eq {processors : Nat} (positive : 0 < processors)
    (small : o.bitsPerBF * 256 < 2 ^ 31) {n start : Nat} {buffer : List Byte}
    (size : buffer.length = n * groupBytes o) :
    metaWork o processors buffer (start * groupBytes o) =
      some (cutCalls o (callSizes processors n) start buffer) := by
  have bytesPos := groupBytes_pos (o := o)
  have bytes : o.bitsPerBF * 256 / 8 = groupBytes o := by
    have := groupBytes_bits (o := o)
    omega
  have aligned : ¬ buffer.length % groupBytes o ≠ 0 := by rw [size]; simp
  have count : buffer.length / groupBytes o = n := by rw [size, Nat.mul_div_cancel _ bytesPos]
  unfold metaWork callSizes
  simp only [Nat.not_le.mpr small, bytes, aligned, count, if_false]
  by_cases few : n ≤ 2 * processors
  · have whole : buffer.take (n * groupBytes o) = buffer := List.take_of_length_le (by omega)
    simp [few, cutCalls, whole]
  · have share : 0 < n / processors :=
      Nat.div_pos (by omega) positive
    have chunk : n / processors * groupBytes o ≠ 0 := by
      have := Nat.mul_pos share bytesPos
      omega
    rw [if_neg few, if_neg few, if_neg chunk, cutCalls_replicate]
    obtain ⟨last, rfl⟩ : ∃ last, processors = last + 1 := ⟨processors - 1, by omega⟩
    rw [List.range_succ, List.map_append, Nat.add_sub_cancel]
    have le : n / (last + 1) * last ≤ n :=
      Nat.le_trans (Nat.mul_le_mul_left _ (Nat.le_succ _)) (Nat.div_mul_le_self n (last + 1))
    have tail : buffer.length - n / (last + 1) * groupBytes o * last =
        (n - n / (last + 1) * last) * groupBytes o := by
      rw [size, Nat.sub_mul]
      congr 1
      ring
    congr 2
    · apply List.map_congr_left
      intro p member
      have before : p ≠ last := Nat.ne_of_lt (List.mem_range.mp member)
      simp [before]
    · have offset : start * groupBytes o + n / (last + 1) * groupBytes o * last =
          (start + n / (last + 1) * last) * groupBytes o := by ring
      simp only [List.map_cons, List.map_nil, ne_eq, not_true_eq_false, if_false, tail, offset,
        cutCalls]

theorem metaWork_of_overflow {processors : Nat} (large : 2 ^ 31 ≤ o.bitsPerBF * 256)
    (buffer : List Byte) (bfOffset : Nat) : metaWork o processors buffer bfOffset = none := by
  unfold metaWork
  rw [if_pos large]

/-- `do_meta_stream` cuts the file that the buffers make up. -/
theorem doMetaStream_eq {processors : Nat} (positive : 0 < processors)
    (small : o.bitsPerBF * 256 < 2 ^ 31) (sizes : List Nat) (buffers : List (List Byte))
    (start : Nat) (lengths : buffers.map List.length = sizes.map (· * groupBytes o)) :
    doMetaStream o processors buffers (start * groupBytes o) =
      some (cutCalls o (sizes.flatMap (callSizes processors)) start buffers.flatten) := by
  induction buffers generalizing sizes start with
  | nil =>
    have none_ : sizes = [] := by simpa using lengths.symm
    subst none_
    rfl
  | cons buffer buffers ih =>
    cases sizes with
    | nil => simp at lengths
    | cons n sizes =>
      simp only [List.map_cons, List.cons.injEq] at lengths
      have offset : start * groupBytes o + buffer.length = (start + n) * groupBytes o := by
        rw [lengths.1]; ring
      have cut : buffer.length = (callSizes processors n).sum * groupBytes o := by
        rw [sum_callSizes]; exact lengths.1
      unfold doMetaStream
      rw [metaWork_eq positive small lengths.1, offset, ih sizes (start + n) lengths.2,
        List.flatMap_cons, List.flatten_cons, cutCalls_append cut, sum_callSizes]

/-- Consecutive calls process consecutive groups, each once. -/
theorem callGroups_cutCalls {ks : List Nat} {file : List Byte} (start : Nat)
    (size : file.length = ks.sum * groupBytes o) :
    (cutCalls o ks start file).flatMap (callGroups o) = List.range' start ks.sum := by
  have bytesPos := groupBytes_pos (o := o)
  induction ks generalizing start file with
  | nil => simp [cutCalls]
  | cons k ks ih =>
    have total : (k + ks.sum) * groupBytes o = k * groupBytes o + ks.sum * groupBytes o :=
      Nat.add_mul _ _ _
    rw [List.sum_cons, total] at size
    have piece : (file.take (k * groupBytes o)).length = k * groupBytes o := by
      rw [List.length_take]; omega
    rw [cutCalls_cons, List.flatMap_cons, ih (start + k) (by rw [List.length_drop]; omega),
      List.sum_cons, ← List.range'_append_1]
    simp only [callGroups, piece, Nat.mul_div_cancel _ bytesPos]

end Division

section Query

variable {o : BloomOptions}

/-- No `int` product and no 32-bit address of the query is out of range. -/
def KernelFits (o : BloomOptions) (processors : Nat) (sizes : List Nat) : Prop :=
  o.bitsPerBF * 256 < 2 ^ 31 ∧
    ∀ n ∈ sizes, ∀ k ∈ callSizes processors n, (k - 1) * groupBytes o < 2 ^ 32

theorem sum_flatMap_callSizes (processors : Nat) (sizes : List Nat) :
    (sizes.flatMap (callSizes processors)).sum = sizes.sum := by
  induction sizes with
  | nil => rfl
  | cons n sizes ih => rw [List.flatMap_cons, List.sum_append, sum_callSizes, ih, List.sum_cons]

theorem length_flatten_of_lengths {buffers : List (List Byte)} {sizes : List Nat}
    (lengths : buffers.map List.length = sizes.map (· * groupBytes o)) :
    buffers.flatten.length = sizes.sum * groupBytes o := by
  rw [List.length_flatten, lengths, List.sum_map_mul_right, List.map_id']

/-- As many groups as `edges` edges fill have their result bits inside `BF_bitset`. -/
theorem clearedBitset_room {edges groups : Nat}
    (enough : groups ≤ filterGroup edges (o.bfsPerPage * simdLen)) :
    32 * groups ≤ (clearedBitset o edges).length := by
  have positive := o.bfsPerPage_pos
  have quotient : edges / (o.bfsPerPage * simdLen) = edges / o.bfsPerPage / 256 :=
    (Nat.div_div_eq_div_mul _ _ _).symm
  have atMost : groups ≤ edges / o.bfsPerPage / 256 + 1 := by
    unfold filterGroup at enough
    rw [quotient] at enough
    split at enough <;> omega
  unfold clearedBitset
  rw [List.length_replicate]
  omega

/-- A query whose arithmetic fits agrees with plain membership. -/
theorem queryMatches_of_fits {processors : Nat} (positive : 0 < processors) {sizes : List Nat}
    (fits : KernelFits o processors sizes) {edges : Nat}
    (enough : sizes.sum ≤ filterGroup edges (o.bfsPerPage * simdLen))
    {buffers : List (List Byte)}
    (lengths : buffers.map List.length = sizes.map (· * groupBytes o))
    {vs : List VertexT} (junk : List VertexT) (fours : vs.length % 4 = 0) :
    QueryMatches o processors edges buffers vs junk := by
  have small : groupBytes o < 2 ^ 31 := by
    have := groupBytes_bits (o := o)
    have := fits.1
    omega
  have length := length_flatten_of_lengths lengths
  have groups : buffers.flatten.length / groupBytes o = sizes.sum := by
    rw [length, Nat.mul_div_cancel _ groupBytes_pos]
  have sums := sum_flatMap_callSizes processors sizes
  have cut : buffers.flatten.length =
      (sizes.flatMap (callSizes processors)).sum * groupBytes o := by rw [sums]; exact length
  have calls := doMetaStream_eq positive fits.1 sizes buffers 0 lengths
  rw [Nat.zero_mul] at calls
  have stores := queryStores_cutCalls junk fours small buffers.flatten _ 0
    (by rw [Nat.zero_mul, List.drop_zero]; exact cut)
  rw [Nat.zero_mul, List.drop_zero] at stores
  have noWrap : ∀ k ∈ sizes.flatMap (callSizes processors), (k - 1) * groupBytes o < 2 ^ 32 := by
    intro k member
    obtain ⟨n, nMember, kMember⟩ := List.mem_flatMap.mp member
    exact fits.2 n nMember k kMember
  refine ⟨_, _, calls, stores, ?_, ?_⟩
  · rw [callGroups_cutCalls 0 cut, sums, groups, List.range_eq_range']
  · intro order perm
    refine ⟨?_, ?_⟩
    · intro s member
      obtain ⟨⟨place, base⟩, visited, rfl⟩ := List.mem_map.mp (perm.mem_iff.mp member)
      have inFile := (place_of_mem_visits visited).2
      have room := clearedBitset_room enough
      rw [sums] at inFile
      simp only
      omega
    · intro p
      rw [bitAt_order_iff fours noWrap perm (bitAt_clearedBitset _ _), sums, groups]
      have inFile : p / 256 < sizes.sum ↔ p < 256 * sizes.sum := by omega
      have member : (∃ v ∈ vs, ∀ row ∈ kernelHash o.bitsPerBF v,
          bitAt buffers.flatten (8 * (p / 256 * groupBytes o + 32 * row) + p % 256) = true) ↔
          Member o buffers.flatten vs p := by
        unfold Member
        constructor
        · rintro ⟨v, vMember, rows⟩
          refine ⟨v, vMember, fun row rowMember => ?_⟩
          rw [filterBit_eq _ _ (kernelHash_lt v row rowMember)]
          exact rows row rowMember
        · rintro ⟨v, vMember, rows⟩
          refine ⟨v, vMember, fun row rowMember => ?_⟩
          rw [← filterBit_eq _ _ (kernelHash_lt v row rowMember)]
          exact rows row rowMember
      rw [inFile, member]

/-- A filter file of `groups` groups with every bit set except those of group `bad`. -/
def fileWithout (o : BloomOptions) (groups bad : Nat) : List Byte :=
  ofBits (groups * groupBytes o) fun b => decide (b / (8 * groupBytes o) ≠ bad)

theorem bitAt_fileWithout {groups bad g inner : Nat} (inside : g < groups)
    (within : inner < 8 * groupBytes o) :
    bitAt (fileWithout o groups bad) (8 * (g * groupBytes o) + inner) = decide (g ≠ bad) := by
  have quotient : (8 * (g * groupBytes o) + inner) / (8 * groupBytes o) = g := by
    rw [Nat.mul_left_comm, Nat.mul_comm g, Nat.mul_add_div (by omega), Nat.div_eq_of_lt within,
      Nat.add_zero]
  have bound : 8 * (g * groupBytes o) + inner < 8 * (groups * groupBytes o) := by
    have := Nat.mul_le_mul_right (groupBytes o) (Nat.succ_le_of_lt inside)
    rw [Nat.succ_mul] at this
    omega
  unfold fileWithout
  rw [bitAt_ofBits, quotient]
  simp [bound]

/-- In such a file the queried vertex is in every filter but those of the bad group. -/
theorem member_fileWithout_iff {groups bad g : Nat} (inside : g < groups) (v : VertexT) :
    Member o (fileWithout o groups bad) [v, v, v, v] (256 * g) ↔ g ≠ bad := by
  have rowBit : ∀ row ∈ kernelHash o.bitsPerBF v,
      filterBit o (fileWithout o groups bad) (256 * g) row = decide (g ≠ bad) := by
    intro row rowMember
    have bound := kernelHash_lt v row rowMember
    have bits := groupBytes_bits (o := o)
    have address : 8 * (256 * g / 256 * groupBytes o + 32 * row) + 256 * g % 256 =
        8 * (g * groupBytes o) + 256 * row := by
      rw [Nat.mul_div_cancel_left _ (by decide), Nat.mul_mod_right]
      omega
    rw [filterBit_eq _ _ bound, address, bitAt_fileWithout inside (by omega)]
  have someRow : ∃ row, row ∈ kernelHash o.bitsPerBF v := by
    rw [kernelHash_eq]
    exact List.exists_mem_of_ne_nil _ (hashRows_ne_nil _ _)
  constructor
  · rintro ⟨w, wMember, rows⟩
    obtain rfl : w = v := by simpa using wMember
    obtain ⟨row, rowMember⟩ := someRow
    have set := rows row rowMember
    rw [rowBit row rowMember] at set
    exact of_decide_eq_true set
  · intro good
    exact ⟨v, by simp, fun row rowMember => by rw [rowBit row rowMember]; exact decide_eq_true good⟩

/-- The first group of a long call whose address wraps is read from the start of the call. -/
theorem exists_wrapped_visit (small : o.bitsPerBF * 256 < 2 ^ 31) (before after : List Nat) {k : Nat}
    (wraps : 2 ^ 32 ≤ (k - 1) * groupBytes o) :
    ∃ g, g < (before ++ k :: after).sum ∧
      ((∃ base, (g, base) ∈ visits o (before ++ k :: after) 0) →
        ∃ start, start + 1 < g ∧ ∃ inner < groupBytes o,
          (g, start * groupBytes o + inner) ∈ visits o (before ++ k :: after) 0) := by
  have bytesPos := groupBytes_pos (o := o)
  have bits := groupBytes_bits (o := o)
  have minimal := o.bitsPerBF_min
  -- `i` is the first round whose product is not below `2 ^ 32`
  obtain ⟨i, reaches, first⟩ : ∃ i, 2 ^ 32 ≤ i * groupBytes o ∧
      i * groupBytes o < 2 ^ 32 + groupBytes o := by
    refine ⟨(2 ^ 32 + groupBytes o - 1) / groupBytes o, ?_, ?_⟩
    · have := Nat.lt_div_mul_add bytesPos (a := 2 ^ 32 + groupBytes o - 1)
      omega
    · have := Nat.div_mul_le_self (2 ^ 32 + groupBytes o - 1) (groupBytes o)
      omega
  have positive : 0 < k := by
    rcases Nat.eq_zero_or_pos k with zero | pos
    · rw [zero, Nat.zero_sub, Nat.zero_mul] at wraps; omega
    · exact pos
  have inCall : i < k := by
    by_contra behind
    have := Nat.mul_le_mul_right (groupBytes o) (show k - 1 + 1 ≤ i by omega)
    rw [Nat.succ_mul] at this
    omega
  have few : i < 2 ^ 27 := by
    by_contra many
    have := Nat.mul_le_mul (Nat.le_of_not_lt many) (show 1024 ≤ groupBytes o by omega)
    omega
  have several : 1 < i := by
    by_contra one
    have := Nat.mul_le_mul_right (groupBytes o) (Nat.le_of_not_lt one)
    omega
  have reduced : i * groupBytes o % 2 ^ 32 = i * groupBytes o - 2 ^ 32 := by omega
  refine ⟨before.sum + i, by simp only [List.sum_append, List.sum_cons]; omega, ?_⟩
  rintro ⟨base, member⟩
  refine ⟨before.sum, by omega, i * groupBytes o - 2 ^ 32, by omega, ?_⟩
  rw [visits_append] at member ⊢
  -- only rounds of this call store there, and the first of them is round `i`
  have made : i < k % 2 ^ 32 := by
    rcases List.mem_append.mp member with earlier | later
    · have := (place_of_mem_visits earlier).2
      omega
    · unfold visits at later
      rcases List.mem_append.mp later with here | behind
      · obtain ⟨j, below, same⟩ := List.mem_map.mp here
        have place : 0 + before.sum + j % 2 ^ 27 = before.sum + i := (Prod.mk.inj same).1
        have := List.mem_range.mp below
        have := Nat.mod_le j (2 ^ 27)
        omega
      · have := (place_of_mem_visits behind).1
        omega
  refine List.mem_append_right _ ?_
  unfold visits
  refine List.mem_append_left _ (List.mem_map.mpr ⟨i, List.mem_range.mpr made, ?_⟩)
  rw [reduced, Nat.mod_eq_of_lt few, Nat.zero_add]

/-- A group that is read from too low an address fools the query. -/
theorem not_queryMatches_fileWithout {processors : Nat} (positive : 0 < processors)
    (small : o.bitsPerBF * 256 < 2 ^ 31) {sizes : List Nat} {buffers : List (List Byte)}
    (lengths : buffers.map List.length = sizes.map (· * groupBytes o)) {bad : Nat}
    (content : buffers.flatten = fileWithout o sizes.sum bad) {start inner : Nat}
    (inFile : bad < sizes.sum) (low : start + 1 < bad) (within : inner < groupBytes o)
    (visited : (bad, start * groupBytes o + inner) ∈
      visits o (sizes.flatMap (callSizes processors)) 0) (edges : Nat) (v : VertexT) :
    ¬ QueryMatches o processors edges buffers [v, v, v, v] [] := by
  have bits := groupBytes_bits (o := o)
  have length := length_flatten_of_lengths lengths
  have groups : buffers.flatten.length / groupBytes o = sizes.sum := by
    rw [length, Nat.mul_div_cancel _ groupBytes_pos]
  have fours : [v, v, v, v].length % 4 = 0 := by simp
  have smallBytes : groupBytes o < 2 ^ 31 := by omega
  have cut : (buffers.flatten.drop (0 * groupBytes o)).length =
      (sizes.flatMap (callSizes processors)).sum * groupBytes o := by
    rw [Nat.zero_mul, List.drop_zero, sum_flatMap_callSizes]; exact length
  rintro ⟨calls, stores, ran, queried, -, spec⟩
  have sameCalls := doMetaStream_eq positive small sizes buffers 0 lengths
  rw [Nat.zero_mul, ran] at sameCalls
  obtain rfl := Option.some.inj sameCalls
  have sameStores := queryStores_cutCalls [] fours smallBytes buffers.flatten
    (sizes.flatMap (callSizes processors)) 0 cut
  rw [Nat.zero_mul, List.drop_zero, queried] at sameStores
  obtain rfl := Option.some.inj sameStores
  -- let the store of the bad group come last
  obtain ⟨before, perm⟩ := exists_order_last (List.mem_map.mpr ⟨_, visited, rfl⟩)
  have bit := (spec _ perm).2 (256 * bad)
  have place : 256 * bad / 256 = bad := Nat.mul_div_cancel_left _ (by decide)
  have covers : (⟨32 * bad, queryGroup o ([v, v, v, v] ++ []) [v, v, v, v].length buffers.flatten
      (start * groupBytes o + inner)⟩ : Store 256).Covers (256 * bad) :=
    (covers_iff _ _ _).mpr place.symm
  have column : 256 * bad - 8 * (32 * bad) = 0 := by omega
  classical
  rw [bitAt_applyStores_snoc (by decide), if_pos covers] at bit
  simp only [column] at bit
  rw [getLsbD_queryGroup fours _ _ (by decide), content] at bit
  have reads : ∃ w ∈ [v, v, v, v], ∀ row ∈ kernelHash o.bitsPerBF w,
      bitAt (fileWithout o sizes.sum bad) (8 * (start * groupBytes o + inner + 32 * row) + 0) =
        true := by
    refine ⟨v, by simp, fun row rowMember => ?_⟩
    have bound := kernelHash_lt v row rowMember
    have expand : (start + 1) * groupBytes o = start * groupBytes o + groupBytes o :=
      Nat.succ_mul start (groupBytes o)
    by_cases first : inner + 32 * row < groupBytes o
    · have address : 8 * (start * groupBytes o + inner + 32 * row) + 0 =
          8 * (start * groupBytes o) + 8 * (inner + 32 * row) := by ring
      rw [address, bitAt_fileWithout (by omega) (by omega)]
      exact decide_eq_true (by omega)
    · have address : 8 * (start * groupBytes o + inner + 32 * row) + 0 =
          8 * ((start + 1) * groupBytes o) + 8 * (inner + 32 * row - groupBytes o) := by omega
      rw [address, bitAt_fileWithout (by omega) (by omega)]
      exact decide_eq_true (by omega)
  have claimed := (bit.mp reads).2
  exact (member_fileWithout_iff inFile v).mp claimed rfl

/-- A file cut into buffers of the given numbers of groups. -/
theorem exists_buffers {sizes : List Nat} {file : List Byte}
    (length : file.length = sizes.sum * groupBytes o) :
    ∃ buffers : List (List Byte), buffers.map List.length = sizes.map (· * groupBytes o) ∧
      buffers.flatten = file := by
  have total : (sizes.map (· * groupBytes o)).sum = file.length := by
    rw [length, List.sum_map_mul_right, List.map_id']
  exact ⟨(sizes.map (· * groupBytes o)).splitLengths file,
    List.map_splitLengths_length _ _ (Nat.le_of_eq total),
    List.flatten_splitLengths _ _ (Nat.le_of_eq total.symm)⟩

/-- An empty filter file leaves `BF_bitset` clear. -/
theorem queryMatches_nil (processors edges : Nat) (vs junk : List VertexT) :
    QueryMatches o processors edges [] vs junk := by
  refine ⟨[], [], rfl, rfl, by simp, ?_⟩
  intro order perm
  rw [List.Perm.eq_nil perm]
  simp [bitAt_clearedBitset]

/-- A file whose query agrees with membership visits every group of every call. -/
theorem visited_of_queryMatches {processors : Nat} (positive : 0 < processors)
    (small : o.bitsPerBF * 256 < 2 ^ 31) {sizes : List Nat} {buffers : List (List Byte)}
    (lengths : buffers.map List.length = sizes.map (· * groupBytes o)) {g : Nat} {v : VertexT}
    (content : buffers.flatten = fileWithout o sizes.sum sizes.sum) (inFile : g < sizes.sum)
    {edges : Nat} (agree : QueryMatches o processors edges buffers [v, v, v, v] []) :
    ∃ base, (g, base) ∈ visits o (sizes.flatMap (callSizes processors)) 0 := by
  have bits := groupBytes_bits (o := o)
  have smallBytes : groupBytes o < 2 ^ 31 := by omega
  have length := length_flatten_of_lengths lengths
  have groups : buffers.flatten.length / groupBytes o = sizes.sum := by
    rw [length, Nat.mul_div_cancel _ groupBytes_pos]
  have fours : [v, v, v, v].length % 4 = 0 := by simp
  have cut : buffers.flatten.length =
      (sizes.flatMap (callSizes processors)).sum * groupBytes o := by
    rw [sum_flatMap_callSizes]; exact length
  obtain ⟨calls, stores, ran, queried, -, spec⟩ := agree
  have sameCalls := doMetaStream_eq positive small sizes buffers 0 lengths
  rw [Nat.zero_mul, ran] at sameCalls
  obtain rfl := Option.some.inj sameCalls
  have member : Member o buffers.flatten [v, v, v, v] (256 * g) := by
    rw [content]
    exact (member_fileWithout_iff inFile v).mpr (Nat.ne_of_lt inFile)
  have set := (forall_order_bitAt_iff fours smallBytes cut queried
    (bitAt_clearedBitset edges (256 * g))).mp fun order perm =>
      ((spec order perm).2 _).mpr ⟨by omega, member⟩
  rw [Nat.mul_div_cancel_left _ (by decide)] at set
  exact set.1

/-- The query agrees with plain membership on all files of a shape and all vertex lists exactly
if its arithmetic fits. -/
theorem query_matches_membership_iff {processors : Nat} (positive : 0 < processors)
    {sizes : List Nat} {edges : Nat}
    (enough : sizes.sum ≤ filterGroup edges (o.bfsPerPage * simdLen)) :
    (∀ buffers : List (List Byte), buffers.map List.length = sizes.map (· * groupBytes o) →
      ∀ vs junk : List VertexT, vs ≠ [] → vs.length % 4 = 0 →
        QueryMatches o processors edges buffers vs junk) ↔
      sizes = [] ∨ KernelFits o processors sizes := by
  constructor
  · intro agree
    by_cases nothing : sizes = []
    · exact Or.inl nothing
    · have four : ([0, 0, 0, 0] : List VertexT) ≠ [] := by simp
      have small : o.bitsPerBF * 256 < 2 ^ 31 := by
        by_contra large
        obtain ⟨buffers, lengths, -⟩ := exists_buffers (o := o)
          (List.length_replicate (n := sizes.sum * groupBytes o) (a := (0 : Byte)))
        obtain ⟨calls, -, ran, -⟩ := agree buffers lengths [0, 0, 0, 0] [] four (by simp)
        cases buffers with
        | nil =>
          have empty : sizes = [] := by simpa using lengths.symm
          exact nothing empty
        | cons buffer buffers =>
          rw [doMetaStream, metaWork_of_overflow (Nat.le_of_not_lt large)] at ran
          contradiction
      refine Or.inr ⟨small, ?_⟩
      intro n nMember k kMember
      by_contra wraps
      have inCalls : k ∈ sizes.flatMap (callSizes processors) :=
        List.mem_flatMap.mpr ⟨n, nMember, kMember⟩
      obtain ⟨before, after, split⟩ := List.append_of_mem inCalls
      obtain ⟨bad, inFile, visits_⟩ := exists_wrapped_visit
        small before after (Nat.le_of_not_lt wraps)
      rw [← split, sum_flatMap_callSizes] at inFile
      rw [← split] at visits_
      -- with every bit set the query has to visit the group
      obtain ⟨full, fullLengths, fullContent⟩ := exists_buffers (o := o)
        (show (fileWithout o sizes.sum sizes.sum).length = _ from length_ofBits _ _)
      have visited := visited_of_queryMatches positive small fullLengths fullContent inFile
        (agree full fullLengths [0, 0, 0, 0] [] four (by simp))
      obtain ⟨start, low, inner, within, member⟩ := visits_ visited
      -- and with the bits of the group clear it is fooled
      obtain ⟨holed, holedLengths, holedContent⟩ := exists_buffers (o := o)
        (show (fileWithout o sizes.sum bad).length = _ from length_ofBits _ _)
      exact not_queryMatches_fileWithout positive small holedLengths holedContent inFile low within
        member edges 0 (agree holed holedLengths [0, 0, 0, 0] [] four (by simp))
  · rintro (rfl | fits) buffers lengths vs junk - fours
    · have none_ : buffers = [] := by simpa using lengths
      rw [none_]
      exact queryMatches_nil _ _ _ _
    · exact queryMatches_of_fits positive fits enough lengths junk fours

end Query

section Instances

theorem query_matches_membership_iff_two_buffers :
    QueryMatches smallOptions 1 1280
      [List.replicate 2048 0x0F#8, List.replicate 3072 0xF0#8] [1, 2, 3, 4] [] := by
  have fits : KernelFits smallOptions 1 [2, 3] := by
    unfold KernelFits
    decide
  have agree := (@query_matches_membership_iff smallOptions 1 (by decide) [2, 3] 1280
    (by decide)).mpr (Or.inr fits)
  have bytes : groupBytes smallOptions = 1024 := by decide
  refine agree _ ?_ [1, 2, 3, 4] [] (by simp) (by simp)
  simp only [List.map_cons, List.map_nil, List.length_replicate, bytes]

/-- A buffer of 4 GiB and one group, handed to one processor: the last group is read from the
start of the buffer. -/
theorem query_wraps_at_four_gib :
    (fileWithout smallOptions (2 ^ 22 + 1) (2 ^ 22)).length =
        (2 ^ 22 + 1) * groupBytes smallOptions ∧
      ¬ QueryMatches smallOptions 1 ((2 ^ 22 + 1) * 256)
        [fileWithout smallOptions (2 ^ 22 + 1) (2 ^ 22)] [0, 0, 0, 0] [] := by
  have length : (fileWithout smallOptions (2 ^ 22 + 1) (2 ^ 22)).length =
      (2 ^ 22 + 1) * groupBytes smallOptions := length_ofBits _ _
  have bytes : groupBytes smallOptions = 1024 := by decide
  refine ⟨length, ?_⟩
  have lengths : [fileWithout smallOptions (2 ^ 22 + 1) (2 ^ 22)].map List.length =
      [2 ^ 22 + 1].map (· * groupBytes smallOptions) := by
    rw [List.map_singleton, length, List.map_singleton]
  have oneCall : [2 ^ 22 + 1].flatMap (callSizes 1) = [2 ^ 22 + 1] := by
    simp [callSizes]
  have visited : (2 ^ 22, 0 * groupBytes smallOptions + 0) ∈
      visits smallOptions ([2 ^ 22 + 1].flatMap (callSizes 1)) 0 := by
    rw [oneCall]
    refine List.mem_append_left _ (List.mem_map.mpr ⟨2 ^ 22, List.mem_range.mpr (by decide), ?_⟩)
    rw [bytes]
    decide
  exact not_queryMatches_fileWithout (by decide) (by decide) lengths (by simp) (by simp)
    (by decide) (by decide) visited _ _

end Instances

end MBFGraph
