import MBFGraph.Core.Bitshuffle

/-!
# Transpositions of bytes

The loops over bytes, over elements and over vector registers all transpose an array of `lda` rows of `ldb`
elements of `n` bytes: element `jj * lda + ii` of the output is element `ii * ldb + jj` of the input.
-/

namespace MBFGraph

open ByteBits Fills Lanes Overwrite

namespace Bshuf

/-! ## Numbers of elements -/

theorem pair_div {a b n : Nat} (below : b < n) : (a * n + b) / n = a := by
  rw [Nat.mul_comm, Nat.mul_add_div (Nat.zero_lt_of_lt below), Nat.div_eq_of_lt below, Nat.add_zero]

theorem pair_mod {a b n : Nat} (below : b < n) : (a * n + b) % n = b := by
  rw [Nat.mul_comm, Nat.mul_add_mod, Nat.mod_eq_of_lt below]

theorem pair_lt {a b m n : Nat} (row : a < m) (column : b < n) : a * n + b < m * n := by
  have le := Nat.mul_le_mul_right n (Nat.succ_le_of_lt row)
  rw [Nat.succ_mul] at le
  omega

/-- Every number is a pair. -/
theorem exists_pair {p m n : Nat} (below : p < m * n) : ∃ a < m, ∃ b < n, p = a * n + b := by
  have positive : 0 < n := by
    rcases Nat.eq_zero_or_pos n with rfl | positive
    · rw [Nat.mul_zero] at below
      exact absurd below (Nat.not_lt_zero p)
    · exact positive
  refine ⟨p / n, (Nat.div_lt_iff_lt_mul positive).mpr below, p % n, Nat.mod_lt p positive, ?_⟩
  rw [Nat.mul_comm]
  exact (Nat.div_add_mod p n).symm

/-! ## The transposed array -/

/-- Byte `p` of the transposed array. -/
def transposed (input : List Byte) (lda ldb n p : Nat) : Byte :=
  input.getD ((p / n % lda * ldb + p / n / lda) * n + p % n) 0

theorem transposed_pair (input : List Byte) {lda n ii t : Nat} (ldb jj : Nat) (row : ii < lda) (inside : t < n) :
    transposed input lda ldb n ((jj * lda + ii) * n + t) = input.getD ((ii * ldb + jj) * n + t) 0 := by
  unfold transposed
  rw [pair_div inside, pair_mod inside, pair_mod row, pair_div row]

theorem transposed_byte (input : List Byte) {lda ii : Nat} (ldb jj : Nat) (row : ii < lda) :
    transposed input lda ldb 1 (jj * lda + ii) = input.getD (ii * ldb + jj) 0 := by
  have pair := transposed_pair input ldb jj row Nat.zero_lt_one
  rwa [Nat.mul_one, Nat.mul_one, Nat.add_zero, Nat.add_zero] at pair

/-- A run of an element. -/
theorem getElem?_run_element {input : List Byte} {n a t : Nat} (inside : a + n ≤ input.length) (below : t < n) :
    (run n input a)[t]? = some (input.getD (a + t) 0) := by
  rw [getElem?_run input a below, List.getD_eq_getElem?_getD, List.getElem?_eq_getElem (by omega)]
  rfl

/-- The element that is stored is the one that belongs there. -/
theorem fill_element {input : List Byte} {lda ldb n ii jj : Nat} (whole : input.length = lda * ldb * n)
    (row : ii < lda) (column : jj < ldb) :
    (jj * lda + ii) * n + (run n input ((ii * ldb + jj) * n)).length ≤ lda * ldb * n ∧
      ∀ t < (run n input ((ii * ldb + jj) * n)).length, (run n input ((ii * ldb + jj) * n))[t]? =
        some (transposed input lda ldb n ((jj * lda + ii) * n + t)) := by
  have source : (ii * ldb + jj) * n + n ≤ input.length := by
    rw [whole, ← Nat.succ_mul]
    exact Nat.mul_le_mul_right n (pair_lt row column)
  have target : (jj * lda + ii) * n + n ≤ lda * ldb * n := by
    rw [← Nat.succ_mul, Nat.mul_comm lda]
    exact Nat.mul_le_mul_right n (pair_lt column row)
  rw [length_run source]
  refine ⟨target, fun t below => ?_⟩
  rw [getElem?_run_element source below, transposed_pair input ldb jj row below]

/-- A byte that is stored belongs there. -/
theorem fill_byte {input : List Byte} {lda ldb ii jj : Nat} (row : ii < lda) (column : jj < ldb) :
    jj * lda + ii + [input.getD (ii * ldb + jj) 0].length ≤ lda * ldb ∧
      ∀ t < [input.getD (ii * ldb + jj) 0].length, [input.getD (ii * ldb + jj) 0][t]? =
        some (transposed input lda ldb 1 (jj * lda + ii + t)) := by
  refine ⟨?_, fun t below => ?_⟩
  · rw [Nat.mul_comm lda]
    exact pair_lt column row
  · obtain rfl := Nat.lt_one_iff.mp below
    rw [Nat.add_zero, transposed_byte input ldb jj row]
    rfl

/-- `bshuf_trans_elem` transposes. -/
theorem transElem_spec {input out : List Byte} {lda ldb n : Nat} (wholeIn : input.length = lda * ldb * n)
    (wholeOut : out.length = lda * ldb * n) :
    transElem input out lda ldb n = ((lda : Int) * ldb * n, filled (lda * ldb * n) (transposed input lda ldb n)) := by
  refine Prod.ext rfl (Fill.eq_filled ?_ wholeOut ?_)
  · intro w member
    obtain ⟨ii, isRow, inner⟩ := List.mem_flatMap.mp member
    obtain ⟨jj, isColumn, rfl⟩ := List.mem_map.mp inner
    exact fill_element wholeIn (List.mem_range.mp isRow) (List.mem_range.mp isColumn)
  · intro p below
    rw [Nat.mul_comm lda] at below
    obtain ⟨e, isElement, t, inside, rfl⟩ := exists_pair below
    obtain ⟨jj, column, ii, row, rfl⟩ := exists_pair isElement
    left
    refine ⟨_, List.mem_flatMap.mpr ⟨ii, List.mem_range.mpr row, List.mem_map.mpr
      ⟨jj, List.mem_range.mpr column, rfl⟩⟩, Nat.le_add_right _ _, ?_⟩
    rw [length_run]
    · exact Nat.add_lt_add_left inside _
    · rw [wholeIn, ← Nat.succ_mul]
      exact Nat.mul_le_mul_right n (pair_lt row column)

/-! ## Eight rows at a time -/

/-- The rows of a loop with steps of eight, and those of the loop behind it. -/
theorem exists_row {start lda ii : Nat} (aligned : start % 8 = 0) (above : start ≤ ii) (row : ii < lda) :
    (∃ i ∈ steps start lda 8, ∃ kk < 8, ii = i + kk) ∨ ii ∈ steps (lda - lda % 8) lda 1 := by
  by_cases early : ii < lda - (lda - start) % 8
  · obtain ⟨i, member, le, less⟩ := exists_mem_steps (by decide) above early
    exact Or.inl ⟨i, member, ii - i, by omega, by omega⟩
  · have late : lda - lda % 8 ≤ ii := by omega
    have last : ii < lda - (lda - (lda - lda % 8)) % 1 := by
      rw [Nat.mod_one]
      exact row
    obtain ⟨i, member, le, less⟩ := exists_mem_steps Nat.one_pos late last
    obtain rfl : i = ii := by omega
    exact Or.inr member

theorem lt_of_mem_steps {first stop i : Nat} (member : i ∈ steps first stop 1) : i < stop := by
  obtain ⟨_, _, below⟩ := of_mem_steps member
  exact below

theorem lt_of_mem_steps_eight {first stop i kk : Nat} (member : i ∈ steps first stop 8) (below : kk < 8) :
    i + kk < stop := by
  obtain ⟨_, _, room⟩ := of_mem_steps member
  omega

/-- `TRANS_ELEM_TYPE` transposes. -/
theorem transElemType_spec {input out : List Byte} {lda ldb n : Nat} (wholeIn : input.length = lda * ldb * n)
    (wholeOut : out.length = lda * ldb * n) :
    transElemType n input out lda ldb = filled (lda * ldb * n) (transposed input lda ldb n) := by
  unfold transElemType
  have regroup (ii kk jj : Nat) : ii * ldb + kk * ldb + jj = (ii + kk) * ldb + jj := by rw [Nat.add_mul]
  have regroup' (jj ii kk : Nat) : jj * lda + ii + kk = jj * lda + (ii + kk) := Nat.add_assoc _ _ _
  simp only [regroup, regroup', Nat.mul_comm n]
  have first : Fill ((steps 0 lda 8).flatMap fun ii => (List.range ldb).flatMap fun jj =>
      (List.range 8).map fun kk => ((jj * lda + (ii + kk)) * n, run n input (((ii + kk) * ldb + jj) * n)))
      (lda * ldb * n) (transposed input lda ldb n) := by
    intro w member
    obtain ⟨ii, isRow, inner⟩ := List.mem_flatMap.mp member
    obtain ⟨jj, isColumn, innermost⟩ := List.mem_flatMap.mp inner
    obtain ⟨kk, below, rfl⟩ := List.mem_map.mp innermost
    exact fill_element wholeIn (lt_of_mem_steps_eight isRow (List.mem_range.mp below)) (List.mem_range.mp isColumn)
  have second : Fill ((steps (lda - lda % 8) lda 1).flatMap fun ii => (List.range ldb).map fun jj =>
      ((jj * lda + ii) * n, run n input ((ii * ldb + jj) * n))) (lda * ldb * n)
      (transposed input lda ldb n) := by
    intro w member
    obtain ⟨ii, isRow, inner⟩ := List.mem_flatMap.mp member
    obtain ⟨jj, isColumn, rfl⟩ := List.mem_map.mp inner
    exact fill_element wholeIn (lt_of_mem_steps isRow) (List.mem_range.mp isColumn)
  refine second.eq_filled (first.length_eq wholeOut) fun p below => ?_
  rw [Nat.mul_comm lda] at below
  obtain ⟨e, isElement, t, inside, rfl⟩ := exists_pair below
  obtain ⟨jj, column, ii, row, rfl⟩ := exists_pair isElement
  have covered : (jj * lda + ii) * n ≤ (jj * lda + ii) * n + t ∧
      (jj * lda + ii) * n + t < (jj * lda + ii) * n + (run n input ((ii * ldb + jj) * n)).length := by
    rw [length_run]
    · exact ⟨Nat.le_add_right _ _, Nat.add_lt_add_left inside _⟩
    · rw [wholeIn, ← Nat.succ_mul]
      exact Nat.mul_le_mul_right n (pair_lt row column)
  rcases exists_row rfl (Nat.zero_le ii) row with ⟨i, isStep, kk, few, rfl⟩ | isLast
  · right
    exact first.getElem? (Or.inl ⟨_, List.mem_flatMap.mpr ⟨i, isStep, List.mem_flatMap.mpr
      ⟨jj, List.mem_range.mpr column, List.mem_map.mpr ⟨kk, List.mem_range.mpr few, rfl⟩⟩⟩, covered⟩)
  · left
    exact ⟨_, List.mem_flatMap.mpr ⟨ii, isLast, List.mem_map.mpr ⟨jj, List.mem_range.mpr column, rfl⟩⟩, covered⟩

/-- `bshuf_trans_byte_elem_remainder` transposes the rows from `start` on. -/
theorem transByteElemRemainder_spec {input out : List Byte} {size elemSize start : Nat} (aligned : start % 8 = 0)
    (wholeOut : out.length = size * elemSize)
    (done : ∀ ii < start, ii < size → ∀ jj < elemSize,
      out[jj * size + ii]? = some (transposed input size elemSize 1 (jj * size + ii))) :
    transByteElemRemainder input out size elemSize start =
      ((size : Int) * elemSize, filled (size * elemSize) (transposed input size elemSize 1)) := by
  unfold transByteElemRemainder
  have regroup (ii kk jj : Nat) : ii * elemSize + kk * elemSize + jj = (ii + kk) * elemSize + jj := by
    rw [Nat.add_mul]
  have regroup' (jj ii kk : Nat) : jj * size + ii + kk = jj * size + (ii + kk) := Nat.add_assoc _ _ _
  simp only [regroup, regroup']
  rw [if_neg (not_not.mpr aligned)]
  have first : Fill ((steps start size 8).flatMap fun ii => (List.range elemSize).flatMap fun jj =>
      (List.range 8).map fun kk => (jj * size + (ii + kk), [input.getD ((ii + kk) * elemSize + jj) 0]))
      (size * elemSize) (transposed input size elemSize 1) := by
    intro w member
    obtain ⟨ii, isRow, inner⟩ := List.mem_flatMap.mp member
    obtain ⟨jj, isColumn, innermost⟩ := List.mem_flatMap.mp inner
    obtain ⟨kk, below, rfl⟩ := List.mem_map.mp innermost
    exact fill_byte (lt_of_mem_steps_eight isRow (List.mem_range.mp below)) (List.mem_range.mp isColumn)
  have second : Fill ((steps (size - size % 8) size 1).flatMap fun ii => (List.range elemSize).map fun jj =>
      (jj * size + ii, [input.getD (ii * elemSize + jj) 0])) (size * elemSize)
      (transposed input size elemSize 1) := by
    intro w member
    obtain ⟨ii, isRow, inner⟩ := List.mem_flatMap.mp member
    obtain ⟨jj, isColumn, rfl⟩ := List.mem_map.mp inner
    exact fill_byte (lt_of_mem_steps isRow) (List.mem_range.mp isColumn)
  by_cases rows : start < size
  · rw [if_pos rows]
    refine Prod.ext rfl ?_
    refine second.eq_filled (first.length_eq wholeOut) fun p below => ?_
    rw [Nat.mul_comm size] at below
    obtain ⟨jj, column, ii, row, rfl⟩ := exists_pair below
    by_cases early : ii < start
    · exact Or.inr (first.getElem? (Or.inr (done ii early row jj column)))
    · rcases exists_row aligned (Nat.le_of_not_lt early) row with ⟨i, isStep, kk, few, rfl⟩ | isLast
      · right
        exact first.getElem? (Or.inl ⟨_, List.mem_flatMap.mpr ⟨i, isStep, List.mem_flatMap.mpr
          ⟨jj, List.mem_range.mpr column, List.mem_map.mpr ⟨kk, List.mem_range.mpr few, rfl⟩⟩⟩,
          Nat.le_refl _, Nat.lt_succ_self _⟩)
      · left
        exact ⟨_, List.mem_flatMap.mpr ⟨ii, isLast, List.mem_map.mpr ⟨jj, List.mem_range.mpr column, rfl⟩⟩,
          Nat.le_refl _, Nat.lt_succ_self _⟩
  · rw [if_neg rows]
    have nothing : Fill [] (size * elemSize) (transposed input size elemSize 1) := fun w none_ =>
      absurd none_ List.not_mem_nil
    refine Prod.ext rfl (nothing.eq_filled wholeOut fun p below => Or.inr ?_)
    rw [Nat.mul_comm size] at below
    obtain ⟨jj, column, ii, row, rfl⟩ := exists_pair below
    exact done ii (by omega) row jj column

theorem transByteElemScal_spec {input out : List Byte} {size elemSize : Nat}
    (wholeOut : out.length = size * elemSize) :
    transByteElemScal input out size elemSize =
      ((size : Int) * elemSize, filled (size * elemSize) (transposed input size elemSize 1)) :=
  transByteElemRemainder_spec rfl wholeOut fun ii none_ => absurd none_ (Nat.not_lt_zero ii)

/-! ## Vector registers -/

theorem unpackLo_comp {α β : Type} (g : α → β) (w : Nat) (a b : Nat → α) :
    unpackLo w (g ∘ a) (g ∘ b) = g ∘ unpackLo w a b := by
  funext t
  unfold unpackLo
  exact (apply_ite g _ _ _).symm

theorem unpackHi_comp {α β : Type} (g : α → β) (w : Nat) (a b : Nat → α) :
    unpackHi w (g ∘ a) (g ∘ b) = g ∘ unpackHi w a b := by
  funext t
  unfold unpackHi
  exact (apply_ite g _ _ _).symm

/-- Register `q` of those that a routine stores has, at `t`, the element of those loaded that `source` names. It
does so whatever the elements are. -/
structure Moves (n width : Nat) (source : Nat → Nat → Nat × Nat)
    (trans : {α : Type} → (Nat → Nat → α) → List (Nat → α)) : Prop where
  natural : ∀ {α β : Type} (g : α → β) (r : Nat → Nat → α),
    trans (fun q => g ∘ r q) = (trans r).map fun register => g ∘ register
  count : (trans Prod.mk).length = n
  numbers : ∀ q < n, ∀ t < width, (trans Prod.mk).getD q (Prod.mk 0) t = source q t

section

variable {α : Type} {n width : Nat} {source : Nat → Nat → Nat × Nat}
  {trans : {α : Type} → (Nat → Nat → α) → List (Nat → α)} (moves : Moves n width source trans) (r : Nat → Nat → α)

include moves in
theorem Moves.eq_map : trans r = (trans Prod.mk).map fun register => (fun at_ : Nat × Nat => r at_.1 at_.2) ∘ register := by
  rw [← moves.natural]
  rfl

include moves in
theorem Moves.length_eq : (trans r).length = n := by
  rw [moves.eq_map r, List.length_map, moves.count]

include moves in
/-- What is stored. -/
theorem Moves.mem_zipIdx {register : (Nat → α) × Nat} (member : register ∈ (trans r).zipIdx) :
    register.2 < n ∧ ∀ t < width, register.1 t = r (source register.2 t).1 (source register.2 t).2 := by
  obtain ⟨stored, q⟩ := register
  have found := List.mem_zipIdx_iff_getElem?.mp member
  rw [moves.eq_map r, List.getElem?_map, Option.map_eq_some_iff] at found
  obtain ⟨numbers, isRegister, rfl⟩ := found
  obtain ⟨inside, _⟩ := List.getElem?_eq_some_iff.mp isRegister
  rw [moves.count] at inside
  refine ⟨inside, fun t below => ?_⟩
  have number := moves.numbers q inside t below
  rw [List.getD_eq_getElem?_getD, isRegister] at number
  change r (numbers t).1 (numbers t).2 = _
  rw [show numbers t = source q t from number]

include moves in
theorem Moves.exists_zipIdx {q : Nat} (below : q < n) : ∃ stored, (stored, q) ∈ (trans r).zipIdx := by
  have inside : q < (trans r).length := by
    rw [moves.length_eq r]
    exact below
  exact ⟨_, List.mem_zipIdx_iff_getElem?.mpr (List.getElem?_eq_getElem inside)⟩

end

/-- A routine for sixteen elements of `n` bytes: register `q` gets byte `q` of each. -/
def Transposes (n : Nat) (trans : {α : Type} → (Nat → Nat → α) → List (Nat → α)) : Prop :=
  Moves n 16 (fun q t => ((t * n + q) / 16, (t * n + q) % 16)) trans

theorem transposes_trans16 : Transposes 2 trans16 where
  natural g r := by
    unfold trans16
    simp only [unpackLo_comp, unpackHi_comp, List.map_cons, List.map_nil]
  count := rfl
  numbers := by decide

theorem transposes_trans32 : Transposes 4 trans32 where
  natural g r := by
    unfold trans32
    simp only [unpackLo_comp, unpackHi_comp, List.map_cons, List.map_nil]
  count := rfl
  numbers := by decide

theorem transposes_trans64 : Transposes 8 trans64 where
  natural g r := by
    unfold trans64
    simp only [unpackLo_comp, unpackHi_comp, List.map_cons, List.map_nil]
  count := rfl
  numbers := by decide +kernel

theorem getElem?_storeu {n t : Nat} (register : Nat → Byte) (below : t < n) :
    (storeu n register)[t]? = some (register t) := getElem?_filled register below

/-- The registers that are stored for the elements from `ii` on. -/
theorem Transposes.mem_zipIdx {n : Nat} {trans : {α : Type} → (Nat → Nat → α) → List (Nat → α)}
    (transposes : Transposes n trans) (input : List Byte) (ii : Nat) {register : (Nat → Byte) × Nat}
    (member : register ∈ (trans fun q => loadu input (n * ii + q * 16)).zipIdx) :
    register.2 < n ∧ ∀ t < 16, register.1 t = input.getD ((ii + t) * n + register.2) 0 := by
  obtain ⟨column, value⟩ := Moves.mem_zipIdx transposes _ member
  refine ⟨column, fun t below => (value t below).trans ?_⟩
  unfold loadu
  rw [Nat.add_assoc, Nat.div_add_mod', Nat.add_mul, Nat.mul_comm n ii, Nat.add_assoc]

/-- The routines for elements of 2, 4 and 8 bytes transpose. -/
theorem transByteElemSse_spec {n : Nat} {trans : {α : Type} → (Nat → Nat → α) → List (Nat → α)}
    (transposes : Transposes n trans) {input out : List Byte} {size : Nat} (wholeOut : out.length = size * n) :
    transByteElemSse n trans input out size =
      ((size : Int) * n, filled (size * n) (transposed input size n 1)) := by
  have fill : Fill ((steps 0 size 16).flatMap fun ii =>
      ((trans fun q => loadu input (n * ii + q * 16)).zipIdx).map fun register =>
        (register.2 * size + ii, storeu 16 register.1)) (size * n) (transposed input size n 1) := by
    intro w member
    obtain ⟨ii, isStep, inner⟩ := List.mem_flatMap.mp member
    obtain ⟨register, isRegister, rfl⟩ := List.mem_map.mp inner
    obtain ⟨_, _, room⟩ := of_mem_steps isStep
    obtain ⟨column, value⟩ := transposes.mem_zipIdx input ii isRegister
    have length : (storeu 16 register.1).length = 16 := length_filled 16 _
    rw [length]
    refine ⟨?_, fun t below => ?_⟩
    · have last := pair_lt (n := size) (b := ii + 15) column (by omega)
      rw [Nat.mul_comm size]
      omega
    · rw [getElem?_storeu _ below, value t below, Nat.add_assoc, transposed_byte input n _ (by omega)]
  refine transByteElemRemainder_spec (by omega) (fill.length_eq wholeOut) ?_
  intro ii early row jj column
  obtain ⟨i, isStep, le, less⟩ := exists_mem_steps (by decide) (Nat.zero_le ii)
    (show ii < size - (size - 0) % 16 from early)
  obtain ⟨r, isRegister⟩ := Moves.exists_zipIdx transposes (fun q => loadu input (n * i + q * 16)) column
  refine fill.getElem? (Or.inl ⟨_, List.mem_flatMap.mpr ⟨i, isStep, List.mem_map.mpr ⟨_, isRegister, rfl⟩⟩, ?_⟩)
  have length : (storeu 16 r).length = 16 := length_filled 16 _
  constructor
  · change jj * size + i ≤ _
    omega
  · change _ < jj * size + i + (storeu 16 r).length
    omega

theorem getD_filled {n i : Nat} (f : Nat → Byte) (below : i < n) : (filled n f).getD i 0 = f i := by
  rw [List.getD_eq_getElem?_getD, getElem?_filled f below]
  rfl

/-- Transposing elements in chunks of `n` bytes, then the bytes of all chunks, and then rows, transposes the bytes
of elements. -/
theorem transposed_chunks {input : List Byte} {size chunks n jj q ii : Nat} (chunk : jj < chunks) (byte : q < n)
    (row : ii < size) :
    transposed (filled (size * chunks * n) (transposed
      (filled (size * chunks * n) (transposed input size chunks n)) (size * chunks) n 1)) n chunks size
        ((jj * n + q) * size + ii) =
      transposed input size (chunks * n) 1 ((jj * n + q) * size + ii) := by
  have element : jj * size + ii < size * chunks := by
    rw [Nat.mul_comm size]
    exact pair_lt chunk row
  have moved : (q * chunks + jj) * size + ii = q * (size * chunks) + (jj * size + ii) := by ring
  have inside : q * (size * chunks) + (jj * size + ii) < size * chunks * n := by
    rw [Nat.mul_comm _ n]
    exact pair_lt byte element
  have inside' : (jj * size + ii) * n + q < size * chunks * n := pair_lt element byte
  have source : (ii * chunks + jj) * n + q = ii * (chunks * n) + (jj * n + q) := by ring
  rw [transposed_pair _ chunks jj byte row, moved, getD_filled _ inside, transposed_byte _ n q element,
    getD_filled _ inside', transposed_pair input chunks jj row byte, source, transposed_byte input _ _ row]

theorem filled_congr {n : Nat} {f g : Nat → Byte} (same : ∀ i < n, f i = g i) : filled n f = filled n g :=
  List.map_congr_left fun i member => same i (List.mem_range.mp member)

/-- The hierarchical routine transposes. -/
theorem transByteElem_chunks {n chunks : Nat} {trans : {α : Type} → (Nat → Nat → α) → List (Nat → α)}
    (transposes : Transposes n trans) {input out tmpBuf : List Byte} {size : Nat}
    (wholeIn : input.length = size * (n * chunks)) (wholeOut : out.length = size * (n * chunks))
    (wholeTmp : tmpBuf.length = size * (n * chunks)) :
    ((transByteElemSse n trans (transElemType n input out size chunks) tmpBuf (size * chunks)).1,
      (transElem (transByteElemSse n trans (transElemType n input out size chunks) tmpBuf (size * chunks)).2
        (transElemType n input out size chunks) n chunks size).2) =
      ((size : Int) * (n * chunks : Nat), filled (size * (n * chunks)) (transposed input size (n * chunks) 1)) := by
  have total : size * (n * chunks) = size * chunks * n := by ring
  have total' : size * chunks * n = n * chunks * size := by ring
  rw [total] at wholeIn wholeOut wholeTmp
  rw [transElemType_spec wholeIn wholeOut, transByteElemSse_spec transposes wholeTmp,
    transElem_spec (by rw [length_filled, total']) (by rw [length_filled, total']), ← total', total]
  refine Prod.ext ?_ (filled_congr fun p below => ?_)
  · push_cast
    ring
  · rw [total', Nat.mul_comm n] at below
    obtain ⟨e, isByte, ii, row, rfl⟩ := exists_pair below
    obtain ⟨jj, chunk, q, byte, rfl⟩ := exists_pair isByte
    rw [Nat.mul_comm n chunks]
    exact transposed_chunks chunk byte row

/-- `bshuf_trans_byte_elem_SSE` transposes. -/
theorem transByteElemSSE_spec (malloc : Malloc) {input out : List Byte} {size elemSize : Nat}
    (wholeIn : input.length = size * elemSize) (wholeOut : out.length = size * elemSize) :
    transByteElemSSE malloc input out size elemSize =
      ((size : Int) * elemSize, filled (size * elemSize) (transposed input size elemSize 1)) := by
  unfold transByteElemSSE
  split
  · rename_i one
    subst one
    refine Prod.ext rfl ?_
    change overwrite out 0 (run (size * 1) input 0) = _
    have whole : run (size * 1) input 0 = input := by
      unfold run
      rw [List.drop_zero, List.take_of_length_le (Nat.le_of_eq wholeIn)]
    rw [whole, overwrite_zero, wholeIn, ← wholeOut, List.drop_length, List.append_nil, wholeOut]
    refine List.ext_getElem? fun i => ?_
    by_cases below : i < size * 1
    · have row : i < size := by omega
      have same := transposed_byte input 1 0 row
      rw [Nat.zero_mul, Nat.zero_add, Nat.mul_one, Nat.add_zero] at same
      rw [getElem?_filled _ below, same, List.getD_eq_getElem?_getD, List.getElem?_eq_getElem (by omega)]
      rfl
    · rw [List.getElem?_eq_none (by omega), List.getElem?_eq_none (by rw [length_filled]; omega)]
  split
  · rename_i two
    subst two
    exact transByteElemSse_spec transposes_trans16 wholeOut
  split
  · rename_i four
    subst four
    exact transByteElemSse_spec transposes_trans32 wholeOut
  split
  · rename_i eight
    subst eight
    exact transByteElemSse_spec transposes_trans64 wholeOut
  split
  · exact transByteElemScal_spec wholeOut
  split
  · rename_i many
    obtain ⟨chunks, rfl⟩ := Nat.dvd_of_mod_eq_zero many
    simp only [Nat.mul_div_cancel_left chunks (show 0 < 8 by decide)]
    exact transByteElem_chunks transposes_trans64 wholeIn wholeOut (malloc.length _)
  · rename_i notEight
    have many : elemSize % 4 = 0 := by omega
    obtain ⟨chunks, rfl⟩ := Nat.dvd_of_mod_eq_zero many
    simp only [Nat.mul_div_cancel_left chunks (show 0 < 4 by decide)]
    exact transByteElem_chunks transposes_trans32 wholeIn wholeOut (malloc.length _)

end Bshuf

end MBFGraph
