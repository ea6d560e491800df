import MBFGraph.Core.Proofs.BitshuffleBytes
import MBFGraph.Core.Proofs.MetaStream

/-!
# Transpositions of bits

The loops over words and over vector registers take bit `k` of every byte: bit `k * nbyte + y` of the output is bit
`k` of byte `y` of the input. With the transpositions of bytes in front and behind, every build shuffles and
un-shuffles the bits of elements.
-/

namespace MBFGraph

open ByteBits Fills Lanes Overwrite

namespace Bshuf

/-! ## Words -/

/-- Where the bits of `TRANS_BIT_8X8` come from. -/
theorem transBit8x8_source : ∀ r < 8, ∀ c < 8,
    DeltaSwap.source (0x00AA00AA00AA00AA : BitVec 64) 7 (DeltaSwap.source (0x0000CCCC0000CCCC : BitVec 64) 14
      (DeltaSwap.source (0x00000000F0F0F0F0 : BitVec 64) 28 (8 * r + c))) = 8 * c + r ∧
    DeltaSwap.source (0x0000CCCC0000CCCC : BitVec 64) 14
      (DeltaSwap.source (0x00000000F0F0F0F0 : BitVec 64) 28 (8 * r + c)) < 64 ∧
    DeltaSwap.source (0x00000000F0F0F0F0 : BitVec 64) 28 (8 * r + c) < 64 := by decide +kernel

/-- `TRANS_BIT_8X8` transposes the eight bytes of a word. -/
theorem getLsbD_transBit8x8 (x : BitVec 64) {r c : Nat} (row : r < 8) (column : c < 8) :
    (transBit8x8 x).getLsbD (8 * r + c) = x.getLsbD (8 * c + r) := by
  obtain ⟨source, inner, innermost⟩ := transBit8x8_source r row c column
  unfold transBit8x8
  simp only
  rw [DeltaSwap.getLsbD_deltaSwap (by decide +kernel) _ (by omega),
    DeltaSwap.getLsbD_deltaSwap (by decide +kernel) _ innermost,
    DeltaSwap.getLsbD_deltaSwap (by decide +kernel) _ inner, source]

/-- The byte that is stored for bit `kk`. -/
theorem getLsbD_transposed_word (input : List Byte) (a : Nat) {kk t : Nat} (bit : kk < 8) (inside : t < 8) :
    ((transBit8x8 (load 64 input a) >>> (8 * kk)).setWidth 8).getLsbD t = bitAt input (8 * (a + t) + kk) := by
  rw [BitVec.getLsbD_setWidth, decide_eq_true inside, Bool.true_and, BitVec.getLsbD_ushiftRight,
    getLsbD_transBit8x8 _ bit inside, getLsbD_load, decide_eq_true (by omega), Bool.true_and]
  congr 1
  ring

/-! ## Bytes and their bits -/

/-- The byte with the bits `8 * p`, …, `8 * p + 7`. -/
def byteOf (f : Nat → Bool) (p : Nat) : Byte := BitVec.ofFnLE fun t : Fin 8 => f (8 * p + t)

theorem ofBits_eq_filled (n : Nat) (f : Nat → Bool) : ofBits n f = filled n (byteOf f) := rfl

theorem getLsbD_byteOf (f : Nat → Bool) (p : Nat) {t : Nat} (inside : t < 8) :
    (byteOf f p).getLsbD t = f (8 * p + t) := by
  unfold byteOf
  rw [BitVec.getLsbD_ofFnLE, dif_pos inside]

theorem eq_byteOf {f : Nat → Bool} {p : Nat} {byte : Byte} (bits : ∀ t < 8, byte.getLsbD t = f (8 * p + t)) :
    byte = byteOf f p :=
  BitVec.eq_of_getLsbD_eq fun t inside => (bits t inside).trans (getLsbD_byteOf f p inside).symm

theorem bitAt_filled {n p t : Nat} (f : Nat → Byte) (below : p < n) (inside : t < 8) :
    bitAt (filled n f) (8 * p + t) = (f p).getLsbD t := by
  rw [bitAt_eq _ _ _ inside, getD_filled f below]

/-- Bit `b` of the output: bits `k` of all bytes, for `k` of 0 to 7. -/
def bitPlane (input : List Byte) (nbyte b : Nat) : Bool := bitAt input (8 * (b % nbyte) + b / nbyte)

theorem bitPlane_pair (input : List Byte) {nbyte y : Nat} (k : Nat) (below : y < nbyte) :
    bitPlane input nbyte (k * nbyte + y) = bitAt input (8 * y + k) := by
  unfold bitPlane
  rw [pair_mod below, pair_div below]

/-- Eight neighbouring bits of a plane. -/
theorem byteOf_bitPlane {input : List Byte} {rows k ii : Nat} (inside : ii < rows) {byte : Byte}
    (bits : ∀ t < 8, byte.getLsbD t = bitAt input (8 * (8 * ii + t) + k)) :
    byte = byteOf (bitPlane input (8 * rows)) (k * rows + ii) := by
  refine eq_byteOf fun t below => ?_
  have position : 8 * (k * rows + ii) + t = k * (8 * rows) + (8 * ii + t) := by ring
  rw [bits t below, position, bitPlane_pair input k (by omega)]

/-- `bshuf_trans_bit_byte_remainder` takes the bits of the bytes from `startByte` on. -/
theorem transBitByteRemainder_spec {input out : List Byte} {size elemSize rows startByte : Nat}
    (whole : elemSize * size = 8 * rows) (aligned : startByte % 8 = 0) (wholeOut : out.length = 8 * rows)
    (done : ∀ k < 8, ∀ ii < rows, 8 * ii < startByte →
      out[k * rows + ii]? = some (byteOf (bitPlane input (8 * rows)) (k * rows + ii))) :
    transBitByteRemainder input out size elemSize startByte =
      ((size : Int) * elemSize, ofBits (8 * rows) (bitPlane input (8 * rows))) := by
  unfold transBitByteRemainder
  simp only
  rw [whole, Nat.mul_mod_right, Nat.mul_div_cancel_left rows (by decide), if_neg (by decide),
    if_neg (not_not.mpr aligned), ofBits_eq_filled]
  refine Prod.ext rfl (Fill.eq_filled ?_ wholeOut ?_)
  · intro w member
    obtain ⟨ii, isStep, inner⟩ := List.mem_flatMap.mp member
    obtain ⟨kk, isBit, rfl⟩ := List.mem_map.mp inner
    have inside := lt_of_mem_steps isStep
    have bit := List.mem_range.mp isBit
    refine ⟨pair_lt bit inside, fun t below => ?_⟩
    obtain rfl := Nat.lt_one_iff.mp below
    refine congrArg some (byteOf_bitPlane inside fun t below => ?_)
    exact getLsbD_transposed_word input (8 * ii) bit below
  · intro p below
    obtain ⟨k, bit, ii, inside, rfl⟩ := exists_pair below
    by_cases early : 8 * ii < startByte
    · exact Or.inr (done k bit ii inside early)
    · left
      have last : ii < rows - (rows - startByte / 8) % 1 := by
        rw [Nat.mod_one]
        exact inside
      obtain ⟨i, isStep, le, less⟩ := exists_mem_steps Nat.one_pos (by omega) last
      obtain rfl : i = ii := by omega
      exact ⟨_, List.mem_flatMap.mpr ⟨i, isStep, List.mem_map.mpr ⟨k, List.mem_range.mpr bit, rfl⟩⟩,
        Nat.le_refl _, Nat.lt_succ_self _⟩

theorem transBitByteScal_spec {input out : List Byte} {size elemSize rows : Nat}
    (whole : elemSize * size = 8 * rows) (wholeOut : out.length = 8 * rows) :
    transBitByteScal input out size elemSize =
      ((size : Int) * elemSize, ofBits (8 * rows) (bitPlane input (8 * rows))) :=
  transBitByteRemainder_spec whole rfl wholeOut fun _ _ _ _ none_ => absurd none_ (Nat.not_lt_zero _)

/-! ## Registers -/

/-- The bytes of a mask. -/
theorem getElem?_bytesOf {w n s : Nat} (word : BitVec w) (below : s < n) :
    (bytesOf n word)[s]? = some (byteOf word.getLsbD s) :=
  getElem?_filled _ below

/-- Bit `t` of a mask is a bit of byte `t` of the register. -/
theorem getLsbD_mask (input : List Byte) (a : Nat) {n kk t : Nat} (bit : kk < 8) (inside : t < n) :
    (movemask n (shiftUnits^[kk] (loadu input a))).getLsbD t = bitAt input (8 * (a + t) + (7 - kk)) := by
  rw [getLsbD_movemask _ bit inside, bitAt_eq _ _ _ (by omega)]
  rfl

/-- `bshuf_trans_bit_byte_SSE` and `_AVX` take the bits of all bytes. -/
theorem transBitByteVector_spec {input out : List Byte} {n size elemSize rows : Nat} (units : 8 ∣ n)
    (positive : 0 < n) (whole : elemSize * size = 8 * rows) (wholeOut : out.length = 8 * rows) :
    transBitByteVector n input out size elemSize =
      ((size : Int) * elemSize, ofBits (8 * rows) (bitPlane input (8 * rows))) := by
  unfold transBitByteVector
  obtain ⟨m, rfl⟩ := units
  simp only [whole]
  rw [Nat.mul_div_cancel_left m (show 0 < 8 by decide)]
  have fill : Fill ((steps 0 (8 * rows) (8 * m)).flatMap fun ii => (List.range 8).map fun kk =>
      (((7 - kk) * (8 * rows) + ii) / 8, bytesOf m (movemask (8 * m) (shiftUnits^[kk] (loadu input ii)))))
      (8 * rows) (byteOf (bitPlane input (8 * rows))) := by
    intro w member
    obtain ⟨ii, isStep, inner⟩ := List.mem_flatMap.mp member
    obtain ⟨kk, isBit, rfl⟩ := List.mem_map.mp inner
    have bit := List.mem_range.mp isBit
    obtain ⟨step, first, room⟩ := of_mem_steps isStep
    rw [Nat.zero_add] at first
    obtain ⟨i, rfl⟩ : ∃ i, ii = 8 * i := ⟨m * step, by rw [first]; ring⟩
    have address : ((7 - kk) * (8 * rows) + 8 * i) / 8 = (7 - kk) * rows + i := by
      rw [show (7 - kk) * (8 * rows) + 8 * i = 8 * ((7 - kk) * rows + i) by ring,
        Nat.mul_div_cancel_left _ (by decide)]
    rw [address, length_bytesOf]
    constructor
    · have last := pair_lt (show 7 - kk < 8 by omega) (show i + m - 1 < rows by omega)
      omega
    · intro s below
      rw [getElem?_bytesOf _ below, Nat.add_assoc]
      refine congrArg some (byteOf_bitPlane (by omega) fun t inside => ?_)
      rw [getLsbD_byteOf _ _ inside, getLsbD_mask input _ bit (by omega)]
      congr 1
      ring
  refine transBitByteRemainder_spec whole ?_ (fill.length_eq wholeOut) ?_
  · have divides : 8 ∣ 8 * rows - 8 * rows % (8 * m) :=
      Nat.dvd_sub (Nat.dvd_mul_right 8 rows) ((Nat.dvd_mod_iff (Nat.dvd_mul_right 8 m)).mpr (Nat.dvd_mul_right 8 rows))
    exact Nat.mod_eq_zero_of_dvd divides
  · intro k bit ii inside early
    obtain ⟨i, isStep, le, less⟩ := exists_mem_steps positive (Nat.zero_le (8 * ii))
      (show 8 * ii < 8 * rows - (8 * rows - 0) % (8 * m) from early)
    obtain ⟨step, first, room⟩ := of_mem_steps isStep
    rw [Nat.zero_add] at first
    obtain ⟨j, rfl⟩ : ∃ j, i = 8 * j := ⟨m * step, by rw [first]; ring⟩
    have address : ((7 - (7 - k)) * (8 * rows) + 8 * j) / 8 = k * rows + j := by
      rw [show 7 - (7 - k) = k by omega, show k * (8 * rows) + 8 * j = 8 * (k * rows + j) by ring,
        Nat.mul_div_cancel_left _ (by decide)]
    refine fill.getElem? (Or.inl ⟨_, List.mem_flatMap.mpr ⟨8 * j, isStep, List.mem_map.mpr
      ⟨7 - k, List.mem_range.mpr (by omega), rfl⟩⟩, ?_⟩)
    unfold Covers
    simp only [length_bytesOf]
    rw [address]
    omega

/-! ## Shuffling -/

/-- Bytes, then bits, then rows: row `8 * j + k` has bit `8 * j + k` of every element. -/
theorem shuffled_rows (input : List Byte) (nb elemSize : Nat) :
    filled (8 * elemSize * nb) (transposed (ofBits (8 * (nb * elemSize)) (bitPlane
      (filled (8 * nb * elemSize) (transposed input (8 * nb) elemSize 1)) (8 * (nb * elemSize)))) 8 elemSize nb) =
      (bshufBitshuffle input (8 * nb) elemSize).1 := by
  have total : 8 * elemSize * nb = 8 * nb * elemSize := by ring
  have total' : 8 * (nb * elemSize) = 8 * nb * elemSize := by ring
  unfold bshufBitshuffle
  rw [ofBits_eq_filled, ofBits_eq_filled, ← total]
  refine filled_congr fun p below => ?_
  rw [Nat.mul_comm 8] at below
  obtain ⟨e, isRow, r, inside, rfl⟩ := exists_pair below
  obtain ⟨j, byte, k, bit, rfl⟩ := exists_pair isRow
  have source : (k * elemSize + j) * nb + r < 8 * (nb * elemSize) := by
    rw [show 8 * (nb * elemSize) = 8 * elemSize * nb by ring]
    exact pair_lt (pair_lt bit byte) inside
  rw [transposed_pair _ elemSize j bit inside, getD_filled _ source]
  refine eq_byteOf fun t small => ?_
  have column : 8 * r + t < 8 * nb := by omega
  have position : 8 * ((k * elemSize + j) * nb + r) + t = k * (8 * (nb * elemSize)) + (j * (8 * nb) + (8 * r + t)) := by
    ring
  have position' : 8 * ((j * 8 + k) * nb + r) + t = (8 * j + k) * (8 * nb) + (8 * r + t) := by ring
  have element : j * (8 * nb) + (8 * r + t) < 8 * nb * elemSize := by
    rw [Nat.mul_comm (8 * nb)]
    exact pair_lt byte column
  rw [getLsbD_byteOf _ _ small, position, bitPlane_pair _ k (total' ▸ element), total,
    bitAt_filled _ element bit, transposed_byte input elemSize j column, ← bitAt_eq _ _ _ bit, position',
    pair_mod column, pair_div column]
  congr 1
  ring

variable (malloc : Malloc) {input out : List Byte} {size elemSize : Nat}

/-- Routines that transpose bytes and bits, put together. -/
theorem transBitElemBy_spec {transByteElem transBitByte : List Byte → List Byte → Nat → Nat → Int × List Byte}
    (aligned : size % 8 = 0)
    (bytes : transByteElem input out size elemSize =
      ((size : Int) * elemSize, filled (size * elemSize) (transposed input size elemSize 1)))
    (bits : ∀ (input' out' : List Byte) (rows : Nat), elemSize * size = 8 * rows → out'.length = 8 * rows →
      transBitByte input' out' size elemSize =
        ((size : Int) * elemSize, ofBits (8 * rows) (bitPlane input' (8 * rows)))) :
    transBitElemBy malloc transByteElem transBitByte input out size elemSize =
      ((size : Int) * elemSize, (bshufBitshuffle input size elemSize).1) := by
  obtain ⟨nb, rfl⟩ := Nat.dvd_of_mod_eq_zero aligned
  have counted : ¬((8 * nb : Nat) : Int) * elemSize < 0 := not_lt.mpr (by positivity)
  have total : 8 * nb * elemSize = 8 * (nb * elemSize) := Nat.mul_assoc 8 nb elemSize
  have total' : 8 * nb * elemSize = 8 * elemSize * nb := by ring
  have planes := bits (filled (8 * nb * elemSize) (transposed input (8 * nb) elemSize 1))
    (malloc.bytes (8 * nb * elemSize)) (nb * elemSize) (by ring) ((malloc.length _).trans total)
  unfold transBitElemBy
  rw [if_neg (not_not.mpr aligned)]
  simp only [bytes, planes]
  rw [if_neg counted, if_neg counted]
  unfold transBitrowEight
  rw [if_neg (not_not.mpr aligned), Nat.mul_div_cancel_left nb (by decide),
    transElem_spec ((length_ofBits _ _).trans (total.symm.trans total')) ((length_filled _ _).trans total'),
    shuffled_rows]
  refine Prod.ext ?_ rfl
  push_cast
  ring

/-- Every build shuffles the bits of a block. -/
theorem transBitElem_spec (build : Build) (aligned : size % 8 = 0) (wholeIn : input.length = size * elemSize)
    (wholeOut : out.length = size * elemSize) :
    transBitElem malloc build input out size elemSize =
      ((size : Int) * elemSize, (bshufBitshuffle input size elemSize).1) := by
  cases build with
  | scal =>
    exact transBitElemBy_spec malloc aligned (transByteElemScal_spec wholeOut)
      fun _ _ _ whole wholeTmp => transBitByteScal_spec whole wholeTmp
  | sse2 =>
    refine transBitElemBy_spec malloc aligned (transByteElemSSE_spec malloc wholeIn wholeOut) ?_
    intro input' out' rows whole wholeTmp
    unfold transBitByteSSE
    rw [if_neg (not_not.mpr (by rw [whole]; exact Nat.mul_mod_right 8 rows))]
    exact transBitByteVector_spec (by decide) (by decide) whole wholeTmp
  | avx2 =>
    exact transBitElemBy_spec malloc aligned (transByteElemSSE_spec malloc wholeIn wholeOut)
      fun _ _ _ whole wholeTmp => transBitByteVector_spec (by decide) (by decide) whole wholeTmp

end Bshuf

end MBFGraph
