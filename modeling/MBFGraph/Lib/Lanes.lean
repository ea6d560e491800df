import MBFGraph.Lib.ByteBits

/-!
# Vector registers

A register is the function that gives its elements, lowest first. The operations below are those of the
instruction sets SSE2 and AVX2 that move elements about, for elements of any type; a sequence of them can be
evaluated on the numbers of the elements.
-/

namespace Lanes

open ByteBits

variable {α : Type}

/-- `_mm_unpacklo_epi8`, `_epi16`, `_epi32` and `_epi64` for `w` of 1, 2, 4 and 8: the units of `w` bytes in the
lower halves of two registers of 16 bytes, alternately. -/
def unpackLo (w : Nat) (a b : Nat → α) (t : Nat) : α :=
  if t / w % 2 = 0 then a (t / (2 * w) * w + t % w) else b (t / (2 * w) * w + t % w)

/-- `_mm_unpackhi`: the units in the upper halves. -/
def unpackHi (w : Nat) (a b : Nat → α) (t : Nat) : α :=
  if t / w % 2 = 0 then a (8 + (t / (2 * w) * w + t % w)) else b (8 + (t / (2 * w) * w + t % w))

/-- The operation of AVX2: the one of SSE2 on both halves. -/
def inHalves (op : (Nat → α) → (Nat → α) → Nat → α) (a b : Nat → α) (t : Nat) : α :=
  op (fun i => a (t / 16 * 16 + i)) (fun i => b (t / 16 * 16 + i)) (t % 16)

/-- `_mm256_permute2x128_si256` with selection 32. -/
def lowHalves (a b : Nat → α) (t : Nat) : α := if t < 16 then a t else b (t - 16)

/-- `_mm256_permute2x128_si256` with selection 49. -/
def highHalves (a b : Nat → α) (t : Nat) : α := if t < 16 then a (16 + t) else b t

/-- `_mm_movemask_epi8` and `_mm256_movemask_epi8` for `n` of 16 and 32. -/
def movemask (n : Nat) (a : Nat → Byte) : BitVec n := BitVec.ofFnLE fun t : Fin n => (a t).getLsbD 7

/-- `_mm_slli_epi16` and `_mm256_slli_epi16` by 1. -/
def shiftUnits (a : Nat → Byte) (t : Nat) : Byte :=
  if t % 2 = 0 then a t <<< 1 else a t <<< 1 ||| a (t - 1) >>> 7

theorem getLsbD_shiftUnits (a : Nat → Byte) (t : Nat) {j : Nat} (positive : 0 < j) (inside : j < 8) :
    (shiftUnits a t).getLsbD j = (a t).getLsbD (j - 1) := by
  have above : (a (t - 1) >>> 7).getLsbD j = false := by
    rw [BitVec.getLsbD_ushiftRight]
    exact BitVec.getLsbD_of_ge _ _ (by omega)
  have moved : (a t <<< 1).getLsbD j = (a t).getLsbD (j - 1) := by
    rw [BitVec.getLsbD_shiftLeft, decide_eq_true inside, decide_eq_false (Nat.not_lt.mpr positive), Bool.not_false,
      Bool.true_and, Bool.true_and]
  unfold shiftUnits
  split
  · exact moved
  · rw [BitVec.getLsbD_or, moved, above, Bool.or_false]

/-- The bits that have not yet been shifted out of their byte. -/
theorem getLsbD_shiftUnits_iterate (a : Nat → Byte) (t : Nat) {k j : Nat} (le : k ≤ j) (inside : j < 8) :
    (shiftUnits^[k] a t).getLsbD j = (a t).getLsbD (j - k) := by
  induction k generalizing j with
  | zero => rfl
  | succ k ih =>
    have before := ih (Nat.le_sub_one_of_lt le) (Nat.lt_of_le_of_lt (Nat.sub_le j 1) inside)
    rw [Function.iterate_succ_apply', getLsbD_shiftUnits _ t (Nat.lt_of_lt_of_le (Nat.succ_pos k) le) inside, before,
      Nat.sub_sub, Nat.add_comm 1 k]

/-- The mask behind `k` shifts. -/
theorem getLsbD_movemask {n : Nat} (a : Nat → Byte) {k t : Nat} (bit : k < 8) (inside : t < n) :
    (movemask n (shiftUnits^[k] a)).getLsbD t = (a t).getLsbD (7 - k) := by
  unfold movemask
  rw [BitVec.getLsbD_ofFnLE, dif_pos inside]
  exact getLsbD_shiftUnits_iterate a t (Nat.le_of_lt_succ bit) (by decide)

end Lanes
