import Mathlib

/-!
# CRC-32C on 64-bit operands

The cyclic redundancy check with the Castagnoli polynomial as the `crc32` instruction computes
it: reflected, without inversion of the start value or of the result. The instruction keeps the
32-bit remainder zero-extended in a 64-bit register.
-/

namespace Crc32c

/-- The reflected Castagnoli polynomial. -/
def polynomial : BitVec 32 := 0x82F63B78#32

/-- One operand bit enters the remainder. -/
def crcBit (operand : BitVec 64) (crc : BitVec 32) (t : Nat) : BitVec 32 :=
  if crc.getLsbD 0 ^^ operand.getLsbD t then (crc >>> 1) ^^^ polynomial else crc >>> 1

/-- The remainder after all 64 operand bits, least significant bit first. -/
def crc32 (crc : BitVec 32) (operand : BitVec 64) : BitVec 32 :=
  (List.range 64).foldl (crcBit operand) crc

/-- `_mm_crc32_u64`: the low half of `crc` is the remainder so far, the high half of the result
is zero. -/
def mmCrc32U64 (crc operand : BitVec 64) : BitVec 64 :=
  (crc32 (crc.setWidth 32) operand).setWidth 64

@[simp] theorem mmCrc32U64_setWidth (crc operand : BitVec 64) :
    (mmCrc32U64 crc operand).setWidth 32 = crc32 (crc.setWidth 32) operand := by
  simp [mmCrc32U64]

/-- A remainder that was kept in a 64-bit register is taken up again unchanged. -/
theorem mmCrc32U64_of_setWidth (crc : BitVec 32) (operand : BitVec 64) :
    mmCrc32U64 (crc.setWidth 64) operand = (crc32 crc operand).setWidth 64 := by
  simp [mmCrc32U64]

theorem mmCrc32U64_zero (operand : BitVec 64) :
    mmCrc32U64 0 operand = (crc32 0 operand).setWidth 64 := by
  simp [mmCrc32U64]

end Crc32c
