import MBFGraph.Lib.Crc32c
import MBFGraph.Format.FormatUtils

/-!
# The two hash computations

A vertex occupies four bits of a Bloom filter. The builder (`bloom_filter_calculation`,
`sg_driver.hpp:352-362`) and the query kernel (`partition_callback`, `sg_driver.hpp:1023-1031`)
compute them separately: the builder holds the id in an `int`, the kernel in an `unsigned int`,
and the CRC instruction takes a 64-bit operand, so one extends the sign and the other does not.
Both are instances of `hashRows` on the extended operand.
-/

namespace MBFGraph

open Crc32c

/-- `((BITS_PER_BF - 1) << 16) + (BITS_PER_BF - 1)` in 32 bits. -/
def twoBfMask (bitsPerBF : Nat) : BitVec 32 :=
  (BitVec.ofNat 32 (bitsPerBF - 1) <<< 16) + BitVec.ofNat 32 (bitsPerBF - 1)

/-- `hashA`, `hashB`, `hashC`, `hashD` of the builder for the key of an edge. -/
def builderHash (bitsPerBF : Nat) (key : Nat) : List Nat :=
  -- `int src = F::split_key(...)`: the conversion to the operand type extends the sign
  let src : BitVec 64 := (BitVec.ofNat 32 key).signExtend 64
  let tmpHash : BitVec 32 := (mmCrc32U64 0 src).setWidth 32
  let hash1 : BitVec 32 := tmpHash &&& twoBfMask bitsPerBF
  let hash2 : BitVec 32 :=
    (mmCrc32U64 (tmpHash.setWidth 64) src &&& (twoBfMask bitsPerBF).setWidth 64).setWidth 32
  [(hash1 &&& 0xFFFF#32).toNat, (hash1 >>> 16).toNat,
    (hash2 &&& 0xFFFF#32).toNat, (hash2 >>> 16).toNat]

/-- The rows `A`, `B`, `C`, `D` that the kernel loads for a queried vertex. -/
def kernelHash (bitsPerBF : Nat) (tmpV : VertexT) : List Nat :=
  let v : BitVec 64 := tmpV.setWidth 64
  -- the mask is computed in `int` and then widened to `unsigned long long`
  let mask : BitVec 64 := (twoBfMask bitsPerBF).signExtend 64
  let tmpHash : BitVec 64 := mmCrc32U64 0 v
  let hash1 : BitVec 64 := tmpHash &&& mask
  let hash2 : BitVec 64 := mmCrc32U64 tmpHash v &&& mask
  [(hash1 &&& 0xFFFF#64).toNat, (hash1 >>> 16).toNat,
    (hash2 &&& 0xFFFF#64).toNat, (hash2 >>> 16).toNat]

/-- The four rows of a 64-bit operand, from the two chained remainders. -/
def hashRows (bitsPerBF : Nat) (operand : BitVec 64) : List Nat :=
  let hash1 := crc32 0 operand &&& twoBfMask bitsPerBF
  let hash2 := crc32 (crc32 0 operand) operand &&& twoBfMask bitsPerBF
  [(hash1 &&& 0xFFFF#32).toNat, (hash1 >>> 16).toNat,
    (hash2 &&& 0xFFFF#32).toNat, (hash2 >>> 16).toNat]

theorem builderHash_eq (bitsPerBF key : Nat) :
    builderHash bitsPerBF key = hashRows bitsPerBF ((BitVec.ofNat 32 key).signExtend 64) := by
  simp [builderHash, hashRows, BitVec.setWidth_and]

/-- The high half of the widened mask meets zeros only. -/
private theorem and_signExtend_mask (hash mask : BitVec 32) :
    hash.setWidth 64 &&& mask.signExtend 64 = (hash &&& mask).setWidth 64 := by
  apply BitVec.eq_of_getLsbD_eq
  intro t ht
  rw [BitVec.getLsbD_and, BitVec.getLsbD_setWidth, BitVec.getLsbD_signExtend,
    BitVec.getLsbD_setWidth, BitVec.getLsbD_and]
  by_cases low : t < 32
  · simp only [ht, low, if_true, decide_true, Bool.true_and]
  · simp only [BitVec.getLsbD_of_ge hash t (Nat.le_of_not_lt low), Bool.and_false, Bool.false_and]

private theorem low_half (hash : BitVec 32) :
    (hash.setWidth 64 &&& 0xFFFF#64).toNat = (hash &&& 0xFFFF#32).toNat := by
  simp only [BitVec.toNat_and, BitVec.toNat_setWidth, BitVec.toNat_ofNat]
  have bound : hash.toNat % 2 ^ 64 = hash.toNat := Nat.mod_eq_of_lt (by have := hash.isLt; omega)
  rw [bound]

private theorem high_half (hash : BitVec 32) :
    (hash.setWidth 64 >>> 16).toNat = (hash >>> 16).toNat := by
  simp only [BitVec.toNat_ushiftRight, BitVec.toNat_setWidth]
  have bound : hash.toNat % 2 ^ 64 = hash.toNat := Nat.mod_eq_of_lt (by have := hash.isLt; omega)
  rw [bound]

theorem kernelHash_eq (bitsPerBF : Nat) (tmpV : VertexT) :
    kernelHash bitsPerBF tmpV = hashRows bitsPerBF (tmpV.setWidth 64) := by
  simp only [kernelHash, hashRows]
  rw [mmCrc32U64_zero, mmCrc32U64_of_setWidth, and_signExtend_mask, and_signExtend_mask,
    low_half, high_half, low_half, high_half]

/-- Below `2^31` the two computations agree. -/
theorem builderHash_eq_kernelHash (bitsPerBF : Nat) {tmpV : VertexT} (low : tmpV.msb = false) :
    builderHash bitsPerBF tmpV.toNat = kernelHash bitsPerBF tmpV := by
  rw [builderHash_eq, kernelHash_eq, BitVec.ofNat_toNat, BitVec.setWidth_eq,
    BitVec.signExtend_eq_setWidth_of_msb_false low]

/-- A masked half never exceeds the mask's half, which is at most `BITS_PER_BF - 1`. -/
private theorem masked_lt {bitsPerBF : Nat} (positive : 0 < bitsPerBF) (hash : BitVec 32) :
    (hash &&& twoBfMask bitsPerBF &&& 0xFFFF#32).toNat < bitsPerBF ∧
      ((hash &&& twoBfMask bitsPerBF) >>> 16).toNat < bitsPerBF := by
  have small : (hash &&& twoBfMask bitsPerBF &&& 0xFFFF#32).toNat ≤ 0xFFFF := by
    rw [BitVec.toNat_and]; exact Nat.and_le_right
  have high : ((hash &&& twoBfMask bitsPerBF) >>> 16).toNat ≤ 0xFFFF := by
    rw [BitVec.toNat_ushiftRight, Nat.shiftRight_eq_div_pow]
    have := (hash &&& twoBfMask bitsPerBF).isLt
    omega
  by_cases wide : 0xFFFF < bitsPerBF
  · omega
  · have mask : (twoBfMask bitsPerBF).toNat = (bitsPerBF - 1) * 65536 + (bitsPerBF - 1) := by
      unfold twoBfMask
      rw [BitVec.toNat_add, BitVec.toNat_shiftLeft, BitVec.toNat_ofNat, Nat.shiftLeft_eq]
      omega
    constructor
    · have lowMask : (twoBfMask bitsPerBF &&& 0xFFFF#32).toNat = bitsPerBF - 1 := by
        rw [BitVec.toNat_and, mask]
        have ones : (0xFFFF#32).toNat = 2 ^ 16 - 1 := by decide
        rw [ones, Nat.and_two_pow_sub_one_eq_mod]
        omega
      have le : (hash &&& (twoBfMask bitsPerBF &&& 0xFFFF#32)).toNat ≤ bitsPerBF - 1 := by
        rw [BitVec.toNat_and, lowMask]; exact Nat.and_le_right
      rw [BitVec.and_assoc]
      omega
    · have le : (hash &&& twoBfMask bitsPerBF).toNat ≤
          (bitsPerBF - 1) * 65536 + (bitsPerBF - 1) := by
        rw [BitVec.toNat_and, mask]; exact Nat.and_le_right
      rw [BitVec.toNat_ushiftRight, Nat.shiftRight_eq_div_pow]
      omega

/-- Every row lies inside the filter. -/
theorem hashRows_lt {bitsPerBF : Nat} (positive : 0 < bitsPerBF) (operand : BitVec 64) :
    ∀ row ∈ hashRows bitsPerBF operand, row < bitsPerBF := by
  intro row member
  have first := masked_lt positive (crc32 0 operand)
  have second := masked_lt positive (crc32 (crc32 0 operand) operand)
  simp only [hashRows, List.mem_cons, List.not_mem_nil, or_false] at member
  rcases member with rfl | rfl | rfl | rfl
  · exact first.1
  · exact first.2
  · exact second.1
  · exact second.2

theorem hashRows_ne_nil (bitsPerBF : Nat) (operand : BitVec 64) :
    hashRows bitsPerBF operand ≠ [] := by
  simp [hashRows]

end MBFGraph
