import MBFGraph.Lib.Crc32c
import MBFGraph.Format.FormatUtils

/-!
# The order of MBFSort

`operator<` of `MBFSort.cpp:43-82`: edges whose sources have similar hashes come close to each other. It
compares the four hashes of the sources bit by bit more precisely, sorted each time.
-/

namespace MBFGraph

open Crc32c

/-- `bf_compute`: the array `hash_val` of `struct hash_all`. -/
def bfCompute (src : VertexT) (bloomSetBits : Nat) : List (BitVec 16) :=
  -- the mask is computed in `int` and then widened
  let ones : BitVec 32 := (1 <<< bloomSetBits) - 1
  let twoBfMask : BitVec 64 := ((ones <<< 16) + ones).signExtend 64
  let tmpHash : BitVec 64 := mmCrc32U64 0 (src.setWidth 64)
  let hash1 := tmpHash &&& twoBfMask
  let hash2 := mmCrc32U64 tmpHash (src.setWidth 64) &&& twoBfMask
  [(hash1 &&& 0xFFFF).setWidth 16, (hash1 >>> 16).setWidth 16,
    (hash2 &&& 0xFFFF).setWidth 16, (hash2 >>> 16).setWidth 16]

/-- `com_hash`: the lowest bits of the hashes, sorted. -/
def comHash (i : Nat) (hash : List (BitVec 16)) : List (BitVec 16) :=
  (hash.map fun h => h &&& BitVec.ofNat 16 ((1 <<< i) - 1)).insertionSort (· ≤ ·)

/-- The loop over `hash_val`, which may return. -/
def compareHashes : List (BitVec 16) → List (BitVec 16) → Option Bool
  | a :: hashA, b :: hashB =>
    if a < b then some true else if b < a then some false else compareHashes hashA hashB
  | _, _ => none

/-- The loop over `i`, which may return. -/
def compareBits (hashA hashB : List (BitVec 16)) : List Nat → Option Bool
  | [] => none
  | i :: rest =>
    match compareHashes (comHash i hashA) (comHash i hashB) with
    | some less => some less
    | none => compareBits hashA hashB rest

/-- `operator<`. -/
def SimpleEdge.less (bloomSetBits : Nat) (A B : SimpleEdge) : Bool :=
  match compareBits (bfCompute A.src bloomSetBits) (bfCompute B.src bloomSetBits)
      (List.range' 1 bloomSetBits) with
  | some less => less
  | none =>
    if A.src < B.src then true
    else if B.src < A.src then false
    else if A.dst < B.dst then true
    else false

end MBFGraph
