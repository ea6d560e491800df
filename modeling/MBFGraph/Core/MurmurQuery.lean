import MBFGraph.Core.BloomQuery

/-!
# The kernel without vector instructions

With the option `CPUF` the filter files are queried by a kernel (`sg_driver.hpp:1056-1083`) that hashes with
`MurmurHash3_x86_32` (`sg_driver.hpp:51-105`) and takes the filters one behind the other. `none` is a failing
assertion, an access outside of `BF_bitset` or a loop that does not end.
-/

namespace MBFGraph

open ByteBits Stores

def rotl32 (x : BitVec 32) (r : Nat) : BitVec 32 := x <<< r ||| x >>> (32 - r)

def fmix32 (h : BitVec 32) : BitVec 32 :=
  let h := h ^^^ h >>> 16
  let h := h * 0x85ebca6b#32
  let h := h ^^^ h >>> 13
  let h := h * 0xc2b2ae35#32
  h ^^^ h >>> 16

/-- `MurmurHash3_x86_32` for a key of four bytes: one block and no tail. -/
def murmurHash3X8632 (key : VertexT) (seed : BitVec 32) : BitVec 32 :=
  let k1 := rotl32 (key * 0xcc9e2d51#32) 15 * 0x1b873593#32
  let h1 := rotl32 (seed ^^^ k1) 13 * 5#32 + 0xe6546b64#32
  fmix32 (h1 ^^^ 4#32)

/-- `hashA`, `hashB`, `hashC`, `hashD` of the kernel. -/
def cpufHash (bitsPerBF : Nat) (tmpV : VertexT) : List Nat :=
  [100#32, 200#32, 300#32, 400#32].map fun seed =>
    (murmurHash3X8632 tmpV seed &&& BitVec.ofNat 32 (bitsPerBF - 1)).toNat

section Kernels

variable (o : BloomOptions)

/-- `result` for the filter whose bytes begin at `bufin[start]`. -/
def cpufResult (bufin : List Byte) (start : Nat) (tmpV : VertexT) : Bool :=
  (cpufHash o.bitsPerBF tmpV).all fun hash => bitAt bufin (8 * start + hash)

/-- `BF_bitset[bit_index / 8] |= result << (bit_index % 8)`. -/
def orBit (bitIndex : Nat) (result : Bool) (bitset : List Byte) : Option (List Byte) :=
  if bitIndex / 8 < bitset.length then some (if result then setBit bitset bitIndex else bitset) else none

/-- The turn `k` of the inner loop. `k` and `bit_index` are `unsigned int`. -/
def cpufFilter (call : MetaCall) (tmpV : VertexT) (k : Nat) (bitset : List Byte) : Option (List Byte) :=
  let bytesPerBF := o.bitsPerBF / 8
  orBit ((call.bfOffset / bytesPerBF + k) % 2 ^ 32)
    (cpufResult o call.bufin (k * bytesPerBF % 2 ^ 32) tmpV) bitset

/-- The kernel `CPUF`. -/
def cpufKernel (allBFVertex : List VertexT) (allBFCnt : Nat) (call : MetaCall) (bitset : List Byte) :
    Option (List Byte) :=
  let bytesPerBF := o.bitsPerBF / 8
  if call.bfOffset % bytesPerBF ≠ 0 ∨ call.bufin.length % bytesPerBF ≠ 0 then none
  else
    (allBFVertex.take allBFCnt).foldlM (fun bitset tmpV =>
      -- the bound of the inner loop is an `unsigned long`, and `k` wraps around below it
      if 2 ^ 32 ≤ call.bufin.length / bytesPerBF then none
      else (List.range (call.bufin.length / bytesPerBF)).foldlM
        (fun bitset k => cpufFilter o call tmpV k bitset) bitset) bitset

/-- The kernel `CPU`: what `kernelStores` lists, stored. -/
def cpuKernel (allBFVertex : List VertexT) (allBFCnt : Nat) (call : MetaCall) (bitset : List Byte) :
    Option (List Byte) :=
  (kernelStores o allBFVertex allBFCnt call).bind fun stores => stores.foldlM storeInside bitset

/-- `BF_bitset` after the calls of a kernel. -/
def runKernel (kernel : MetaCall → List Byte → Option (List Byte)) (calls : List MetaCall)
    (bitset : List Byte) : Option (List Byte) :=
  calls.foldlM (fun bitset call => kernel call bitset) bitset

end Kernels

end MBFGraph
