import MBFGraph.Lib.Stores
import MBFGraph.Core.BloomFile

/-!
# Querying the filter files

The phase `phase_BF_checking_2` of the driver: `do_meta_stream` (`x-lib.hpp:675-704`) reads a
filter file buffer by buffer, `meta_work` (`x-lib.hpp:105-138`) hands each processor its groups,
and the kernel of `partition_callback` (`sg_driver.hpp:988-1055`, kernel `CPU`) stores 256 result
bits for every group. `none` is a failing assertion or an `int` product out of range.
-/

namespace MBFGraph

open ByteBits Stores

/-- What `meta_work` puts into the `stream_callback_state`: the `bytes_in` bytes at `bufin` and
`BF_offset`. -/
structure MetaCall where
  bufin : List Byte
  bfOffset : Nat
  deriving DecidableEq, Repr

/-- `BF_bitset` after `bitset_clear`, with the size that the constructor gives it
(`sg_driver.hpp:665-667`). -/
def clearedBitset (o : BloomOptions) (edges : Nat) : List Byte :=
  List.replicate ((edges / o.bfsPerPage + 1) / 8 + 512) 0

section Kernel

variable (o : BloomOptions)

/-- Rows `A` to `D` of a vertex, `and`ed. -/
def queryVertex (bufin : List Byte) (baseAddr : Nat) (tmpV : VertexT) : BitVec 256 :=
  ((kernelHash o.bitsPerBF tmpV).map fun row => load 256 bufin (baseAddr + row <<< 5)).foldl
    (· &&& ·) (BitVec.allOnes 256)

/-- The loop over `k` and `j` for the group at `base_addr`. Vertices are taken four at a time. -/
def queryGroup (allBFVertex : List VertexT) (allBFCnt : Nat) (bufin : List Byte)
    (baseAddr : Nat) : BitVec 256 :=
  (allBFVertex.take ((allBFCnt + 3) / 4 * 4)).foldl
    (fun out tmpV => out ||| queryVertex o bufin baseAddr tmpV) 0

/-- The stores of one call of the kernel. The loop variable `i` is an `unsigned int`, and so is
`i * (BYTES_PER_BF * 256)`. -/
def kernelStores (allBFVertex : List VertexT) (allBFCnt : Nat) (call : MetaCall) :
    Option (List (Store 256)) :=
  let bytesPerBF := o.bitsPerBF / 8
  let groupBytes := bytesPerBF * 256
  if 2 ^ 31 ≤ groupBytes then none
  else if call.bfOffset % bytesPerBF ≠ 0 ∨ call.bufin.length % bytesPerBF ≠ 0 then none
  else if call.bufin.length % groupBytes ≠ 0 then none
  else if call.bfOffset % (bytesPerBF * 8) ≠ 0 then none
  else
    let filterGroups := call.bufin.length / groupBytes % 2 ^ 32
    let baseOut := call.bfOffset / bytesPerBF / 8
    some <| (List.range filterGroups).map fun i =>
      { addr := baseOut + (i <<< 5) % 2 ^ 32
        word := queryGroup o allBFVertex allBFCnt call.bufin (i * groupBytes % 2 ^ 32) }

/-- The stores of several calls. -/
def queryStores (allBFVertex : List VertexT) (allBFCnt : Nat) :
    List MetaCall → Option (List (Store 256))
  | [] => some []
  | call :: calls =>
      match kernelStores o allBFVertex allBFCnt call,
          queryStores allBFVertex allBFCnt calls with
      | some stores, some more => some (stores ++ more)
      | _, _ => none

/-- `meta_work::operator()`: the calls that the processors make for one buffer, by processor. -/
def metaWork (processors : Nat) (buffer : List Byte) (bfOffset : Nat) : Option (List MetaCall) :=
  if 2 ^ 31 ≤ o.bitsPerBF * 256 then none
  else
    let bytesPerBFs := o.bitsPerBF * 256 / 8
    if buffer.length % bytesPerBFs ≠ 0 then none
    else if buffer.length / bytesPerBFs ≤ 2 * processors then
      -- few groups: processor 0 takes them all
      some [⟨buffer, bfOffset⟩]
    else
      let chunkSize := buffer.length / bytesPerBFs / processors * bytesPerBFs
      if chunkSize = 0 then none
      else
        some <| (List.range processors).map fun processorId =>
          let bytesIn :=
            if processorId ≠ processors - 1 then chunkSize
            else buffer.length - chunkSize * processorId
          ⟨(buffer.drop (chunkSize * processorId)).take bytesIn, bfOffset + chunkSize * processorId⟩

/-- `do_meta_stream` over the buffers that the stream delivers: all calls, in buffer order. -/
def doMetaStream (processors : Nat) : List (List Byte) → Nat → Option (List MetaCall)
  | [], _ => some []
  | buffer :: buffers, bfOffset =>
      match metaWork o processors buffer bfOffset,
          doMetaStream processors buffers (bfOffset + buffer.length) with
      | some calls, some more => some (calls ++ more)
      | _, _ => none

end Kernel

end MBFGraph
