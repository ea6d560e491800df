import MBFGraph.Core.StateIter
import MBFGraph.Core.Tuning

/-!
# The state buffer

`state_count` and `state_prepare` in `unsigned long` arithmetic (`autotuner.hpp:85-96`,
`x-lib.hpp:526-536`): where the records of a super partition lie in the state buffer.
-/

namespace MBFGraph

namespace Configuration

variable (c : Configuration)

/-- `state_count`, with its assertion. A shift by 64 or more is undefined. -/
def stateCount64 (superp partition : BitVec 64) : Option (BitVec 64) :=
  let shift := c.partitionShift + c.superPartitionShift
  let vertices := BitVec.ofNat 64 c.vertices
  let base := (partition <<< c.superPartitionShift) ||| superp
  let count := (vertices - 1) &&& ~~~((1#64 <<< shift) - 1)
  if 64 ≤ shift then none
  else if base &&& count ≠ 0 then none
  else if count ||| base < vertices then some ((count >>> shift) + 1)
  else some ((count >>> shift) - 1 + 1)

/-- `index[0][partition]` as `state_prepare` sets it, `none` if an assertion fails before. -/
def stateIndex (vertexSize superp : BitVec 64) : Nat → Option (BitVec 64)
  | 0 => some 0
  | partition + 1 =>
    (stateIndex vertexSize superp partition).bind fun vSoFar =>
      (c.stateCount64 superp (BitVec.ofNat 64 partition)).map fun count =>
        vSoFar + vertexSize * count

/-- The address of a record, counted from the begin of the buffer. -/
def recordAddress (vertexSize superp : BitVec 64) (partition k : Nat) : Option (BitVec 64) :=
  (c.stateIndex vertexSize superp partition).map fun index => index + BitVec.ofNat 64 k * vertexSize

end Configuration

end MBFGraph
