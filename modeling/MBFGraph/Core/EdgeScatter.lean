import MBFGraph.Core.DiskStream
import MBFGraph.Lib.Writes

/-!
# The edge stream in a superstep

`scatter_gather::operator()` streams the edges of every super partition once in a superstep
(`sg_driver.hpp:753-870`), all of them or, with a bitset from the filters, some pages of them.
-/

namespace MBFGraph

open ByteBits Overwrite BitScan

/-- The edge stream and the super partition that is scattered next. -/
structure EdgeDriver where
  stream : DiskStream
  superp : Nat

section

variable (cfg : StreamConfig)

/-- `rewind_stream(edge_stream)` at the start of a superstep. -/
def beginSuperstep (d : EdgeDriver) : Option DiskStream :=
  if d.superp = 0 then d.stream.rewind cfg else some d.stream

/-- `set_bitset_stream`, if the filters were queried. -/
def handBitset (st : DiskStream) : Option (List Byte) → Option DiskStream
  | none => some st
  | some test => st.setBitset test

/-- One scatter up to the end of `do_stream`: the buffers that were scattered. -/
def scatterEdges (d : EdgeDriver) (bitset : Option (List Byte)) (fuel : Nat) :
    Option (List (List Byte) × DiskStream) :=
  match beginSuperstep cfg d with
  | none => none
  | some st =>
    match handBitset st bitset with
    | none => none
    | some st => st.doStream cfg d.superp fuel

/-- The driver behind `clear_bitset_stream`. -/
def nextSuperp (d : EdgeDriver) (st : DiskStream) : Option EdgeDriver :=
  match st.clearBitset with
  | none => none
  | some st => some ⟨st, (d.superp + 1) % cfg.superpCnt⟩

/-- The runs of the driver on edge files with the given contents. A scatter is filtered or not, as
the number of active vertices decides, and a bitset has bit 0 set (`BF_bitset[0] |= 1`). A run
ends where an assertion fails. -/
inductive EdgeRun (contents : Nat → List Byte) : EdgeDriver → Prop
  | start : EdgeRun contents ⟨DiskStream.opened contents, 0⟩
  | scatter {d d' : EdgeDriver} {bitset : Option (List Byte)} {fuel : Nat}
      {buffers : List (List Byte)} {st : DiskStream} (run : EdgeRun contents d)
      (forced : ∀ test, bitset = some test → bitAt test 0 = true)
      (scattered : scatterEdges cfg d bitset fuel = some (buffers, st))
      (next : nextSuperp cfg d st = some d') : EdgeRun contents d'

/-- The pages that a bitset selects, in the order of the file. -/
def selectedPages (content test : List Byte) : List Byte :=
  ((List.range (8 * test.length)).filter (bitAt test)).flatMap (block cfg.subBufSize content)

/-- A filtered scatter comes to an end, it uses up the bitset, so that `clear_bitset` does not
fail, and the buffers that are scattered are the selected pages. -/
def UsesUpBitset (contents : Nat → List Byte) (d : EdgeDriver) (test : List Byte) : Prop :=
  ∃ n out after, (∀ fuel, n < fuel → scatterEdges cfg d (some test) fuel = some (out, after)) ∧
    after.randomPos = none ∧ (nextSuperp cfg d after).isSome ∧
    out.flatten = selectedPages cfg (contents d.superp) test

end

end MBFGraph
