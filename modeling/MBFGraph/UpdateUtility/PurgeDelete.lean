import MBFGraph.Algorithms.Reverse
import MBFGraph.UpdateUtility.DeletePage

/-!
# Deleted edges and their purge

`delete_page` may be run on an edge file any number of times. `main` of `purge_delete.cpp` copies the records
that are not deleted.
-/

namespace MBFGraph

open ByteBits Overwrite

/-- Runs of `delete_page`, one after the other. -/
inductive Deletes (file : List Byte) : List Byte → Prop
  | none : Deletes file file
  | next {before after : List Byte} (draw : Nat → Nat) (startEdge argument deletedPercentage : Nat)
      (runs : Deletes file before)
      (deleted : deletePage draw startEdge argument deletedPercentage before = some after) :
      Deletes file after

/-- The test in the loop. -/
def keepsEdge (oneEdge : SimpleEdge) : Bool := oneEdge.src ≠ 0xFFFFFFFF || oneEdge.dst ≠ 0xFFFFFFFF

/-- What is in the output file. -/
def purgeDelete (file : List Byte) : Option (List Byte) :=
  if file.length % 8 ≠ 0 then none
  else some ((List.range (file.length / 8)).foldl (fun outFp i =>
    if keepsEdge (Type2.readEdge (block 8 file i)) then outFp ++ block 8 file i else outFp) [])

end MBFGraph
