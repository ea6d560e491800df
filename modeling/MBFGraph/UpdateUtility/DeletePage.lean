import MBFGraph.Lib.ByteBits
import MBFGraph.Lib.Writes

/-!
# Deleting edges at random

`main` of `delete_page.cpp`: the edges at random positions of an edge file become tombstones. `draw i` is
what the `i`-th call of `distribution(generator)` gives, the same in every run, as the generator is seeded
by default.
-/

namespace MBFGraph

open ByteBits Overwrite

/-- `deleted_simple_edge`. -/
def deletedSimpleEdge : List Byte := List.replicate 8 0xFF

/-- `deleted_edge`: 0 stands for a percentage of the edges. -/
def deletedEdge (numEdge argument deletedPercentage : Nat) : Nat :=
  if argument = 0 then numEdge * deletedPercentage % 2 ^ 64 / 100 % 2 ^ 32 else argument

/-- `deleted_edges`. -/
def deletedEdges (draw : Nat → Nat) (numEdge startEdge deletedEdge : Nat) : List Bool :=
  (List.range deletedEdge).foldl
    (fun marks i => if startEdge < i then marks.set (draw i % numEdge) true else marks)
    (List.replicate numEdge false)

/-- The loop over all edges. -/
def writeDeleted (deletedEdges : List Bool) (file : List Byte) : List Byte :=
  (List.range deletedEdges.length).foldl
    (fun file i => if deletedEdges.getD i false = true then overwrite file (i * 8) deletedSimpleEdge
                   else file)
    file

/-- The numbers are the arguments of `main`. There is no result where an assertion fails, or where
`% num_edge` divides by zero. -/
def deletePage (draw : Nat → Nat) (startEdge argument deletedPercentage : Nat) (file : List Byte) :
    Option (List Byte) :=
  let numEdge := file.length / 8
  let deletedEdge := deletedEdge numEdge argument deletedPercentage
  if file.length % 8 ≠ 0 then none
  else if ¬(0 < deletedPercentage ∧ deletedPercentage < 100) then none
  else if numEdge = 0 ∧ 0 < deletedEdge then none
  else some (writeDeleted (deletedEdges draw numEdge startEdge deletedEdge) file)

end MBFGraph
