import MBFGraph.Core.ScatterGather

/-!
# mis

The vertex program `mis` (`mis.hpp:26-131`): in every superstep all vertices start in the set, and
the smaller end of an edge votes the larger end out if it was in the set in the superstep before.
-/

namespace MBFGraph

namespace Mis

/-- `vertex`. -/
structure Vertex where
  inMis : Bool
  deriving DecidableEq, Repr

/-- `update`. -/
structure Update where
  target : VertexT
  deriving DecidableEq, Repr

def applyOneUpdate (v : Vertex) (votedOut : Nat) : Vertex × Nat × Bool :=
  if v.inMis then (⟨false⟩, votedOut + 1, true) else (v, votedOut, true)

def generateUpdate (v : Vertex) (src dst : VertexT) : Option Update :=
  if v.inMis = true ∧ src < dst then some ⟨dst⟩ else none

/-- `reduce`: stop if as many vertices were voted out as in the superstep before. -/
def reduce (notInMis : Nat) (votedOut : Nat → Nat) (processors : Nat) :
    Nat × (Nat → Nat) × Bool :=
  let totalNotInMis := (List.range processors).foldl (fun total i => total + votedOut i) 0
  (totalNotInMis, fun i => if i < processors then 0 else votedOut i,
    decide (totalNotInMis = notInMis))

end Mis

def mis : SgAlgorithm Mis.Vertex Mis.Update Nat Nat where
  vertexStateBytes := 1
  splitKey u := u.target.toNat
  init _ _ _ := (⟨true⟩, true)
  needInit _ := true
  checkBsp v _ := v.inMis
  checkResetChanged v := (v, true)
  applyOneUpdate v _ data _ := Mis.applyOneUpdate v data
  generateUpdate v src dst _ data _ := (Mis.generateUpdate v src dst, data)
  reduce := Mis.reduce
  minSuperPhases := 1

end MBFGraph
