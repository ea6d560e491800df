import MBFGraph.Algorithms.Sssp

/-!
# pagerank_ddf

The vertex program `pagerank_ddf` (`pagerank_ddf.hpp:25-161`). Superstep 0 counts the edges of every
vertex. From superstep 1 on a vertex whose share is above the threshold pushes it along its edges;
behind its last edge it moves its delta to its rank. Numbers are rational instead of `weight_t`.
-/

namespace MBFGraph

namespace PagerankDdf

/-- `vertex`. -/
structure Vertex where
  degree : BitVec 31
  changed : Bool
  rank : ℚ
  delta : ℚ
  updatesPushed : Nat
  deriving DecidableEq

/-- `update`. -/
structure Update where
  target : VertexT
  rank : ℚ
  deriving DecidableEq

/-- `delta / degree > 0.5`. In floating point a division by zero gives infinity, and `0 / 0` compares
with nothing. -/
def aboveThreshold (v : Vertex) : Bool :=
  if v.degree = 0 then decide (0 < v.delta) else decide (1 / 2 < v.delta / v.degree.toNat)

def init (v : Vertex) (bspPhase : Nat) : Vertex × Bool :=
  if bspPhase = 0 then (⟨0, true, 1 - 17 / 20, 1, 0⟩, true) else (v, true)

def checkBsp (v : Vertex) : Bool := decide (0 < v.degree) && aboveThreshold v

def checkResetChanged (v : Vertex) : Vertex × Bool :=
  if v.changed then ({ v with changed := false }, true) else (v, false)

def applyOneUpdate (niters : Nat) (v : Vertex) (u : Update) (bspPhase : Nat) : Vertex × Bool :=
  let v := { v with delta := v.delta + 17 / 20 * u.rank, changed := true }
  if bspPhase = niters then (v, false)
  else if aboveThreshold v then (v, true)
  else (v, false)

/-- What `generate_update` sends. -/
def generateUpdate (v : Vertex) (dst : VertexT) (bspPhase : Nat) : Option Update :=
  if bspPhase = 0 then none
  else if aboveThreshold v then some ⟨dst, v.delta / v.degree.toNat⟩
  else none

/-- What `generate_update` does to the vertex. -/
def vertexAfterUpdate (v : Vertex) (bspPhase : Nat) : Vertex :=
  if bspPhase = 0 then { v with degree := v.degree + 1, changed := true }
  else if aboveThreshold v then
    let pushed := { v with updatesPushed := v.updatesPushed + 1, changed := true }
    if pushed.updatesPushed = v.degree.toNat then
      { pushed with rank := v.rank + v.delta, delta := 0, updatesPushed := 0 }
    else pushed
  else v

end PagerankDdf

/-- `pagerank_ddf`, where `preprocessing` has set `niters` to one more than the option. -/
def pagerankDdf (niters : Nat) :
    SgAlgorithm PagerankDdf.Vertex PagerankDdf.Update Unit Unit where
  vertexStateBytes := 20
  splitKey u := u.target.toNat
  init v _ bspPhase := PagerankDdf.init v bspPhase
  needInit bspPhase := decide (bspPhase < 2)
  checkBsp v _ := PagerankDdf.checkBsp v
  checkResetChanged := PagerankDdf.checkResetChanged
  applyOneUpdate v u data bspPhase :=
    ((PagerankDdf.applyOneUpdate niters v u bspPhase).1, data,
      (PagerankDdf.applyOneUpdate niters v u bspPhase).2)
  generateUpdate v _ dst _ data bspPhase := (PagerankDdf.generateUpdate v dst bspPhase, data)
  vertexAfterUpdate := PagerankDdf.vertexAfterUpdate
  reduce := noReduce
  minSuperPhases := 2

end MBFGraph
