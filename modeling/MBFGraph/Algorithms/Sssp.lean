import MBFGraph.Core.ScatterGather
import Mathlib.Algebra.Order.Monoid.WithTop
import Mathlib.Algebra.Order.Ring.Rat

/-!
# sssp and sssp_forest

The vertex programs `sssp` (`sssp.hpp:26-154`) and `sssp_forest` (`sssp_forest.hpp:26-138`). Weights
are rational numbers instead of `weight_t`. A distance of `sssp` starts with the largest `double`,
for which `⊤` stands.
-/

namespace MBFGraph

/-- Programs without data of a processor are not asked whether to stop. -/
def noReduce (total : Unit) (data : Nat → Unit) (_ : Nat) : Unit × (Nat → Unit) × Bool :=
  (total, data, false)

namespace Sssp

/-- `vertex`. `activePhase` has 63 bits, which is far more than there are supersteps. -/
structure Vertex where
  predecessor : VertexT
  distance : WithTop ℚ
  activePhase : Nat
  changed : Bool
  deriving DecidableEq

/-- `update`. -/
structure Update where
  target : VertexT
  predecessor : VertexT
  distance : WithTop ℚ
  deriving DecidableEq

def init (ssspSource vertexIndex : Nat) : Vertex × Bool :=
  if vertexIndex = ssspSource then (⟨BitVec.allOnes 32, 0, 0, true⟩, true)
  else (⟨BitVec.allOnes 32, ⊤, 0x7FFFFFFFFFFFFFFF, true⟩, false)

def checkBsp (v : Vertex) (bspPhase : Nat) : Bool := decide (v.activePhase = bspPhase)

def checkResetChanged (v : Vertex) : Vertex × Bool :=
  if v.changed then ({ v with changed := false }, true) else (v, false)

def applyOneUpdate (v : Vertex) (u : Update) (bspPhase : Nat) : Vertex × Bool :=
  if u.distance < v.distance then (⟨u.predecessor, u.distance, bspPhase, true⟩, true)
  else (v, false)

def generateUpdate (v : Vertex) (src dst : VertexT) (edgeDistance : ℚ) (bspPhase : Nat) :
    Option Update :=
  if v.activePhase = bspPhase then some ⟨dst, src, v.distance + edgeDistance⟩ else none

end Sssp

/-- `sssp` with the source that `preprocessing` reads. -/
def sssp (ssspSource : Nat) : SgAlgorithm Sssp.Vertex Sssp.Update Unit Unit ℚ where
  vertexStateBytes := 16
  splitKey u := u.target.toNat
  init _ vertexIndex _ := Sssp.init ssspSource vertexIndex
  needInit bspPhase := decide (bspPhase = 0)
  checkBsp := Sssp.checkBsp
  checkResetChanged := Sssp.checkResetChanged
  applyOneUpdate v u data bspPhase :=
    ((Sssp.applyOneUpdate v u bspPhase).1, data, (Sssp.applyOneUpdate v u bspPhase).2)
  generateUpdate v src dst edgeDistance data bspPhase :=
    (Sssp.generateUpdate v src dst edgeDistance bspPhase, data)
  reduce := noReduce
  minSuperPhases := 1

namespace SsspForest

/-- `vertex`. -/
structure Vertex where
  component : VertexT
  predecessor : VertexT
  distance : ℚ
  activePhase : Nat
  deriving DecidableEq

/-- `update`. -/
structure Update where
  target : VertexT
  predecessor : VertexT
  distance : ℚ
  component : VertexT
  deriving DecidableEq

def init (vertexIndex : Nat) : Vertex × Bool :=
  (⟨BitVec.ofNat 32 vertexIndex, BitVec.ofNat 32 vertexIndex, 0, 0⟩, true)

def checkBsp (v : Vertex) (bspPhase : Nat) : Bool := decide (v.activePhase = bspPhase)

def applyOneUpdate (v : Vertex) (u : Update) (bspPhase : Nat) : Vertex × Bool :=
  if u.component < v.component ∨ u.component = v.component ∧ u.distance < v.distance then
    (⟨u.component, u.predecessor, u.distance, bspPhase⟩, true)
  else (v, false)

def generateUpdate (v : Vertex) (src dst : VertexT) (edgeDistance : ℚ) (bspPhase : Nat) :
    Option Update :=
  if v.activePhase = bspPhase then some ⟨dst, src, v.distance + edgeDistance, v.component⟩
  else none

end SsspForest

def ssspForest : SgAlgorithm SsspForest.Vertex SsspForest.Update Unit Unit ℚ where
  vertexStateBytes := 20
  splitKey u := u.target.toNat
  init _ vertexIndex _ := SsspForest.init vertexIndex
  needInit bspPhase := decide (bspPhase = 0)
  checkBsp := SsspForest.checkBsp
  checkResetChanged v := (v, true)
  applyOneUpdate v u data bspPhase :=
    ((SsspForest.applyOneUpdate v u bspPhase).1, data, (SsspForest.applyOneUpdate v u bspPhase).2)
  generateUpdate v src dst edgeDistance data bspPhase :=
    (SsspForest.generateUpdate v src dst edgeDistance bspPhase, data)
  reduce := noReduce
  minSuperPhases := 1

end MBFGraph
