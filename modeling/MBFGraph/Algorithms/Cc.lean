import MBFGraph.Core.ScatterGather

/-!
# cc

The vertex program `cc` (`cc.hpp:25-151`): a vertex keeps the smallest id that has reached it, the
superstep in which that id got smaller, and whether it has been merged into another component.
-/

namespace MBFGraph

namespace Cc

/-- `vertex`. -/
structure Vertex where
  component : VertexT
  activePhase : Nat
  merged : Bool
  changed : Bool
  deriving DecidableEq, Repr

/-- `update`. -/
structure Update where
  target : VertexT
  component : VertexT
  deriving DecidableEq, Repr

def init (vertexIndex : Nat) : Vertex × Bool :=
  (⟨BitVec.ofNat 32 vertexIndex, 0, false, true⟩, true)

def checkBsp (v : Vertex) (bspPhase : Nat) : Bool := decide (v.activePhase = bspPhase)

def checkResetChanged (v : Vertex) : Vertex × Bool :=
  if v.changed then ({ v with changed := false }, true) else (v, false)

/-- `cc_neg_delta` is a `double`; it and the sum stay below the number of vertices, where a
`double` is exact. -/
def applyOneUpdate (v : Vertex) (u : Update) (ccNegDelta : Nat) (bspPhase : Nat) :
    Vertex × Nat × Bool :=
  if u.component < v.component then
    (⟨u.component, bspPhase, true, true⟩, if v.merged then ccNegDelta else ccNegDelta + 1, true)
  else (v, ccNegDelta, false)

def generateUpdate (v : Vertex) (dst : VertexT) (bspPhase : Nat) : Option Update :=
  if v.activePhase = bspPhase then some ⟨dst, v.component⟩ else none

/-- `reduce`. -/
def reduce (ccNeg : Nat) (ccNegDelta : Nat → Nat) (processors : Nat) :
    Nat × (Nat → Nat) × Bool :=
  ((List.range processors).foldl (fun total i => total + ccNegDelta i) ccNeg,
    fun i => if i < processors then 0 else ccNegDelta i, false)

/-- The `CC_COUNT` that `postprocessing` reports. -/
def ccCount (vertices ccNeg : Nat) : Nat := vertices - ccNeg

end Cc

def cc : SgAlgorithm Cc.Vertex Cc.Update Nat Nat where
  vertexStateBytes := 13
  splitKey u := u.target.toNat
  init _ vertexIndex _ := Cc.init vertexIndex
  needInit bspPhase := decide (bspPhase = 0)
  checkBsp := Cc.checkBsp
  checkResetChanged := Cc.checkResetChanged
  applyOneUpdate := Cc.applyOneUpdate
  generateUpdate v _ dst _ data bspPhase := (Cc.generateUpdate v dst bspPhase, data)
  reduce := Cc.reduce
  minSuperPhases := 1

end MBFGraph
