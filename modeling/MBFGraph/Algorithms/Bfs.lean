import MBFGraph.Core.ScatterGather

/-!
# bfs

The vertex program `bfs` (`bfs.hpp:30-141`): a vertex keeps its parent and, in 31 bits, the
superstep in which it was discovered.
-/

namespace MBFGraph

namespace Bfs

/-- `bfs_update`. -/
structure BfsUpdate where
  parent : VertexT
  child : VertexT
  deriving DecidableEq, Repr

/-- `bfs_vertex`. -/
structure BfsVertex where
  bfsParent : VertexT
  bspPhase : BitVec 31
  changed : Bool
  deriving DecidableEq, Repr

/-- `bfs_per_processor_data`: of a processor, and the static counters. -/
structure PerProcessorData where
  verticesDiscovered : Nat
  edgesExplored : Nat
  deriving DecidableEq, Repr

/-- `(vertex_t)-1`. -/
def noParent : VertexT := BitVec.allOnes 32

def init (bfsRoot : Nat) (v : BfsVertex) (vertexIndex : Nat) : BfsVertex × Bool :=
  if bfsRoot = vertexIndex then
    (⟨BitVec.ofNat 32 bfsRoot, 0, true⟩, true)
  else (⟨noParent, v.bspPhase, true⟩, false)

def checkBsp (v : BfsVertex) (bspPhase : Nat) : Bool :=
  decide (v.bfsParent ≠ noParent ∧ v.bspPhase.toNat = bspPhase)

def checkResetChanged (v : BfsVertex) : BfsVertex × Bool :=
  if v.changed then ({ v with changed := false }, true) else (v, false)

def applyOneUpdate (v : BfsVertex) (u : BfsUpdate) (data : PerProcessorData) (bspPhase : Nat) :
    BfsVertex × PerProcessorData × Bool :=
  if v.bfsParent = noParent then
    (⟨u.parent, BitVec.ofNat 31 bspPhase, true⟩,
      { data with verticesDiscovered := data.verticesDiscovered + 1 }, true)
  else (v, data, false)

def generateUpdate (v : BfsVertex) (src dst : VertexT) (data : PerProcessorData) (bspPhase : Nat) :
    Option BfsUpdate × PerProcessorData :=
  if v.bfsParent ≠ noParent ∧ v.bspPhase.toNat = bspPhase then
    (some ⟨src, dst⟩, { data with edgesExplored := data.edgesExplored + 1 })
  else (none, data)

/-- `reduce`: the counters of the processors are added up and cleared. -/
def reduce (total : PerProcessorData) (data : Nat → PerProcessorData) (processors : Nat) :
    PerProcessorData × (Nat → PerProcessorData) × Bool :=
  ((List.range processors).foldl (fun total i =>
      ⟨total.verticesDiscovered + (data i).verticesDiscovered,
        total.edgesExplored + (data i).edgesExplored⟩) total,
    fun i => if i < processors then ⟨0, 0⟩ else data i, false)

end Bfs

/-- `bfs` with the root that `preprocessing` reads. -/
def bfs (bfsRoot : Nat) :
    SgAlgorithm Bfs.BfsVertex Bfs.BfsUpdate Bfs.PerProcessorData Bfs.PerProcessorData where
  vertexStateBytes := 8
  splitKey u := u.child.toNat
  init v vertexIndex _ := Bfs.init bfsRoot v vertexIndex
  needInit bspPhase := decide (bspPhase = 0)
  checkBsp := Bfs.checkBsp
  checkResetChanged := Bfs.checkResetChanged
  applyOneUpdate := Bfs.applyOneUpdate
  generateUpdate v src dst _ := Bfs.generateUpdate v src dst
  reduce := Bfs.reduce
  minSuperPhases := 1

end MBFGraph
