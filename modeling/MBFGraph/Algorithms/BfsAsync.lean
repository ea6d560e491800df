import MBFGraph.Algorithms.Bfs
import MBFGraph.Core.AsyncScatterGather

/-!
# bfs_async

The vertex program `bfs_async` (`bfs_async.hpp:30-155`) of the asynchronous driver. An update that is looped
back belongs to the next superstep.
-/

namespace MBFGraph

namespace BfsAsync

open Bfs (noParent)

/-- `bfs_vertex`. -/
structure BfsVertex where
  bfsParent : VertexT
  bspPhase : VertexT
  deriving DecidableEq, Repr

/-- `bfs_async_per_processor_data`. -/
structure PerProcessorData where
  verticesDiscovered : Nat
  edgesExplored : Nat
  seenUpdate : Bool
  deriving DecidableEq, Repr

/-- The static counters. -/
structure Totals where
  verticesDiscovered : Nat
  edgesExplored : Nat
  deriving DecidableEq, Repr

def init (bfsRoot : Nat) (v : BfsVertex) (vertexIndex : Nat) : BfsVertex × Bool :=
  if bfsRoot = vertexIndex then (⟨BitVec.ofNat 32 bfsRoot, 0⟩, true)
  else (⟨noParent, v.bspPhase⟩, false)

def applyOneUpdate (v : BfsVertex) (u : Bfs.BfsUpdate) (data : PerProcessorData) (loopback : Bool)
    (bspPhase : Nat) : BfsVertex × PerProcessorData :=
  if v.bfsParent = noParent then
    (⟨u.parent, if loopback then BitVec.ofNat 32 bspPhase + 1 else BitVec.ofNat 32 bspPhase⟩,
      { data with verticesDiscovered := data.verticesDiscovered + 1 })
  else (v, data)

def generateUpdate (v : BfsVertex) (src dst : VertexT) (data : PerProcessorData) (bspPhase : Nat) :
    Option Bfs.BfsUpdate × PerProcessorData :=
  if v.bfsParent ≠ noParent ∧ v.bspPhase.toNat = bspPhase then
    (some ⟨src, dst⟩, { data with edgesExplored := data.edgesExplored + 1, seenUpdate := true })
  else (none, data)

/-- `reduce`: stop if no update was generated. -/
def reduce (total : Totals) (data : Nat → PerProcessorData) (processors : Nat) :
    Totals × (Nat → PerProcessorData) × Bool :=
  ((List.range processors).foldl (fun total i =>
      ⟨total.verticesDiscovered + (data i).verticesDiscovered,
        total.edgesExplored + (data i).edgesExplored⟩) total,
    fun i => if i < processors then ⟨0, 0, false⟩ else data i,
    !(List.range processors).any fun i => (data i).seenUpdate)

end BfsAsync

/-- `bfs_async` with the root that `preprocessing` reads. -/
def bfsAsync (bfsRoot : Nat) :
    AsyncAlgorithm BfsAsync.BfsVertex Bfs.BfsUpdate BfsAsync.PerProcessorData BfsAsync.Totals where
  vertexStateBytes := 8
  splitKey u := u.child.toNat
  init v vertexIndex _ := BfsAsync.init bfsRoot v vertexIndex
  needInit bspPhase := decide (bspPhase = 0)
  applyOneUpdate := BfsAsync.applyOneUpdate
  generateUpdate := BfsAsync.generateUpdate
  reduce := BfsAsync.reduce
  minSuperPhases := 1

end MBFGraph
