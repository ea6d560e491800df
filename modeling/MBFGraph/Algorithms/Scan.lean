import MBFGraph.Core.ScatterGather

/-!
# Programs that scan the edges once

`degree_cnt` (`degree_cnt.hpp`) counts the edges of every vertex in the scatter phase, `conductance`
(`conductance.hpp:30-150`) the edges between even and odd vertices, and `range_check`
(`range_check.hpp:31-100`) looks for edges that leave the graph. They send no updates.
-/

namespace MBFGraph

/-- `degree_cnt::split_size_bytes`: there are no updates. -/
def degreeCntSplitSizeBytes : Nat := 0

/-- `algorithm::sg_simple::degree_cnt`. -/
def degreeCnt : SgAlgorithm Nat Unit Unit Unit where
  vertexStateBytes := 8
  splitKey _ := 0
  init _ _ _ := (0, true)
  needInit bspPhase := bspPhase = 0
  checkBsp _ _ := true
  checkResetChanged degree := (degree, true)
  applyOneUpdate degree _ data _ := (degree, data, false)
  generateUpdate _ _ _ _ data _ := (none, data)
  vertexAfterUpdate degree _ := degree + 1
  reduce total data _ := (total, data, false)
  minSuperPhases := 0

namespace Conductance

/-- `conductance_per_processor_data`: of a processor, and the static counters. -/
structure PerProcessorData where
  crossoverEdges : Nat
  edgesFromRed : Nat
  edgesFromBlack : Nat
  deriving DecidableEq, Repr

def isRed (v : VertexT) : Bool := v.getLsbD 0

def different (a b : VertexT) : Bool := (a ^^^ b).getLsbD 0

/-- What `generate_update` counts. -/
def countEdge (src dst : VertexT) (data : PerProcessorData) : PerProcessorData :=
  let data :=
    if isRed src then { data with edgesFromRed := data.edgesFromRed + 1 }
    else { data with edgesFromBlack := data.edgesFromBlack + 1 }
  if different src dst then { data with crossoverEdges := data.crossoverEdges + 1 } else data

/-- `reduce`: the counters of the processors are added up and cleared. -/
def reduce (total : PerProcessorData) (data : Nat → PerProcessorData) (processors : Nat) :
    PerProcessorData × (Nat → PerProcessorData) × Bool :=
  ((List.range processors).foldl (fun total i =>
      ⟨total.crossoverEdges + (data i).crossoverEdges, total.edgesFromRed + (data i).edgesFromRed,
        total.edgesFromBlack + (data i).edgesFromBlack⟩) total,
    fun i => if i < processors then ⟨0, 0, 0⟩ else data i, false)

end Conductance

/-- `conductance`. There are no updates that `apply_one_update` could be called for. -/
def conductance :
    SgAlgorithm Unit Unit Conductance.PerProcessorData Conductance.PerProcessorData where
  vertexStateBytes := 0
  splitKey _ := 0
  init vertex _ _ := (vertex, true)
  needInit bspPhase := bspPhase = 0
  checkBsp _ _ := true
  checkResetChanged vertex := (vertex, true)
  applyOneUpdate vertex _ data _ := (vertex, data, false)
  generateUpdate _ src dst _ data _ := (none, Conductance.countEdge src dst data)
  reduce := Conductance.reduce
  minSuperPhases := 1

/-- `range_check`, where `preprocessing` sets `max_vertex_id`. The data of a processor say whether it
has come to `exit`. -/
def rangeCheck (maxVertexId : VertexT) : SgAlgorithm Unit Unit Bool Unit where
  vertexStateBytes := 0
  splitKey _ := 0
  init vertex _ _ := (vertex, true)
  needInit bspPhase := bspPhase = 0
  checkBsp _ _ := true
  checkResetChanged vertex := (vertex, true)
  applyOneUpdate vertex _ failed _ := (vertex, failed, false)
  generateUpdate _ src dst _ failed _ :=
    (none, failed || decide (maxVertexId < src ∨ maxVertexId < dst))
  reduce total data _ := (total, data, false)
  minSuperPhases := 1

end MBFGraph
