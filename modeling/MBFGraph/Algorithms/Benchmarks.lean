import MBFGraph.Algorithms.Bfs
import MBFGraph.Algorithms.Cc
import MBFGraph.Algorithms.HyperLogLog
import MBFGraph.Algorithms.Mis
import MBFGraph.Algorithms.PagerankDdf
import MBFGraph.Algorithms.Scan
import MBFGraph.Algorithms.Unfiltered

/-!
# The synchronous benchmarks, and the filter checking phases

What `driver.cpp:110-148` registers with `ADD_SG_ALGORITHM`, with the assertions in the `check_bsp` of
each class, and the phases of the driver that call it (`sg_driver.hpp:292-305`, `788-830`).
-/

namespace MBFGraph

/-- A registered class. `checkBsp` has the assertion: it is `none` where that fails. -/
structure SgClass where
  vertex : Type
  update : Type
  data : Type
  static : Type
  weight : Type
  program : SgAlgorithm vertex update data static weight
  checkBsp : vertex → Nat → Option Bool

/-- `BOOST_ASSERT_MSG(holds, ..); return result;`. -/
def assertThen (holds result : Bool) : Option Bool := if holds then some result else none

/-- A class whose `check_bsp` has no assertion. -/
def SgClass.checking {σ υ δ γ W : Type} (A : SgAlgorithm σ υ δ γ W) : SgClass :=
  ⟨σ, υ, δ, γ, W, A, fun vertex bspPhase => some (A.checkBsp vertex bspPhase)⟩

/-- A class whose `check_bsp` begins with `BOOST_ASSERT_MSG(0, "Do not support this function!")`. -/
def SgClass.unsupported {σ υ δ γ W : Type} (A : SgAlgorithm σ υ δ γ W) : SgClass :=
  ⟨σ, υ, δ, γ, W, A, fun vertex bspPhase => assertThen false (A.checkBsp vertex bspPhase)⟩

/-- The benchmarks, with their options. -/
inductive SgBenchmark : Type 1
  | bfs (bfsRoot : Nat)
  | bfsForest
  | degreeCnt
  | conductance
  | rangeCheck (maxVertexId : VertexT)
  | spmv
  | sssp (ssspSource : Nat)
  | ssspForest
  | cc
  | checkbip (sideAfter : CheckBip.Vertex → Nat → CheckBip.Vertex)
  | mis
  | pagerank (niters : Nat)
  | pagerankDdf (niters : Nat)
  | hyperanf {φ δ γ : Type} {log2M : Nat} (vectorBytes : Nat)
      (countHllCounter : HyperAnf.HllCounter log2M → φ)
      (reduce : γ → (Nat → δ) → Nat → γ × (Nat → δ) × Bool)

/-- The class of a benchmark. -/
def SgBenchmark.sgClass : SgBenchmark → SgClass
  | .bfs bfsRoot => .checking (MBFGraph.bfs bfsRoot)
  | .bfsForest => .unsupported MBFGraph.bfsForest
  | .degreeCnt => .checking MBFGraph.degreeCnt
  | .conductance => .unsupported MBFGraph.conductance
  | .rangeCheck maxVertexId => .unsupported (MBFGraph.rangeCheck maxVertexId)
  | .spmv => .unsupported MBFGraph.spmv
  | .sssp ssspSource => .checking (MBFGraph.sssp ssspSource)
  | .ssspForest => .checking MBFGraph.ssspForest
  | .cc => .checking MBFGraph.cc
  | .checkbip sideAfter => .unsupported (checkIfBipartite sideAfter)
  | .mis => .checking MBFGraph.mis
  | .pagerank niters => .unsupported (MBFGraph.pagerank niters)
  | .pagerankDdf niters => .checking (MBFGraph.pagerankDdf niters)
  | .hyperanf vectorBytes countHllCounter reduce =>
    .checking (hyperanfProgram vectorBytes countHllCounter reduce)

/-- `MAX_CHECK_V`, an `unsigned int`. -/
def maxCheckV (option superPartitions : Nat) : Nat :=
  let shared := option / superPartitions % 2 ^ 32
  if shared < 1 then 1 else shared

namespace ScatterGather

variable (K : SgClass) (c : Configuration)

/-- The calls of `check_bsp` in a vertex iteration. They do not change the vertices. -/
def checkVertices (superp : Nat) (st : SgState K.vertex K.update K.data K.static) :
    Option (List (Nat × Bool)) :=
  (c.vertexIds superp).mapM fun v => (K.checkBsp (st.state v) st.bspPhase).map fun hit => (v, hit)

/-- The test in front of `phase_BF_checking_2`, where `min_super_phases() - 1` wraps around. -/
def checksTwice (maxCheck count bspPhase : Nat) : Bool :=
  decide ((K.program.minSuperPhases + 2 ^ 64 - 1) % 2 ^ 64 ≤ bspPhase ∧ count < maxCheck ∧ maxCheck ≠ 1)

/-- `phase_BF_checking_1` and, if there is one, `phase_BF_checking_2`: the vertices that the filters
are asked for. -/
def bfChecking (maxCheck superp : Nat) (st : SgState K.vertex K.update K.data K.static) :
    Option (List Nat) :=
  (checkVertices K c superp st).bind fun first =>
    let count := (first.filter Prod.snd).length
    if checksTwice K maxCheck count st.bspPhase then
      (checkVertices K c superp st).map fun second => (second.filter Prod.snd).map Prod.fst
    else some []

variable {E : Type} (F : FormatUtils E K.weight)
  (scan : Scan K.vertex K.update K.data K.static E)

/-- The states in front of a superstep. -/
inductive Reached : SgState K.vertex K.update K.data K.static → Prop
  | start (state : Nat → K.vertex) (algoPcpu : Nat → K.data) (total : K.static) :
      Reached (start state algoPcpu total)
  | superstep {st st' : SgState K.vertex K.update K.data K.static} (before : Reached st)
      (step : Superstep c K.program F scan st st') (goesOn : ¬ Stops c K.program st') : Reached st'

/-- The states in front of `phase_BF_checking_1` of a super partition. -/
inductive ReachesChecking : Nat → SgState K.vertex K.update K.data K.static → Prop
  | gathered {superp : Nat} {st before : SgState K.vertex K.update K.data K.static}
      {gathers : List (Visit K.update)} (reached : Reached K c F scan st)
      (others : Superps c K.program F scan st superp before) (inside : superp < c.superPartitions)
      (delivers : Delivers c K.program.splitKey (fun _ => true)
        (updatesOf c K.program superp (prepare c K.program superp before)) gathers) :
      ReachesChecking superp
        (gatherPhase c K.program superp gathers (prepare c K.program superp before))

/-- No assertion in `check_bsp` fails, in no run. -/
def ChecksHold (maxCheckVOption : Nat) : Prop :=
  ∀ superp st, ReachesChecking K c F scan superp st →
    (bfChecking K c (maxCheckV maxCheckVOption c.superPartitions) superp st).isSome = true

end ScatterGather

end MBFGraph
