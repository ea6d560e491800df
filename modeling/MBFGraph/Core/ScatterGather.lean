import MBFGraph.Core.StateIter
import MBFGraph.Core.XSplitter
import MBFGraph.Format.FormatUtils
import MBFGraph.Lib.NondetLoop

/-!
# The synchronous driver

`scatter_gather::operator()` (`sg_driver.hpp:746-920`) with its callbacks
(`sg_driver.hpp:223-290`, `953-1140`), for any vertex program. A buffer of a stream is worked off
partition by partition: a processor takes a cached partition out of a work queue and calls back
for its records. The partitions have disjoint vertices, so the visits of a buffer are put one after
the other. In which order records are delivered, and by which processor, is left open.

A super partition stays in memory while it is processed and is stored and loaded as a whole in
between, so the state is kept for all vertices. An access behind the end of the state buffer has
no meaning; the driver is then stuck.
-/

namespace MBFGraph

/-- The template parameter `A` of `scatter_gather`: vertex records `σ`, updates `υ`, the data of a
processor `δ`, the static data `γ` and the weights `W`. `static_init` of the vertex state and the
per-processor constructors are the caller's. Few programs write to the vertex in
`generate_update`; for them `vertexAfterUpdate` says what. -/
structure SgAlgorithm (σ υ δ γ : Type) (W : Type := Unit) where
  vertexStateBytes : Nat
  splitKey : υ → Nat
  init : σ → Nat → Nat → σ × Bool
  needInit : Nat → Bool
  checkBsp : σ → Nat → Bool
  checkResetChanged : σ → σ × Bool
  applyOneUpdate : σ → υ → δ → Nat → σ × δ × Bool
  generateUpdate : σ → VertexT → VertexT → W → δ → Nat → Option υ × δ
  vertexAfterUpdate : σ → Nat → σ := fun vertex _ => vertex
  reduce : γ → (Nat → δ) → Nat → γ × (Nat → δ) × Bool
  minSuperPhases : Nat

/-- What the driver works on. `updatesIn` and `updatesOut` are the two update streams, which
change places after every superstep. -/
structure SgState (σ υ δ γ : Type) where
  bspPhase : Nat
  state : Nat → σ
  updatesIn : List υ
  updatesOut : List υ
  scatterFilter : List Nat
  iVoteToStop : Nat → Bool
  algoPcpu : Nat → δ
  total : γ
  globalStop : Bool

/-- A partition of a buffer, with the processor that took it out of the queue. -/
structure Visit (ρ : Type) where
  processor : Nat
  partition : Nat
  records : List ρ

/-- `do_stream` delivers the records whose partition is in the input filter, each once and in a
visit of its partition. -/
structure Delivers (c : Configuration) {ρ : Type} (key : ρ → Nat) (visited : Nat → Bool)
    (records : List ρ) (visits : List (Visit ρ)) : Prop where
  processor_lt : ∀ v ∈ visits, v.processor < c.processors
  partition_eq : ∀ v ∈ visits, ∀ r ∈ v.records, c.mapCachedPartition (key r) = v.partition
  perm : (visits.flatMap Visit.records).Perm
    (records.filter fun r => visited (c.mapCachedPartition (key r)))

/-- The state buffer has room for the records of the super partition. -/
def Configuration.StateFits (c : Configuration) (vertexSize superp : Nat) : Prop :=
  c.records superp * vertexSize ≤ c.vertexStateBufferSize vertexSize

theorem Configuration.ids_pos : 0 < 2 ^ 32 := Nat.two_pow_pos 32

/-- One processor and one cached partition. -/
def Configuration.single (superShift vertices : Nat) (positive : 0 < vertices) : Configuration where
  superPartitions := 2 ^ superShift
  cachedPartitions := 1
  superPartitions_pow := Mapping.isPow_self superShift
  cachedPartitions_pow := Mapping.isPow_one
  processors := 1
  vertices := vertices
  processors_pow := Mapping.isPow_one
  vertices_pos := positive

/-- The two ends of all edges. -/
def edgeEnds {E W : Type} (F : FormatUtils E W) (edges : List E) : List (Nat × Nat) :=
  edges.map fun e => ((F.src e).toNat, (F.dst e).toNat)

/-- The edges join vertices. -/
def EndsInside {E W : Type} (F : FormatUtils E W) (edges : List E) (vertices : Nat) : Prop :=
  ∀ e ∈ edges, (F.src e).toNat < vertices ∧ (F.dst e).toNat < vertices

namespace ScatterGather

variable {σ υ δ γ E W : Type} (c : Configuration) (A : SgAlgorithm σ υ δ γ W) (F : FormatUtils E W)

/-- `do_state_iter` with `init`. -/
def initVertices (superp : Nat) (st : SgState σ υ δ γ) : SgState σ υ δ γ :=
  ((List.range c.processors).flatMap (c.stateIter superp)).foldl (fun st at_ =>
    let globalIndex := c.mapInverse superp at_.1 at_.2
    let r := A.init (st.state globalIndex) globalIndex st.bspPhase
    { st with
      state := Function.update st.state globalIndex r.1
      scatterFilter := if r.2 then queue st.scatterFilter at_.1 else st.scatterFilter }) st

/-- `do_state_iter` with `check_reset_changed`. -/
def resetVertices (superp : Nat) (st : SgState σ υ δ γ) : SgState σ υ δ γ :=
  ((List.range c.processors).flatMap (c.stateIter superp)).foldl (fun st at_ =>
    let globalIndex := c.mapInverse superp at_.1 at_.2
    { st with
      state := Function.update st.state globalIndex
        (A.checkResetChanged (st.state globalIndex)).1 }) st

/-- One record in the gather phase. The flag is `activate_partition_for_scatter`. -/
def gatherRecord (superp processor partition : Nat) (acc : SgState σ υ δ γ × Bool) (u : υ) :
    SgState σ υ δ γ × Bool :=
  let st := acc.1
  let vindex := c.mapInverse superp partition (c.mapOffset (A.splitKey u))
  let r := A.applyOneUpdate (st.state vindex) u (st.algoPcpu processor) st.bspPhase
  ({ st with
    state := Function.update st.state vindex r.1
    algoPcpu := Function.update st.algoPcpu processor r.2.1
    iVoteToStop :=
      Function.update st.iVoteToStop processor (st.iVoteToStop processor && !r.2.2) },
    acc.2 || r.2.2)

/-- A visit in the gather phase, between `partition_pre_callback` and `partition_post_callback`. -/
def gatherVisit (superp : Nat) (st : SgState σ υ δ γ) (v : Visit υ) : SgState σ υ δ γ :=
  let done := v.records.foldl (gatherRecord c A superp v.processor v.partition) (st, false)
  if done.2 then
    { done.1 with scatterFilter := queue done.1.scatterFilter v.partition }
  else done.1

/-- One record in the scatter phase. -/
def scatterRecord (superp processor partition : Nat) (st : SgState σ υ δ γ) (e : E) :
    SgState σ υ δ γ :=
  if F.splitKey e 0 = tombstone then st
  else
    let ends := F.readEdge e
    let vindex := c.mapInverse superp partition (c.mapOffset ends.1.toNat)
    let r := A.generateUpdate (st.state vindex) ends.1 ends.2 (F.edgeWeight e)
      (st.algoPcpu processor) st.bspPhase
    { st with
      state := Function.update st.state vindex
        (A.vertexAfterUpdate (st.state vindex) st.bspPhase)
      algoPcpu := Function.update st.algoPcpu processor r.2
      updatesOut := st.updatesOut ++ r.1.toList }

/-- A visit in the scatter phase. -/
def scatterVisit (superp : Nat) (st : SgState σ υ δ γ) (v : Visit E) : SgState σ υ δ γ :=
  v.records.foldl (scatterRecord c A F superp v.processor v.partition) st

/-- `do_cpu` in `superphase_begin`. -/
def beginSuperphase (st : SgState σ υ δ γ) : SgState σ υ δ γ :=
  { st with iVoteToStop := fun _ => true }

/-- The super partition up to the gather phase. -/
def prepare (superp : Nat) (st : SgState σ υ δ γ) : SgState σ υ δ γ :=
  if A.needInit st.bspPhase then initVertices c A superp st else st

/-- The gather phase, and `reset_stream`. -/
def gatherPhase (superp : Nat) (visits : List (Visit υ)) (st : SgState σ υ δ γ) :
    SgState σ υ δ γ :=
  let st := visits.foldl (gatherVisit c A superp) st
  { st with
    updatesIn := st.updatesIn.filter fun u => c.mapSuperPartition (A.splitKey u) ≠ superp }

/-- The scatter phase, and the vertex iteration that looks for changed records. -/
def scatterPhase (superp : Nat) (visits : List (Visit E)) (st : SgState σ υ δ γ) :
    SgState σ υ δ γ :=
  let st := visits.foldl (scatterVisit c A F superp) st
  if 1 < c.superPartitions then resetVertices c A superp st else st

/-- `do_cpu` in `phase_post_scatter`: the filter is emptied, and the last super partition reduces. -/
def postScatter (superp : Nat) (st : SgState σ υ δ γ) : SgState σ υ δ γ :=
  if superp = c.superPartitions - 1 then
    let r := A.reduce st.total st.algoPcpu c.processors
    { st with scatterFilter := [], total := r.1, algoPcpu := r.2.1, globalStop := r.2.2 }
  else { st with scatterFilter := [], globalStop := false }

/-- The end of a superstep: the update streams change places. -/
def endSuperphase (st : SgState σ υ δ γ) : SgState σ υ δ γ :=
  { st with
    bspPhase := st.bspPhase + 1
    updatesIn := st.updatesOut
    updatesOut := st.updatesIn }

/-- The updates of a super partition. -/
def updatesOf (superp : Nat) (st : SgState σ υ δ γ) : List υ :=
  st.updatesIn.filter fun u => c.mapSuperPartition (A.splitKey u) = superp

/-- The edges of a super partition. -/
def edgesOf (edges : List E) (superp : Nat) : List E :=
  edges.filter fun e => c.mapSuperPartition (F.splitKey e 0) = superp

/-- How the scatter phase chooses: which records of the edge file are read, and which partitions
are visited. -/
structure Scan (σ υ δ γ E : Type) where
  reads : SgState σ υ δ γ → Nat → List E → Prop
  visits : SgState σ υ δ γ → Nat → Bool

/-- All edges are read, and the partitions in `scatter_filter` are visited. -/
def scanAll (edges : List E) : Scan σ υ δ γ E where
  reads _ superp records := records = edgesOf c F edges superp
  visits st partition := decide (partition ∈ st.scatterFilter)

/-- One super partition in a superstep. -/
inductive SuperpStep (scan : Scan σ υ δ γ E) (superp : Nat) :
    SgState σ υ δ γ → SgState σ υ δ γ → Prop
  | visit {st : SgState σ υ δ γ} {gathers : List (Visit υ)} {scatters : List (Visit E)}
      {records : List E} (fits : c.StateFits A.vertexStateBytes superp)
      (gathered : Delivers c A.splitKey (fun _ => true)
        (updatesOf c A superp (prepare c A superp st)) gathers)
      (read : scan.reads (gatherPhase c A superp gathers (prepare c A superp st)) superp records)
      (scattered : Delivers c (fun e => F.splitKey e 0)
        (scan.visits (gatherPhase c A superp gathers (prepare c A superp st))) records scatters) :
      SuperpStep scan superp st (postScatter c A superp (scatterPhase c A F superp scatters
        (gatherPhase c A superp gathers (prepare c A superp st))))

/-- The first super partitions of a superstep. -/
inductive Superps (scan : Scan σ υ δ γ E) (st : SgState σ υ δ γ) : Nat → SgState σ υ δ γ → Prop
  | none : Superps scan st 0 (beginSuperphase st)
  | next {superp : Nat} {before after : SgState σ υ δ γ} (others : Superps scan st superp before)
      (step : SuperpStep c A F scan superp before after) : Superps scan st (superp + 1) after

/-- The body of the `while` loop, up to the test. -/
inductive Superstep (scan : Scan σ υ δ γ E) : SgState σ υ δ γ → SgState σ υ δ γ → Prop
  | done {st after : SgState σ υ δ γ} (all : Superps c A F scan st c.superPartitions after) :
      Superstep scan st (endSuperphase after)

/-- The test behind the body. -/
def Stops (st : SgState σ υ δ γ) : Prop :=
  A.minSuperPhases < st.bspPhase ∧
    (st.globalStop = true ∨ ∀ p < c.processors, st.iVoteToStop p = true)

/-- The state in front of the loop. The vertex records are whatever is in the state buffer. -/
def start (state : Nat → σ) (algoPcpu : Nat → δ) (total : γ) : SgState σ υ δ γ where
  bspPhase := 0
  state := state
  updatesIn := []
  updatesOut := []
  scatterFilter := []
  iVoteToStop _ := false
  algoPcpu := algoPcpu
  total := total
  globalStop := false

/-- The loop comes to its end for every order of deliveries, and `post` holds there. -/
def Computes (scan : Scan σ υ δ γ E) (post : SgState σ υ δ γ → Prop) (st : SgState σ υ δ γ) : Prop :=
  NondetLoop.AlwaysEnds (Superstep c A F scan) (Stops c A) post st

end ScatterGather

end MBFGraph
