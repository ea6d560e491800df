import MBFGraph.Core.ScatterGather
import Mathlib.Logic.Relation

/-!
# The asynchronous driver

`async_scatter_gather::operator()` (`sg_driver_async.hpp:217-273`) with its callbacks
(`sg_driver_async.hpp:100-112`, `300-366`). Its scatter phase runs with `loopback`: when the output buffer is
flushed (`x-lib.hpp:154-239`), the updates for the super partition at hand are applied at once, and only the
others go to the update stream. When a buffer is flushed, and which updates are in it by then, is left open: a
thread has further updates in its own `outbuf`. In which order edges are worked off, and by which processor, is
left open as well, as a flush may come between two edges of a partition.
-/

namespace MBFGraph

/-- The template parameter `A` of `async_scatter_gather`. The flag of `applyOneUpdate` is `loopback`. -/
structure AsyncAlgorithm (σ υ δ γ : Type) where
  vertexStateBytes : Nat
  splitKey : υ → Nat
  init : σ → Nat → Nat → σ × Bool
  needInit : Nat → Bool
  applyOneUpdate : σ → υ → δ → Bool → Nat → σ × δ
  generateUpdate : σ → VertexT → VertexT → δ → Nat → Option υ × δ
  reduce : γ → (Nat → δ) → Nat → γ × (Nat → δ) × Bool
  minSuperPhases : Nat

/-- What the driver works on. -/
structure AsyncState (σ υ δ γ : Type) where
  bspPhase : Nat
  state : Nat → σ
  updatesIn : List υ
  updatesOut : List υ
  algoPcpu : Nat → δ
  total : γ
  globalStop : Bool

/-- A scatter phase under way: the edges that are left, and the updates in the output buffers. -/
structure Scattering (σ υ δ γ E : Type) where
  st : AsyncState σ υ δ γ
  edges : List E
  buffered : List υ

namespace AsyncScatterGather

open ScatterGather (edgesOf)

variable {σ υ δ γ E W : Type} (c : Configuration) (A : AsyncAlgorithm σ υ δ γ) (F : FormatUtils E W)

/-- One vertex in `do_state_iter`. The answer of `init` is not looked at. -/
def initVertex (superp : Nat) (st : AsyncState σ υ δ γ) (at_ : Nat × Nat) : AsyncState σ υ δ γ :=
  let globalIndex := c.mapInverse superp at_.1 at_.2
  { st with
    state := Function.update st.state globalIndex (A.init (st.state globalIndex) globalIndex st.bspPhase).1 }

def initVertices (superp : Nat) (st : AsyncState σ υ δ γ) : AsyncState σ υ δ γ :=
  ((List.range c.processors).flatMap (c.stateIter superp)).foldl (initVertex c A superp) st

/-- One record in the gather phase, or behind a flush. -/
def applyRecord (loopback : Bool) (superp processor partition : Nat) (st : AsyncState σ υ δ γ) (u : υ) :
    AsyncState σ υ δ γ :=
  let vindex := c.mapInverse superp partition (c.mapOffset (A.splitKey u))
  let r := A.applyOneUpdate (st.state vindex) u (st.algoPcpu processor) loopback st.bspPhase
  { st with
    state := Function.update st.state vindex r.1
    algoPcpu := Function.update st.algoPcpu processor r.2 }

def applyVisit (loopback : Bool) (superp : Nat) (st : AsyncState σ υ δ γ) (v : Visit υ) :
    AsyncState σ υ δ γ :=
  v.records.foldl (applyRecord c A loopback superp v.processor v.partition) st

/-- The super partition up to the gather phase. -/
def prepare (superp : Nat) (st : AsyncState σ υ δ γ) : AsyncState σ υ δ γ :=
  if A.needInit st.bspPhase then initVertices c A superp st else st

/-- The gather phase, and `reset_stream`. -/
def gatherPhase (superp : Nat) (visits : List (Visit υ)) (st : AsyncState σ υ δ γ) :
    AsyncState σ υ δ γ :=
  let st := visits.foldl (applyVisit c A false superp) st
  { st with
    updatesIn := st.updatesIn.filter fun u => c.mapSuperPartition (A.splitKey u) ≠ superp }

/-- `generate_update` for an edge. There is no test for a deleted edge. -/
def generated (superp processor : Nat) (st : AsyncState σ υ δ γ) (e : E) : Option υ × δ :=
  let ends := F.readEdge e
  let vindex :=
    c.mapInverse superp (c.mapCachedPartition (F.splitKey e 0)) (c.mapOffset ends.1.toNat)
  A.generateUpdate (st.state vindex) ends.1 ends.2 (st.algoPcpu processor) st.bspPhase

/-- A flush of some updates: those for the super partition are looped back, the others are appended to the
update stream. -/
def flushed (superp : Nat) (visits : List (Visit υ)) (taken : List υ) (st : AsyncState σ υ δ γ) :
    AsyncState σ υ δ γ :=
  let st := visits.foldl (applyVisit c A true superp) st
  { st with
    updatesOut := st.updatesOut ++
      taken.filter fun u => c.mapSuperPartition (A.splitKey u) ≠ superp }

/-- A step of a scatter phase. -/
inductive ScatterStep (superp : Nat) : Scattering σ υ δ γ E → Scattering σ υ δ γ E → Prop
  | edge {st : AsyncState σ υ δ γ} {front back : List E} {e : E} {buffered : List υ} {processor : Nat}
      (known : processor < c.processors) :
      ScatterStep superp ⟨st, front ++ e :: back, buffered⟩
        ⟨{ st with algoPcpu :=
            Function.update st.algoPcpu processor (generated c A F superp processor st e).2 },
          front ++ back, buffered ++ (generated c A F superp processor st e).1.toList⟩
  | flush {st : AsyncState σ υ δ γ} {edges : List E} {buffered taken kept : List υ}
      {visits : List (Visit υ)} (nonempty : taken ≠ []) (split : buffered.Perm (taken ++ kept))
      (loops : Delivers c A.splitKey (fun _ => true)
        (taken.filter fun u => c.mapSuperPartition (A.splitKey u) = superp) visits) :
      ScatterStep superp ⟨st, edges, buffered⟩ ⟨flushed c A superp visits taken st, edges, kept⟩

/-- A scatter phase: it ends when all edges are worked off and all buffers are flushed. -/
def Scatters (superp : Nat) (edges : List E) (st st' : AsyncState σ υ δ γ) : Prop :=
  Relation.ReflTransGen (ScatterStep c A F superp) ⟨st, edgesOf c F edges superp, []⟩ ⟨st', [], []⟩

/-- `do_cpu` in `phase_post_scatter`: the last super partition reduces. -/
def postScatter (superp : Nat) (st : AsyncState σ υ δ γ) : AsyncState σ υ δ γ :=
  if superp = c.superPartitions - 1 then
    let r := A.reduce st.total st.algoPcpu c.processors
    { st with total := r.1, algoPcpu := r.2.1, globalStop := r.2.2 }
  else { st with globalStop := false }

/-- The end of a superstep: the update streams change places. -/
def endSuperphase (st : AsyncState σ υ δ γ) : AsyncState σ υ δ γ :=
  { st with
    bspPhase := st.bspPhase + 1
    updatesIn := st.updatesOut
    updatesOut := st.updatesIn }

/-- The updates of a super partition. -/
def updatesOf (superp : Nat) (st : AsyncState σ υ δ γ) : List υ :=
  st.updatesIn.filter fun u => c.mapSuperPartition (A.splitKey u) = superp

/-- One super partition in a superstep. -/
inductive SuperpStep (edges : List E) (superp : Nat) : AsyncState σ υ δ γ → AsyncState σ υ δ γ → Prop
  | visit {st st' : AsyncState σ υ δ γ} {gathers : List (Visit υ)}
      (fits : c.StateFits A.vertexStateBytes superp)
      (gathered : Delivers c A.splitKey (fun _ => true)
        (updatesOf c A superp (prepare c A superp st)) gathers)
      (scattered : Scatters c A F superp edges
        (gatherPhase c A superp gathers (prepare c A superp st)) st') :
      SuperpStep edges superp st (postScatter c A superp st')

/-- The first super partitions of a superstep. -/
inductive Superps (edges : List E) (st : AsyncState σ υ δ γ) : Nat → AsyncState σ υ δ γ → Prop
  | none : Superps edges st 0 st
  | next {superp : Nat} {before after : AsyncState σ υ δ γ} (others : Superps edges st superp before)
      (step : SuperpStep c A F edges superp before after) : Superps edges st (superp + 1) after

/-- The body of the `while` loop, up to the test. -/
inductive Superstep (edges : List E) : AsyncState σ υ δ γ → AsyncState σ υ δ γ → Prop
  | done {st after : AsyncState σ υ δ γ} (all : Superps c A F edges st c.superPartitions after) :
      Superstep edges st (endSuperphase after)

/-- The test behind the body. -/
def Stops (st : AsyncState σ υ δ γ) : Prop := A.minSuperPhases < st.bspPhase ∧ st.globalStop = true

/-- The state in front of the loop. -/
def start (state : Nat → σ) (algoPcpu : Nat → δ) (total : γ) : AsyncState σ υ δ γ where
  bspPhase := 0
  state := state
  updatesIn := []
  updatesOut := []
  algoPcpu := algoPcpu
  total := total
  globalStop := false

/-- The loop comes to its end for every order of edges and updates and every placement of flushes, and `post`
holds there. -/
def Computes (edges : List E) (post : AsyncState σ υ δ γ → Prop) (st : AsyncState σ υ δ γ) : Prop :=
  NondetLoop.AlwaysEnds (Superstep c A F edges) (Stops A) post st

end AsyncScatterGather

end MBFGraph
