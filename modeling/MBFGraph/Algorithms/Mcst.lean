import Mathlib.Order.Defs.LinearOrder
import MBFGraph.Core.StreamPass
import MBFGraph.Lib.Components
import MBFGraph.Lib.NondetLoop

/-!
# Minimum cost spanning trees

`mcst::operator()` (`mcst.hpp:317-482`) with its callbacks: in every round each vertex proposes along its least
unknown edge, the smaller end of two vertices that proposed to each other becomes the root of a component and
spreads through it, and the unknown edges are rewritten to join the roots. Whether an output buffer is full
only matters in the last step, which leaves a field of the buffer as it is.
-/

namespace MBFGraph

open NondetLoop

structure McstVertex (W : Type) where
  componentRoot : VertexT
  proposedMatch : VertexT
  propositionCost : W
  matchIteration : VertexT
  deriving DecidableEq, Repr

structure McstMessage (W : Type) where
  src : VertexT
  dst : VertexT
  weight : W
  deriving DecidableEq, Repr

/-- `(vertex_t)ULONG_MAX`: no vertex, and no iteration. -/
def noVertex : VertexT := BitVec.allOnes 32

/-- `mcst_message_wrapper::key`. -/
def McstMessage.key {W : Type} (m : McstMessage W) : Nat := m.dst.toNat

namespace Mcst

section Callbacks

variable {W : Type} [LinearOrder W]

/-- Edges are ordered by weight, then by the smaller end, then by the larger one. -/
def nextIsLess (src prev next : VertexT) (prevCost nextCost : W) : Bool :=
  let prevMin := min src.toNat prev.toNat
  let prevMax := max src.toNat prev.toNat
  let nextMin := min src.toNat next.toNat
  let nextMax := max src.toNat next.toNat
  if nextCost < prevCost then true
  else if prevCost < nextCost then false
  else if nextMin < prevMin then true
  else if nextMin = prevMin ∧ nextMax < prevMax then true
  else false

/-- `state_iter_callback` in `step_compute_min`. -/
def resetVertex (id : Nat) (v : McstVertex W) : McstVertex W :=
  { v with
    proposedMatch := noVertex
    matchIteration := noVertex
    componentRoot := BitVec.ofNat 32 id }

/-- `step_compute_min`. -/
def computeMin (m : McstMessage W) (v : McstVertex W) : McstVertex W :=
  if v.proposedMatch = noVertex ∨
      nextIsLess m.dst v.proposedMatch m.src v.propositionCost m.weight = true then
    { v with propositionCost := m.weight, proposedMatch := m.src }
  else v

/-- `step_send_proposal`. -/
def sendProposal (id : Nat) (v : McstVertex W) : Option (McstMessage W) :=
  if v.proposedMatch ≠ noVertex then some ⟨BitVec.ofNat 32 id, v.proposedMatch, v.propositionCost⟩ else none

/-- `step_compute_match`: the smaller end becomes the root. -/
def computeMatch (m : McstMessage W) (v : McstVertex W) : McstVertex W :=
  if v.proposedMatch = m.src then
    if m.dst < m.src then { v with matchIteration := 0 } else v
  else v

/-- `step_absorb_root`. -/
def absorbRoot (currentCcspreadIteration : VertexT) (m : McstMessage W) (v : McstVertex W) : McstVertex W :=
  { v with
    componentRoot := m.src
    matchIteration := currentCcspreadIteration }

/-- `step_propagate_root`. -/
def propagateRoot (currentCcspreadIteration : VertexT) (m : McstMessage W) (v : McstVertex W) :
    Option (McstMessage W) :=
  if v.matchIteration = currentCcspreadIteration ∧ m.src ≠ v.componentRoot then
    some ⟨v.componentRoot, m.src, m.weight⟩
  else none

/-- `step_write_tree_edges`: what is written, and what is added to `tree_edges_local`. -/
def writeTreeEdge (m : McstMessage W) (v : McstVertex W) : List (McstMessage W) × Nat :=
  if m.src = v.proposedMatch then ([m], if m.src < m.dst then 1 else 0)
  else ([m, ⟨m.dst, m.src, m.weight⟩], 1)

end Callbacks

/-- The vertices, the streams and the counters of the driver. The two streams of messages are kept apart, though
both are opened by the name "messages": on one disk they would share their files. -/
structure McstState (W : Type) where
  vertex : Nat → McstVertex W
  unknownEdges : List (McstMessage W)
  messages0 : List (McstMessage W)
  messages1 : List (McstMessage W)
  treeEdges : List (McstMessage W)
  currentCcspreadIteration : VertexT
  treeEdgesLocal : Nat → Nat
  treeEdgesGlobal : Nat

section Round

variable {W : Type} [LinearOrder W] (c : Configuration)

/-- A callback that changes the vertex of the message. -/
def onVertex (f : McstMessage W → McstVertex W → McstVertex W) (_processor vindex : Nat)
    (m : McstMessage W) (st : McstState W) : McstState W :=
  { st with vertex := Function.update st.vertex vindex (f m (st.vertex vindex)) }

/-- `do_state_iter`. -/
def resetVertices (superp : Nat) (st : McstState W) : McstState W :=
  (c.vertexIds superp).foldl (fun st id =>
    { st with vertex := Function.update st.vertex id (resetVertex id (st.vertex id)) }) st

/-- `do_stream` over the vertices, to `messages_stream0`. -/
def sendProposals (superp : Nat) (st : McstState W) : McstState W :=
  { st with messages0 := st.messages0 ++
      (c.vertexIds superp).filterMap fun id => sendProposal id (st.vertex id) }

/-- The loop with `step_compute_min` and `step_send_proposal`. -/
def Proposes (st st' : McstState W) : Prop :=
  StreamPass c McstMessage.key (resetVertices c) (sendProposals c)
    (eachRecord c McstMessage.key (onVertex computeMin)) st.unknownEdges st c.superPartitions st'

/-- The loop with `step_compute_match`. -/
def Matches (st st' : McstState W) : Prop :=
  StreamPass c McstMessage.key (fun _ st => st) (fun _ st => st)
    (eachRecord c McstMessage.key (onVertex computeMatch)) st.messages0 st c.superPartitions st'

/-- A message in `step_propagate_root`. -/
def onPropagate (_processor vindex : Nat) (m : McstMessage W) (st : McstState W) : McstState W :=
  { st with messages1 := st.messages1 ++
      (propagateRoot st.currentCcspreadIteration m (st.vertex vindex)).toList }

/-- A loop with `step_propagate_root`. -/
def Propagates (st st' : McstState W) : Prop :=
  StreamPass c McstMessage.key (fun _ st => st) (fun _ st => st)
    (eachRecord c McstMessage.key onPropagate) st.messages0 st c.superPartitions st'

/-- The first loop with `step_propagate_root`. -/
def StartsSpread (st st' : McstState W) : Prop :=
  ∃ after, Propagates c { st with currentCcspreadIteration := 0 } after ∧
    st' = { after with currentCcspreadIteration := 1 }

/-- `reset_stream(messages_stream1, superp)`. -/
def resetMessages1 (superp : Nat) (st : McstState W) : McstState W :=
  { st with messages1 := st.messages1.filter fun m => c.mapSuperPartition m.key ≠ superp }

/-- The loop with `step_absorb_root`. -/
def Absorbs (st st' : McstState W) : Prop :=
  StreamPass c McstMessage.key (fun _ st => st) (resetMessages1 c)
    (eachRecord c McstMessage.key (onVertex (absorbRoot st.currentCcspreadIteration))) st.messages1 st
    c.superPartitions st'

/-- The body of the loop that spreads the roots, with all messages that have been absorbed. -/
def Spreads (s s' : McstState W × List (McstMessage W)) : Prop :=
  ∃ mid after, Absorbs c s.1 mid ∧ Propagates c mid after ∧
    s' = ({ after with currentCcspreadIteration := after.currentCcspreadIteration + 1 },
      s.2 ++ s.1.messages1)

/-- A message in `step_write_tree_edges`. -/
def onWriteTreeEdge (processor vindex : Nat) (m : McstMessage W) (st : McstState W) : McstState W :=
  let written := writeTreeEdge m (st.vertex vindex)
  { st with
    treeEdges := st.treeEdges ++ written.1
    treeEdgesLocal :=
      Function.update st.treeEdgesLocal processor (st.treeEdgesLocal processor + written.2) }

/-- `reduce` in `step_write_tree_edges`, and `reset_stream(messages_stream0, superp)`. -/
def reduceTreeEdges (superp : Nat) (st : McstState W) : McstState W :=
  { st with
    treeEdgesGlobal := st.treeEdgesGlobal + ((List.range c.processors).map st.treeEdgesLocal).sum
    treeEdgesLocal := fun p => if p < c.processors then 0 else st.treeEdgesLocal p
    messages0 := st.messages0.filter fun m => c.mapSuperPartition m.key ≠ superp }

/-- The loop with `step_write_tree_edges`. -/
def WritesTreeEdges (st st' : McstState W) : Prop :=
  StreamPass c McstMessage.key (fun _ st => st) (reduceTreeEdges c)
    (eachRecord c McstMessage.key onWriteTreeEdge) st.messages0 st c.superPartitions st'

/-- The unknown edges of a graph: between vertices, in both directions and without self loops. -/
structure UnknownEdges (edges : List (McstMessage W)) : Prop where
  inside : ∀ m ∈ edges, m.src.toNat < c.vertices ∧ m.dst.toNat < c.vertices
  symmetric : ∀ m ∈ edges, ⟨m.dst, m.src, m.weight⟩ ∈ edges
  noLoop : ∀ m ∈ edges, m.src ≠ m.dst

/-- The head of a round: the messages have been read, and the counters reduced. -/
structure StartsRound (st : McstState W) : Prop where
  messages0 : st.messages0 = []
  messages1 : st.messages1 = []
  reduced : ∀ q < c.processors, st.treeEdgesLocal q = 0

/-- The proposals as a graph. -/
def proposalGraph (messages0 : List (McstMessage W)) : List (Nat × Nat) :=
  messages0.map fun m => (m.src.toNat, m.dst.toNat)

/-- The pairs that have proposed to each other, smaller end first. -/
def mutualPairs (messages0 : List (McstMessage W)) : List (Nat × Nat) :=
  (proposalGraph messages0).filter fun e =>
    decide (e.1 < e.2) && (proposalGraph messages0).contains (e.2, e.1)

/-- Each vertex with an unknown edge has proposed once, along such an edge; the others have not. -/
structure ProposesOnce (unknownEdges messages0 : List (McstMessage W)) : Prop where
  once : (messages0.map McstMessage.src).Nodup
  proposes_iff : ∀ v, v ∈ messages0.map McstMessage.src ↔ ∃ m ∈ unknownEdges, m.src = v ∨ m.dst = v
  isEdge : ∀ m ∈ messages0, m ∈ unknownEdges

/-- Each component of the proposals has one pair. -/
def OnePairEach (messages0 : List (McstMessage W)) : Prop :=
  ∀ e ∈ proposalGraph messages0, ∃! pair, pair ∈ mutualPairs messages0 ∧
    Components.Connected (proposalGraph messages0) e.1 pair.1

/-- The root of each vertex is the smaller end of the pair of its component. -/
def RootsFound (messages0 : List (McstMessage W)) (st : McstState W) : Prop :=
  ∀ e ∈ proposalGraph messages0, ∀ pair ∈ mutualPairs messages0,
    Components.Connected (proposalGraph messages0) e.1 pair.1 →
      (st.vertex e.1).componentRoot.toNat = pair.1

/-- The vertices that are no root have been absorbed once each, and no others. -/
def AbsorbsOnce (messages0 absorbed : List (McstMessage W)) : Prop :=
  (absorbed.map McstMessage.key).Perm
    (((proposalGraph messages0).map Prod.fst).filter fun v => v ∉ (mutualPairs messages0).map Prod.fst)

/-- A round up to `step_write_tree_edges` does what it should, however the messages are delivered, and leaves
the streams and counters for the next one. -/
def RoundCorrect (st : McstState W) : Prop :=
  Always (Proposes c) (fun proposed =>
    ProposesOnce st.unknownEdges proposed.messages0 ∧ OnePairEach proposed.messages0 ∧
    Always (Matches c) (Always (StartsSpread c) fun started =>
      WhileEnds (Spreads c) (fun s => s.1.messages1 = []) (fun s =>
        RootsFound proposed.messages0 s.1 ∧ AbsorbsOnce proposed.messages0 s.2 ∧
        Always (WritesTreeEdges c) (fun done =>
          done.treeEdgesGlobal + (mutualPairs proposed.messages0).length =
              st.treeEdgesGlobal + proposed.messages0.length ∧ StartsRound c done) s.1)
        (started, [])) proposed) st

end Round

section Rewrite

variable {W : Type} (c : Configuration)

/-- How many messages the output buffer of a thread takes: `OUTBUF_SIZE / OUT::item_size()`. -/
def outbufMessages : Nat := 8192 / 12

/-- The streamed records of a pass, the output buffers of the threads with what is in them, and the counters. -/
structure RewriteState (W : Type) where
  out : List (McstMessage W)
  outbuf : Nat → List (McstMessage W)
  unknownEdgesLocal : Nat → Nat

/-- `execute_callback` with `step_rewrite_unknown`: the records that are left, the output buffer, the number of
messages in it, those appended to the stream so far, and the edges dropped. `mout->weight` is not assigned. -/
def rewriteUnknown (componentRoot : McstMessage W → VertexT) :
    List (McstMessage W) → List (McstMessage W) → Nat → List (McstMessage W) → Nat →
      List (McstMessage W) × List (McstMessage W) × Nat
  | [], outbuf, messages, out, dropped => (outbuf, out ++ outbuf.take messages, dropped)
  | m :: rest, outbuf, messages, out, dropped =>
    if m.src ≠ componentRoot m then
      -- the callback returns when the buffer is full, and is called again for the rest
      if outbuf.length < messages + 1 then
        rewriteUnknown componentRoot rest
          (outbuf.modify 0 fun mout => { mout with src := componentRoot m, dst := m.src }) 1
          (out ++ outbuf.take messages) dropped
      else
        rewriteUnknown componentRoot rest
          (outbuf.modify messages fun mout => { mout with src := componentRoot m, dst := m.src })
          (messages + 1) out dropped
    else rewriteUnknown componentRoot rest outbuf messages out (dropped + 1)

/-- A visit in `step_rewrite_unknown`. -/
def rewriteVisit (vertex : Nat → McstVertex W) (superp : Nat) (v : Visit (McstMessage W))
    (st : RewriteState W) : RewriteState W :=
  let componentRoot (m : McstMessage W) :=
    (vertex (c.mapInverse superp v.partition (c.mapOffset m.key))).componentRoot
  let (outbuf, out, dropped) := rewriteUnknown componentRoot v.records (st.outbuf v.processor) 0 [] 0
  { out := st.out ++ out
    outbuf := Function.update st.outbuf v.processor outbuf
    unknownEdgesLocal :=
      Function.update st.unknownEdgesLocal v.processor (st.unknownEdgesLocal v.processor + dropped) }

/-- The two passes, from `unknown_edges_stream` to `messages_stream1` and back. `reset_stream` empties the
stream that was read. -/
def Rewrites (vertex : Nat → McstVertex W) (unknownEdges : List (McstMessage W))
    (st st' : RewriteState W) : Prop :=
  ∃ mid, StreamPass c McstMessage.key (fun _ st => st) (fun _ st => st) (rewriteVisit c vertex) unknownEdges
      { st with out := [] } c.superPartitions mid ∧
    StreamPass c McstMessage.key (fun _ st => st) (fun _ st => st) (rewriteVisit c vertex) mid.out
      { mid with out := [] } c.superPartitions st'

/-- The edges between components, joining the roots. -/
def contracted (vertex : Nat → McstVertex W) (unknownEdges : List (McstMessage W)) : List (McstMessage W) :=
  let root (v : VertexT) := (vertex v.toNat).componentRoot
  (unknownEdges.filter fun m => root m.src ≠ root m.dst).map fun m => ⟨root m.src, root m.dst, m.weight⟩

/-- Whatever is in the output buffers, and however the records are delivered: the edges between components are
left, with their weights, and the others are counted. -/
def Contracts (vertex : Nat → McstVertex W) (unknownEdges : List (McstMessage W)) : Prop :=
  ∀ st : RewriteState W, (∀ p, (st.outbuf p).length = outbufMessages) →
    Always (Rewrites c vertex unknownEdges) (fun done =>
      done.out.Perm (contracted vertex unknownEdges) ∧
        ((List.range c.processors).map done.unknownEdgesLocal).sum +
            (contracted vertex unknownEdges).length =
          ((List.range c.processors).map st.unknownEdgesLocal).sum + unknownEdges.length) st

end Rewrite

end Mcst

end MBFGraph
