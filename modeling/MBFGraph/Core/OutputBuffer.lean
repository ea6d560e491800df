import MBFGraph.Core.ScatterGather

/-!
# The buffer of a thread

A thread that scatters puts the updates into its own buffer of `OUTBUF_SIZE` bytes first
(`x-lib.hpp:273-307`, `sg_driver.hpp:1088-1113`). The callback returns when there might not be room
for one more, and is called again after `append_buffer` has emptied the buffer. What `append_buffer`
does with the stream is not modelled here: the updates are handed over, in order.
-/

namespace MBFGraph

/-- `OUTBUF_SIZE`. -/
def outbufSize : Nat := 8192

/-- `bytes_out_max`, where `OUT::item_size()` is `updateBytes`; without a value the division is by
zero. -/
def bytesOutMax (updateBytes : Nat) : Option Nat :=
  if updateBytes = 0 then none else some (outbufSize / updateBytes * updateBytes)

/-- `stream_callback_state` of a scatter, the driver's state, and all calls of `generate_update`:
the edge, and the place in the buffer that was handed to it. -/
structure StreamCallback (σ υ δ γ E : Type) where
  bufin : List E
  bufout : List υ
  bytesOut : Nat
  sg : SgState σ υ δ γ
  calls : List (E × Nat)

namespace StreamCallback

variable {σ υ δ γ E W : Type} (c : Configuration) (A : SgAlgorithm σ υ δ γ W) (F : FormatUtils E W)
  (updateBytes superp processor partition : Nat)

/-- `bytes_in`. -/
def bytesIn (cb : StreamCallback σ υ δ γ E) : Nat := cb.bufin.length * F.splitSizeBytes

/-- The body of the loop for an edge, when there is room. -/
def scatterEdge (cb : StreamCallback σ υ δ γ E) (e : E) : StreamCallback σ υ δ γ E :=
  if F.splitKey e 0 = tombstone then cb
  else
    let ends := F.readEdge e
    let vindex := c.mapInverse superp partition (c.mapOffset ends.1.toNat)
    let up := A.generateUpdate (cb.sg.state vindex) ends.1 ends.2 (F.edgeWeight e)
      (cb.sg.algoPcpu processor) cb.sg.bspPhase
    { cb with
      bufout := cb.bufout ++ up.1.toList
      bytesOut := if up.1.isSome then cb.bytesOut + updateBytes else cb.bytesOut
      sg := { cb.sg with
        state := Function.update cb.sg.state vindex
          (A.vertexAfterUpdate (cb.sg.state vindex) cb.sg.bspPhase)
        algoPcpu := Function.update cb.sg.algoPcpu processor up.2 }
      calls := cb.calls ++ [(e, cb.bytesOut)] }

/-- `partition_callback` in the scatter phase, from an edge on. -/
def partitionCallback (max : Nat) :
    List E → StreamCallback σ υ δ γ E → StreamCallback σ υ δ γ E
  | [], cb => { cb with bufin := [] }
  | e :: rest, cb =>
    if max < cb.bytesOut + updateBytes then { cb with bufin := e :: rest }
    else
      partitionCallback max rest
        (scatterEdge c A F updateBytes superp processor partition cb e)

/-- `append_buffer`, and the buffer is empty again. -/
def appendBuffer (cb : StreamCallback σ υ δ γ E) : StreamCallback σ υ δ γ E :=
  { cb with
    bufout := []
    bytesOut := 0
    sg := { cb.sg with updatesOut := cb.sg.updatesOut ++ cb.bufout } }

/-- `execute_callback`, with `fuel` passes of its loop at most. -/
def executeCallback (max : Nat) :
    Nat → StreamCallback σ υ δ γ E → Option (StreamCallback σ υ δ γ E)
  | 0, _ => none
  | fuel + 1, cb =>
    if cb.bytesIn F = 0 then some cb
    else
      let cb := partitionCallback c A F updateBytes superp processor partition max cb.bufin cb
      executeCallback max fuel (if 0 < cb.bytesOut then appendBuffer cb else cb)

/-- The callback state for a substream. -/
def enter (records : List E) (sg : SgState σ υ δ γ) : StreamCallback σ υ δ γ E :=
  { bufin := records, bufout := [], bytesOut := 0, sg, calls := [] }

/-- `execute_callback` returns with no input left: `generate_update` has been called once for each
edge that is not deleted, with room for an update at the place it got, and the stream has
what the driver's model of the phase appends. -/
def WorksOff (records : List E) (sg : SgState σ υ δ γ) : Prop :=
  ∃ max, bytesOutMax updateBytes = some max ∧ ∃ (n : Nat) (after : StreamCallback σ υ δ γ E),
    (∀ fuel, n < fuel →
      executeCallback c A F updateBytes superp processor partition max fuel (enter records sg) =
        some after) ∧
    after.bytesIn F = 0 ∧
    after.calls.map Prod.fst = records.filter (fun e => F.splitKey e 0 ≠ tombstone) ∧
    (∀ call ∈ after.calls, call.2 + updateBytes ≤ outbufSize) ∧
    after.sg = records.foldl
      (ScatterGather.scatterRecord c A F superp processor partition) sg

end StreamCallback

end MBFGraph
