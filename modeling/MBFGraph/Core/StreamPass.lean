import MBFGraph.Core.ScatterGather

/-!
# Passes over a stream

An algorithm with phases of its own calls `do_stream` (`x-lib.hpp:604-673`) for one super partition after the
other, between `state_load` and `state_store`. Every record is handed to `partition_callback` once, in a visit
of the cached partition of its key; in which order, and by which processor, is left open.
-/

namespace MBFGraph

section Pass

variable {ρ S : Type} (c : Configuration) (key : ρ → Nat)

/-- The first super partitions of a pass. `before` and `behind` are what the driver does for a super partition
around `do_stream`. -/
inductive StreamPass (before behind : Nat → S → S) (callback : Nat → Visit ρ → S → S) (records : List ρ)
    (st : S) : Nat → S → Prop
  | none : StreamPass before behind callback records st 0 st
  | next {superp : Nat} {mid : S} {visits : List (Visit ρ)}
      (others : StreamPass before behind callback records st superp mid)
      (delivered : Delivers c key (fun _ => true)
        (records.filter fun r => c.mapSuperPartition (key r) = superp) visits) :
      StreamPass before behind callback records st (superp + 1)
        (behind superp (visits.foldl (fun st v => callback superp v st) (before superp mid)))

/-- A `partition_callback` that takes the records one by one, each with its vertex. -/
def eachRecord (record : Nat → Nat → ρ → S → S) (superp : Nat) (v : Visit ρ) (st : S) : S :=
  v.records.foldl (fun st r =>
    record v.processor (c.mapInverse superp v.partition (c.mapOffset (key r))) r st) st

end Pass

end MBFGraph
