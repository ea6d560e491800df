import MBFGraph.Core.MemoryBuffer
import MBFGraph.Lib.Overwrite

/-!
# The splitter

`x_split` (`x-splitter.hpp:105-222`) sorts the records of a processor by partition, a few bits of
the partition number at a time, from one buffer into the other and back. `make_index`
(`split_stream.hpp:233-280`) runs it on the slice of every processor. Positions count records. The
slices of the processors are disjoint, so the processors are run one after the other.
-/

namespace MBFGraph

open Overwrite

/-- The loops that count how often a power of two can be halved until it is one. They do not end
on zero. -/
def shiftOf : Nat → Option Nat
  | 0 => none
  | 1 => some 0
  | numOut + 2 => (shiftOf ((numOut + 2) / 2)).map (· + 1)
decreasing_by omega

/-- The variables that steer the rounds. `1 << shift_delta` is an `int`; a shift of 31 would need
an index with 2^62 entries. -/
structure SplitControl where
  numIn : Nat
  shift : Nat
  shiftDelta : Nat
  fanout : Nat

/-- The head of a round: the variables while it runs, `numIn` being `num_out`. -/
def SplitControl.next (c : SplitControl) : SplitControl :=
  let shiftDelta := if c.shift < c.shiftDelta then c.shift else c.shiftDelta
  let fanout := if c.shift < c.shiftDelta then 2 ^ c.shift else c.fanout
  ⟨c.numIn * fanout, c.shift - shiftDelta, shiftDelta, fanout⟩

/-- The variables in front of the first round. -/
def startControl (fanout finalSplitCnt : Nat) : Option SplitControl :=
  let fanout := if finalSplitCnt < fanout then finalSplitCnt else fanout
  (shiftOf finalSplitCnt).bind fun shift => (shiftOf fanout).map fun shiftDelta =>
    ⟨1, shift, shiftDelta, fanout⟩

/-- In every round `num_in` grows, until it is `final_split_cnt`. -/
inductive GrowsTo (finalSplitCnt : Nat) : SplitControl → Prop
  | done {c : SplitControl} (all : c.numIn = finalSplitCnt) : GrowsTo finalSplitCnt c
  | round {c : SplitControl} (more : c.numIn < finalSplitCnt) (grows : c.numIn < c.next.numIn)
      (rest : GrowsTo finalSplitCnt c.next) : GrowsTo finalSplitCnt c

/-- What a processor works on: `buffers[input]`, `buffers[1 - input]`, the indices, and the work
queue. `flipped` is `input == 1`. -/
structure SplitState (α : Type) where
  inBuffer : List α
  outBuffer : List α
  inIndex : Nat → Nat
  outIndex : Nat → Nat
  workq : List Nat
  flipped : Bool

/-- `filter::q`. -/
def queue (workq : List Nat) (id : Nat) : List Nat := if id ∈ workq then workq else id :: workq

section Split

variable {α : Type} [Inhabited α] (key : α → Nat)

/-- Whether the keys do not fall. -/
def keysSorted : Nat → List α → Bool
  | _, [] => true
  | oldKey, record :: records => decide (oldKey ≤ key record) && keysSorted (key record) records

/-- The prefix sums of a round: the index, `output_base`, and the queue if it is the last round. -/
def placeOutputs (last : Bool) (outputs : List Nat)
    (acc : (Nat → Nat) × Nat × List Nat) : (Nat → Nat) × Nat × List Nat :=
  outputs.foldl (fun acc j =>
    (Function.update acc.1 j acc.2.1, acc.2.1 + acc.1 j,
      if last ∧ acc.1 j ≠ 0 then queue acc.2.2 j else acc.2.2)) acc

/-- The loop that copies the records one by one. -/
def scatterRecords (outputId : α → Nat) (records : List α) (acc : List α × (Nat → Nat)) :
    List α × (Nat → Nat) :=
  records.foldl (fun acc record =>
    (overwrite acc.1 (acc.2 (outputId record)) [record],
      Function.update acc.2 (outputId record) (acc.2 (outputId record) + 1))) acc

/-- "Re-adjust offsets": from the last output down to the second. -/
def readjust (outputStart outputStop saved : Nat) (index : Nat → Nat) : Nat → Nat :=
  Function.update
    ((List.range (outputStop - outputStart - 1)).foldl
      (fun index i => Function.update index (outputStop - 1 - i) (index (outputStop - 1 - i - 1)))
      index)
    outputStart saved

/-- The records of input `i`. -/
def inputRecords (c : SplitControl) (base items : Nat) (st : SplitState α) (i : Nat) : List α :=
  (st.inBuffer.drop (st.inIndex i)).take
    (if i = c.numIn - 1 then base + items - st.inIndex i else st.inIndex (i + 1) - st.inIndex i)

/-- One input of a round. `c` are the variables before the head of the round, `d` those behind it. -/
def splitInput (finalSplitCnt : Nat) (c d : SplitControl) (base items : Nat)
    (acc : SplitState α × Nat) (i : Nat) : Option (SplitState α × Nat) :=
  let st := acc.1
  let outputBase := acc.2
  let records := inputRecords c base items st i
  let inIndex := Function.update st.inIndex i 0
  let outputs := (List.range d.fanout).map fun j => d.fanout * i + j
  if records = [] then
    some ({ st with
      inIndex := inIndex
      outIndex := outputs.foldl (fun index j => Function.update index j outputBase) st.outIndex },
      outputBase)
  else
    let outputId := fun record => (key record >>> d.shift) &&& (d.numIn - 1)
    let counts := records.foldl
      (fun index record => Function.update index (outputId record) (index (outputId record) + 1))
      st.outIndex
    if d.numIn = finalSplitCnt ∧ d.shift ≠ 0 then none
    else
      let placed := placeOutputs (decide (d.numIn = finalSplitCnt)) outputs
        (counts, outputBase, st.workq)
      let start := placed.1 (d.fanout * i)
      if keysSorted key 0 records then
        some ({ st with
          inIndex := inIndex
          outIndex := placed.1
          outBuffer := overwrite st.outBuffer start records
          workq := placed.2.2 }, placed.2.1)
      else
        let scattered := scatterRecords outputId records (st.outBuffer, placed.1)
        some ({ st with
          inIndex := inIndex
          outIndex := readjust (d.fanout * i) (d.fanout * (i + 1)) start scattered.2
          outBuffer := scattered.1
          workq := placed.2.2 }, placed.2.1)

/-- The inputs of a round. -/
def splitInputs (finalSplitCnt : Nat) (c d : SplitControl) (base items : Nat) (inputs : List Nat)
    (acc : SplitState α × Nat) : Option (SplitState α × Nat) :=
  inputs.foldlM (splitInput key finalSplitCnt c d base items) acc

/-- `input = 1 - input`. -/
def SplitState.swap (st : SplitState α) : SplitState α :=
  { st with
    inBuffer := st.outBuffer
    outBuffer := st.inBuffer
    inIndex := st.outIndex
    outIndex := st.inIndex
    flipped := !st.flipped }

/-- The loop over the rounds. -/
def splitRounds (finalSplitCnt items : Nat) :
    Nat → SplitControl → SplitState α → Option (SplitState α)
  | 0, _, _ => none
  | fuel + 1, c, st =>
    if c.numIn < finalSplitCnt then
      let d := c.next
      if d.numIn ≤ finalSplitCnt ∧ d.numIn % c.numIn = 0 then
        (splitInputs key finalSplitCnt c d (st.inIndex 0) items (List.range c.numIn)
          (st, st.inIndex 0)).bind fun done =>
            splitRounds finalSplitCnt items fuel d done.1.swap
      else none
    else some st

/-- `x_split` on `items` records. -/
def xSplit (fanout finalSplitCnt items fuel : Nat) (st : SplitState α) : Option (SplitState α) :=
  if finalSplitCnt = 1 then
    some { st with workq := if 0 < items then queue st.workq 0 else st.workq }
  else (startControl fanout finalSplitCnt).bind fun c =>
    splitRounds key finalSplitCnt items fuel c st

/-- A stream buffer, with the auxiliary buffer and index, and the work queue of the buffer. -/
structure SplitBuffers (α : Type) where
  stream : MemoryBuffer α
  auxBuffer : List α
  auxIndex : Nat → Nat → Nat
  workq : List Nat

/-- `make_index` of processor `p` between the first two barriers behind `reset_index`. -/
def splitProcessor (fanout partitions fuel : Nat) (b : SplitBuffers α) (p : Nat) :
    Option (SplitBuffers α × Bool) :=
  (xSplit key fanout partitions (b.stream.perCpuSizes p) fuel
    ⟨b.stream.buffer, b.auxBuffer, b.stream.index p, b.auxIndex p, b.workq, false⟩).map fun st =>
      if st.flipped then
        ({ b with
          stream := { b.stream with
            buffer := st.outBuffer, index := Function.update b.stream.index p st.outIndex }
          auxBuffer := st.inBuffer
          auxIndex := Function.update b.auxIndex p st.inIndex
          workq := st.workq }, true)
      else
        ({ b with
          stream := { b.stream with
            buffer := st.inBuffer, index := Function.update b.stream.index p st.inIndex }
          auxBuffer := st.outBuffer
          auxIndex := Function.update b.auxIndex p st.outIndex
          workq := st.workq }, false)

/-- The slices of the processors, and `reset_index`. -/
def sliceProcessors (processors : Nat) (b : SplitBuffers α) : SplitBuffers α :=
  let items := b.stream.buffer.length
  let itemsPerCpu := items / processors
  let remainder := items - itemsPerCpu * processors
  { b with
    stream := { b.stream with
      perCpuSizes := fun p => if p = processors - 1 then itemsPerCpu + remainder else itemsPerCpu
      index := fun p k => if k = 0 then itemsPerCpu * p else 0 }
    workq := [] }

/-- `switch_with_aux`. -/
def SplitBuffers.switch (b : SplitBuffers α) : SplitBuffers α :=
  { b with
    stream := { b.stream with buffer := b.auxBuffer, index := b.auxIndex }
    auxBuffer := b.stream.buffer
    auxIndex := b.stream.index }

/-- `make_index` of all processors. `twizzle` is the result of processor 0. -/
def makeIndex (processors fanout partitions fuel : Nat) (b : SplitBuffers α) :
    Option (SplitBuffers α) :=
  if b.stream.indexed then some b
  else
    ((List.range processors).foldlM
      (fun (acc : SplitBuffers α × Bool) p =>
        (splitProcessor key fanout partitions fuel acc.1 p).map fun done =>
          (done.1, if p = 0 then done.2 else acc.2))
      (sliceProcessors processors b, false)).map fun done =>
        let b := if done.2 then done.1.switch else done.1
        { b with stream := { b.stream with indexEntries := partitions, indexed := true } }

/-- `make_index` comes to its end, and the rounds of its splits run as they are meant to. -/
structure SplitEnds (processors fanout partitions : Nat) (b : SplitBuffers α) : Prop where
  returns : ∃ fuel, (makeIndex key processors fanout partitions fuel b).isSome
  rounds : partitions ≠ 1 → ∃ c, startControl fanout partitions = some c ∧ GrowsTo partitions c

end Split

end MBFGraph
