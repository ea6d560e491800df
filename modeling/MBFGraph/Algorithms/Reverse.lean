import MBFGraph.Core.Autotuner
import MBFGraph.Core.DiskStream
import MBFGraph.Core.Ingest
import MBFGraph.Core.XSplitter
import MBFGraph.Format.FormatUtils

/-!
# Graph reversal

`reverse::operator()` (`reverse.hpp:117-133`) streams the edge file through `work::operator()`
(`x-lib.hpp:186-358`) into the output stream, rewinds both streams and terminates, which writes
nothing. There is one super partition, and no loopback. A processor's records pass through its
output area of `OUTBUF_SIZE` bytes into the shared output buffer; the pieces of the processors come
in any order.
-/

namespace MBFGraph

open ByteBits Overwrite

namespace Type2

/-- `sizeof(vertex_t)` with `COMPACT_GRAPH`. -/
def sizeofVertexT : Nat := 4

/-- `split_size_bytes` (`type_2.hpp:30`). -/
def splitSizeBytes : Nat := 2 * sizeofVertexT

/-- `read_edge` (`type_2.hpp:34`). -/
def readEdge (buffer : List Byte) : SimpleEdge where
  src := load 32 buffer 0
  dst := load 32 buffer sizeofVertexT

/-- `write_edge` (`type_2.hpp:49`). -/
def writeEdge (buffer : List Byte) (edge : SimpleEdge) : List Byte :=
  overwrite (overwrite buffer 0 (bytesOf sizeofVertexT edge.src)) sizeofVertexT
    (bytesOf sizeofVertexT edge.dst)

/-- The records of an area. -/
def fileEdges (bytes : List Byte) : List SimpleEdge :=
  (recordsOf splitSizeBytes bytes).map readEdge

/-- The bytes of a record in an area that is filled. -/
def edgeBytes (edge : SimpleEdge) : List Byte :=
  writeEdge (List.replicate splitSizeBytes 0) edge

end Type2

/-- A buffer of records as the buffer of bytes it is. -/
def MemoryBuffer.toBytes (b : MemoryBuffer SimpleEdge) : MemoryBuffer Byte where
  buffer := b.buffer.flatMap Type2.edgeBytes
  index p k := b.index p k * Type2.splitSizeBytes
  perCpuSizes p := b.perCpuSizes p * Type2.splitSizeBytes
  indexEntries := b.indexEntries
  indexed := b.indexed
  dirty := b.dirty

namespace Reverse

/-- `OUTBUF_SIZE`. -/
def outbufSize : Nat := 8192

/-- `bytes_out_max`. -/
def bytesOutMax : Nat := outbufSize / Type2.splitSizeBytes * Type2.splitSizeBytes

/-- An edge with its ends exchanged. -/
def swapEnds (edge : SimpleEdge) : SimpleEdge := ⟨edge.dst, edge.src⟩

/-- `partition_callback` (`reverse.hpp:136`): the records written behind `bytesOut`, and those
that are left. -/
def partitionCallback : Nat → List SimpleEdge → List SimpleEdge × List SimpleEdge
  | _, [] => ([], [])
  | bytesOut, edge :: edges =>
    if bytesOutMax < bytesOut + Type2.splitSizeBytes then ([], edge :: edges)
    else
      let rest := partitionCallback (bytesOut + Type2.splitSizeBytes) edges
      (swapEnds edge :: rest.1, rest.2)

/-- What a call writes and what it leaves are the records it was given. -/
theorem partitionCallback_split (bytesOut : Nat) (edges : List SimpleEdge) :
    (partitionCallback bytesOut edges).1 ++ (partitionCallback bytesOut edges).2.map swapEnds =
      edges.map swapEnds := by
  induction edges generalizing bytesOut with
  | nil => rfl
  | cons edge edges ih =>
    unfold partitionCallback
    split
    · rfl
    · rw [List.cons_append, ih, List.map_cons]

/-- The first record of a call always fits. -/
theorem length_partitionCallback_lt {edges : List SimpleEdge} (some_ : edges ≠ []) :
    (partitionCallback 0 edges).2.length < edges.length := by
  obtain ⟨edge, rest, rfl⟩ := List.exists_cons_of_ne_nil some_
  have split := congrArg List.length (partitionCallback_split Type2.splitSizeBytes rest)
  rw [List.length_append, List.length_map, List.length_map] at split
  unfold partitionCallback
  rw [if_neg (by decide), Nat.zero_add, List.length_cons]
  change (partitionCallback Type2.splitSizeBytes rest).2.length < rest.length + 1
  omega

/-- `execute_callback` (`x-lib.hpp:273`): the pieces that are appended to the output buffer. -/
def executeCallback (edges : List SimpleEdge) : List (List SimpleEdge) :=
  if _ : edges = [] then []
  else (partitionCallback 0 edges).1 :: executeCallback (partitionCallback 0 edges).2
termination_by edges.length
decreasing_by exact length_partitionCallback_lt ‹_›

/-- What the processors share while they work on an input buffer: the output buffer, which is
`NULL` behind a flush with `--force_buffers`, and the buffers that were appended to the output
stream. -/
structure WorkOutput where
  streamOut : Option (List SimpleEdge)
  flushed : List (List SimpleEdge)

variable (cfg : StreamConfig) (forceBuffers : Bool)

/-- `flush_buffer` (`x-lib.hpp:150`), without its result. -/
def flushBuffer (out : WorkOutput) (records : List SimpleEdge) : WorkOutput :=
  if records = [] then out
  else ⟨if forceBuffers then none else some [], out.flushed ++ [records]⟩

/-- `append_buffer` (`x-lib.hpp:255`). -/
def appendBuffer : Nat → List SimpleEdge → WorkOutput → Option WorkOutput
  | _, [], out => some out
  | 0, _ :: _, _ => none
  | fuel + 1, records@(_ :: _), out =>
    out.streamOut.bind fun held =>
      let space := min (cfg.bufbytes - held.length * Type2.splitSizeBytes)
        (records.length * Type2.splitSizeBytes) / Type2.splitSizeBytes
      let taken := held ++ records.take space
      let filled := { out with streamOut := some taken }
      appendBuffer fuel (records.drop space)
        (if space ≠ records.length then flushBuffer forceBuffers filled taken else filled)

/-- The pieces of all processors, in the order in which they arrive. -/
def appendPieces (fuel : Nat) (pieces : List (List SimpleEdge)) (out : WorkOutput) :
    Option WorkOutput :=
  pieces.foldlM (fun out piece => appendBuffer cfg forceBuffers fuel piece out) out

/-- `final_flush` (`x-lib.hpp:241`): until nothing is left, or there is no buffer. -/
def finalFlush (out : WorkOutput) : WorkOutput :=
  match out.streamOut with
  | none => out
  | some records => flushBuffer forceBuffers out records

variable (m : Mapping) (fanout : Nat)

/-- `make_index` of a buffer with `records`; the auxiliary area has any content. -/
def Splits (key : SimpleEdge → Nat) (partitions : Nat) (records : List SimpleEdge)
    (b' : SplitBuffers SimpleEdge) : Prop :=
  ∃ fuel aux, aux.length = records.length ∧
    makeIndex key cfg.processors fanout partitions fuel
      ⟨MemoryBuffer.unindexed records, aux, fun _ _ => 0, []⟩ = some b'

/-- The pieces of the partitions in the work queue, with the substreams of all processors. -/
def workPieces (b : SplitBuffers SimpleEdge) : List (List SimpleEdge) :=
  b.workq.flatMap fun partition => (List.range cfg.processors).flatMap fun p =>
    executeCallback (b.stream.getSubstream p partition)

/-- `work::operator()` on an input buffer: the buffers that it appends to the output stream. -/
def Works (bytes : List Byte) (outs : List (MemoryBuffer Byte)) : Prop :=
  ∃ (split : SplitBuffers SimpleEdge) (pieces : List (List SimpleEdge)) (fuel : Nat)
    (out : WorkOutput),
    Splits cfg fanout (fun e => m.mapCachedPartition (type2.splitKey e 0)) m.cachedPartitions
      (Type2.fileEdges bytes) split ∧
    pieces.Perm (workPieces cfg split) ∧
    appendPieces cfg forceBuffers fuel pieces ⟨some [], []⟩ = some out ∧
    List.Forall₂ (fun records buffer => ∃ indexed : SplitBuffers SimpleEdge,
        Splits cfg fanout (fun e => m.mapSuperPartition (type2.splitKey e 0)) m.superPartitions
          records indexed ∧ buffer = indexed.stream.toBytes)
      (finalFlush forceBuffers out).flushed outs

/-- `reverse::operator()`: what is on disk for `"<name>-rev"`, opened as a new file. -/
def Runs (file outFile : List Byte) : Prop :=
  ∃ (fuel : Nat) (reads : List (List Byte)) (inStream inStream' outStream outStream' : DiskStream)
    (outs : List (List (MemoryBuffer Byte))),
    DiskStream.doStream cfg 0 fuel (DiskStream.opened fun _ => file) = some (reads, inStream) ∧
    List.Forall₂ (Works cfg forceBuffers m fanout) reads outs ∧
    DiskStream.appendAll cfg outs.flatten (DiskStream.opened fun _ => []) = some outStream ∧
    DiskStream.rewind cfg inStream = some inStream' ∧
    DiskStream.rewind cfg outStream = some outStream' ∧
    outFile = (outStream'.fds 0).content

/-- The first `edges * split_size_bytes()` bytes of the output file are the edges of the input file
with their ends exchanged. -/
def HoldsReversed (file outFile : List Byte) : Prop :=
  (Type2.fileEdges (outFile.take (file.length / Type2.splitSizeBytes * Type2.splitSizeBytes))).Perm
    ((Type2.fileEdges file).map swapEnds)

end Reverse

end MBFGraph
