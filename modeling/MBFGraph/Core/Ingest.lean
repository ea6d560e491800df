import MBFGraph.Core.DiskStream

/-!
# Edge streams that grow

`merge_ingest` (`x-lib.hpp:774-780`) hands a batch of edges to `ingest` when the edge stream was
read to its end (`cc_online.hpp:222-238`); then the stream is rewound and read again. There is one
super partition.
-/

namespace MBFGraph

open ByteBits

/-- The records of an area. -/
def recordsOf (unit : Nat) (bytes : List Byte) : List (List Byte) :=
  (List.range (bytes.length / unit)).map fun i => (bytes.drop (i * unit)).take unit

namespace DiskStream

variable (cfg : StreamConfig)

/-- `ingest`, `rewind`, and reading to `stream_eof`. -/
def ingestedThenRead (fuel : Nat) (st : DiskStream) (buffer : MemoryBuffer Byte) :
    Option (List (List Byte)) :=
  (ingest cfg st buffer).bind fun st => (rewind cfg st).bind fun st =>
    (doStream cfg 0 fuel st).map Prod.fst

/-- The stream delivers the records it had, and those of the batch. -/
def KeepsIngested (content : List Byte) (st : DiskStream) (buffer : MemoryBuffer Byte) : Prop :=
  ∃ size outs, (∀ fuel, size < fuel → ingestedThenRead cfg fuel st buffer = some outs) ∧
    (recordsOf cfg.streamUnitBytes outs.flatten).Perm
      (recordsOf cfg.streamUnitBytes content ++ recordsOf cfg.streamUnitBytes buffer.buffer)

/-- A buffer that is kept in memory is dirty, and it has no room for a record of the batch. -/
def TakesBatch (st : DiskStream) (buffer : MemoryBuffer Byte) : Prop :=
  ∀ kept, st.cache = some kept →
    buffer.buffer = [] ∨ kept.dirty = true ∧ ingestSpace cfg kept buffer = 0

/-- An edge stream, rewound, and its content: from a file or from appended buffers, and then read
to its end again and again, sometimes with a batch behind it. -/
inductive Session : List Byte → DiskStream → Prop
  | opened {content : List Byte} (whole : content.length % cfg.streamUnitBytes = 0) :
      Session content (opened fun _ => content)
  | created {buffers : List (MemoryBuffer Byte)} {st st' : DiskStream}
      (indexed : ∀ buffer ∈ buffers, buffer.Indexed cfg.processors 1)
      (whole : ∀ buffer ∈ buffers, ∀ p < cfg.processors,
        (buffer.getSubstream p 0).length % cfg.streamUnitBytes = 0)
      (appends : appendAll cfg buffers (DiskStream.opened fun _ => []) = some st)
      (rewinds : rewind cfg st = some st') : Session (appended cfg buffers 0) st'
  | readAgain {content : List Byte} {st st' st'' : DiskStream} {fuel : Nat}
      {outs : List (List Byte)} (session : Session content st)
      (read : doStream cfg 0 fuel st = some (outs, st')) (rewinds : rewind cfg st' = some st'') :
      Session content st''
  | ingested {content : List Byte} {st st' st'' st''' : DiskStream} {fuel : Nat}
      {outs : List (List Byte)} {buffer : MemoryBuffer Byte} (session : Session content st)
      (read : doStream cfg 0 fuel st = some (outs, st'))
      (whole : buffer.buffer.length % cfg.streamUnitBytes = 0)
      (indexed : buffer.Indexed cfg.processors 1) (takes : TakesBatch cfg st' buffer)
      (ingests : ingest cfg st' buffer = some st'') (rewinds : rewind cfg st'' = some st''') :
      Session (content ++ buffer.buffer) st'''

end DiskStream

end MBFGraph
