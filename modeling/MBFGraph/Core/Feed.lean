import MBFGraph.Lib.ByteBits
import MBFGraph.Lib.Interleaving

/-!
# Feeding an ingest segment

`feed` (`feeder.cpp:33-68`) puts the file of edges into a shared memory segment, batch by batch, and
`x_lib::ingest` (`x-lib.hpp:758-772`) takes the batches out, in another process. They wait for each
other by reading `avail` and `eof`. A step of a process is one access to the segment (to one byte of
the buffer), or a step that makes none.
-/

namespace MBFGraph

open ByteBits

/-- `struct ingest_t`. -/
structure IngestSegment where
  max : Nat
  avail : Nat
  eof : Bool
  buffer : Nat → Byte

/-- `create_ingest_buffer`: what is in the buffer does not matter. -/
def createIngestBuffer (size : Nat) (old : Nat → Byte) : IngestSegment :=
  { max := size, avail := 0, eof := false, buffer := old }

/-- The next statement of `feed`. -/
inductive FeedPc
  | whileBytes
  /-- `read_from_file`, with `done` bytes of `bytesToRead` read. -/
  | readFromFile (bytesToRead done : Nat)
  | setAvail (bytesToRead : Nat)
  | whileAvail
  | setEof
  | returned
  deriving DecidableEq

/-- The process that runs `feed`: `pos` is the place in the file. -/
structure Feeder where
  pc : FeedPc
  bytes : Nat
  pos : Nat

/-- The next statement of `ingest`. -/
inductive IngestPc
  /-- Between two calls. -/
  | outside
  | whileAvail
  | whileEof
  | ifEof
  /-- `memcpy`, with `done` bytes of `size` copied. -/
  | memcpy (size done : Nat)
  | setBufsize
  | clearAvail
  deriving DecidableEq

/-- The process that calls `ingest`, with the buffer it has got, and the batches of the calls that
returned false. -/
structure Ingester where
  pc : IngestPc
  buffer : Nat → Byte
  bufsize : Nat
  batches : List (List Byte)
  /-- A call has returned true. -/
  eof : Bool

/-- The segment and both processes. -/
structure FeedState where
  segment : IngestSegment
  feeder : Feeder
  ingester : Ingester

/-- The process whose turn it is. -/
inductive FeedParty
  | feeder | ingester
  deriving DecidableEq

namespace Feeder

variable (file : List Byte) (align : Nat)

/-- A step of `feed`. At the end of the file `read_from_file` returns. -/
def step (segment : IngestSegment) (f : Feeder) : IngestSegment × Feeder :=
  match f.pc with
  | .whileBytes =>
    if f.bytes = 0 then (segment, { f with pc := .setEof })
    else
      let bytesToRead := min segment.max f.bytes
      let bytesToRead := bytesToRead / align * align
      (segment, { f with pc := .readFromFile bytesToRead 0 })
  | .readFromFile bytesToRead done =>
    match if done < bytesToRead then file[f.pos]? else none with
    | some byte =>
      ({ segment with buffer := Function.update segment.buffer done byte },
        { f with pc := .readFromFile bytesToRead (done + 1), pos := f.pos + 1 })
    | none => (segment, { f with pc := .setAvail bytesToRead, bytes := f.bytes - bytesToRead })
  | .setAvail bytesToRead => ({ segment with avail := bytesToRead }, { f with pc := .whileAvail })
  | .whileAvail => (segment, if segment.avail = 0 then { f with pc := .whileBytes } else f)
  | .setEof => ({ segment with eof := true }, { f with pc := .returned })
  | .returned => (segment, f)

end Feeder

namespace Ingester

/-- A step of `ingest`, or the call. -/
def step (segment : IngestSegment) (c : Ingester) : IngestSegment × Ingester :=
  match c.pc with
  | .outside => (segment, { c with pc := .whileAvail })
  | .whileAvail => (segment, { c with pc := if segment.avail = 0 then .whileEof else .ifEof })
  | .whileEof => (segment, { c with pc := if segment.eof then .ifEof else .whileAvail })
  | .ifEof =>
    if segment.eof then (segment, { c with pc := .outside, eof := true })
    else (segment, { c with pc := .memcpy segment.avail 0 })
  | .memcpy size done =>
    if done < size then
      (segment, { c with
        pc := .memcpy size (done + 1)
        buffer := Function.update c.buffer done (segment.buffer done) })
    else (segment, { c with pc := .setBufsize })
  | .setBufsize => (segment, { c with pc := .clearAvail, bufsize := segment.avail })
  | .clearAvail =>
    ({ segment with avail := 0 }, { c with
      pc := .outside
      batches := c.batches ++ [(List.range c.bufsize).map c.buffer] })

end Ingester

namespace FeedState

/-- A turn of one of the processes. -/
def step (file : List Byte) (align : Nat) (s : FeedState) : FeedParty → FeedState
  | .feeder =>
    let (segment, feeder) := s.feeder.step file align s.segment
    { s with segment, feeder }
  | .ingester =>
    let (segment, ingester) := s.ingester.step s.segment
    { s with segment, ingester }

/-- The segment is new, and `main` of the feeder has called `feed` (`feeder.cpp:112`), where the
product is an `unsigned long`. -/
def start (max recordSize edges : Nat) (old pool : Nat → Byte) : FeedState where
  segment := createIngestBuffer max old
  feeder := { pc := .whileBytes, bytes := recordSize * edges % 2 ^ 64, pos := 0 }
  ingester := { pc := .outside, buffer := pool, bufsize := 0, batches := [], eof := false }

end FeedState

end MBFGraph
