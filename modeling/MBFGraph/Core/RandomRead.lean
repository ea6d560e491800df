import MBFGraph.Core.EdgeScatter

/-!
# Random reads, as they are submitted

`random_read_operator` (`disk_io.hpp:243-297`) keeps up to 64 reads under way at a time and submits
the next one when one of them is completed, in whatever order. Page numbers are of the type
`unsigned int` (`disk_io.hpp:192-241`, `split_stream.hpp:547-579`), and -1 says that there is none.
Then the reading of a stream, as in `DiskStream`, where this is left out.
-/

namespace MBFGraph

open ByteBits BitScan

namespace RandomRead

/-- A page number as an `unsigned int`: `none` is -1. -/
def unsignedInt (pos : Nat) : Option Nat :=
  if pos % 2 ^ 32 = 2 ^ 32 - 1 then none else some (pos % 2 ^ 32)

/-- `find_first`, for a bitset of less than 2^32 bytes. -/
def findFirst (test : List Byte) : Option Nat := (MBFGraph.findFirst test).bind unsignedInt

/-- The two loops of `find_next`; the first makes seven rounds at most. -/
def findNextFrom (test : List Byte) : Nat → Nat → Option Nat
  | 0, last => (scanBytes (test.drop (last / 8)) (last / 8)).bind unsignedInt
  | fuel + 1, last =>
    if last % 8 ≠ 0 then
      if bitAt test last then unsignedInt last else findNextFrom test fuel ((last + 1) % 2 ^ 32)
    else (scanBytes (test.drop (last / 8)) (last / 8)).bind unsignedInt

/-- `find_next`, for a `last` that is not -1. -/
def findNext (test : List Byte) (last : Nat) : Option Nat :=
  findNextFrom test 7 ((last + 1) % 2 ^ 32)

/-- `num_subreq`. -/
def numSubreq : Nat := 64

/-- A read that has been submitted: where its bytes go in the buffer, and `data`, the number of
bytes that have to come back. -/
structure Subrequest where
  pos : Nat
  offset : Nat
  length : Nat
  deriving DecidableEq

/-- The variables of `random_read_operator`. -/
structure Inflight where
  stream : DiskStream
  processedBuf : Nat
  openReq : List Subrequest
  buffer : Nat → Byte

variable (cfg : StreamConfig)

/-- `set_bitset`. -/
def setBitset (st : DiskStream) (bitset : List Byte) : Option DiskStream :=
  if st.randomPos.isSome then none
  else match findFirst bitset with
    | none => none
    | some pos => some { st with randomBitset := some bitset, randomPos := some pos }

/-- `search_and_update_next_positions`: offset and length of the next read. -/
def searchAndUpdateNextPositions (st : DiskStream) (s processedBuf : Nat) :
    Option ((Nat × Nat) × DiskStream) :=
  match st.randomBitset, st.randomPos with
  | some test, some cur =>
    if cfg.bufbytes < processedBuf + cfg.subBufSize then none
    else
      let run := extendRun (findNext test)
        (fun n => decide (processedBuf + n * cfg.subBufSize < cfg.bufbytes)) cur
        (8 * test.length + 1) 1 (findNext test cur)
      let length := run.1 * cfg.subBufSize
      let offset := cur * cfg.subBufSize
      let moveTo := fun pos => { st with
        randomPos := run.2, diskPos := Function.update st.diskPos s pos }
      if st.diskBytes s < offset + length then
        if run.2.isSome ∨ st.diskBytes s ≤ offset then none
        else some ((offset, st.diskBytes s - offset), moveTo (st.diskBytes s))
      else if run.2.isNone then some ((offset, length), moveTo (st.diskBytes s))
      else some ((offset, length), moveTo (offset + length))
  | _, _ => none

/-- There is a page to read, and room for it. -/
def GoesOn (x : Inflight) : Prop :=
  x.stream.randomPos.isSome ∧ x.processedBuf < cfg.bufbytes

instance (x : Inflight) : Decidable (GoesOn cfg x) := inferInstanceAs (Decidable (_ ∧ _))

/-- `io_prep_pread` and `io_submit`. -/
def issue (s : Nat) (x : Inflight) : Option Inflight :=
  (searchAndUpdateNextPositions cfg x.stream s x.processedBuf).map fun next =>
    { x with
      stream := next.2
      processedBuf := x.processedBuf + next.1.2
      openReq := x.openReq ++ [⟨x.processedBuf, next.1.1, next.1.2⟩] }

/-- The loop that submits the first reads. -/
def submit (s : Nat) : Nat → Inflight → Option Inflight
  | 0, x => some x
  | n + 1, x => if GoesOn cfg x then (issue cfg s x).bind (submit s n) else some x

/-- Bytes of a file arrive in the buffer. -/
def arrive (buffer : Nat → Byte) (pos : Nat) (units : List Byte) : Nat → Byte := fun i =>
  if pos ≤ i ∧ i < pos + units.length then units.getD (i - pos) 0 else buffer i

/-- What is done when a read is completed: the number of bytes is checked, and the next read is
submitted if there is one. -/
def complete (s : Nat) (x : Inflight) (r : Subrequest) : Option Inflight :=
  (DiskStream.preadPages cfg (x.stream.fds s).content r.offset r.length).bind fun units =>
    let x := { x with
      openReq := x.openReq.erase r, buffer := arrive x.buffer r.pos units }
    if GoesOn cfg x then issue cfg s x else some x

/-- The loop over the events: `order` says which of the reads is completed next. -/
def completeAll (s : Nat) : Nat → (Nat → Nat) → Inflight → Option Inflight
  | 0, _, _ => none
  | fuel + 1, order, x =>
    match x.openReq[order 0 % x.openReq.length]? with
    | none => some x
    | some r => (complete cfg s x r).bind (completeAll s fuel fun k => order (k + 1))

/-- `random_read_operator`. What is in the buffer before does not matter. -/
def randomReadOperator (order : Nat → Nat) (old : Nat → Byte) (test : List Byte) (st : DiskStream)
    (s : Nat) : Option (MemoryBuffer Byte × DiskStream) :=
  if cfg.bufbytes % cfg.subBufSize = 0 then
    (submit cfg s numSubreq { stream := st, processedBuf := 0, openReq := [], buffer := old }).bind
      fun x => (completeAll cfg s (8 * test.length + 2) order x).map fun x =>
        (MemoryBuffer.unindexed ((List.range x.processedBuf).map x.buffer), x.stream)
  else none

/-- What a run of the I/O thread depends on: the orders in which reads are completed, and the
contents of the buffers, for each request. -/
structure Orders where
  order : Nat → Nat → Nat
  old : Nat → Nat → Byte

/-- The orders from a request on. -/
def Orders.drop (orders : Orders) (n : Nat) : Orders :=
  ⟨fun k => orders.order (k + n), fun k => orders.old (k + n)⟩

/-- The I/O thread on a read request. -/
def readRequest (orders : Orders) (st : DiskStream) (s : Nat) :
    Option (MemoryBuffer Byte × DiskStream) :=
  match st.randomBitset with
  | some test => randomReadOperator cfg (orders.order 0) (orders.old 0) test st s
  | none => some (DiskStream.readOperator cfg st s)

/-- The first half of `read`. -/
def awaited (orders : Orders) (st : DiskStream) (s : Nat) :
    Option (MemoryBuffer Byte × DiskStream) :=
  match st.request with
  | some buffer =>
    if st.requestSuperp = some s then some (buffer, st)
    else readRequest cfg orders { st with requestSuperp := some s } s
  | none => readRequest cfg orders { st with requestSuperp := some s } s

/-- The second half of `read`. -/
def readAhead (orders : Orders) (s currentPos : Nat) (result : MemoryBuffer Byte)
    (st : DiskStream) : Option (MemoryBuffer Byte × DiskStream) :=
  if st.eof s = false then
    (readRequest cfg orders st s).map fun ahead => (result, { ahead.2 with request := some ahead.1 })
  else if cfg.superpCnt = 1 ∧ currentPos = 0 ∧ st.randomBitset = none then
    some (result, { st with cache := some result, eofFlag := true, request := none })
  else some (result, { st with request := none })

/-- `read`, which makes two requests at most. -/
def read (orders : Orders) (st : DiskStream) (s : Nat) :
    Option (MemoryBuffer Byte × DiskStream) :=
  match st.cache with
  | some buffer =>
    if st.requestSuperp.isNone then none else some (buffer, { st with eofFlag := true })
  | none => (awaited cfg orders st s).bind fun done =>
      readAhead cfg (orders.drop 1) s (st.diskPos s) done.1 done.2

/-- The successive calls of `read`, until `stream_eof`. -/
def reads (s : Nat) : Nat → Orders → DiskStream → Option (List (List Byte) × DiskStream)
  | 0, _, _ => none
  | fuel + 1, orders, st =>
    if st.streamEof s then some ([], st)
    else (read cfg orders st s).bind fun done =>
      (reads s fuel (orders.drop 2) done.2).map fun rest => (done.1.buffer :: rest.1, rest.2)

end RandomRead

end MBFGraph
