import MBFGraph.Core.MemoryBuffer
import MBFGraph.Core.PageSelect
import MBFGraph.Lib.Stdio

/-!
# Streams

`disk_stream` (`split_stream.hpp:317-821`) and the I/O thread's side of it (`disk_io.hpp:74-190`,
`214-292`, `544-615`): a stream has one file per super partition, and at most one request under
way or one buffer that it keeps in memory. An I/O request is carried out when it is issued.
Assertions are `none`.
-/

namespace MBFGraph

open ByteBits BitScan Overwrite Stdio

/-- `DISK_PAGE_SIZE`. -/
def diskPageSize : Nat := 8192

/-- What is fixed for a stream. -/
structure StreamConfig where
  superpCnt : Nat
  processors : Nat
  streamUnitBytes : Nat
  bufbytes : Nat
  subBufSize : Nat
  streamUnit : Nat

/-- The `io_size` loop of `do_write_IO`: the file, and the bytes that are left. -/
def writeChunks (fd : File Byte) (buffer : List Byte) (ioSize : Nat) : File Byte × List Byte :=
  if diskPageSize ≤ ioSize then
    if buffer.length < ioSize then writeChunks fd buffer (ioSize / 2)
    else writeChunks (fwrite fd (buffer.take ioSize)) (buffer.drop ioSize) ioSize
  else (fd, buffer)
termination_by buffer.length + ioSize
decreasing_by
  all_goals simp only [diskPageSize, List.length_drop] at *; omega

/-- `do_write_IO` behind the partial page. -/
def writeWhole (streamUnit : Nat) (fd : File Byte) (buffer diskPage : List Byte) :
    File Byte × List Byte :=
  let written := writeChunks fd buffer streamUnit
  (written.1, overwrite diskPage 0 written.2)

/-- `do_write_IO`: the file and the partial page. An unaligned buffer goes through the bounce
buffer, which makes no difference to what is written. -/
def doWriteIo (streamUnit : Nat) (fd : File Byte) (buffer : List Byte) (diskBufferPos : Nat)
    (diskPage : List Byte) : File Byte × List Byte :=
  let diskPageOffset := diskBufferPos % diskPageSize
  if 0 < diskPageOffset then
    let pageBytesLeft := diskPageSize - diskPageOffset
    let bytesToCopy := min pageBytesLeft buffer.length
    let page := overwrite diskPage diskPageOffset (buffer.take bytesToCopy)
    let file := if pageBytesLeft = bytesToCopy then fwrite fd page else fd
    if buffer.length = bytesToCopy then (file, page)
    else writeWhole streamUnit file (buffer.drop bytesToCopy) page
  else writeWhole streamUnit fd buffer diskPage

/-- The `io_size` loop of `do_read_IO`: what was read, the file, and the bytes still missing. -/
def readChunks (fd : File Byte) (bytes ioSize : Nat) : List Byte × File Byte × Nat :=
  if diskPageSize ≤ ioSize then
    if bytes < ioSize then readChunks fd bytes (ioSize / 2)
    else
      let units := fread fd ioSize
      let rest := readChunks units.2 (bytes - ioSize) ioSize
      (units.1 ++ rest.1, rest.2)
  else ([], fd, bytes)
termination_by bytes + ioSize
decreasing_by
  all_goals simp only [diskPageSize] at *; omega

/-- `do_read_IO` behind the partial page: the last piece is read through the page. -/
def readWhole (streamUnit : Nat) (fd : File Byte) (diskPage : List Byte) (bytes : Nat) :
    List Byte × File Byte × List Byte :=
  let units := readChunks fd bytes streamUnit
  if 0 < units.2.2 then
    let last := fread units.2.1 diskPageSize
    let page := overwrite diskPage 0 last.1
    (units.1 ++ page.take units.2.2, last.2, page)
  else (units.1, units.2.1, diskPage)

/-- `do_read_IO`: what was read, the file, and the partial page. -/
def doReadIo (streamUnit : Nat) (fd : File Byte) (diskPage : List Byte)
    (bytes diskBufferPos : Nat) : List Byte × File Byte × List Byte :=
  let diskPageOffset := diskBufferPos % diskPageSize
  if 0 < diskPageOffset then
    let copyBytes := min bytes (diskPageSize - diskPageOffset)
    let copied := (diskPage.drop diskPageOffset).take copyBytes
    if bytes = copyBytes then (copied, fd, diskPage)
    else
      let rest := readWhole streamUnit fd diskPage (bytes - copyBytes)
      (copied ++ rest.1, rest.2)
  else readWhole streamUnit fd diskPage bytes

/-- `disk_stream`. `requestSuperp = none` is `-1UL`, the mode in which a stream is appended to. -/
structure DiskStream where
  fds : Nat → File Byte
  diskPos : Nat → Nat
  diskBytes : Nat → Nat
  diskPages : Nat → List Byte
  eofFlag : Bool
  requestSuperp : Option Nat
  request : Option (MemoryBuffer Byte)
  cache : Option (MemoryBuffer Byte)
  randomBitset : Option (List Byte)
  randomPos : Option Nat

namespace DiskStream

/-- The constructor, for files with the given contents: none if `new_file` is set. -/
def opened (contents : Nat → List Byte) : DiskStream where
  fds s := File.opened (contents s)
  diskPos _ := 0
  diskBytes s := (contents s).length
  diskPages _ := List.replicate diskPageSize 0
  eofFlag := false
  requestSuperp := none
  request := none
  cache := none
  randomBitset := none
  randomPos := none

variable (cfg : StreamConfig)

/-- `eof`. -/
def eof (st : DiskStream) (s : Nat) : Bool := decide (st.diskPos s = st.diskBytes s)

/-- `stream_eof`. -/
def streamEof (st : DiskStream) (s : Nat) : Bool :=
  if st.cache.isSome then st.eofFlag
  else if st.request.isSome ∧ st.requestSuperp = some s then false
  else st.eof s

/-- `disk_empty`. -/
def diskEmpty (st : DiskStream) : Bool :=
  (List.range cfg.superpCnt).all fun s => decide (st.diskBytes s = 0)

/-- `set_bitset`. -/
def setBitset (st : DiskStream) (bitset : List Byte) : Option DiskStream :=
  if st.randomPos.isSome then none
  else match findFirst bitset with
    | none => none
    | some pos => some { st with randomBitset := some bitset, randomPos := some pos }

/-- `clear_bitset`. -/
def clearBitset (st : DiskStream) : Option DiskStream :=
  if st.randomPos.isSome then none else some { st with randomBitset := none }

/-- `read_operator`. -/
def readOperator (st : DiskStream) (s : Nat) : MemoryBuffer Byte × DiskStream :=
  let bytes := min (st.diskBytes s - st.diskPos s) cfg.bufbytes / cfg.streamUnitBytes *
    cfg.streamUnitBytes
  let done := doReadIo cfg.streamUnit (st.fds s) (st.diskPages s) bytes (st.diskPos s)
  (MemoryBuffer.unindexed done.1,
    { st with
      diskPos := Function.update st.diskPos s (st.diskPos s + bytes)
      fds := Function.update st.fds s done.2.1
      diskPages := Function.update st.diskPages s done.2.2 })

/-- `search_and_update_next_positions`: offset and length of the next request. -/
def searchAndUpdateNextPositions (st : DiskStream) (s processedBuf : Nat) :
    Option ((Nat × Nat) × DiskStream) :=
  match st.randomBitset, st.randomPos with
  | some test, some cur =>
    if cfg.bufbytes < processedBuf + cfg.subBufSize then none
    else
      let run := extendRun (findNext test)
        (fun n => decide (processedBuf + n * cfg.subBufSize < cfg.bufbytes)) cur
        (8 * test.length + 1) 1 (findNext test cur)
      let length := run.1 * cfg.subBufSize
      let offset := cur * cfg.subBufSize
      let moveTo := fun pos => { st with
        randomPos := run.2, diskPos := Function.update st.diskPos s pos }
      if st.diskBytes s < offset + length then
        -- the run ends behind the file: it has to be the last one, and start inside
        if run.2.isSome ∨ st.diskBytes s ≤ offset then none
        else some ((offset, st.diskBytes s - offset), moveTo (st.diskBytes s))
      else if run.2.isNone then some ((offset, length), moveTo (st.diskBytes s))
      else some ((offset, length), moveTo (offset + length))
  | _, _ => none

/-- One request of `random_read_operator`: whole pages are asked for, and the number of bytes that
come back is checked. -/
def preadPages (content : List Byte) (offset length : Nat) : Option (List Byte) :=
  let sentLength := if length % cfg.subBufSize = 0 then length
    else (length / cfg.subBufSize + 1) * cfg.subBufSize
  let units := (content.drop offset).take sentLength
  if units.length = length then some units else none

/-- `random_read_operator` until the bitset is used up or the buffer is full. Each request is
placed behind the one before it, so their order of completion does not matter. -/
def randomReadFrom (s : Nat) : Nat → DiskStream → Nat → List Byte →
    Option (MemoryBuffer Byte × DiskStream)
  | 0, _, _, _ => none
  | fuel + 1, st, processedBuf, data =>
    if st.randomPos.isSome ∧ processedBuf < cfg.bufbytes then
      (searchAndUpdateNextPositions cfg st s processedBuf).bind fun next =>
        (preadPages cfg (st.fds s).content next.1.1 next.1.2).bind fun units =>
          randomReadFrom s fuel next.2 (processedBuf + next.1.2) (data ++ units)
    else some (MemoryBuffer.unindexed data, st)

/-- The I/O thread on a read request. -/
def readRequest (st : DiskStream) (s : Nat) : Option (MemoryBuffer Byte × DiskStream) :=
  match st.randomBitset with
  | some test =>
    if cfg.bufbytes % cfg.subBufSize = 0 then
      randomReadFrom cfg s (8 * test.length + 1) st 0 []
    else none
  | none => some (readOperator cfg st s)

/-- The first half of `read`: the request that is pending, or a new one. -/
def awaited (st : DiskStream) (s : Nat) : Option (MemoryBuffer Byte × DiskStream) :=
  match st.request with
  | some buffer =>
    if st.requestSuperp = some s then some (buffer, st)
    else readRequest cfg { st with requestSuperp := some s } s
  | none => readRequest cfg { st with requestSuperp := some s } s

/-- The second half: a request for what follows, or the decision to keep the buffer. -/
def readAhead (s currentPos : Nat) (result : MemoryBuffer Byte) (st : DiskStream) :
    Option (MemoryBuffer Byte × DiskStream) :=
  if st.eof s = false then
    (readRequest cfg st s).map fun ahead => (result, { ahead.2 with request := some ahead.1 })
  else if cfg.superpCnt = 1 ∧ currentPos = 0 ∧ st.randomBitset = none then
    some (result, { st with cache := some result, eofFlag := true, request := none })
  else some (result, { st with request := none })

/-- `read`. -/
def read (st : DiskStream) (s : Nat) : Option (MemoryBuffer Byte × DiskStream) :=
  match st.cache with
  | some buffer =>
    if st.requestSuperp.isNone then none else some (buffer, { st with eofFlag := true })
  | none => (awaited cfg st s).bind fun done => readAhead cfg s (st.diskPos s) done.1 done.2

/-- The loop of `do_stream` (`x-lib.hpp:655-667`): the buffers that are handed on. -/
def doStream (s : Nat) : Nat → DiskStream → Option (List (List Byte) × DiskStream)
  | 0, _ => none
  | fuel + 1, st =>
    if st.streamEof s then some ([], st)
    else (read cfg st s).bind fun done =>
      (doStream s fuel done.2).map fun rest => (done.1.buffer :: rest.1, rest.2)

/-- One substream in `write_internal`. -/
def writeSubstream (buffer : MemoryBuffer Byte) (s : Nat) (st : DiskStream) (j : Nat) :
    DiskStream :=
  let bytes := buffer.getSubstream j s
  let done := doWriteIo cfg.streamUnit (st.fds s) bytes (st.diskPos s) (st.diskPages s)
  { st with
    diskPos := Function.update st.diskPos s (st.diskPos s + bytes.length)
    diskBytes := Function.update st.diskBytes s (st.diskBytes s + bytes.length)
    fds := Function.update st.fds s done.1
    diskPages := Function.update st.diskPages s done.2 }

/-- `write_internal`. -/
def writeInternal (buffer : MemoryBuffer Byte) (st : DiskStream) : DiskStream :=
  (List.range cfg.superpCnt).foldl
    (fun st s => (List.range cfg.processors).foldl (writeSubstream cfg buffer s) st) st

/-- `append`. A clean buffer cannot be written out. -/
def append (st : DiskStream) (buffer : MemoryBuffer Byte) : Option DiskStream :=
  if buffer.buffer = [] then some st
  else if st.diskEmpty cfg ∧ st.cache.isNone ∧ cfg.superpCnt = 1 then
    if st.request.isSome then none else some { st with cache := some { buffer with dirty := true } }
  else
    let written := match st.cache with
      | some cached =>
        if cached.dirty then
          some { writeInternal cfg cached st with request := none, cache := none }
        else none
      | none => some st
    written.map fun st =>
      { writeInternal cfg buffer st with request := some { buffer with dirty := false } }

/-- `flush_one`. -/
def flushOne (st : DiskStream) (s : Nat) : DiskStream :=
  if 0 < st.diskPos s % diskPageSize then
    { st with fds := Function.update st.fds s (fwrite (st.fds s) (st.diskPages s)) }
  else st

/-- `flush`. -/
def flush (st : DiskStream) : DiskStream := (List.range cfg.superpCnt).foldl flushOne st

/-- One turn of the loop of `rewind`. -/
def rewindOne (st : DiskStream) (s : Nat) : DiskStream :=
  let st := if st.requestSuperp = none ∧ 0 < st.diskPos s ∧ 0 < st.diskBytes s then flush cfg st
    else st
  { st with
    fds := Function.update st.fds s (fseek (st.fds s) 0)
    diskPos := Function.update st.diskPos s 0 }

/-- How many bytes of whole records `ingest` moves behind the records of the kept buffer. -/
def ingestSpace (cached buffer : MemoryBuffer Byte) : Nat :=
  min (cfg.bufbytes - cached.buffer.length) buffer.buffer.length / cfg.streamUnitBytes *
    cfg.streamUnitBytes

/-- The last part of `ingest`: the positions are moved to the ends, and the buffer is appended. -/
def ingestAtEnd (st : DiskStream) (buffer : MemoryBuffer Byte) : Option DiskStream :=
  if st.request.isSome then none
  else
    append cfg { st with
      diskPos := fun s => if s < cfg.superpCnt then st.diskBytes s else st.diskPos s
      fds := fun s => if s < cfg.superpCnt then
          fseek (st.fds s) (st.diskBytes s / diskPageSize * diskPageSize)
        else st.fds s } buffer

/-- `is_empty`. -/
def isEmpty (st : DiskStream) : Bool := st.cache.isNone && st.request.isNone && st.diskEmpty cfg

/-- `ingest`. The records that are moved lie behind the `bufsize` of the kept buffer, which stays
as it is. -/
def ingest (st : DiskStream) (buffer : MemoryBuffer Byte) : Option DiskStream :=
  let st := { st with requestSuperp := none }
  if st.isEmpty cfg then append cfg st buffer
  else match st.cache with
    | some cached =>
      let space := ingestSpace cfg cached buffer
      if 0 < space ∧ buffer.buffer.length % cfg.streamUnitBytes ≠ 0 then none
      else
        let left := { buffer.resetIndex with
          buffer := buffer.buffer.take (buffer.buffer.length - space) }
        if left.buffer = [] then some { st with cache := some cached.resetIndex }
        else if cached.dirty then
          ingestAtEnd cfg { writeInternal cfg cached.resetIndex.setFlatIndex st with
            request := none, cache := none } left.setFlatIndex
        else none
    | none => ingestAtEnd cfg st buffer

/-- `rewind`. -/
def rewind (st : DiskStream) : Option DiskStream :=
  let st := { st with eofFlag := false }
  match st.cache with
  | none =>
    let st := (List.range cfg.superpCnt).foldl (rewindOne cfg) { st with request := none }
    some { st with requestSuperp := none }
  | some buffer =>
    if st.request.isSome then none
    else if st.requestSuperp = none then
      some { st with
        cache := some { buffer.resetIndex with indexed := false }, requestSuperp := some 0 }
    else some st

/-- Appending buffers, one after the other. -/
def appendAll : List (MemoryBuffer Byte) → DiskStream → Option DiskStream
  | [], st => some st
  | buffer :: buffers, st => (append cfg st buffer).bind (appendAll buffers)

/-- Streaming super partitions, one after the other. -/
def drain (fuel : Nat) : List Nat → DiskStream → Option (List (List (List Byte)))
  | [], _ => some []
  | s :: ss, st => (doStream cfg s fuel st).bind fun done =>
      (drain fuel ss done.2).map (done.1 :: ·)

/-- A new stream that is appended to, rewound and read. -/
def roundTrip (fuel : Nat) (buffers : List (MemoryBuffer Byte)) :
    Option (List (List (List Byte))) :=
  (appendAll cfg buffers (opened fun _ => [])).bind fun st =>
    (rewind cfg st).bind (drain cfg fuel (List.range cfg.superpCnt))

/-- What the appended buffers hold for a super partition. -/
def appended (buffers : List (MemoryBuffer Byte)) (s : Nat) : List Byte :=
  buffers.flatMap fun buffer =>
    (List.range cfg.processors).flatMap fun p => buffer.getSubstream p s

end DiskStream

end MBFGraph
