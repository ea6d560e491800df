import Mathlib.Data.Fintype.Basic
import Mathlib.Logic.Function.Basic

/-!
# The pool of memory buffers

`buffer_manager` (`split_stream.hpp:282-315`) with what streams, worker threads and the two drivers
do with reference counts (`split_stream.hpp:581-819`, `x-lib.hpp:190-250`, `612-704`). What is on disk is
left open: what `eof`, `disk_empty` and the like return is an argument. A buffer is a number below
`maxBuffers`.
-/

namespace MBFGraph

/-- `max_buffers` of both drivers. -/
def maxBuffers : Nat := 4

/-- `memory_buffer`. -/
structure PoolBuffer where
  refcount : Nat
  uptodate : Bool
  dirty : Bool
  bufsize : Nat

/-- `disk_stream`. `requestSuperp = none` is `-1UL`. -/
structure PoolStream where
  superpCnt : Nat
  eofFlag : Bool
  requestSuperp : Option Nat
  writeOp : Bool
  request : Option Nat
  cache : Option Nat

/-- How a run is aborted. -/
inductive PoolError
  /-- Out of memory buffers. -/
  | outOfBuffers
  /-- A reference count below 0. -/
  | negative
  /-- The assertions of `set_refcount`. -/
  | busy
  | dirty
  /-- A buffer that somebody refers to is freed. -/
  | held
  /-- An assertion about a stream. -/
  | assertion
  deriving DecidableEq

/-- The buffers, the streams, and `stream_in` and `stream_out` of the work item. -/
structure BufferPool (ι : Type) where
  buffers : Nat → PoolBuffer
  streams : ι → PoolStream
  input : Option Nat
  output : Option Nat

namespace BufferPool

variable {ι : Type} [Fintype ι] [DecidableEq ι] (p : BufferPool ι)

/-- A stream or a worker refers to a buffer. -/
def Refers (b : Nat) : Prop :=
  (∃ d, (p.streams d).request = some b ∨ (p.streams d).cache = some b) ∨ p.input = some b ∨
    p.output = some b

instance (b : Nat) : Decidable (p.Refers b) := inferInstanceAs (Decidable (_ ∨ _))

def setBuffer (b : Nat) (buffer : PoolBuffer) : BufferPool ι :=
  { p with buffers := Function.update p.buffers b buffer }

def setStream (d : ι) (stream : PoolStream) : BufferPool ι :=
  { p with streams := Function.update p.streams d stream }

/-- `get_buffer`. -/
def getBuffer : Except PoolError (Nat × BufferPool ι) :=
  match (List.range maxBuffers).find? fun b => decide ((p.buffers b).refcount = 0) with
  | some b => .ok (b, p.setBuffer b { p.buffers b with refcount := 1, bufsize := 0 })
  | none => .error .outOfBuffers

/-- `set_refcount(get_refcount() + 1)`. -/
def incref (b : Nat) : BufferPool ι :=
  p.setBuffer b { p.buffers b with refcount := (p.buffers b).refcount + 1 }

/-- `set_refcount(get_refcount() - 1)`. Where a pointer is set to NULL behind it, here this is done
first. -/
def decref (b : Nat) : Except PoolError (BufferPool ι) :=
  let freed := p.setBuffer b { p.buffers b with refcount := (p.buffers b).refcount - 1 }
  if (p.buffers b).refcount = 0 then .error .negative
  else if 1 < (p.buffers b).refcount then .ok freed
  else if (p.buffers b).uptodate = false then .error .busy
  else if (p.buffers b).dirty = true then .error .dirty
  else if p.Refers b then .error .held
  else .ok freed

/-- A request is given to the I/O thread. -/
def addWork (d : ι) (b : Nat) (writeOp : Bool) : BufferPool ι :=
  (p.setBuffer b { p.buffers b with uptodate := false }).setStream d
    { p.streams d with request := some b, writeOp }

/-- `request->wait_uptodate()`, when the I/O thread carries the request out. -/
def waitUptodate (d : ι) : BufferPool ι :=
  match (p.streams d).request with
  | some b =>
    if (p.buffers b).uptodate then p
    else p.setBuffer b { p.buffers b with
      uptodate := true, dirty := (p.buffers b).dirty && !(p.streams d).writeOp }
  | none => p

/-- A request that there may be is waited for, and its buffer is given up. -/
def releaseRequest (d : ι) : Except PoolError (BufferPool ι) :=
  match (p.streams d).request with
  | some b => ((p.waitUptodate d).setStream d { p.streams d with request := none }).decref b
  | none => .ok p

/-- `stream_eof`. -/
def streamEof (d : ι) (superp : Nat) (eof : Bool) : Bool :=
  if (p.streams d).cache.isSome then (p.streams d).eofFlag
  else if (p.streams d).request.isSome ∧ (p.streams d).requestSuperp = some superp then false
  else eof

/-- The first half of `read`: a request, unless there is one for this super partition. -/
def readRequest (d : ι) (superp : Nat) : Except PoolError (BufferPool ι) :=
  if (p.streams d).request = none ∨ (p.streams d).requestSuperp ≠ some superp then
    (p.releaseRequest d).bind fun p =>
      p.getBuffer.map fun (b, p) =>
        (p.setStream d { p.streams d with requestSuperp := some superp }).addWork d b false
  else .ok p

/-- The second half: `first` is what the test for the cache finds, but for the number of super
partitions. -/
def readAhead (d : ι) (result : Nat) (eof first : Bool) : Except PoolError (BufferPool ι) :=
  let stream := p.streams d
  if eof = false then
    p.getBuffer.map fun (b, p) => p.addWork d b false
  else if stream.superpCnt = 1 ∧ first then
    .ok ((p.setStream d { stream with cache := some result, eofFlag := true }).incref result)
  else .ok p

/-- `read`, where the work item gets the result. The request is NULL until there is another one. -/
def read (d : ι) (superp : Nat) (eof first : Bool) : Except PoolError (BufferPool ι) :=
  match (p.streams d).cache with
  | some b =>
    if (p.streams d).requestSuperp = none then .error .assertion
    else
      let p := (p.setStream d { p.streams d with eofFlag := true }).incref b
      .ok { p with input := some b }
  | none =>
    (p.readRequest d superp).bind fun p =>
      let p := p.waitUptodate d
      match (p.streams d).request with
      | some result =>
        let p := p.setStream d { p.streams d with request := none }
        ({ p with input := some result }).readAhead d result eof first
      | none => .error .assertion

/-- The cached block is written and given up. -/
def writeCache (d : ι) (b : Nat) : Except PoolError (BufferPool ι) :=
  let p := (p.addWork d b true).waitUptodate d
  (p.setStream d { p.streams d with request := none, cache := none }).decref b

/-- `append`. -/
def append (d : ι) (b : Nat) (diskEmpty : Bool) : Except PoolError (BufferPool ι) :=
  if (p.buffers b).bufsize = 0 then p.decref b
  else
    let p := (p.setBuffer b { p.buffers b with dirty := true }).waitUptodate d
    let stream := p.streams d
    if diskEmpty = true ∧ stream.cache = none ∧ stream.superpCnt = 1 then
      if stream.request.isSome then .error .assertion
      else .ok (p.setStream d { stream with cache := some b })
    else
      let given := match stream.cache with
        | some cached => p.writeCache d cached
        | none => p.releaseRequest d
      given.map fun p => p.addWork d b true

/-- `rewind`. -/
def rewind (d : ι) (dropCache : Bool) : Except PoolError (BufferPool ι) :=
  let stream := { p.streams d with eofFlag := false }
  match stream.cache with
  | none =>
    ((p.setStream d stream).releaseRequest d).map fun p =>
      p.setStream d { p.streams d with requestSuperp := none }
  | some cached =>
    if stream.request.isSome then .error .assertion
    else if dropCache then
      (p.setStream d { stream with cache := none, requestSuperp := none }).decref cached
    else
      -- a stream in append mode is read from its cache from now on
      .ok (p.setStream d { stream with requestSuperp := some (stream.requestSuperp.getD 0) })

/-- `reset`, and `restart`, which does the same to the buffers. -/
def reset (d : ι) : Except PoolError (BufferPool ι) :=
  let stream := { p.streams d with requestSuperp := none, eofFlag := false }
  match stream.cache with
  | some cached =>
    (((p.setBuffer cached { p.buffers cached with dirty := false }).setStream d
      { stream with cache := none }).decref cached).bind fun p =>
        if stream.request.isSome then .error .assertion else .ok p
  | none => (p.setStream d stream).releaseRequest d

/-- `stream_out = get_buffer()`. -/
def setupStreamOut : Except PoolError (BufferPool ι) :=
  p.getBuffer.map fun (b, p) => { p with output := some b }

/-- `flush_buffer` with `force_buffers` 0: `several` says whether there is more than one super
partition. -/
def flushBuffer (d : ι) (loopback several diskEmpty : Bool) : Except PoolError (BufferPool ι) :=
  match p.output with
  | none => .ok p
  | some b =>
    if (p.buffers b).bufsize = 0 then .ok p
    else
      let p := { p with output := none }
      let flushed :=
        if loopback then
          (if several then (p.incref b).append d b diskEmpty else .ok p).bind fun p =>
            p.getBuffer.bind fun (temp, p) =>
              ({ p with output := some temp }.decref b).bind fun p => { p with output := none }.decref temp
        else p.append d b diskEmpty
      flushed.bind setupStreamOut

/-- The end of a work item, when the last `flush_buffer` has found its buffer empty. -/
def finishWork : Except PoolError (BufferPool ι) :=
  let released := match p.output with
    | some b => { p with output := none }.decref b
    | none => .ok p
  released.bind fun p =>
    match p.input with
    | some b => { p with input := none }.decref b
    | none => .ok p

end BufferPool

/-! ## The drivers -/

/-- The streams of the drivers; `init` is the input of `async_scatter_gather` if there are several
super partitions. `vertices` has a buffer of its own. -/
inductive StreamName
  | edges | bloom | updates0 | updates1 | init
  deriving DecidableEq

instance : Fintype StreamName where
  elems := {.edges, .bloom, .updates0, .updates1, .init}
  complete d := by cases d <;> decide

/-- The calls of `do_stream` and `do_meta_stream`. -/
inductive PoolPhase
  | edgeSplit | gather | bfChecking | scatter
  deriving DecidableEq

/-- One of the two drivers. -/
structure PoolDriver where
  async : Bool
  superPartitions : Nat

/-- A driver in the loop of `do_stream` for a super partition, or in the work item of this loop.
`swapped` is `PHASE`. -/
structure PoolRun where
  pool : BufferPool StreamName
  phase : PoolPhase
  superp : Nat
  swapped : Bool
  working : Bool

/-- What happens next. The arguments are what the files, the updates and the filters decide. -/
inductive PoolAction
  /-- `stream_eof` is false: `read` and `SETUP_STREAMOUT`. -/
  | read (eof eofAhead first : Bool)
  /-- Records are appended to `stream_out`. -/
  | fill (bytes : Nat)
  /-- `flush_buffer`. -/
  | flush (diskEmpty : Bool)
  /-- The work item ends. -/
  | finish
  /-- `stream_eof` is true: the loop ends, and the filters are looked at next, or not. -/
  | leave (eof check : Bool)

namespace PoolRun

variable (c : PoolDriver) (r : PoolRun)

def updatesIn : StreamName := if r.swapped then .updates0 else .updates1

def updatesOut : StreamName := if r.swapped then .updates1 else .updates0

/-- `stream_in`, and the super partition of which it is read. -/
def streamIn : StreamName :=
  match r.phase with
  | .edgeSplit => .init
  | .gather => r.updatesIn
  | .bfChecking => .bloom
  | .scatter => .edges

/-- `stream_out`, unless it is ULONG_MAX. -/
def streamOut : Option StreamName :=
  match r.phase with
  | .edgeSplit => some .edges
  | .gather | .bfChecking => none
  | .scatter => some r.updatesOut

/-- `stream_eof` of the stream that is read. -/
def atEof (eof : Bool) : Bool := r.pool.streamEof r.streamIn r.superp eof

/-- The body of the loop of `do_stream`, until the work item is there. -/
def read (eofAhead first : Bool) : Except PoolError PoolRun :=
  (r.pool.read r.streamIn r.superp eofAhead first).bind fun pool =>
    (if r.streamOut.isSome then pool.setupStreamOut else .ok pool).map fun pool =>
      { r with pool, working := true }

/-- `append_buffer` or `final_flush` calls `flush_buffer`. -/
def flush (diskEmpty : Bool) : Except PoolError PoolRun :=
  match r.streamOut with
  | some d =>
    let loopback := c.async && decide (r.phase = .scatter)
    (r.pool.flushBuffer d loopback (decide (1 < c.superPartitions)) diskEmpty).map fun pool =>
      { r with pool }
  | none => .ok r

/-- The next superstep. -/
def superstep (pool : BufferPool StreamName) (swapped : Bool) : Except PoolError PoolRun :=
  (pool.rewind .edges false).map fun pool =>
    { pool, phase := .gather, superp := 0, swapped, working := false }

/-- What the driver does behind the loop. -/
def leave (check : Bool) : Except PoolError PoolRun :=
  match r.phase with
  | .edgeSplit => (r.pool.rewind .init true).bind fun pool => superstep pool r.swapped
  | .gather =>
    (r.pool.reset r.updatesIn).map fun pool =>
      { r with pool, phase := if check && !c.async then .bfChecking else .scatter }
  | .bfChecking => (r.pool.reset .bloom).map fun pool => { r with pool, phase := .scatter }
  | .scatter =>
    if r.superp + 1 < c.superPartitions then
      .ok { r with phase := .gather, superp := r.superp + 1 }
    else (r.pool.rewind r.updatesOut false).bind fun pool => superstep pool !r.swapped

/-- The work item may end: `flush_buffer` would find its buffer empty. -/
def flushed : Bool :=
  match r.pool.output with
  | some b => decide ((r.pool.buffers b).bufsize = 0)
  | none => true

/-- A step of the driver. What is not possible changes nothing. -/
def step (r : PoolRun) : PoolAction → Except PoolError PoolRun
  | .read eof eofAhead first =>
    if !r.working && !r.atEof eof then PoolRun.read r eofAhead first else .ok r
  | .fill bytes =>
    match r.pool.output with
    | some b =>
      let buffer := r.pool.buffers b
      .ok { r with pool := r.pool.setBuffer b { buffer with bufsize := buffer.bufsize + bytes } }
    | none => .ok r
  | .flush diskEmpty => if r.working then r.flush c diskEmpty else .ok r
  | .finish =>
    if r.working && r.flushed then r.pool.finishWork.map fun pool => { r with pool, working := false }
    else .ok r
  | .leave eof check => if !r.working && r.atEof eof then r.leave c check else .ok r

/-- All buffers are free and the streams are opened: `init` is one file. -/
def start : PoolRun where
  pool :=
    { buffers := fun _ => ⟨0, true, false, 0⟩
      streams := fun d =>
        { superpCnt := if d = .init then 1 else c.superPartitions
          eofFlag := false
          requestSuperp := none
          writeOp := false
          request := none
          cache := none }
      input := none
      output := none }
  phase := if c.async && decide (1 < c.superPartitions) then .edgeSplit else .gather
  superp := 0
  swapped := false
  working := false

/-- A run of the driver up to some step. -/
def runFrom (r : PoolRun) : List PoolAction → Except PoolError PoolRun
  | [] => .ok r
  | action :: actions => (r.step c action).bind fun r => runFrom r actions

end PoolRun

end MBFGraph
