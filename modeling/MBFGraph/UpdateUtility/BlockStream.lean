import Mathlib.Data.List.Basic
import Mathlib.Logic.Relation

/-!
# Streams of blocks

`BlockOutputStream` (`block_output_stream.hpp`) and `BlockInputStream` (`block_input_stream.hpp`) with the thread that
each of them starts. A stream has a `BlockPool` of its own, as those of `merge` have. A step is what a thread does
between two points where the other one can come in: a thread that tested a condition in front of `cv_.wait` has the
mutex until it sleeps.
-/

namespace MBFGraph

namespace BlockStream

variable {α : Type}

/-- The blocks of the pool, and how many records each has room for. -/
structure BlockPool where
  memblocks : Nat
  capacity : Nat
  memblocks_pos : 0 < memblocks
  capacity_pos : 0 < capacity

variable (params : BlockPool)

/-! ## Writing -/

/-- The next statement of the thread that calls `Push` for one record after the other and then `Close`. -/
inductive PushPc where
  | push
  | full
  | close
  | stop
  | notify
  | join
  | closed
  deriving DecidableEq, Repr

/-- The next statement of `OutputLoop`. Behind the test and in front of `cv_.wait` it has the mutex. -/
inductive OutputPc (α : Type) where
  | test
  | wait
  | asleep
  | write (block : List α)
  | quit
  deriving DecidableEq, Repr

/-- A `BlockOutputStream` at work: the records that are yet to be pushed, `block_`, `blocks_queue_`, `pool_`,
`stopped_` and the file. -/
structure OutputState (α : Type) where
  pc : PushPc
  loop : OutputPc α
  values : List α
  block : Option (List α)
  queue : List (List α)
  pool : Nat
  stopped : Bool
  file : List α

/-- `Open` was called. -/
def outputStart (values : List α) : OutputState α := ⟨.push, .test, values, none, [], params.memblocks, false, []⟩

/-- `cv_.notify_one()`: it is lost on a thread that is not asleep. -/
def OutputPc.notify : OutputPc α → OutputPc α
  | .asleep => .test
  | loop => loop

/-- A step of the thread that pushes. -/
inductive PushStep : OutputState α → OutputState α → Prop where
  | allocate {st : OutputState α} (pc : st.pc = .push) (more : st.values ≠ []) (null : st.block = none)
      (free : 0 < st.pool) : PushStep st { st with block := some [], pool := st.pool - 1 }
  | pushBack {st : OutputState α} {value : α} {values block : List α} (pc : st.pc = .push)
      (more : st.values = value :: values) (some_ : st.block = some block) :
      PushStep st { st with
        pc := if (block ++ [value]).length = params.capacity then .full else .push
        values
        block := some (block ++ [value]) }
  | pushBlock {st : OutputState α} {block : List α} (pc : st.pc = .full) (some_ : st.block = some block)
      (mutex : st.loop ≠ .wait) :
      PushStep st { st with
        pc := .push
        loop := st.loop.notify
        block := none
        queue := st.queue ++ [block] }
  | close {st : OutputState α} (pc : st.pc = .push) (ended : st.values = []) : PushStep st { st with pc := .close }
  | noBlock {st : OutputState α} (pc : st.pc = .close) (null : st.block = none) : PushStep st { st with pc := .stop }
  -- `Close` does not reset `block_`
  | lastBlock {st : OutputState α} {block : List α} (pc : st.pc = .close) (some_ : st.block = some block)
      (mutex : st.loop ≠ .wait) :
      PushStep st { st with pc := .stop, loop := st.loop.notify, queue := st.queue ++ [block] }
  -- neither of the next two statements takes the mutex
  | stop {st : OutputState α} (pc : st.pc = .stop) : PushStep st { st with pc := .notify, stopped := true }
  | notify {st : OutputState α} (pc : st.pc = .notify) : PushStep st { st with pc := .join, loop := st.loop.notify }
  | join {st : OutputState α} (pc : st.pc = .join) (quit : st.loop = .quit) : PushStep st { st with pc := .closed }

/-- A step of `OutputLoop`. -/
inductive OutputStep : OutputState α → OutputState α → Prop where
  | test {st : OutputState α} (loop : st.loop = .test) (empty : st.queue = []) (goesOn : st.stopped = false) :
      OutputStep st { st with loop := .wait }
  | wait {st : OutputState α} (loop : st.loop = .wait) : OutputStep st { st with loop := .asleep }
  | pop {st : OutputState α} {block : List α} {queue : List (List α)} (loop : st.loop = .test)
      (front : st.queue = block :: queue) : OutputStep st { st with loop := .write block, queue }
  | write {st : OutputState α} {block : List α} (loop : st.loop = .write block) :
      OutputStep st { st with loop := .test, pool := st.pool + 1, file := st.file ++ block }
  | quit {st : OutputState α} (loop : st.loop = .test) (empty : st.queue = []) (stopped : st.stopped = true) :
      OutputStep st { st with loop := .quit }

/-- A step of one of the two threads. -/
def WriteStep (st st' : OutputState α) : Prop := PushStep params st st' ∨ OutputStep st st'

/-- `wait` wakes up though nobody called `notify_one`. -/
inductive SpuriousWake : OutputState α → OutputState α → Prop where
  | wake {st : OutputState α} (loop : st.loop = .asleep) : SpuriousWake st { st with loop := .test }

/-- `Close` is about to notify a thread that saw `stopped_` unset and is not asleep yet. -/
def LosesNotify (st : OutputState α) : Prop := st.pc = .notify ∧ st.loop = .wait

/-- The steps but that no notification of `Close` is lost. -/
def CalmWriteStep (st st' : OutputState α) : Prop := PushStep params st st' ∧ ¬LosesNotify st ∨ OutputStep st st'

/-! ## Reading -/

/-- The next statement of the thread that reads: the call of `Empty`, `cv_.wait` in it, or `Front` and `Pop`. -/
inductive ReadPc where
  | empty
  | wait
  | asleep
  | front
  | ended
  deriving DecidableEq, Repr

/-- The next statement of `InputLoop`. -/
inductive InputPc (α : Type) where
  | test
  | allocate
  | read
  | free
  | push (block : List α)
  | finish
  | quit
  deriving DecidableEq, Repr

/-- A `BlockInputStream` at work: what the file has yet to deliver, whether a read came to its end, `pool_`,
`blocks_queue_`, `empty_`, `block_` from `block_iter_` on, and the records that were read. -/
structure InputState (α : Type) where
  pc : ReadPc
  loop : InputPc α
  file : List α
  eof : Bool
  pool : Nat
  queue : List (List α)
  empty : Bool
  block : Option (List α)
  values : List α

/-- `Open` was called. -/
def inputStart (file : List α) : InputState α := ⟨.empty, .test, file, false, params.memblocks, [], false, none, []⟩

/-- `cv_.notify_one()`. -/
def ReadPc.notify : ReadPc → ReadPc
  | .asleep => .empty
  | pc => pc

/-- A step of `InputLoop`. -/
inductive InputStep : InputState α → InputState α → Prop where
  | test {st : InputState α} (loop : st.loop = .test) (good : st.eof = false) :
      InputStep st { st with loop := .allocate }
  | allocate {st : InputState α} (loop : st.loop = .allocate) (free : 0 < st.pool) :
      InputStep st { st with loop := .read, pool := st.pool - 1 }
  | read {st : InputState α} (loop : st.loop = .read) :
      InputStep st { st with
        loop := if (st.file.take params.capacity).isEmpty then .free else .push (st.file.take params.capacity)
        file := st.file.drop params.capacity
        eof := decide (st.file.length < params.capacity) }
  | free {st : InputState α} (loop : st.loop = .free) : InputStep st { st with loop := .test, pool := st.pool + 1 }
  | push {st : InputState α} {block : List α} (loop : st.loop = .push block) (mutex : st.pc ≠ .wait) :
      InputStep st { st with pc := st.pc.notify, loop := .test, queue := st.queue ++ [block] }
  | pastEnd {st : InputState α} (loop : st.loop = .test) (bad : st.eof = true) :
      InputStep st { st with loop := .finish }
  | finish {st : InputState α} (loop : st.loop = .finish) (mutex : st.pc ≠ .wait) :
      InputStep st { st with pc := st.pc.notify, loop := .quit, empty := true }

/-- A step of the thread that reads. -/
inductive PopStep : InputState α → InputState α → Prop where
  | hasBlock {st : InputState α} (pc : st.pc = .empty) (some_ : st.block ≠ none) : PopStep st { st with pc := .front }
  | test {st : InputState α} (pc : st.pc = .empty) (null : st.block = none) (none_ : st.queue = [])
      (goesOn : st.empty = false) : PopStep st { st with pc := .wait }
  | wait {st : InputState α} (pc : st.pc = .wait) : PopStep st { st with pc := .asleep }
  | takeBlock {st : InputState α} {block : List α} {queue : List (List α)} (pc : st.pc = .empty)
      (null : st.block = none) (front : st.queue = block :: queue) :
      PopStep st { st with pc := .front, queue, block := some block }
  | isEmpty {st : InputState α} (pc : st.pc = .empty) (null : st.block = none) (none_ : st.queue = [])
      (empty : st.empty = true) : PopStep st { st with pc := .ended }
  | pop {st : InputState α} {value value' : α} {rest : List α} (pc : st.pc = .front)
      (some_ : st.block = some (value :: value' :: rest)) :
      PopStep st { st with pc := .empty, block := some (value' :: rest), values := st.values ++ [value] }
  | popBlock {st : InputState α} {value : α} (pc : st.pc = .front) (some_ : st.block = some [value]) :
      PopStep st { st with pc := .empty, block := none, pool := st.pool + 1, values := st.values ++ [value] }

/-- A step of one of the two threads. -/
def ReadStep (st st' : InputState α) : Prop := InputStep params st st' ∨ PopStep st st'

end BlockStream

end MBFGraph
