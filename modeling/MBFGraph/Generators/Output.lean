import MBFGraph.Lib.Interleaving
import Mathlib.Logic.Function.Basic

/-!
# The output of the generators

The worker threads of a generator fill buffers with edges, an I/O thread writes the buffers to a
file and gives them back, and the main thread joins the workers and then stops the I/O thread
(`output.cpp`, `random.cpp:154-159`). A step is one operation on a queue or on `m_stop`, with what
its thread does to its own data. The unit of the file and of a buffer is one `edge_struct`.
-/

namespace MBFGraph

variable {E : Type}

/-- `edge_buffer`, whose `m_size` is that of all buffers. -/
structure EdgeBuffer (E : Type) where
  data : Nat → E
  pos : Nat
  owner : Nat

namespace EdgeBuffer

/-- `m_data[m_pos++] = edge`. -/
def push (b : EdgeBuffer E) (edge : E) : EdgeBuffer E :=
  { b with data := Function.update b.data b.pos edge, pos := b.pos + 1 }

/-- The edges that have been put into a buffer. -/
def edges (b : EdgeBuffer E) : List E := (List.range b.pos).map b.data

/-- What `flush_buffer` writes: all of the buffer. -/
def flushBuffer (size : Nat) (b : EdgeBuffer E) : List E := (List.range size).map b.data

/-- `save_for_later`: what is written, and the remainder. -/
def saveForLater (size : Nat) (remainder b : EdgeBuffer E) : List E × EdgeBuffer E :=
  let avail := size - remainder.pos
  let n := if avail < b.pos then avail else b.pos
  let filled := (b.edges.take n).foldl push remainder
  let flushed :=
    if filled.pos = size then (filled.flushBuffer size, { filled with pos := 0 }) else ([], filled)
  (flushed.1, (b.edges.drop n).foldl push flushed.2)

end EdgeBuffer

/-- `ftruncate`, which fills up with zeros. -/
def ftruncate (zero : E) (file : List E) (size : Nat) : List E :=
  file.take size ++ List.replicate (size - file.length) zero

/-- What is fixed for a run: worker `i` generates `edges i`. -/
structure Generator (E : Type) where
  nthreads : Nat
  buffersPerThread : Nat
  size : Nat
  edges : Nat → List E
  zero : E

namespace Generator

/-- All edges. -/
def allEdges (g : Generator E) : List E := (List.range g.nthreads).flatMap g.edges

/-- `nedges`. -/
def nedges (g : Generator E) : Nat := g.allEdges.length

/-- What a worker does next. -/
inductive WorkerPc (E : Type)
  /-- A call of `edge_struct`, or of `flush` when there are no more edges. -/
  | call
  /-- `m_pflushq->enqueue(pbuffer)`. -/
  | enqueue (pbuffer : EdgeBuffer E)
  /-- `m_queue.front()`. -/
  | front
  | returned
  /-- An assertion has failed. -/
  | failed

/-- A worker: the edges that it has yet to generate, and `m_queue` of its `thread_buffer`. -/
structure Worker (E : Type) where
  pc : WorkerPc E
  todo : List E
  queue : List (EdgeBuffer E)

/-- What the I/O thread does next. -/
inductive IoPc (E : Type)
  | dequeue
  /-- `m_cond.wait` in `dequeue`, before and after a notification. -/
  | waiting
  | notified
  /-- `flush_buffer` or `save_for_later`. -/
  | save (pbuffer : EdgeBuffer E)
  /-- The buffer goes back to its owner. -/
  | recycle (pbuffer : EdgeBuffer E)
  | tryDequeue
  | ifStop
  /-- Behind the loop. -/
  | flushRemainder
  | closed

/-- `io_thread_func`. -/
structure IoThread (E : Type) where
  pc : IoPc E
  remainder : EdgeBuffer E
  file : List E

/-- What the main thread does next. -/
inductive MainPc
  | join (i : Nat)
  | setStop
  | signal
  | joinIo

/-- The threads with `m_pflushq` and `m_stop`. -/
structure State (E : Type) where
  workers : Nat → Worker E
  flushq : List (EdgeBuffer E)
  io : IoThread E
  main : MainPc
  stop : Bool

/-- The thread whose turn it is. -/
inductive Thread
  | worker (i : Nat) | io | main

variable (g : Generator E)

/-- A step of a worker, and the buffer that it enqueues. A thread that waits stays where it is. -/
def Worker.step (w : Worker E) : Worker E × Option (EdgeBuffer E) :=
  match w.pc with
  | .call =>
    match w.queue, w.todo with
    | [], _ => ({ w with pc := .failed }, none)
    | pbuffer :: queue, edge :: todo =>
      if pbuffer.pos = g.size then ({ w with pc := .enqueue pbuffer, queue }, none)
      else ({ w with todo, queue := pbuffer.push edge :: queue }, none)
    | pbuffer :: queue, [] => ({ w with pc := .enqueue pbuffer, queue }, none)
  | .enqueue pbuffer => ({ w with pc := .front }, some pbuffer)
  | .front =>
    match w.queue, w.todo with
    | [], _ => (w, none)
    | pbuffer :: queue, edge :: todo =>
      ({ pc := .call, todo, queue := pbuffer.push edge :: queue }, none)
    | _ :: _, [] => ({ w with pc := .returned }, none)
  | .returned | .failed => (w, none)

/-- `notify_one`. -/
def IoThread.notify (t : IoThread E) : IoThread E :=
  match t.pc with
  | .waiting => { t with pc := .notified }
  | _ => t

/-- `flush_buffer` if the buffer is full, or `save_for_later`. -/
def IoThread.save (t : IoThread E) (pbuffer : EdgeBuffer E) : IoThread E :=
  if pbuffer.pos = g.size then { t with file := t.file ++ pbuffer.flushBuffer g.size }
  else
    let saved := t.remainder.saveForLater g.size pbuffer
    { t with file := t.file ++ saved.1, remainder := saved.2 }

/-- The end of the I/O thread. -/
def IoThread.flushRemainder (t : IoThread E) : IoThread E :=
  if 0 < t.remainder.pos then
    { t with
      file := ftruncate g.zero (t.file ++ t.remainder.flushBuffer g.size) g.nedges
      remainder := { t.remainder with pos := 0 } }
  else t

namespace State

/-- `m_pflushq->enqueue`. -/
def enqueue (s : State E) (pbuffer : EdgeBuffer E) : State E :=
  { s with flushq := s.flushq ++ [pbuffer], io := s.io.notify }

/-- The I/O thread takes a buffer out of the queue, or goes on at `empty`. -/
def take (s : State E) (empty : IoPc E) : State E :=
  match s.flushq with
  | [] => { s with io := { s.io with pc := empty } }
  | pbuffer :: flushq => { s with flushq, io := { s.io with pc := .save pbuffer } }

/-- `get_buffer(pbuffer->m_owner)->get_queue()->enqueue(pbuffer)`. -/
def recycle (s : State E) (pbuffer : EdgeBuffer E) : State E :=
  let w := s.workers pbuffer.owner
  { s with workers := Function.update s.workers pbuffer.owner { w with queue := w.queue ++ [pbuffer] } }

/-- A step of a worker. -/
def workerStep (s : State E) (i : Nat) : State E :=
  let done := (s.workers i).step g
  let s' := { s with workers := Function.update s.workers i done.1 }
  match done.2 with
  | some pbuffer => s'.enqueue pbuffer
  | none => s'

/-- A step of the I/O thread. -/
def ioStep (s : State E) : State E :=
  match s.io.pc with
  | .dequeue => s.take .waiting
  | .waiting => s
  | .notified => s.take .ifStop
  | .save pbuffer =>
    { s with io := { s.io.save g pbuffer with pc := .recycle { pbuffer with pos := 0 } } }
  | .recycle pbuffer =>
    let s' := s.recycle pbuffer
    { s' with io := { s'.io with pc := .tryDequeue } }
  | .tryDequeue => s.take .ifStop
  | .ifStop => { s with io := { s.io with pc := if s.stop then .flushRemainder else .dequeue } }
  | .flushRemainder => { s with io := { s.io.flushRemainder g with pc := .closed } }
  | .closed => s

/-- A step of the main thread. -/
def mainStep (s : State E) : State E :=
  match s.main with
  | .join i =>
    if i < g.nthreads then
      match (s.workers i).pc with
      | .returned => { s with main := .join (i + 1) }
      | _ => s
    else { s with main := .setStop }
  | .setStop => { s with main := .signal, stop := true }
  | .signal => { s with main := .joinIo, io := s.io.notify }
  | .joinIo => s

/-- A turn of one of the threads. -/
def step (s : State E) : Thread → State E
  | .worker i => if i < g.nthreads then s.workerStep g i else s
  | .io => s.ioStep g
  | .main => s.mainStep g

/-- The workers are registered and started; what is in the buffers does not matter. -/
def start (old : Nat → Nat → Nat → E) (oldRemainder : Nat → E) : State E where
  workers i :=
    { pc := .call
      todo := g.edges i
      queue := (List.range g.buffersPerThread).map fun j => ⟨old i j, 0, i⟩ }
  flushq := []
  io := { pc := .dequeue, remainder := ⟨oldRemainder, 0, 0⟩, file := [] }
  main := .join 0
  stop := false

end State

end Generator

end MBFGraph
