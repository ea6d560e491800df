import MBFGraph.Lib.FairRuns
import Mathlib.Data.Fintype.Basic
import Mathlib.Logic.Function.Basic

/-!
# The output buffer that the threads share

`work::operator()` with an output stream (`x-lib.hpp:154-160`, `230-296`, `330-357`), where the option
`force_buffers` is 0 and nothing is looped back: the threads append records to one buffer, and when it is full,
all of them meet to flush it. A step of a thread is one access to the shared data, one record of a `memcpy`, or an
arrival at a barrier. Of `make_index` only the calls of `wait` count here, which are 4 with the option `qsort`
and 3 otherwise, as a buffer from `get_buffer` has no index: the records stay in the buffer, in another order.
Positions count records.

The barrier releases a thread when all threads have arrived as often as it has.
-/

namespace MBFGraph

/-- The calls of `wait`: at the two ends of `flush_buffer`, in `make_index`, and in `final_flush`. The flag is
what `flush_buffer` returns. -/
inductive WaitAt
  | enter
  | index (i : Nat)
  | leave (empty : Bool)
  | last
  deriving DecidableEq

/-- The next statement of a thread. -/
inductive WorkPc
  /-- Between two calls of `append_buffer`. -/
  | next
  | whileBytes
  | compareAndSwap (offsetStart : Nat)
  | copy (offsetStart space copied : Nat)
  | arrive (place : WaitAt)
  | wait (place : WaitAt)
  | testBufsize
  | append
  | getBuffer
  /-- `final_flush` looks whether there is a `stream_out`: at its beginning, and when it has flushed a buffer. -/
  | finalFlush
  | done
  deriving DecidableEq

/-- A thread: the batches it will append, the rest of the batch at hand, whether it is in `final_flush`, and how
often it has arrived at a barrier. -/
structure OutThread (ρ : Type) where
  pc : WorkPc
  batches : List (List ρ)
  bytes : List ρ
  final : Bool
  arrivals : Nat

/-- The shared data: `stream_out` (which may be `NULL`) with its buffer, of which records that have not been
written are `none`, and what has been given to `disk_stream::append`. -/
structure OutWork (ρ : Type) (processors : Nat) where
  thread : Fin processors → OutThread ρ
  streamOut : Bool
  bufsize : Nat
  buffer : Nat → Option ρ
  appended : List (List (Option ρ))

namespace OutWork

/-- The calls of `wait` in `make_index`. -/
def indexWaits (useQsort : Bool) : Nat := if useQsort then 4 else 3

/-- `space` of `append_buffer`, in records. -/
def space (bufbytes itemSize offsetStart bytes : Nat) : Nat :=
  min (bufbytes - offsetStart * itemSize) (bytes * itemSize) / itemSize

section

variable {ρ : Type} {processors : Nat} (bufbytes itemSize : Nat) (useQsort : Bool)

/-- A thread goes on. -/
def goOn (w : OutWork ρ processors) (i : Fin processors) (t : OutThread ρ) : OutWork ρ processors :=
  { w with thread := Function.update w.thread i t }

/-- Where a thread goes on behind a barrier. -/
def behind (i : Fin processors) (final : Bool) : WaitAt → WorkPc
  | .enter => .testBufsize
  | .index j =>
    if j + 1 < indexWaits useQsort then .arrive (.index (j + 1))
    else if i.val = 0 then .append
    else .arrive (.leave false)
  | .leave empty =>
    if final then (if empty then .arrive .last else .finalFlush) else .whileBytes
  | .last => .done

/-- A step of a thread. What `append_buffer` subtracts from `bytes` behind the flush is subtracted in front of it,
as no other thread looks at it. -/
def step (w : OutWork ρ processors) (i : Fin processors) : OutWork ρ processors :=
  let t := w.thread i
  match t.pc with
  | .next =>
    match t.batches with
    | [] => w.goOn i { t with pc := if w.streamOut then .finalFlush else .done, final := true }
    | batch :: batches =>
      if w.streamOut then w.goOn i { t with pc := .whileBytes, batches, bytes := batch }
      else w.goOn i { t with batches }
  | .whileBytes =>
    if t.bytes = [] then w.goOn i { t with pc := .next }
    else w.goOn i { t with pc := .compareAndSwap w.bufsize }
  | .compareAndSwap offsetStart =>
    let space := space bufbytes itemSize offsetStart t.bytes.length
    if w.bufsize = offsetStart then
      { w.goOn i { t with pc := .copy offsetStart space 0 } with bufsize := offsetStart + space }
    else w.goOn i { t with pc := .whileBytes }
  | .copy offsetStart space copied =>
    if copied < space then
      { w.goOn i { t with pc := .copy offsetStart space (copied + 1) } with
        buffer := Function.update w.buffer (offsetStart + copied) t.bytes[copied]? }
    else
      w.goOn i { t with
        pc := if space ≠ t.bytes.length then .arrive .enter else .whileBytes
        bytes := t.bytes.drop space }
  | .arrive place => w.goOn i { t with pc := .wait place, arrivals := t.arrivals + 1 }
  | .wait place =>
    if ∀ j, t.arrivals ≤ (w.thread j).arrivals then
      w.goOn i { t with pc := behind useQsort i t.final place }
    else w
  | .testBufsize =>
    w.goOn i { t with pc := .arrive (if 0 < w.bufsize then .index 0 else .leave true) }
  | .append =>
    { w.goOn i { t with pc := .getBuffer } with
      streamOut := false
      appended := w.appended ++ [(List.range w.bufsize).map w.buffer] }
  | .getBuffer =>
    { w.goOn i { t with pc := .arrive (.leave false) } with
      streamOut := true
      bufsize := 0
      buffer := fun _ => none }
  | .finalFlush => w.goOn i { t with pc := .arrive (if w.streamOut then .enter else .last) }
  | .done => w

/-- The threads start to work off their input, with an empty buffer. -/
def start (batches : Fin processors → List (List ρ)) : OutWork ρ processors where
  thread i := { pc := .next, batches := batches i, bytes := [], final := false, arrivals := 0 }
  streamOut := true
  bufsize := 0
  buffer _ := none
  appended := []

/-- The statement looks into the buffer that `stream_out` points to. -/
def Dereferences : WorkPc → Prop
  | .whileBytes | .compareAndSwap _ | .copy _ _ _ | .testBufsize | .append => True
  | _ => False

/-- No thread looks at a `stream_out` that is `NULL`, none writes behind the end of the buffer, and no two of them
copy to the same place. -/
structure Safe (w : OutWork ρ processors) : Prop where
  notNull : ∀ i, Dereferences (w.thread i).pc → w.streamOut = true
  inside : ∀ i offsetStart space copied, (w.thread i).pc = .copy offsetStart space copied →
    (offsetStart + space) * itemSize ≤ bufbytes
  apart : ∀ i j, i ≠ j → ∀ offset space copied offset' space' copied',
    (w.thread i).pc = .copy offset space copied → (w.thread j).pc = .copy offset' space' copied' →
    offset + space ≤ offset' ∨ offset' + space' ≤ offset

/-- All threads have returned. -/
def Finished (w : OutWork ρ processors) : Prop := ∀ i, (w.thread i).pc = .done

/-- Every record has been appended once, in buffers that hold a record and not more than fit, and no barrier was
missed by a thread. -/
structure Appended (batches : Fin processors → List (List ρ)) (w : OutWork ρ processors) : Prop where
  perm : w.appended.flatten.Perm ((List.ofFn batches).flatten.flatten.map some)
  nonempty : ∀ buffer ∈ w.appended, buffer ≠ []
  fits : ∀ buffer ∈ w.appended, buffer.length * itemSize ≤ bufbytes
  barriers : ∀ i j, (w.thread i).arrivals = (w.thread j).arrivals

end

end OutWork

end MBFGraph
