import MBFGraph.Lib.Interleaving
import Mathlib.Logic.Function.Basic

/-!
# The barrier of the threads

`x_barrier` (`barrier.h:24-45`). Each thread calls `wait` again and again (`x-lib.hpp:378-388`); a step
of a thread is one access to the barrier, or the call. A count is never more than `expected`, an
`unsigned long`, so that no addition wraps around.
-/

namespace MBFGraph

/-- `x_barrier`. -/
structure Barrier where
  count : Nat → Nat
  sense : Nat
  expected : Nat

/-- The next statement of `wait`. -/
inductive WaitPc
  /-- Between two calls. -/
  | outside
  | readSense
  | fetchAndAdd (senseUsed : Nat)
  | reverseSense (senseUsed : Nat)
  | clearCount (senseUsed : Nat)
  | whileCount (senseUsed : Nat)
  deriving DecidableEq

/-- A thread, with how often it has called `wait` and how often it has returned from it. -/
structure Waiter where
  pc : WaitPc
  started : Nat
  returned : Nat
  deriving DecidableEq

/-- A step of `wait`, or the call. -/
def Waiter.step (b : Barrier) (w : Waiter) : Barrier × Waiter :=
  match w.pc with
  | .outside => (b, { w with pc := .readSense, started := w.started + 1 })
  | .readSense => (b, { w with pc := .fetchAndAdd b.sense })
  | .fetchAndAdd senseUsed =>
    let arrived := b.count senseUsed
    ({ b with count := Function.update b.count senseUsed (arrived + 1) },
      { w with pc := if arrived = b.expected - 1 then .reverseSense senseUsed
                     else .whileCount senseUsed })
  | .reverseSense senseUsed => ({ b with sense := 1 - senseUsed }, { w with pc := .clearCount senseUsed })
  | .clearCount senseUsed =>
    ({ b with count := Function.update b.count senseUsed 0 }, { w with pc := .whileCount senseUsed })
  | .whileCount senseUsed =>
    (b, if b.count senseUsed ≠ 0 then w else { w with pc := .outside, returned := w.returned + 1 })

/-- The barrier and the threads that share it. -/
structure BarrierState (threads : Nat) where
  barrier : Barrier
  waiters : Fin threads → Waiter

namespace BarrierState

variable {threads : Nat}

/-- A turn of a thread. -/
def step (s : BarrierState threads) (i : Fin threads) : BarrierState threads :=
  let (barrier, waiter) := (s.waiters i).step s.barrier
  { barrier, waiters := Function.update s.waiters i waiter }

/-- The barrier is constructed for the threads, and none has called `wait`. -/
def start (threads : Nat) : BarrierState threads where
  barrier := { count := fun _ => 0, sense := 0, expected := threads }
  waiters _ := { pc := .outside, started := 0, returned := 0 }

/-- No thread has returned from `wait` more often than any thread has called it, and where all threads are
inside `wait`, one of them can leave. -/
structure Safe (s : BarrierState threads) : Prop where
  notEarly : ∀ i j, (s.waiters i).returned ≤ (s.waiters j).started
  leaves : 0 < threads → (∀ i, (s.waiters i).pc ≠ .outside) →
    ∃ rest i, (s.waiters i).returned < ((Interleaving.run step s rest).waiters i).returned

end BarrierState

end MBFGraph
