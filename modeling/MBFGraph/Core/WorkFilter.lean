import MBFGraph.Lib.Interleaving
import Mathlib.Data.Fintype.Basic

/-!
# The filter of partitions that have work

`filter` (`x-splitter.hpp:37-100`): the processors put the ids of partitions into one stack for each
processor, and take them out again. Barriers separate the phases of a round, in which the processors only
call `q`, only `prep_dq`, only `dq` (`x-lib.hpp:333-353`) or only `done`. A step of a processor is one access
to the filter, or the call. A pointer to `work_items[i]` is `some i`.
-/

namespace MBFGraph

/-- `class filter`. -/
structure Filter (items : Nat) where
  next : Fin items → Option (Fin items)
  workQ : Nat → Option (Fin items)
  workQVisible : Nat → Option (Fin items)

variable {items processors : Nat}

/-- The constructor. -/
def Filter.new (items : Nat) : Filter items where
  next i := some i
  workQ _ := none
  workQVisible _ := none

/-- The queue of an id: `id & (num_queues - 1)`. -/
def queueOf (numQueues : Nat) (id : Fin items) : Nat := id.val &&& (numQueues - 1)

/-! ## Calls of q -/

/-- The next statement of `q`. -/
inductive QPc (items : Nat)
  /-- Between two calls. -/
  | outside
  | casSelf (id : Fin items)
  | readWorkQ (id : Fin items)
  | writeNext (id : Fin items) (head : Option (Fin items))
  | readNext (id : Fin items)
  | casWorkQ (id : Fin items) (prev : Option (Fin items))
  deriving DecidableEq

/-- A step of `q`; a processor between two calls calls it with `arg`. -/
def QPc.step (numQueues : Nat) (f : Filter items) (arg : Fin items) :
    QPc items → Filter items × QPc items
  | .outside => (f, .casSelf arg)
  | .casSelf id =>
    if f.next id = some id then ({ f with next := Function.update f.next id none }, .readWorkQ id)
    else (f, .outside)
  | .readWorkQ id => (f, .writeNext id (f.workQ (queueOf numQueues id)))
  | .writeNext id head => ({ f with next := Function.update f.next id head }, .readNext id)
  | .readNext id => (f, .casWorkQ id (f.next id))
  | .casWorkQ id prev =>
    let q := queueOf numQueues id
    if f.workQ q = prev then ({ f with workQ := Function.update f.workQ q (some id) }, .outside)
    else (f, .readWorkQ id)

/-- The phase of the calls of `q`, with the ids they were called with. -/
structure Queueing (items processors : Nat) where
  filter : Filter items
  pc : Fin processors → QPc items
  called : List (Fin items)

namespace Queueing

def start (f : Filter items) : Queueing items processors :=
  { filter := f, pc := fun _ => .outside, called := [] }

/-- A turn of a processor, which calls `q` for the id if it is not in a call. -/
def step (s : Queueing items processors) (turn : Fin processors × Fin items) :
    Queueing items processors :=
  let (f, pc) := (s.pc turn.1).step processors s.filter turn.2
  { filter := f
    pc := Function.update s.pc turn.1 pc
    called := if s.pc turn.1 = .outside then turn.2 :: s.called else s.called }

/-- The processors meet at the barrier. -/
def Over (s : Queueing items processors) : Prop := ∀ p, s.pc p = .outside

instance (s : Queueing items processors) : Decidable s.Over :=
  inferInstanceAs (Decidable (∀ p, s.pc p = .outside))

end Queueing

/-! ## Calls of prep_dq -/

/-- The next statement of `prep_dq`. -/
inductive PrepPc (items : Nat)
  | readWorkQ
  | writeVisible (head : Option (Fin items))
  | returned
  deriving DecidableEq

def PrepPc.step (f : Filter items) (qid : Nat) : PrepPc items → Filter items × PrepPc items
  | .readWorkQ => (f, .writeVisible (f.workQ qid))
  | .writeVisible head =>
    ({ f with workQVisible := Function.update f.workQVisible qid head }, .returned)
  | .returned => (f, .returned)

/-- The phase in which each processor calls `prep_dq`. -/
structure Preparing (items processors : Nat) where
  filter : Filter items
  pc : Fin processors → PrepPc items

namespace Preparing

def start (f : Filter items) : Preparing items processors :=
  { filter := f, pc := fun _ => .readWorkQ }

def step (s : Preparing items processors) (p : Fin processors) : Preparing items processors :=
  let (f, pc) := (s.pc p).step s.filter p
  { filter := f, pc := Function.update s.pc p pc }

def Over (s : Preparing items processors) : Prop := ∀ p, s.pc p = .returned

instance (s : Preparing items processors) : Decidable s.Over :=
  inferInstanceAs (Decidable (∀ p, s.pc p = .returned))

end Preparing

/-! ## Calls of dq -/

/-- The next statement of `dq`. -/
inductive DqPc (items : Nat)
  /-- Between two calls. -/
  | outside
  | readVisible (toStealFrom : Nat)
  | readNext (toStealFrom : Nat) (avail : Fin items)
  | casVisible (toStealFrom : Nat) (avail : Fin items) (next : Option (Fin items))
  /-- A call has returned `ULONG_MAX`. -/
  | noWork
  deriving DecidableEq

/-- A step of `dq` on a processor, which goes on calling it until it returns `ULONG_MAX`; with the id that the
call returns. -/
def DqPc.step (numQueues qid : Nat) (f : Filter items) :
    DqPc items → Filter items × DqPc items × Option (Fin items)
  | .outside => (f, .readVisible qid, none)
  | .readVisible toStealFrom =>
    match f.workQVisible toStealFrom with
    | some avail => (f, .readNext toStealFrom avail, none)
    | none =>
      let toStealFrom := toStealFrom + 1
      let toStealFrom := if toStealFrom = numQueues then 0 else toStealFrom
      (f, if toStealFrom ≠ qid then .readVisible toStealFrom else .noWork, none)
  | .readNext toStealFrom avail => (f, .casVisible toStealFrom avail (f.next avail), none)
  | .casVisible toStealFrom avail next =>
    if f.workQVisible toStealFrom = some avail then
      ({ f with workQVisible := Function.update f.workQVisible toStealFrom next }, .outside, some avail)
    else (f, .readVisible toStealFrom, none)
  | .noWork => (f, .noWork, none)

/-- The phase of the calls of `dq`, with the ids they have returned. -/
structure Dequeueing (items processors : Nat) where
  filter : Filter items
  pc : Fin processors → DqPc items
  returned : List (Fin items)

namespace Dequeueing

def start (f : Filter items) : Dequeueing items processors :=
  { filter := f, pc := fun _ => .outside, returned := [] }

def step (s : Dequeueing items processors) (p : Fin processors) : Dequeueing items processors :=
  let (f, pc, id) := (s.pc p).step processors p s.filter
  { filter := f, pc := Function.update s.pc p pc, returned := id.toList ++ s.returned }

def Over (s : Dequeueing items processors) : Prop := ∀ p, s.pc p = .noWork

instance (s : Dequeueing items processors) : Decidable s.Over :=
  inferInstanceAs (Decidable (∀ p, s.pc p = .noWork))

end Dequeueing

/-! ## Calls of done -/

/-- The next statement of `done`. -/
inductive DonePc (items : Nat)
  | readWorkQ
  | whileHead (head : Option (Fin items))
  | writeNext (tmp : Fin items) (head : Option (Fin items))
  | clearVisible
  | clearWorkQ
  | returned
  deriving DecidableEq

def DonePc.step (f : Filter items) (qid : Nat) : DonePc items → Filter items × DonePc items
  | .readWorkQ => (f, .whileHead (f.workQ qid))
  | .whileHead none => (f, .clearVisible)
  | .whileHead (some tmp) => (f, .writeNext tmp (f.next tmp))
  | .writeNext tmp head => ({ f with next := Function.update f.next tmp (some tmp) }, .whileHead head)
  | .clearVisible =>
    ({ f with workQVisible := Function.update f.workQVisible qid none }, .clearWorkQ)
  | .clearWorkQ => ({ f with workQ := Function.update f.workQ qid none }, .returned)
  | .returned => (f, .returned)

/-- The phase in which each processor calls `done`. -/
structure Resetting (items processors : Nat) where
  filter : Filter items
  pc : Fin processors → DonePc items

namespace Resetting

def start (f : Filter items) : Resetting items processors :=
  { filter := f, pc := fun _ => .readWorkQ }

def step (s : Resetting items processors) (p : Fin processors) : Resetting items processors :=
  let (f, pc) := (s.pc p).step s.filter p
  { filter := f, pc := Function.update s.pc p pc }

def Over (s : Resetting items processors) : Prop := ∀ p, s.pc p = .returned

instance (s : Resetting items processors) : Decidable s.Over :=
  inferInstanceAs (Decidable (∀ p, s.pc p = .returned))

end Resetting

/-! ## Rounds -/

open Interleaving in
/-- The filters between two phases, with the ids queued since the last call of `done`. -/
inductive FilterRounds (items processors : Nat) : Filter items → List (Fin items) → Prop
  | new : FilterRounds items processors (Filter.new items) []
  | queueing {f : Filter items} {queued : List (Fin items)} (rounds : FilterRounds items processors f queued)
    (schedule : List (Fin processors × Fin items))
    (finished : (run Queueing.step (.start f) schedule).Over) :
    FilterRounds items processors (run Queueing.step (.start f) schedule).filter
      ((run Queueing.step (.start f) schedule).called ++ queued)
  | dequeueing {f : Filter items} {queued : List (Fin items)} (rounds : FilterRounds items processors f queued)
    (prepSchedule schedule : List (Fin processors))
    (prepared : (run Preparing.step (.start f) prepSchedule).Over)
    (finished : (run Dequeueing.step
      (.start (run Preparing.step (.start f) prepSchedule).filter) schedule).Over) :
    FilterRounds items processors (run Dequeueing.step
      (.start (run Preparing.step (.start f) prepSchedule).filter) schedule).filter queued
  | done {f : Filter items} {queued : List (Fin items)} (rounds : FilterRounds items processors f queued)
    (schedule : List (Fin processors)) (finished : (run Resetting.step (.start f) schedule).Over) :
    FilterRounds items processors (run Resetting.step (.start f) schedule).filter []

end MBFGraph
