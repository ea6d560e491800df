import MBFGraph.Lib.NondetLoop
import MBFGraph.Lib.StdHeap
import MBFGraph.UpdateUtility.MBFSort

/-!
# External sorting

`external_sort::sort` (`external_sort.hpp:67-202`), which `main` of `MBFSort.cpp` runs on the edge file: `split` sorts
one block of the file after the other, each in a thread of its own, and writes it to a file; `merge` merges a few
files at a time, again in threads, until one is left. A file is the list of its records. What `std::sort`, the heap
functions and the order of an `unordered_set` do where the standard leaves it open is an argument.
-/

namespace MBFGraph

namespace ExternalSort

open KWayMerge

variable {α : Type} [Inhabited α] (comp : α → α → Bool)

/-! ## Merging streams -/

/-- What `merge_nstreams` and the others work on: `sin` in its order, what each stream has yet to deliver, and what
was pushed to `sout`. -/
structure Streams (α : Type) where
  sin : List Nat
  mem : Nat → List α
  out : List α

/-- `Front`. -/
def front (mem : Nat → List α) (s : Nat) : α := (mem s).headD default

/-- `sout->Push(smin->Front()); smin->Pop();`, and a stream at its end is erased. -/
def pushFront (st : Streams α) (smin : Nat) : Streams α :=
  let mem := Function.update st.mem smin (st.mem smin).tail
  { sin := if (mem smin).isEmpty then st.sin.erase smin else st.sin
    mem
    out := st.out ++ [front st.mem smin] }

/-- The loop of `merge_2streams`, `merge_3streams` and `merge_4streams`. There is no result if `Front` is called for
a stream at its end. -/
def untilEmpty (pick : (Nat → α) → Nat) : Nat → Streams α → Option (Streams α)
  | 0, _ => none
  | fuel + 1, st =>
    if st.sin.any fun s => (st.mem s).isEmpty then none
    else
      let smin := pick (front st.mem)
      let st := pushFront st smin
      if (st.mem smin).isEmpty then some st else untilEmpty pick fuel st

/-- `copy_stream(*sin.begin(), sout)`. -/
def copyStream (st : Streams α) : Option (List α) := st.sin.head?.map fun s => st.out ++ st.mem s

/-- `smin` of `merge_2streams`. -/
def min2 (s1 s2 : Nat) (front : Nat → α) : Nat := if comp (front s1) (front s2) then s1 else s2

/-- `merge_2streams`. -/
def merge2streams (fuel : Nat) (st : Streams α) : Option (List α) :=
  match st.sin with
  | [s1, s2] => (untilEmpty (min2 comp s1 s2) fuel st).bind copyStream
  | _ => some st.out

/-- `smin` of `merge_3streams`. -/
def min3 (s1 s2 s3 : Nat) (front : Nat → α) : Nat :=
  if comp (front s1) (front s2) then
    if comp (front s1) (front s3) then s1 else s3
  else
    if comp (front s2) (front s3) then s2 else s3

/-- `merge_3streams`. -/
def merge3streams (fuel : Nat) (st : Streams α) : Option (List α) :=
  match st.sin with
  | [s1, s2, s3] => (untilEmpty (min3 comp s1 s2 s3) fuel st).bind (merge2streams comp fuel)
  | _ => some st.out

/-- `smin` of `merge_4streams`. -/
def min4 (s1 s2 s3 s4 : Nat) (front : Nat → α) : Nat :=
  if comp (front s1) (front s2) then
    if comp (front s3) (front s4) then
      if comp (front s1) (front s3) then s1 else s3
    else
      if comp (front s1) (front s4) then s1 else s4
  else
    if comp (front s3) (front s4) then
      if comp (front s2) (front s3) then s2 else s3
    else
      if comp (front s2) (front s4) then s2 else s4

/-- `merge_4streams`. -/
def merge4streams (fuel : Nat) (st : Streams α) : Option (List α) :=
  match st.sin with
  | [s1, s2, s3, s4] => (untilEmpty (min4 comp s1 s2 s3 s4) fuel st).bind (merge3streams comp fuel)
  | _ => some st.out

/-- `hcomp`. -/
def hcomp (mem : Nat → List α) (s1 s2 : Nat) : Bool := comp (front mem s2) (front mem s1)

/-- The loop of `merge_nstreams`. -/
def heapLoop (heaps : StdHeap Nat) : Nat → List Nat → Streams α → Option (Streams α)
  | 0, _, _ => none
  | fuel + 1, heap, st =>
    if 4 < heap.length then
      if heap.any fun s => (st.mem s).isEmpty then none
      else
        let smin := heap.headD 0
        let heap := heaps.popHeap (hcomp comp st.mem) heap
        let st := pushFront st smin
        if (st.mem smin).isEmpty then heapLoop heaps fuel heap.dropLast st
        else heapLoop heaps fuel (heaps.pushHeap (hcomp comp st.mem) (heap.dropLast ++ [smin])) st
    else some st

/-- `merge_nstreams`. -/
def mergeNstreams (heaps : StdHeap Nat) (fuel : Nat) (st : Streams α) : Option (List α) :=
  if st.sin.length ≤ 4 then some st.out
  else
    let heap := heaps.makeHeap (hcomp comp st.mem) (st.sin.filter fun s => !(st.mem s).isEmpty)
    (heapLoop comp heaps fuel heap st).bind (merge4streams comp fuel)

/-- In which order an `unordered_set` has the pointers that were inserted. -/
structure SetOrder where
  order : List Nat → List Nat
  perm : ∀ l, (order l).Perm l

/-- `merge_streams` for streams of the given files: what `sout` holds, or `NULL`. -/
def mergeStreams (heaps : StdHeap Nat) (set : SetOrder) (files : List (List α)) : Option (Option (List α)) :=
  let mem := fun s => files.getD s []
  let sinp := set.order ((List.range files.length).filter fun s => !(mem s).isEmpty)
  -- each turn of a loop takes a record
  let fuel := files.flatten.length + 1
  let st : Streams α := ⟨sinp, mem, []⟩
  if 0 < sinp.length then
    (if 4 < sinp.length then mergeNstreams comp heaps fuel st
    else if sinp.length = 4 then merge4streams comp fuel st
    else if sinp.length = 3 then merge3streams comp fuel st
    else if sinp.length = 2 then merge2streams comp fuel st
    else copyStream st).map some
  else some none

/-! ## Splitting the file -/

/-- `std::sort`. -/
structure StdSort (comp : α → α → Bool) where
  sort : List α → List α
  sorted : ∀ l, Sorted comp (sort l)
  perm : ∀ l, (sort l).Perm l

/-- `InputLoop` with blocks of a capacity: the blocks that are pushed to the queue, of which none is empty. A read
that comes to the end of the file is the last one. -/
def inputLoop (capacity : Nat) : Nat → List α → List (List α)
  | 0, _ => []
  | fuel + 1, file =>
    let block := file.take capacity
    let rest := if file.length < capacity then [] else inputLoop capacity fuel (file.drop capacity)
    if block.isEmpty then rest else block :: rest

/-- The next statement of `split`: the test of the loop, the two tests of the loop inside of it, and `GetAny`. -/
inductive SplitPc where
  | whileMore
  | ready
  | running
  | getAny
  | closed
  deriving DecidableEq, Repr

/-- `split` at work: the blocks that `istream` has yet to deliver, `splits`, and `params.out.ofiles`. -/
structure SplitState (α : Type) where
  pc : SplitPc
  blocks : List (List α)
  running : List (List α)
  ready : List (List α)
  ofiles : List (List α)

/-- `split` is called. -/
def splitStart (blocks : List (List α)) : SplitState α := ⟨.whileMore, blocks, [], [], []⟩

/-- A step of the thread that runs `split`. `Empty` waits for the block that comes next. -/
inductive SplitMain : SplitState α → SplitState α → Prop where
  | close {st : SplitState α} (pc : st.pc = .whileMore) (ended : st.blocks = []) :
      SplitMain st { st with pc := .closed }
  | async {st : SplitState α} {block : List α} {blocks : List (List α)} (pc : st.pc = .whileMore)
      (more : st.blocks = block :: blocks) :
      SplitMain st { st with pc := .ready, blocks, running := st.running ++ [block] }
  | someReady {st : SplitState α} (pc : st.pc = .ready) (some_ : st.ready ≠ []) :
      SplitMain st { st with pc := .getAny }
  | noneReady {st : SplitState α} (pc : st.pc = .ready) (none_ : st.ready = []) :
      SplitMain st { st with pc := .running }
  | await {st : SplitState α} (pc : st.pc = .running) (some_ : st.running ≠ []) (ended : st.blocks = []) :
      SplitMain st { st with pc := .getAny }
  | goOn {st : SplitState α} (pc : st.pc = .running) (no : ¬(st.running ≠ [] ∧ st.blocks = [])) :
      SplitMain st { st with pc := .whileMore }
  | collect {st : SplitState α} {file : List α} {ready : List (List α)} (pc : st.pc = .getAny)
      (some_ : st.ready = file :: ready) :
      SplitMain st { st with pc := .ready, ready, ofiles := st.ofiles ++ [file] }

/-- A thread ends that has run `sort_and_write`. -/
inductive SplitTask (sort : StdSort comp) : SplitState α → SplitState α → Prop where
  | finish {st : SplitState α} {before behind : List (List α)} {block : List α}
      (runs : st.running = before ++ block :: behind) :
      SplitTask sort st { st with running := before ++ behind, ready := st.ready ++ [sort.sort block] }

/-- A step of one of the threads. -/
def SplitStep (sort : StdSort comp) (st st' : SplitState α) : Prop := SplitMain st st' ∨ SplitTask comp sort st st'

/-- `Ready` has been looked at in front of the end of the input, and `Running` has not. -/
def BetweenReads (st : SplitState α) : Prop := st.pc = .running ∧ st.blocks = []

/-- The steps but that no thread ends between the two reads. -/
def CalmStep (sort : StdSort comp) (st st' : SplitState α) : Prop :=
  SplitMain st st' ∨ SplitTask comp sort st st' ∧ ¬BetweenReads st

/-! ## Merging the files -/

/-- The two counts that `Empty` of `merges` adds, in either order. -/
inductive Count where
  | ready
  | running
  deriving DecidableEq, Repr

/-- The next statement of `merge`: the tests of the two loops, where `first` was read by `Empty` as `seen` and the
other count is read next, the start of a merge, and `GetAny`. -/
inductive MergePc where
  | outer
  | outerEmpty (first : Count) (seen : Nat)
  | start
  | inner
  | innerEmpty (first : Count) (seen : Nat)
  | ready
  | running
  | getAny
  | ended
  deriving DecidableEq, Repr

/-- `merge` at work: `files`, and `merges` with the inputs of each that is running. -/
structure MergeState (α : Type) where
  pc : MergePc
  files : List (List α)
  running : List (List (List α))
  ready : List (Option (List α))

/-- `merge` is called. -/
def mergeStart (ifiles : List (List α)) : MergeState α := ⟨.outer, ifiles, [], []⟩

/-- A count of `merges`. -/
def MergeState.count (st : MergeState α) : Count → Nat
  | .ready => st.ready.length
  | .running => st.running.length

/-- The count that is read behind another one. -/
def Count.other : Count → Count
  | .ready => .running
  | .running => .ready

/-- `params.mrg.kmerge` and `params.mrg.merges`. -/
structure MergeParams where
  kmerge : Nat
  merges : Nat

variable (params : MergeParams)

/-- A step of the thread that runs `merge`. -/
inductive MergeMain : MergeState α → MergeState α → Prop where
  | outerFiles {st : MergeState α} (pc : st.pc = .outer) (some_ : 1 < st.files.length) :
      MergeMain st { st with pc := .start }
  | outerRead {st : MergeState α} (first : Count) (pc : st.pc = .outer) (few : ¬1 < st.files.length) :
      MergeMain st { st with pc := .outerEmpty first (st.count first) }
  | outerMerges {st : MergeState α} {first : Count} {seen : Nat} (pc : st.pc = .outerEmpty first seen)
      (some_ : seen + st.count first.other ≠ 0) : MergeMain st { st with pc := .start }
  | outerEnds {st : MergeState α} {first : Count} {seen : Nat} (pc : st.pc = .outerEmpty first seen)
      (none_ : seen + st.count first.other = 0) : MergeMain st { st with pc := .ended }
  | async {st : MergeState α} (pc : st.pc = .start) :
      MergeMain st { st with
        pc := .inner
        files := st.files.drop params.kmerge
        running := st.running ++ [st.files.take params.kmerge] }
  | innerRead {st : MergeState α} (first : Count) (pc : st.pc = .inner) (few : st.files.length < params.kmerge) :
      MergeMain st { st with pc := .innerEmpty first (st.count first) }
  | innerFiles {st : MergeState α} (pc : st.pc = .inner) (enough : ¬st.files.length < params.kmerge) :
      MergeMain st { st with pc := .ready }
  | innerMerges {st : MergeState α} {first : Count} {seen : Nat} (pc : st.pc = .innerEmpty first seen)
      (some_ : seen + st.count first.other ≠ 0) : MergeMain st { st with pc := .getAny }
  | innerEmpty {st : MergeState α} {first : Count} {seen : Nat} (pc : st.pc = .innerEmpty first seen)
      (none_ : seen + st.count first.other = 0) : MergeMain st { st with pc := .ready }
  | someReady {st : MergeState α} (pc : st.pc = .ready) (some_ : st.ready ≠ []) :
      MergeMain st { st with pc := .getAny }
  | noneReady {st : MergeState α} (pc : st.pc = .ready) (none_ : st.ready = []) :
      MergeMain st { st with pc := .running }
  | tooMany {st : MergeState α} (pc : st.pc = .running) (many : params.merges ≤ st.running.length) :
      MergeMain st { st with pc := .getAny }
  | goOn {st : MergeState α} (pc : st.pc = .running) (few : ¬params.merges ≤ st.running.length) :
      MergeMain st { st with pc := .outer }
  | collect {st : MergeState α} {result : Option (List α)} {ready : List (Option (List α))} (pc : st.pc = .getAny)
      (some_ : st.ready = result :: ready) :
      MergeMain st { st with pc := .inner, ready, files := st.files ++ result.toList }

/-- A thread ends that has run `merge_streams`. -/
inductive MergeTask (heaps : StdHeap Nat) : MergeState α → MergeState α → Prop where
  | finish {st : MergeState α} {before behind : List (List (List α))} {inputs : List (List α)}
      {result : Option (List α)} (set : SetOrder) (runs : st.running = before ++ inputs :: behind)
      (merged : mergeStreams comp heaps set inputs = some result) :
      MergeTask heaps st { st with running := before ++ behind, ready := st.ready ++ [result] }

/-- A step of one of the threads. -/
def MergeStep (heaps : StdHeap Nat) (st st' : MergeState α) : Prop :=
  MergeMain params st st' ∨ MergeTask comp heaps st st'

/-- What becomes of the file that is left: it is renamed to the output file, or there is an error. -/
def mergeResult (st : MergeState α) : Except String (List α) :=
  match st.files with
  | file :: _ => .ok file
  | [] => .error "Merge failed. No input"

end ExternalSort

end MBFGraph
