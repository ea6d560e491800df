import MBFGraph.Generators.Output
import Mathlib.Algebra.BigOperators.Group.Finset.Piecewise
import Mathlib.Algebra.BigOperators.Group.Multiset.Basic
import Mathlib.Data.Multiset.AddSub
import Mathlib.Tactic.Abel

/-!
# The generators write every edge

An edge is at each time in one place: with its worker, in a buffer, in the remainder or in the file
(`inside`). So a run writes all of them if the I/O thread never finds `m_stop` set while there are
edges in its queue (`writesAllEdges`).
-/

namespace MBFGraph

open Interleaving

variable {E : Type}

namespace EdgeBuffer

variable {size : Nat}

theorem edges_of_pos {b : EdgeBuffer E} (empty : b.pos = 0) : b.edges = [] := by
  rw [edges, empty]
  rfl

@[simp] theorem length_edges (b : EdgeBuffer E) : b.edges.length = b.pos := by simp [edges]

@[simp] theorem push_pos (b : EdgeBuffer E) (edge : E) : (b.push edge).pos = b.pos + 1 := rfl

@[simp] theorem edges_push (b : EdgeBuffer E) (edge : E) : (b.push edge).edges = b.edges ++ [edge] := by
  have before : (List.range b.pos).map (Function.update b.data b.pos edge) = b.edges :=
    List.map_congr_left fun i mem => Function.update_of_ne (Nat.ne_of_lt (List.mem_range.mp mem)) _ _
  change (List.range (b.pos + 1)).map (Function.update b.data b.pos edge) = _
  rw [List.range_succ, List.map_append, before, List.map_singleton, Function.update_self]

theorem edges_foldl_push (edges : List E) (b : EdgeBuffer E) :
    (edges.foldl push b).edges = b.edges ++ edges := by
  induction edges generalizing b with
  | nil => simp
  | cons edge edges ih => rw [List.foldl_cons, ih, edges_push, List.append_assoc]; rfl

theorem pos_foldl_push (edges : List E) (b : EdgeBuffer E) :
    (edges.foldl push b).pos = b.pos + edges.length := by
  rw [← length_edges, edges_foldl_push, List.length_append, length_edges]

/-- A full buffer is written as it is. -/
theorem flushBuffer_of_full {b : EdgeBuffer E} (full : b.pos = size) :
    b.flushBuffer size = b.edges := by rw [flushBuffer, edges, full]

/-- Otherwise something else is written behind its edges. -/
theorem flushBuffer_prefix {b : EdgeBuffer E} (room : b.pos ≤ size) :
    b.edges <+: b.flushBuffer size := by
  obtain ⟨more, rfl⟩ := Nat.exists_eq_add_of_le room
  rw [flushBuffer, List.range_add, List.map_append]
  exact List.prefix_append _ _

/-- `save_for_later` keeps the edges and their order, and leaves room in the remainder. -/
theorem saveForLater_eq {remainder b : EdgeBuffer E} (room : remainder.pos < size)
    (notFull : b.pos < size) :
    (remainder.saveForLater size b).1 ++ (remainder.saveForLater size b).2.edges =
        remainder.edges ++ b.edges ∧
      (remainder.saveForLater size b).2.pos < size := by
  unfold saveForLater
  dsimp only
  generalize amount : (if size - remainder.pos < b.pos then size - remainder.pos else b.pos) = n
  have some_ : n ≤ b.pos := by split at amount <;> omega
  have fits : remainder.pos + n ≤ size := by split at amount <;> omega
  have pos := pos_foldl_push (b.edges.take n) remainder
  have filled := edges_foldl_push (b.edges.take n) remainder
  rw [List.length_take, length_edges, Nat.min_eq_left some_] at pos
  split
  · rename_i full
    refine ⟨?_, ?_⟩
    · have flushed (b : EdgeBuffer E) : { b with pos := 0 }.edges = [] := rfl
      rw [flushBuffer_of_full full, filled, edges_foldl_push, flushed, List.nil_append,
        List.append_assoc, List.take_append_drop]
    · rw [pos_foldl_push, List.length_drop, length_edges]
      dsimp only
      omega
  · rename_i notFull'
    have all : n = b.pos := by split at amount <;> omega
    have nothing : b.edges.drop n = [] := List.drop_eq_nil_of_le (by rw [length_edges, all])
    rw [nothing, List.foldl_nil, filled, List.nil_append, all,
      List.take_of_length_le (length_edges b).le]
    rw [all, List.take_of_length_le (length_edges b).le] at pos notFull'
    exact ⟨rfl, show (b.edges.foldl push remainder).pos < size by omega⟩

end EdgeBuffer

namespace Generator

variable {g : Generator E}

/-! ## A worker -/

/-- The edges that are with a worker. -/
def Worker.inside (w : Worker E) : List E :=
  (match w.pc with
    | .enqueue pbuffer => pbuffer.edges
    | _ => []) ++ w.queue.flatMap EdgeBuffer.edges ++ w.todo

/-- A worker has edges in the first of its buffers only. -/
def Worker.Fits (g : Generator E) (w : Worker E) : Prop :=
  match w.pc with
  | .call => ∃ b queue, w.queue = b :: queue ∧ b.pos ≤ g.size ∧ ∀ c ∈ queue, c.pos = 0
  | .enqueue pbuffer => pbuffer.pos ≤ g.size ∧ ∀ c ∈ w.queue, c.pos = 0
  | .front => ∀ c ∈ w.queue, c.pos = 0
  | .returned => w.todo = [] ∧ ∀ c ∈ w.queue, c.pos = 0
  | .failed => False

theorem flatMap_edges_of_empty {queue : List (EdgeBuffer E)} (empty : ∀ c ∈ queue, c.pos = 0) :
    queue.flatMap EdgeBuffer.edges = [] :=
  List.flatMap_eq_nil_iff.mpr fun c mem => EdgeBuffer.edges_of_pos (empty c mem)

/-- No edge is with a worker that has returned. -/
theorem Worker.inside_of_returned {w : Worker E} (fits : w.Fits g) (returned : w.pc = .returned) :
    w.inside = [] := by
  unfold Fits at fits
  rw [returned] at fits
  unfold inside
  rw [returned, flatMap_edges_of_empty fits.2, fits.1]
  rfl

/-- A step of a worker keeps the edges, but for a buffer that is enqueued. -/
theorem Worker.Fits.step {w : Worker E} (room : 0 < g.size) (fits : w.Fits g) :
    (w.step g).1.Fits g ∧ (∀ b, (w.step g).2 = some b → b.pos ≤ g.size) ∧
      ((w.step g).1.inside : Multiset E) + (w.step g).2.elim [] EdgeBuffer.edges =
        (w.inside : Multiset E) := by
  obtain ⟨pc, todo, queue⟩ := w
  unfold Fits at fits
  cases pc with
  | call =>
    obtain ⟨b, rest, rfl, small, empty⟩ := fits
    cases todo with
    | nil =>
      refine ⟨⟨small, empty⟩, fun c none_ => by contradiction, ?_⟩
      simp [Worker.step, inside]
    | cons edge todo =>
      by_cases full : b.pos = g.size
      · refine ⟨?_, ?_, ?_⟩ <;> simp only [Worker.step, if_pos full]
        · exact ⟨small, empty⟩
        · exact fun c none_ => by contradiction
        · simp [inside]
      · refine ⟨?_, ?_, ?_⟩ <;> simp only [Worker.step, if_neg full]
        · exact ⟨b.push edge, rest, rfl, Nat.lt_of_le_of_ne small full, empty⟩
        · exact fun c none_ => by contradiction
        · simp only [inside, List.flatMap_cons, EdgeBuffer.edges_push, Option.elim,
            ← Multiset.coe_add, ← Multiset.cons_coe, ← Multiset.singleton_add, Multiset.coe_nil]
          abel
  | enqueue pbuffer =>
    refine ⟨fits.2, fun b isSent => ?_, ?_⟩
    · obtain rfl := Option.some.inj isSent
      exact fits.1
    · simp only [Worker.step, inside, Option.elim, ← Multiset.coe_add, Multiset.coe_nil]
      abel
  | front =>
    cases queue with
    | nil => exact ⟨fits, fun c none_ => by contradiction, by simp [Worker.step]⟩
    | cons b rest =>
      obtain ⟨first, empty⟩ := List.forall_mem_cons.mp fits
      cases todo with
      | nil =>
        exact ⟨⟨rfl, fits⟩, fun c none_ => by contradiction, by simp [Worker.step, inside]⟩
      | cons edge todo =>
        refine ⟨⟨b.push edge, rest, rfl, ?_, empty⟩, fun c none_ => by contradiction, ?_⟩
        · rw [EdgeBuffer.push_pos, first]
          exact room
        · simp only [Worker.step, inside, List.flatMap_cons, EdgeBuffer.edges_push, Option.elim,
            ← Multiset.coe_add, ← Multiset.cons_coe, ← Multiset.singleton_add, Multiset.coe_nil]
          abel
  | returned => exact ⟨fits, fun c none_ => by contradiction, by simp [Worker.step]⟩
  | failed => exact absurd fits id

theorem Worker.step_of_returned {w : Worker E} (returned : w.pc = .returned) :
    w.step g = (w, none) := by
  unfold Worker.step
  rw [returned]

/-! ## All threads -/

/-- The edges that the I/O thread holds in its hands. -/
def IoPc.inside : IoPc E → List E
  | .save pbuffer => pbuffer.edges
  | _ => []

/-- The main thread has waited for a worker. -/
def MainPc.HasJoined : MainPc → Nat → Prop
  | .join n, i => i < n
  | _, _ => True

namespace State

/-- Where the edges are. -/
def inside (g : Generator E) (s : State E) : Multiset E :=
  ∑ i ∈ Finset.range g.nthreads, ((s.workers i).inside : Multiset E) +
    (s.flushq.flatMap EdgeBuffer.edges : List E) + (s.io.pc.inside : List E) +
    (s.io.file ++ s.io.remainder.edges : List E)

/-- What the I/O thread knows of what it does next. -/
def IoFits (g : Generator E) (s : State E) : Prop :=
  match s.io.pc with
  | .save pbuffer => pbuffer.pos ≤ g.size
  | .recycle pbuffer => pbuffer.pos = 0
  | .flushRemainder => s.stop = true ∧ ∀ b ∈ s.flushq, b.pos = 0
  | .closed => (s.io.file : Multiset E) = g.allEdges
  | _ => True

/-- What holds after every turn. -/
structure Fits (g : Generator E) (s : State E) : Prop where
  workers : ∀ i < g.nthreads, (s.workers i).Fits g
  flushq : ∀ b ∈ s.flushq, b.pos ≤ g.size
  remainder : s.io.remainder.pos < g.size
  io : s.IoFits g
  joined : ∀ i < g.nthreads, s.main.HasJoined i → (s.workers i).pc = .returned
  stopped : s.stop = true → ∀ i < g.nthreads, (s.workers i).pc = .returned
  inside : s.io.pc ≠ .closed → s.inside g = g.allEdges

/-- The condition: the I/O thread never finds `m_stop` set while there are edges in its queue. -/
def NothingQueued (s : State E) (thread : Thread) : Prop :=
  match thread, s.io.pc with
  | .io, .ifStop => s.stop = true → ∀ b ∈ s.flushq, b.pos = 0
  | _, _ => True

instance (s : State E) (thread : Thread) : Decidable (s.NothingQueued thread) := by
  unfold NothingQueued
  split <;> infer_instance

variable {s : State E}

/-- A worker that takes a step: the edges of the others stay where they are. -/
theorem sum_inside_update {i : Nat} (below : i < g.nthreads) (workers : Nat → Worker E)
    (w : Worker E) :
    ∑ j ∈ Finset.range g.nthreads, ((Function.update workers i w j).inside : Multiset E) +
        (workers i).inside =
      ∑ j ∈ Finset.range g.nthreads, ((workers j).inside : Multiset E) + w.inside := by
  have mem : i ∈ Finset.range g.nthreads := Finset.mem_range.mpr below
  have apply_ (j : Nat) := Function.apply_update (fun _ (w : Worker E) => (w.inside : Multiset E))
    workers i w j
  rw [Finset.sum_congr rfl fun j _ => apply_ j, Finset.sum_update_of_mem mem,
    ← Finset.sum_erase_add _ _ mem, Finset.sdiff_singleton_eq_erase]
  abel

/-- `notify_one` changes nothing but where the I/O thread waits. -/
theorem notify_io (t : IoThread E) :
    t.notify.file = t.file ∧ t.notify.remainder = t.remainder ∧
      t.notify.pc.inside = t.pc.inside ∧ (t.notify.pc = .closed ↔ t.pc = .closed) := by
  unfold IoThread.notify
  split
  · rename_i waits
    rw [waits]
    exact ⟨rfl, rfl, rfl, by simp⟩
  · exact ⟨rfl, rfl, rfl, Iff.rfl⟩

/-- A notification makes the I/O thread look into its queue again, which may have changed unless
the thread has left its loop. -/
theorem IoFits.notify (fits : s.IoFits g) (workers : Nat → Worker E) (main : MainPc) {stop : Bool}
    {flushq : List (EdgeBuffer E)} (same : s.stop = true → stop = true ∧ flushq = s.flushq) :
    IoFits g { s with workers, main, stop, flushq, io := s.io.notify } := by
  unfold IoFits at fits
  unfold IoFits IoThread.notify
  cases pc : s.io.pc with
  | flushRemainder =>
    rw [pc] at fits
    simp only
    obtain ⟨stopped, rfl⟩ := same fits.1
    rw [pc]
    exact ⟨stopped, fits.2⟩
  | waiting => trivial
  | _ =>
    rw [pc] at fits
    simp only
    rw [pc]
    exact fits

/-- A turn of a worker. -/
theorem Fits.workerStep (room : 0 < g.size) (fits : s.Fits g) {i : Nat} (below : i < g.nthreads) :
    (s.workerStep g i).Fits g := by
  by_cases returned : (s.workers i).pc = .returned
  · -- it does nothing any more
    have same : s.workerStep g i = s := by
      unfold State.workerStep
      rw [Worker.step_of_returned returned]
      simp only [Function.update_eq_self]
    rwa [same]
  obtain ⟨fits', small, moved⟩ := (fits.workers i below).step room
  have running : s.stop = false := by
    rw [← Bool.not_eq_true]
    exact fun stopped => returned (fits.stopped stopped i below)
  have sums : ∑ j ∈ Finset.range g.nthreads,
        ((Function.update s.workers i ((s.workers i).step g).1 j).inside : Multiset E) +
        ((s.workers i).step g).2.elim [] EdgeBuffer.edges =
      ∑ j ∈ Finset.range g.nthreads, ((s.workers j).inside : Multiset E) := by
    refine add_right_cancel (b := (((s.workers i).step g).1.inside : Multiset E)) ?_
    rw [← sum_inside_update below, add_assoc, add_comm (Multiset.ofList _), moved]
  have others {j : Nat} (isReturned : (s.workers j).pc = .returned) :
      (Function.update s.workers i ((s.workers i).step g).1 j).pc = .returned := by
    have other : j ≠ i := by
      rintro rfl
      exact returned isReturned
    rwa [Function.update_of_ne other]
  have workers : ∀ j < g.nthreads,
      (Function.update s.workers i ((s.workers i).step g).1 j).Fits g := by
    intro j below'
    by_cases same : j = i
    · rw [same, Function.update_self]
      exact fits'
    · rw [Function.update_of_ne same]
      exact fits.workers j below'
  cases isSent : ((s.workers i).step g).2 with
  | none =>
    have stepped : s.workerStep g i =
        { s with workers := Function.update s.workers i ((s.workers i).step g).1 } := by
      unfold State.workerStep
      simp only [isSent]
    rw [isSent, Option.elim, Multiset.coe_nil, add_zero] at sums
    rw [stepped]
    refine ⟨workers, fits.flushq, fits.remainder, fits.io,
      fun j below' joined => others (fits.joined j below' joined),
      fun stopped j below' => others (fits.stopped stopped j below'), fun more => ?_⟩
    rw [← fits.inside more]
    unfold State.inside
    dsimp only
    rw [sums]
  | some b =>
    have stepped : s.workerStep g i = { s with
        workers := Function.update s.workers i ((s.workers i).step g).1
        flushq := s.flushq ++ [b]
        io := s.io.notify } := by
      unfold State.workerStep
      simp only [isSent]
      rfl
    obtain ⟨file, remainder, holds, closed⟩ := notify_io s.io
    rw [isSent, Option.elim] at sums
    rw [stepped]
    refine ⟨workers, ?_, by rw [remainder]; exact fits.remainder, ?_,
      fun j below' joined => others (fits.joined j below' joined),
      fun stopped j below' => others (fits.stopped stopped j below'), fun more => ?_⟩
    · rw [List.forall_mem_append, List.forall_mem_singleton]
      exact ⟨fits.flushq, small b isSent⟩
    · refine fits.io.notify _ _ fun stopped => ?_
      exact absurd (fits.stopped stopped i below) returned
    · rw [← fits.inside (mt closed.mpr more)]
      unfold State.inside
      dsimp only
      rw [holds, file, remainder, List.flatMap_append, List.flatMap_singleton, ← Multiset.coe_add,
        ← sums]
      abel

/-- A turn of the main thread. -/
theorem Fits.mainStep (fits : s.Fits g) : (s.mainStep g).Fits g := by
  unfold State.mainStep
  cases main : s.main with
  | join i =>
    have before (j : Nat) (less : j < i) (below : j < g.nthreads) :
        (s.workers j).pc = .returned := by
      have joined := fits.joined j below
      rw [main] at joined
      exact joined less
    dsimp only
    split
    · split
      · rename_i below returned
        refine ⟨fits.workers, fits.flushq, fits.remainder, fits.io, fun j below' joined => ?_,
          fits.stopped, fits.inside⟩
        rcases Nat.lt_succ_iff_lt_or_eq.mp joined with less | rfl
        · exact before j less below'
        · exact returned
      · exact fits
    · rename_i all
      exact ⟨fits.workers, fits.flushq, fits.remainder, fits.io,
        fun j below _ => before j (by omega) below, fits.stopped, fits.inside⟩
  | setStop =>
    have all : ∀ j < g.nthreads, (s.workers j).pc = .returned := fun j below =>
      fits.joined j below (by rw [main]; trivial)
    refine ⟨fits.workers, fits.flushq, fits.remainder, ?_, fun j below _ => all j below,
      fun _ => all, fits.inside⟩
    have io := fits.io
    unfold IoFits at io ⊢
    dsimp only
    cases pc : s.io.pc with
    | flushRemainder =>
      rw [pc] at io
      exact ⟨rfl, io.2⟩
    | _ =>
      rw [pc] at io
      exact io
  | signal =>
    obtain ⟨file, remainder, holds, closed⟩ := notify_io s.io
    refine ⟨fits.workers, fits.flushq, by rw [remainder]; exact fits.remainder,
      fits.io.notify _ _ fun stopped => ⟨stopped, rfl⟩, fun j below _ => ?_, fits.stopped,
      fun more => ?_⟩
    · exact fits.joined j below (by rw [main]; trivial)
    · rw [← fits.inside (mt closed.mpr more)]
      unfold State.inside
      dsimp only
      rw [holds, file, remainder]
  | joinIo => exact fits

/-- The I/O thread takes a buffer out of its queue. -/
theorem Fits.take (fits : s.Fits g) {empty : IoPc E} (notClosed : s.io.pc ≠ .closed)
    (nothing : s.io.pc.inside = []) (goesOn : empty = .waiting ∨ empty = .ifStop) :
    (s.take empty).Fits g := by
  have total := fits.inside notClosed
  unfold State.inside at total
  rw [nothing] at total
  unfold State.take
  cases queue : s.flushq with
  | nil =>
    rw [queue] at total
    refine ⟨fits.workers, fun b mem => absurd mem List.not_mem_nil, fits.remainder, ?_,
      fits.joined, fits.stopped, fun _ => ?_⟩
    · obtain rfl | rfl := goesOn <;> trivial
    · rw [← total]
      obtain rfl | rfl := goesOn <;> rfl
  | cons b flushq =>
    have small := fits.flushq
    rw [queue, List.forall_mem_cons] at small
    refine ⟨fits.workers, small.2, fits.remainder, small.1, fits.joined, fits.stopped, fun _ => ?_⟩
    rw [← total]
    unfold State.inside
    dsimp only
    rw [queue, List.flatMap_cons, ← Multiset.coe_add b.edges, IoPc.inside, Multiset.coe_nil]
    abel

/-- What `flush_buffer` and `save_for_later` do with the edges of a buffer. -/
theorem save_eq {t : IoThread E} {b : EdgeBuffer E} (room : t.remainder.pos < g.size)
    (small : b.pos ≤ g.size) :
    ((t.save g b).file ++ (t.save g b).remainder.edges).Perm
        (b.edges ++ (t.file ++ t.remainder.edges)) ∧ (t.save g b).remainder.pos < g.size := by
  unfold IoThread.save
  split
  · rename_i full
    refine ⟨?_, room⟩
    dsimp only
    rw [EdgeBuffer.flushBuffer_of_full full, List.append_assoc]
    exact List.perm_append_comm_assoc _ _ _
  · rename_i notFull
    obtain ⟨kept, room'⟩ := EdgeBuffer.saveForLater_eq room (Nat.lt_of_le_of_ne small notFull)
    refine ⟨?_, room'⟩
    dsimp only
    rw [List.append_assoc, kept, ← List.append_assoc]
    exact List.perm_append_comm

/-- The end of the I/O thread: only what is behind the edges is cut off. -/
theorem flushRemainder_eq {t : IoThread E} (room : t.remainder.pos < g.size)
    (length : (t.file ++ t.remainder.edges).length = g.nedges) :
    (t.flushRemainder g).file = t.file ++ t.remainder.edges := by
  unfold IoThread.flushRemainder
  split
  · obtain ⟨junk, flushed⟩ := EdgeBuffer.flushBuffer_prefix room.le
    have long := (List.prefix_append (t.file ++ t.remainder.edges) junk).length_le
    unfold ftruncate
    dsimp only
    rw [← flushed, ← List.append_assoc, ← length, List.take_left, Nat.sub_eq_zero_of_le long,
      List.replicate_zero, List.append_nil]
  · rename_i none_
    rw [EdgeBuffer.edges_of_pos (Nat.eq_zero_of_not_pos none_), List.append_nil]

/-- A worker that gets back an empty buffer. -/
theorem fits_recycled {w : Worker E} (fits : w.Fits g) {b : EdgeBuffer E} (empty : b.pos = 0) :
    Worker.Fits g { w with queue := w.queue ++ [b] } ∧
      Worker.inside { w with queue := w.queue ++ [b] } = w.inside := by
  have appended {queue : List (EdgeBuffer E)} (empties : ∀ c ∈ queue, c.pos = 0) :
      ∀ c ∈ queue ++ [b], c.pos = 0 :=
    List.forall_mem_append.mpr ⟨empties, List.forall_mem_singleton.mpr empty⟩
  constructor
  · unfold Worker.Fits at fits ⊢
    dsimp only
    cases pc : w.pc with
    | call =>
      rw [pc] at fits
      obtain ⟨c, rest, queue, small, empties⟩ := fits
      exact ⟨c, rest ++ [b], by rw [queue, List.cons_append], small, appended empties⟩
    | enqueue pbuffer =>
      rw [pc] at fits
      exact ⟨fits.1, appended fits.2⟩
    | front =>
      rw [pc] at fits
      exact appended fits
    | returned =>
      rw [pc] at fits
      exact ⟨fits.1, appended fits.2⟩
    | failed =>
      rw [pc] at fits
      exact fits
  · unfold Worker.inside
    rw [List.flatMap_append, List.flatMap_singleton, EdgeBuffer.edges_of_pos empty, List.append_nil]

/-- The buffer goes back to its owner. -/
theorem Fits.recycle (fits : s.Fits g) {b : EdgeBuffer E} (pc : s.io.pc = .recycle b) :
    Fits g { s.recycle b with io := { (s.recycle b).io with pc := .tryDequeue } } := by
  have empty : b.pos = 0 := by
    have io := fits.io
    unfold IoFits at io
    rwa [pc] at io
  have at_ (j : Nat) : (s.recycle b).workers j = s.workers j ∨
      j = b.owner ∧
        (s.recycle b).workers j = { s.workers j with queue := (s.workers j).queue ++ [b] } := by
    by_cases own : j = b.owner
    · subst own
      exact Or.inr ⟨rfl, Function.update_self ..⟩
    · exact Or.inl (Function.update_of_ne own ..)
  have samePc (j : Nat) : ((s.recycle b).workers j).pc = (s.workers j).pc := by
    obtain same | ⟨-, same⟩ := at_ j <;> rw [same]
  refine ⟨fun j below => ?_, fits.flushq, fits.remainder, trivial,
    fun j below joined => (samePc j).trans (fits.joined j below joined),
    fun stopped j below => (samePc j).trans (fits.stopped stopped j below), fun _ => ?_⟩
  · obtain same | ⟨-, same⟩ := at_ j <;> rw [same]
    · exact fits.workers j below
    · exact (fits_recycled (fits.workers j below) empty).1
  · have sameInside : ∑ j ∈ Finset.range g.nthreads, (((s.recycle b).workers j).inside : Multiset E) =
        ∑ j ∈ Finset.range g.nthreads, ((s.workers j).inside : Multiset E) := by
      refine Finset.sum_congr rfl fun j mem => ?_
      obtain same | ⟨-, same⟩ := at_ j <;> rw [same]
      rw [(fits_recycled (fits.workers j (Finset.mem_range.mp mem)) empty).2]
    have total := fits.inside (by rw [pc]; simp)
    unfold State.inside at total ⊢
    rw [pc] at total
    rw [← total]
    dsimp only
    rw [sameInside]
    rfl

/-- When all workers have returned and nothing is queued, the edges are with the I/O thread. -/
theorem Fits.written (fits : s.Fits g) (pc : s.io.pc = .flushRemainder) :
    ((s.io.file ++ s.io.remainder.edges : List E) : Multiset E) = g.allEdges := by
  have io := fits.io
  unfold IoFits at io
  rw [pc] at io
  have none_ : ∑ i ∈ Finset.range g.nthreads, ((s.workers i).inside : Multiset E) = 0 := by
    refine Finset.sum_eq_zero fun i mem => ?_
    have below := Finset.mem_range.mp mem
    rw [Worker.inside_of_returned (fits.workers i below) (fits.stopped io.1 i below)]
    rfl
  have notHeld : s.io.pc.inside = [] := by rw [pc]; rfl
  have total := fits.inside (by rw [pc]; simp)
  unfold State.inside at total
  rwa [none_, flatMap_edges_of_empty io.2, notHeld, Multiset.coe_nil, add_zero, add_zero,
    zero_add] at total

/-- A turn of the I/O thread. -/
theorem Fits.ioStep (fits : s.Fits g) (condition : s.NothingQueued .io) : (s.ioStep g).Fits g := by
  have io := fits.io
  unfold IoFits at io
  unfold NothingQueued at condition
  unfold State.ioStep
  cases pc : s.io.pc with
  | dequeue => exact fits.take (by rw [pc]; simp) (by rw [pc]; rfl) (Or.inl rfl)
  | waiting => exact fits
  | notified => exact fits.take (by rw [pc]; simp) (by rw [pc]; rfl) (Or.inr rfl)
  | save b =>
    rw [pc] at io
    obtain ⟨kept, room⟩ := save_eq fits.remainder io
    refine ⟨fits.workers, fits.flushq, room, rfl, fits.joined, fits.stopped, fun _ => ?_⟩
    rw [← fits.inside (by rw [pc]; simp)]
    unfold State.inside
    dsimp only
    have held : s.io.pc.inside = b.edges := by rw [pc]; rfl
    have none_ : (IoPc.recycle { b with pos := 0 }).inside = [] := rfl
    rw [Multiset.coe_eq_coe.mpr kept, held, none_, ← Multiset.coe_add b.edges, Multiset.coe_nil]
    abel
  | recycle b => exact fits.recycle pc
  | tryDequeue => exact fits.take (by rw [pc]; simp) (by rw [pc]; rfl) (Or.inr rfl)
  | ifStop =>
    rw [pc] at condition
    refine ⟨fits.workers, fits.flushq, fits.remainder, ?_, fits.joined, fits.stopped, fun _ => ?_⟩
    · unfold IoFits
      dsimp only
      cases stop : s.stop with
      | true => exact ⟨rfl, condition stop⟩
      | false => trivial
    · rw [← fits.inside (by rw [pc]; simp)]
      unfold State.inside
      dsimp only
      rw [pc]
      cases s.stop <;> rfl
  | flushRemainder =>
    have written := fits.written pc
    have file := flushRemainder_eq fits.remainder (Multiset.coe_eq_coe.mp written).length_eq
    have room : (s.io.flushRemainder g).remainder.pos < g.size := by
      unfold IoThread.flushRemainder
      split
      · exact Nat.zero_lt_of_lt fits.remainder
      · exact fits.remainder
    refine ⟨fits.workers, fits.flushq, room, ?_, fits.joined, fits.stopped,
      fun more => absurd rfl more⟩
    unfold IoFits
    dsimp only
    rw [file, written]
  | closed => exact fits

/-- A turn of any thread. -/
theorem Fits.step (room : 0 < g.size) (fits : s.Fits g) (thread : Thread)
    (condition : s.NothingQueued thread) : (s.step g thread).Fits g := by
  cases thread with
  | worker i =>
    unfold State.step
    dsimp only
    split
    · rename_i below
      exact fits.workerStep room below
    · exact fits
  | io => exact fits.ioStep condition
  | main => exact fits.mainStep

theorem sum_coe_range (n : Nat) (f : Nat → List E) :
    ∑ i ∈ Finset.range n, (f i : Multiset E) = ((List.range n).flatMap f : List E) := by
  induction n with
  | zero => rfl
  | succ n ih =>
    rw [Finset.sum_range_succ, ih, List.range_succ, List.flatMap_append, List.flatMap_singleton,
      Multiset.coe_add]

theorem fits_start (room : 0 < g.size) (some_ : 0 < g.buffersPerThread)
    (old : Nat → Nat → Nat → E) (oldRemainder : Nat → E) : (start g old oldRemainder).Fits g := by
  have empty (i : Nat) : ∀ c ∈ (List.range g.buffersPerThread).map fun j => ⟨old i j, 0, i⟩,
      EdgeBuffer.pos c = 0 := by
    intro c mem
    obtain ⟨j, -, rfl⟩ := List.mem_map.mp mem
    rfl
  refine ⟨fun i _ => ?_, fun b mem => absurd mem List.not_mem_nil, room, trivial,
    fun i _ joined => absurd joined (Nat.not_lt_zero i), fun stopped => by contradiction,
    fun _ => ?_⟩
  · have all := empty i
    cases queue : (List.range g.buffersPerThread).map fun j => (⟨old i j, 0, i⟩ : EdgeBuffer E) with
    | nil =>
      rw [List.map_eq_nil_iff, List.range_eq_nil] at queue
      omega
    | cons b rest =>
      rw [queue, List.forall_mem_cons] at all
      exact ⟨b, rest, queue, by rw [all.1]; exact Nat.zero_le _, all.2⟩
  · have generated (i : Nat) : ((start g old oldRemainder).workers i).inside = g.edges i := by
      unfold Worker.inside start
      dsimp only
      rw [flatMap_edges_of_empty (empty i)]
      rfl
    have nothing : (start g old oldRemainder).io.file ++
        (start g old oldRemainder).io.remainder.edges = [] := rfl
    unfold State.inside
    rw [Finset.sum_congr rfl fun i _ => congrArg _ (generated i), sum_coe_range, nothing]
    exact (add_zero _).trans ((add_zero _).trans (add_zero _))

end State

/-- When the I/O thread has returned, the file holds the edges of all workers and nothing else, and
no assertion has failed. -/
structure Written (g : Generator E) (s : State E) : Prop where
  file : s.io.pc = .closed → s.io.file.Perm g.allEdges ∧ s.io.file.length = g.nedges
  asserted : ∀ i < g.nthreads, (s.workers i).pc ≠ .failed

open State

/-- In each run in which the I/O thread never finds `m_stop` set while there are edges in its queue,
the file holds all edges when the I/O thread has returned. -/
theorem writesAllEdges (g : Generator E) (room : 0 < g.size) (some_ : 0 < g.buffersPerThread)
    (old : Nat → Nat → Nat → E) (oldRemainder : Nat → E) (schedule : List Thread)
    (condition : Along (step g) NothingQueued (start g old oldRemainder) schedule) (n : Nat) :
    Written g (run (step g) (start g old oldRemainder) (schedule.take n)) := by
  have fits : Fits g (run (step g) (start g old oldRemainder) (schedule.take n)) :=
    run_keeps_along (fun _ thread fits condition => fits.step room thread condition)
      (fits_start room some_ old oldRemainder) (condition.take n)
  refine ⟨fun closed => ?_, fun i below failed => ?_⟩
  · have io := fits.io
    unfold IoFits at io
    rw [closed] at io
    exact ⟨Multiset.coe_eq_coe.mp io, (Multiset.coe_eq_coe.mp io).length_eq⟩
  · have worker := fits.workers i below
    unfold Worker.Fits at worker
    rwa [failed] at worker

/-- A worker with two buffers for two edges each, which generates three edges. -/
def threeEdges : Generator Nat where
  nthreads := 1
  buffersPerThread := 2
  size := 2
  edges _ := [1, 2, 3]
  zero := 0

/-- The threads wait for each other. -/
def patientSchedule : List Thread :=
  List.replicate 7 (.worker 0) ++ List.replicate 9 .io ++ [.worker 0] ++
    List.replicate 4 .main ++ List.replicate 3 .io

theorem writesAllEdges_three :
    Written threeEdges (run (step threeEdges) (start threeEdges (fun _ _ _ => 7) fun _ => 8)
      (patientSchedule.take 24)) :=
  writesAllEdges threeEdges (by decide) (by decide) _ _ patientSchedule (by decide +kernel) 24

example : (run (step threeEdges) (start threeEdges (fun _ _ _ => 7) fun _ => 8)
    patientSchedule).io.file = [1, 2, 3] := by decide +kernel

/-- The worker enqueues its last buffer, and is joined, when the I/O thread has found its queue empty
and has yet to test `m_stop`. -/
def lateSchedule : List Thread :=
  List.replicate 5 (.worker 0) ++ List.replicate 4 .io ++ List.replicate 3 (.worker 0) ++
    List.replicate 4 .main ++ List.replicate 2 .io

/-- The file has two of three edges. -/
theorem not_writesAllEdges : ¬ ∀ (g : Generator Nat) (old : Nat → Nat → Nat → Nat)
    (oldRemainder : Nat → Nat) (schedule : List Thread), 0 < g.size → 2 ≤ g.buffersPerThread →
      Written g (run (step g) (start g old oldRemainder) schedule) := by
  intro all
  have written := all threeEdges (fun _ _ _ => 7) (fun _ => 8) lateSchedule (by decide) (by decide)
  have closed : (run (step threeEdges) (start threeEdges (fun _ _ _ => 7) fun _ => 8)
      lateSchedule).io.pc = .closed := rfl
  have file : (run (step threeEdges) (start threeEdges (fun _ _ _ => 7) fun _ => 8)
      lateSchedule).io.file = [1, 2] := by decide +kernel
  have length := (written.file closed).2
  rw [file] at length
  exact absurd length (by decide)

end Generator

end MBFGraph
