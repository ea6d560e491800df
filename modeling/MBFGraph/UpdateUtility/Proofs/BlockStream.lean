import MBFGraph.Lib.NondetLoop
import MBFGraph.UpdateUtility.BlockStream
import MBFGraph.UpdateUtility.ExternalSort

/-!
# Streams of blocks, proved

What one thread pushes is what is written, and what is read is what the file had, in every order of the steps. Reading
always comes to its end, and the stream is the list that `merge_streams` is modelled with. Writing comes to its end
unless the notification of `Close` is lost: then `Close` waits for ever, and all records are written.
-/

namespace MBFGraph

namespace BlockStream

open NondetLoop Relation

variable {α : Type} {params : BlockPool}

/-! ## Writing -/

/-- The block that `OutputLoop` took from the queue. -/
def OutputPc.taken : OutputPc α → Option (List α)
  | .write block => some block
  | _ => none

/-- How many blocks a pointer has. -/
def inUse : Option (List α) → Nat
  | some _ => 1
  | none => 0

/-- `block_` as long as it is not in the queue. -/
def OutputState.pending (st : OutputState α) : Option (List α) :=
  match st.pc with
  | .push | .full | .close => st.block
  | _ => none

/-- What holds in front of every step of a stream that writes. -/
structure OutputInv (params : BlockPool) (values : List α) (st : OutputState α) : Prop where
  content : st.file ++ st.loop.taken.getD [] ++ st.queue.flatten ++ st.pending.getD [] ++ st.values = values
  isFull : st.pc = .full → st.block ≠ none
  inPool : st.pc = .push ∨ st.pc = .full →
    st.pool + st.queue.length + inUse st.block + inUse st.loop.taken = params.memblocks
  noneLeft : st.pc ≠ .push → st.pc ≠ .full → st.values = []
  stopped : st.stopped = true ↔ st.pc = .notify ∨ st.pc = .join ∨ st.pc = .closed
  waits : st.loop = .wait ∨ st.loop = .asleep → st.queue = []
  hasQuit : st.loop = .quit → st.stopped = true ∧ st.queue = []
  isClosed : st.pc = .closed → st.loop = .quit

/-- The work that is left. -/
def OutputState.work (st : OutputState α) : Nat :=
  7 * st.values.length + 2 * st.queue.length + (1 - inUse st.block) +
    (match st.pc with
    | .closed => 0
    | .join => 1
    | .notify => 4
    | .stop => 5
    | .close => 10
    | .push => 11
    | .full => 17) +
    match st.loop with
    | .quit => 0
    | .asleep => 0
    | .wait => 1
    | .test => 2
    | .write _ => 3

@[simp]
theorem OutputPc.taken_notify (loop : OutputPc α) : loop.notify.taken = loop.taken := by
  cases loop <;> rfl

theorem OutputPc.notify_ne_wait {loop : OutputPc α} (awake : loop ≠ .wait) :
    ¬(loop.notify = .wait ∨ loop.notify = .asleep) := by
  cases loop <;> simp_all [OutputPc.notify]

@[simp]
theorem OutputPc.notify_eq_quit (loop : OutputPc α) : loop.notify = .quit ↔ loop = .quit := by
  cases loop <;> simp [OutputPc.notify]

theorem outputInv_start (params : BlockPool) (values : List α) :
    OutputInv params values (outputStart params values) where
  content := rfl
  isFull := nofun
  inPool _ := rfl
  noneLeft pc := absurd rfl pc
  stopped := by simp [outputStart]
  waits := by simp [outputStart]
  hasQuit := nofun
  isClosed := nofun

variable {values : List α} {st st' : OutputState α}

theorem OutputInv.not_stopped (inv : OutputInv params values st)
    (early : st.pc = .push ∨ st.pc = .full ∨ st.pc = .close) : st.stopped ≠ true := by
  intro isStopped
  have late := inv.stopped.mp isStopped
  rcases early with pc | pc | pc <;> simp [pc] at late

theorem PushStep.keeps (inv : OutputInv params values st) (step : PushStep params st st') :
    OutputInv params values st' ∧ st'.work < st.work := by
  have notStopped := inv.not_stopped
  obtain ⟨content, isFull, inPool, noneLeft, stopped, waits, hasQuit, isClosed⟩ := inv
  cases step with
  | allocate pc more null free =>
    have blocks := inPool (Or.inl pc)
    refine ⟨⟨?_, fun _ => Option.some_ne_none _, fun _ => ?_, noneLeft, stopped, waits, hasQuit, isClosed⟩, ?_⟩
    · simpa [OutputState.pending, pc, null] using content
    · simp only [null, inUse] at blocks ⊢
      omega
    · simp [OutputState.work, null, inUse]
  | @pushBack value rest block pc more some_ =>
    have blocks := inPool (Or.inl pc)
    have going : (if (block ++ [value]).length = params.capacity then PushPc.full else .push) = .full ∨
        (if (block ++ [value]).length = params.capacity then PushPc.full else .push) = .push := by
      split
      · exact Or.inl rfl
      · exact Or.inr rfl
    generalize (if (block ++ [value]).length = params.capacity then PushPc.full else .push) = next at going ⊢
    have goesOn := notStopped (Or.inl pc)
    refine ⟨⟨?_, fun _ => Option.some_ne_none _, fun _ => ?_, ?_, ?_, waits, hasQuit, ?_⟩, ?_⟩
    · rw [← content]
      rcases going with rfl | rfl <;> simp [OutputState.pending, pc, some_, more]
    · simpa only [some_, inUse] using blocks
    · intro notPush notFull
      rcases going with full | push
      · exact absurd full notFull
      · exact absurd push notPush
    · rcases going with rfl | rfl <;> simp [goesOn]
    · rcases going with rfl | rfl <;> simp
    · rcases going with rfl | rfl <;> simp only [OutputState.work, pc, some_, more, inUse, List.length_cons] <;> omega
  | @pushBlock block pc some_ mutex =>
    have blocks := inPool (Or.inr pc)
    have goesOn := notStopped (Or.inr (Or.inl pc))
    refine ⟨⟨?_, nofun, fun _ => ?_, fun notPush => absurd rfl notPush, by simp [goesOn], ?_, ?_, nofun⟩, ?_⟩
    · rw [← content]
      simp [OutputState.pending, pc, some_]
    · simp only [some_, inUse, OutputPc.taken_notify, List.length_append, List.length_singleton] at blocks ⊢
      omega
    · exact fun asleep => absurd asleep (OutputPc.notify_ne_wait mutex)
    · intro quit
      exact absurd (hasQuit ((OutputPc.notify_eq_quit _).mp quit)).1 goesOn
    · cases loop : st.loop <;>
        simp only [OutputState.work, pc, some_, loop, inUse, OutputPc.notify, List.length_append,
          List.length_singleton] <;>
        omega
  | close pc ended =>
    rw [pc] at stopped
    refine ⟨⟨?_, nofun, by simp, fun _ _ => ended, by simpa using stopped, waits, hasQuit, nofun⟩, ?_⟩
    · simpa [OutputState.pending, pc] using content
    · simp [OutputState.work, pc]
  | noBlock pc null =>
    rw [pc] at stopped
    refine ⟨⟨?_, nofun, by simp, fun _ _ => noneLeft (by simp [pc]) (by simp [pc]), by simpa using stopped, waits,
      hasQuit, nofun⟩, ?_⟩
    · simpa [OutputState.pending, pc, null] using content
    · simp [OutputState.work, pc]
  | @lastBlock block pc some_ mutex =>
    have goesOn := notStopped (Or.inr (Or.inr pc))
    refine ⟨⟨?_, nofun, by simp, fun _ _ => noneLeft (by simp [pc]) (by simp [pc]), by simp [goesOn], ?_, ?_,
      nofun⟩, ?_⟩
    · rw [← content]
      simp [OutputState.pending, pc, some_]
    · exact fun asleep => absurd asleep (OutputPc.notify_ne_wait mutex)
    · intro quit
      exact absurd (hasQuit ((OutputPc.notify_eq_quit _).mp quit)).1 goesOn
    · cases loop : st.loop <;>
        simp only [OutputState.work, pc, loop, OutputPc.notify, List.length_append, List.length_singleton] <;>
        omega
  | stop pc =>
    refine ⟨⟨?_, nofun, by simp, fun _ _ => noneLeft (by simp [pc]) (by simp [pc]), by simp, waits,
      fun quit => ⟨rfl, (hasQuit quit).2⟩, nofun⟩, ?_⟩
    · simpa [OutputState.pending, pc] using content
    · simp [OutputState.work, pc]
  | notify pc =>
    have isStopped := stopped.mpr (Or.inl pc)
    refine ⟨⟨?_, nofun, by simp, fun _ _ => noneLeft (by simp [pc]) (by simp [pc]), by simp [isStopped], ?_, ?_,
      nofun⟩, ?_⟩
    · simpa [OutputState.pending, pc] using content
    · cases loop : st.loop <;> simp_all [OutputPc.notify]
    · exact fun quit => hasQuit ((OutputPc.notify_eq_quit _).mp quit)
    · cases loop : st.loop <;> simp only [OutputState.work, pc, loop, OutputPc.notify] <;> omega
  | join pc quit =>
    have isStopped := stopped.mpr (Or.inr (Or.inl pc))
    refine ⟨⟨?_, nofun, by simp, fun _ _ => noneLeft (by simp [pc]) (by simp [pc]), by simp [isStopped], waits, hasQuit,
      fun _ => quit⟩, ?_⟩
    · simpa [OutputState.pending, pc] using content
    · simp [OutputState.work, pc]

theorem OutputStep.keeps (inv : OutputInv params values st) (step : OutputStep st st') :
    OutputInv params values st' ∧ st'.work < st.work := by
  obtain ⟨content, isFull, inPool, noneLeft, stopped, waits, hasQuit, isClosed⟩ := inv
  have running : st.loop ≠ .quit → st.pc ≠ .closed := fun notQuit closed => notQuit (isClosed closed)
  cases step with
  | test loop empty goesOn =>
    refine ⟨⟨?_, isFull, ?_, noneLeft, stopped, fun _ => empty, nofun, ?_⟩, ?_⟩
    · simpa [OutputState.pending, OutputPc.taken, loop] using content
    · simpa [OutputPc.taken, loop] using inPool
    · exact fun closed => absurd closed (running (by simp [loop]))
    · simp [OutputState.work, loop]
  | wait loop =>
    refine ⟨⟨?_, isFull, ?_, noneLeft, stopped, fun _ => waits (Or.inl loop), nofun, ?_⟩, ?_⟩
    · simpa [OutputState.pending, OutputPc.taken, loop] using content
    · simpa [OutputPc.taken, loop] using inPool
    · exact fun closed => absurd closed (running (by simp [loop]))
    · simp [OutputState.work, loop]
  | pop loop front =>
    refine ⟨⟨?_, isFull, fun pc => ?_, noneLeft, stopped, by simp, nofun, ?_⟩, ?_⟩
    · simpa [OutputState.pending, OutputPc.taken, loop, front] using content
    · have blocks := inPool pc
      simp only [OutputPc.taken, loop, front, inUse, List.length_cons] at blocks ⊢
      omega
    · exact fun closed => absurd closed (running (by simp [loop]))
    · simp only [OutputState.work, loop, front, List.length_cons]
      omega
  | write loop =>
    refine ⟨⟨?_, isFull, fun pc => ?_, noneLeft, stopped, by simp, nofun, ?_⟩, ?_⟩
    · simpa [OutputState.pending, OutputPc.taken, loop] using content
    · have blocks := inPool pc
      simp only [OutputPc.taken, loop, inUse] at blocks ⊢
      omega
    · exact fun closed => absurd closed (running (by simp [loop]))
    · simp [OutputState.work, loop]
  | quit loop empty isStopped =>
    refine ⟨⟨?_, isFull, ?_, noneLeft, stopped, by simp, fun _ => ⟨isStopped, empty⟩, fun _ => rfl⟩, ?_⟩
    · simpa [OutputState.pending, OutputPc.taken, loop] using content
    · simpa [OutputPc.taken, loop] using inPool
    · simp [OutputState.work, loop]

theorem SpuriousWake.keeps (inv : OutputInv params values st) (step : SpuriousWake st st') :
    OutputInv params values st' := by
  obtain ⟨content, isFull, inPool, noneLeft, stopped, waits, hasQuit, isClosed⟩ := inv
  cases step with
  | wake loop =>
    refine ⟨?_, isFull, ?_, noneLeft, stopped, by simp, nofun, fun closed => ?_⟩
    · simpa [OutputState.pending, OutputPc.taken, loop] using content
    · simpa [OutputPc.taken, loop] using inPool
    · exact absurd (loop.symm.trans (isClosed closed)) (by simp)

theorem PushStep.goesOn (step : PushStep params st st') : st.pc ≠ .closed ∧ (st.pc = .join → st.loop = .quit) := by
  cases step with
  | allocate pc => simp [pc]
  | pushBack pc => simp [pc]
  | pushBlock pc => simp [pc]
  | close pc => simp [pc]
  | noBlock pc => simp [pc]
  | lastBlock pc => simp [pc]
  | stop pc => simp [pc]
  | notify pc => simp [pc]
  | join pc quit => simp [pc, quit]

theorem OutputStep.goesOn (step : OutputStep st st') : st.loop ≠ .asleep ∧ st.loop ≠ .quit := by
  cases step with
  | test loop => simp [loop]
  | wait loop => simp [loop]
  | pop loop => simp [loop]
  | write loop => simp [loop]
  | quit loop => simp [loop]

/-- `OutputLoop` goes on unless it is asleep or has quit. -/
theorem OutputStep.can (awake : st.loop ≠ .asleep) (runs : st.loop ≠ .quit) : ∃ st', OutputStep st st' := by
  cases loop : st.loop with
  | test =>
    cases front : st.queue with
    | cons block queue => exact ⟨_, .pop loop front⟩
    | nil =>
      cases stopped : st.stopped with
      | false => exact ⟨_, .test loop front stopped⟩
      | true => exact ⟨_, .quit loop front stopped⟩
  | wait => exact ⟨_, .wait loop⟩
  | asleep => exact absurd loop awake
  | write block => exact ⟨_, .write loop⟩
  | quit => exact absurd loop runs

/-- Where `OutputLoop` cannot go on, the other thread can, unless it waits for it. -/
theorem PushStep.can (inv : OutputInv params values st) (blocked : st.loop = .asleep ∨ st.loop = .quit)
    (goesOn : st.pc ≠ .closed) (noJoin : st.pc = .join → st.loop ≠ .asleep) : ∃ st', PushStep params st st' := by
  have mutex : st.loop ≠ .wait := by
    rcases blocked with loop | loop <;> simp [loop]
  cases pc : st.pc with
  | push =>
    cases more : st.values with
    | nil => exact ⟨_, .close pc more⟩
    | cons value rest =>
      cases block : st.block with
      | some block => exact ⟨_, .pushBack pc more block⟩
      | none =>
        refine ⟨_, .allocate pc (by simp [more]) block ?_⟩
        have blocks := inv.inPool (Or.inl pc)
        have empty : st.queue = [] := by
          rcases blocked with asleep | quit
          · exact inv.waits (Or.inr asleep)
          · exact (inv.hasQuit quit).2
        have positive := params.memblocks_pos
        rcases blocked with loop | loop <;> simp [block, empty, loop, inUse, OutputPc.taken] at blocks <;> omega
  | full =>
    obtain ⟨block, some_⟩ := Option.ne_none_iff_exists'.mp (inv.isFull pc)
    exact ⟨_, .pushBlock pc some_ mutex⟩
  | close =>
    cases block : st.block with
    | none => exact ⟨_, .noBlock pc block⟩
    | some block => exact ⟨_, .lastBlock pc block mutex⟩
  | stop => exact ⟨_, .stop pc⟩
  | notify => exact ⟨_, .notify pc⟩
  | join =>
    rcases blocked with asleep | quit
    · exact absurd asleep (noJoin pc)
    · exact ⟨_, .join pc quit⟩
  | closed => exact absurd pc goesOn

/-- A step can be made unless `Close` waits for a thread that sleeps. -/
theorem OutputInv.can (inv : OutputInv params values st) (goesOn : st.pc ≠ .closed)
    (noJoin : st.pc = .join → st.loop ≠ .asleep) : ∃ st', CalmWriteStep params st st' := by
  by_cases blocked : st.loop = .asleep ∨ st.loop = .quit
  · obtain ⟨st', step⟩ := PushStep.can inv blocked goesOn noJoin
    refine ⟨st', Or.inl ⟨step, fun lost => ?_⟩⟩
    rcases blocked with loop | loop
    · exact absurd (loop.symm.trans lost.2) (by simp)
    · exact absurd (loop.symm.trans lost.2) (by simp)
  · rw [not_or] at blocked
    obtain ⟨st', step⟩ := OutputStep.can blocked.1 blocked.2
    exact ⟨st', Or.inr step⟩

theorem OutputInv.written (inv : OutputInv params values st) (loop : st.loop = .quit ∨ st.loop = .asleep)
    (pc : st.pc = .join ∨ st.pc = .closed) : st.file = values := by
  have empty : st.queue = [] := by
    rcases loop with quit | asleep
    · exact (inv.hasQuit quit).2
    · exact inv.waits (Or.inr asleep)
  have none_ : st.values = [] := by
    rcases pc with pc | pc <;> exact inv.noneLeft (by simp [pc]) (by simp [pc])
  have content := inv.content
  rcases loop with loop | loop <;> rcases pc with pc | pc <;>
    simpa [empty, none_, loop, pc, OutputPc.taken, OutputState.pending] using content

/-- Nobody sleeps behind the notification of `Close`. -/
structure CalmOutputInv (params : BlockPool) (values : List α) (st : OutputState α) : Prop extends
    OutputInv params values st where
  noLate : st.pc = .join → st.loop ≠ .wait ∧ st.loop ≠ .asleep

theorem CalmWriteStep.keeps (inv : CalmOutputInv params values st) (step : CalmWriteStep params st st') :
    CalmOutputInv params values st' ∧ st'.work < st.work := by
  rcases step with ⟨push, calm⟩ | output
  · obtain ⟨kept, less⟩ := push.keeps inv.toOutputInv
    refine ⟨⟨kept, fun join => ?_⟩, less⟩
    cases push with
    | pushBack pc more some_ =>
      simp only at join
      split at join <;> simp at join
    | notify pc => exact not_or.mp (OutputPc.notify_ne_wait fun waits => calm ⟨pc, waits⟩)
    | allocate pc => exact absurd (pc.symm.trans join) (by simp)
    | pushBlock pc => simp at join
    | close pc => simp at join
    | noBlock pc => simp at join
    | lastBlock pc => simp at join
    | stop pc => simp at join
    | join pc => simp at join
  · obtain ⟨kept, less⟩ := output.keeps inv.toOutputInv
    refine ⟨⟨kept, fun join => ?_⟩, less⟩
    cases output with
    | test loop empty goesOn =>
      rw [inv.stopped.mpr (Or.inr (Or.inl join))] at goesOn
      exact absurd goesOn (by simp)
    | wait loop => exact absurd loop (inv.noLate join).1
    | pop loop front => simp
    | write loop => simp
    | quit loop empty stopped => simp

/-- If the notification of `Close` is not lost, `Close` returns, and the file has what was pushed. -/
theorem output_writes (params : BlockPool) (values : List α) :
    AlwaysEnds (CalmWriteStep params) (fun st => st.pc = .closed) (fun st => st.file = values)
      (outputStart params values) := by
  have start : CalmOutputInv params values (outputStart params values) :=
    ⟨outputInv_start params values, by simp [outputStart]⟩
  refine AlwaysEnds.of_running_invariant (CalmOutputInv params values) OutputState.work start (by simp [outputStart]) ?_ ?_
    fun st st' inv _ step => step.keeps inv
  · intro st inv goesOn
    exact inv.toOutputInv.can goesOn fun join => (inv.noLate join).2
  · intro st inv closed
    exact inv.toOutputInv.written (Or.inl (inv.isClosed closed)) (Or.inr closed)

/-- A run of the two threads, in which a thread may wake up unasked. -/
def Writes (params : BlockPool) : OutputState α → OutputState α → Prop :=
  ReflTransGen fun st st' => WriteStep params st st' ∨ SpuriousWake st st'

theorem OutputInv.of_writes (run : Writes params (outputStart params values) st) : OutputInv params values st := by
  induction run with
  | refl => exact outputInv_start params values
  | tail _ step ih =>
    rcases step with (push | output) | wake
    · exact (push.keeps ih).1
    · exact (output.keeps ih).1
    · exact wake.keeps ih

/-- The threads are stuck where the notification of `Close` was lost, and only there. Whether they are or have come to
the end, all that was pushed is in the file. -/
theorem output_stuck (run : Writes params (outputStart params values) st) :
    ((¬∃ st', WriteStep params st st') ↔ st.pc = .closed ∨ st.pc = .join ∧ st.loop = .asleep) ∧
      ((¬∃ st', WriteStep params st st') → st.file = values) := by
  have inv := OutputInv.of_writes run
  have stuck : (¬∃ st', WriteStep params st st') ↔ st.pc = .closed ∨ st.pc = .join ∧ st.loop = .asleep := by
    constructor
    · intro stuck
      by_contra goesOn
      obtain ⟨closed, asleep⟩ := not_or.mp goesOn
      obtain ⟨st', step⟩ := inv.can closed fun join loop => asleep ⟨join, loop⟩
      exact stuck ⟨st', step.imp_left And.left⟩
    · rintro ended ⟨st', push | output⟩
      · rcases ended with closed | ⟨join, asleep⟩
        · exact push.goesOn.1 closed
        · exact absurd (asleep.symm.trans (push.goesOn.2 join)) (by simp)
      · rcases ended with closed | ⟨join, asleep⟩
        · exact output.goesOn.2 (inv.isClosed closed)
        · exact output.goesOn.1 asleep
  refine ⟨stuck, fun none_ => ?_⟩
  rcases stuck.mp none_ with closed | ⟨join, asleep⟩
  · exact inv.written (Or.inl (inv.isClosed closed)) (Or.inr closed)
  · exact inv.written (Or.inr asleep) (Or.inl join)

/-- A stream to which nothing was pushed can get stuck. -/
theorem writes_stuck (params : BlockPool) :
    Writes params (outputStart params ([] : List α)) ⟨.join, .asleep, [], none, [], params.memblocks, true, []⟩ := by
  refine ReflTransGen.head (Or.inl (Or.inl (.close rfl rfl))) ?_
  refine ReflTransGen.head (Or.inl (Or.inl (.noBlock rfl rfl))) ?_
  refine ReflTransGen.head (Or.inl (Or.inr (.test rfl rfl rfl))) ?_
  refine ReflTransGen.head (Or.inl (Or.inl (.stop rfl))) ?_
  refine ReflTransGen.head (Or.inl (Or.inl (.notify rfl))) ?_
  exact ReflTransGen.single (Or.inl (Or.inr (.wait rfl)))

theorem output_stuck_empty : ∃ st : OutputState Nat, Writes ⟨2, 4, by decide, by decide⟩
    (outputStart ⟨2, 4, by decide, by decide⟩ []) st ∧ st.pc = .join ∧
      ¬∃ st', WriteStep ⟨2, 4, by decide, by decide⟩ st st' :=
  ⟨_, writes_stuck _, rfl, (output_stuck (writes_stuck _)).1.mpr (Or.inr ⟨rfl, rfl⟩)⟩

/-! ## Reading -/

/-- The block that was read and is not in the queue yet. -/
def InputPc.filled : InputPc α → Option (List α)
  | .push block => some block
  | .read => some []
  | .free => some []
  | _ => none

/-- What the stream has yet to deliver. -/
def InputState.remaining (st : InputState α) : List α :=
  st.block.getD [] ++ st.queue.flatten ++ st.loop.filled.getD [] ++ st.file

variable {all : List α} {rst rst' : InputState α}

/-- `InputLoop` takes nothing away and adds nothing. -/
theorem InputStep.refines (step : InputStep params rst rst') :
    rst'.values = rst.values ∧ rst'.remaining = rst.remaining := by
  cases step with
  | read loop =>
    refine ⟨rfl, ?_⟩
    by_cases empty : rst.file.take params.capacity = []
    · have whole := List.take_append_drop params.capacity rst.file
      rw [empty, List.nil_append] at whole
      simp [InputState.remaining, InputPc.filled, loop, empty, whole]
    · simp [InputState.remaining, InputPc.filled, loop, empty]
  | test loop => exact ⟨rfl, by simp [InputState.remaining, InputPc.filled, loop]⟩
  | allocate loop => exact ⟨rfl, by simp [InputState.remaining, InputPc.filled, loop]⟩
  | free loop => exact ⟨rfl, by simp [InputState.remaining, InputPc.filled, loop]⟩
  | push loop => exact ⟨rfl, by simp [InputState.remaining, InputPc.filled, loop]⟩
  | pastEnd loop => exact ⟨rfl, by simp [InputState.remaining, InputPc.filled, loop]⟩
  | finish loop => exact ⟨rfl, by simp [InputState.remaining, InputPc.filled, loop]⟩

/-- What holds in front of every step of a stream that reads. -/
structure InputInv (params : BlockPool) (all : List α) (st : InputState α) : Prop where
  content : st.values ++ st.remaining = all
  someIn : st.block ≠ some [] ∧ [] ∉ st.queue ∧ st.loop ≠ .push []
  isFront : st.pc = .front → st.block ≠ none
  waits : st.pc = .wait ∨ st.pc = .asleep → st.block = none ∧ st.queue = [] ∧ st.empty = false
  inPool : st.pool + st.queue.length + inUse st.block + inUse st.loop.filled = params.memblocks
  atEnd : st.eof = true → st.file = []
  good : st.loop = .allocate ∨ st.loop = .read → st.eof = false
  pastEnd : st.loop = .finish ∨ st.loop = .quit → st.eof = true
  isEmpty : st.empty = true ↔ st.loop = .quit
  isEnded : st.pc = .ended → st.block = none ∧ st.queue = [] ∧ st.empty = true

/-- The work that is left. -/
def InputState.work (st : InputState α) : Nat :=
  9 * st.file.length + (if st.eof then 0 else 4) +
    2 * ((st.block.getD []).length + st.queue.flatten.length + (st.loop.filled.getD []).length) +
    (match st.loop with
    | .quit => 0
    | .read => 2
    | .finish => 3
    | .allocate => 3
    | .test => 4
    | .free => 5
    | .push _ => 7) +
    match st.pc with
    | .ended => 0
    | .asleep => 0
    | .front => 1
    | .wait => 1
    | .empty => 2

theorem ReadPc.notify_ne_wait {pc : ReadPc} (awake : pc ≠ .wait) : ¬(pc.notify = .wait ∨ pc.notify = .asleep) := by
  cases pc <;> simp_all [ReadPc.notify]

theorem ReadPc.notify_eq_front (pc : ReadPc) : pc.notify = .front ↔ pc = .front := by
  cases pc <;> simp [ReadPc.notify]

theorem ReadPc.notify_eq_ended (pc : ReadPc) : pc.notify = .ended ↔ pc = .ended := by
  cases pc <;> simp [ReadPc.notify]

theorem inputInv_start (params : BlockPool) (all : List α) : InputInv params all (inputStart params all) where
  content := rfl
  someIn := by simp [inputStart]
  isFront := nofun
  waits := by simp [inputStart]
  inPool := rfl
  atEnd := nofun
  good _ := rfl
  pastEnd := by simp [inputStart]
  isEmpty := by simp [inputStart]
  isEnded := nofun

theorem InputStep.keeps (inv : InputInv params all rst) (step : InputStep params rst rst') :
    InputInv params all rst' ∧ rst'.work < rst.work := by
  have content' : rst'.values ++ rst'.remaining = all := by
    obtain ⟨sameValues, sameRemaining⟩ := step.refines
    rw [sameValues, sameRemaining, inv.content]
  obtain ⟨content, someIn, isFront, waits, inPool, atEnd, good, pastEnd, isEmpty, isEnded⟩ := inv
  have running : rst.loop ≠ .quit → rst.empty ≠ true ∧ rst.pc ≠ .ended := fun notQuit =>
    ⟨fun empty => notQuit (isEmpty.mp empty), fun ended => notQuit (isEmpty.mp (isEnded ended).2.2)⟩
  cases step with
  | test loop good =>
    rw [loop] at isEmpty
    refine ⟨⟨content', ?_, isFront, waits, ?_, atEnd, fun _ => good, by simp, by simpa using isEmpty, isEnded⟩, ?_⟩
    · simpa [loop] using someIn
    · simpa [InputPc.filled, loop] using inPool
    · simp [InputState.work, InputPc.filled, loop]
  | allocate loop free =>
    rw [loop] at isEmpty
    refine ⟨⟨content', ?_, isFront, waits, ?_, atEnd, fun _ => good (Or.inl loop), by simp, by simpa using isEmpty,
      isEnded⟩, ?_⟩
    · simpa [loop] using someIn
    · simp only [InputPc.filled, loop, inUse] at inPool ⊢
      omega
    · simp [InputState.work, InputPc.filled, loop]
  | read loop =>
    rw [loop] at isEmpty
    have readable := good (Or.inr loop)
    have positive := params.capacity_pos
    have taken := List.take_append_drop params.capacity rst.file
    have lengths := congrArg List.length taken
    rw [List.length_append] at lengths
    have short : decide (rst.file.length < params.capacity) = true → rst.file.drop params.capacity = [] := by
      intro short
      exact List.drop_eq_nil_of_le (Nat.le_of_lt (of_decide_eq_true short))
    by_cases empty : rst.file.take params.capacity = []
    · have noFile : rst.file = [] := by
        rcases List.take_eq_nil_iff.mp empty with none_ | none_
        · omega
        · exact none_
      simp only [noFile, List.take_nil, List.drop_nil, List.isEmpty_nil, if_true] at content' ⊢
      refine ⟨⟨content', ?_, isFront, waits, ?_, fun _ => rfl, by simp, by simp, by simpa using isEmpty, isEnded⟩, ?_⟩
      · simpa [loop] using someIn
      · simpa [InputPc.filled, loop] using inPool
      · simp only [InputState.work, InputPc.filled, loop, noFile, readable, positive, Option.getD_some, List.length_nil,
          decide_true, Bool.false_eq_true, if_true, if_false]
        omega
    · have some_ : (rst.file.take params.capacity).isEmpty = false := by simpa using empty
      simp only [some_, Bool.false_eq_true, if_false] at content' ⊢
      refine ⟨⟨content', ?_, isFront, waits, ?_, short, by simp, by simp, by simpa using isEmpty, isEnded⟩, ?_⟩
      · exact ⟨someIn.1, someIn.2.1, fun same => empty (by simpa using same)⟩
      · simpa [InputPc.filled, loop, inUse] using inPool
      · have positive' := List.length_pos_of_ne_nil empty
        simp only [InputState.work, InputPc.filled, loop, readable, Option.getD_some, List.length_nil,
          Bool.false_eq_true, if_false]
        split <;> omega
  | free loop =>
    rw [loop] at isEmpty
    refine ⟨⟨content', ?_, isFront, waits, ?_, atEnd, by simp, by simp, by simpa using isEmpty, isEnded⟩, ?_⟩
    · simpa [loop] using someIn
    · simp only [InputPc.filled, loop, inUse] at inPool ⊢
      omega
    · simp [InputState.work, InputPc.filled, loop]
  | @push block loop mutex =>
    obtain ⟨goesOn, notEnded⟩ := running (by simp [loop])
    have some_ : block ≠ [] := fun none_ => someIn.2.2 (none_ ▸ loop)
    refine ⟨⟨content', ?_, ?_, ?_, ?_, atEnd, by simp, by simp, by simpa using goesOn, ?_⟩, ?_⟩
    · exact ⟨someIn.1, by simpa [some_] using someIn.2.1, by simp⟩
    · exact fun front => isFront ((ReadPc.notify_eq_front _).mp front)
    · exact fun asleep => absurd asleep (ReadPc.notify_ne_wait mutex)
    · simp only [InputPc.filled, loop, inUse, List.length_append, List.length_singleton] at inPool ⊢
      omega
    · exact fun ended => absurd ((ReadPc.notify_eq_ended _).mp ended) notEnded
    · cases pc : rst.pc <;>
        simp only [InputState.work, InputPc.filled, loop, pc, ReadPc.notify, Option.getD_some, Option.getD_none,
          List.flatten_append, List.flatten_singleton, List.length_append, List.length_nil] <;>
        omega
  | pastEnd loop bad =>
    rw [loop] at isEmpty
    refine ⟨⟨content', ?_, isFront, waits, ?_, atEnd, by simp, fun _ => bad, by simpa using isEmpty, isEnded⟩, ?_⟩
    · simpa [loop] using someIn
    · simpa [InputPc.filled, loop] using inPool
    · simp [InputState.work, InputPc.filled, loop]
  | finish loop mutex =>
    obtain ⟨goesOn, notEnded⟩ := running (by simp [loop])
    refine ⟨⟨content', ?_, ?_, ?_, ?_, atEnd, by simp, fun _ => pastEnd (Or.inl loop), by simp, ?_⟩, ?_⟩
    · simpa [loop] using someIn
    · exact fun front => isFront ((ReadPc.notify_eq_front _).mp front)
    · exact fun asleep => absurd asleep (ReadPc.notify_ne_wait mutex)
    · simpa [InputPc.filled, loop] using inPool
    · exact fun ended => absurd ((ReadPc.notify_eq_ended _).mp ended) notEnded
    · cases pc : rst.pc <;> simp [InputState.work, InputPc.filled, loop, pc, ReadPc.notify]

theorem PopStep.keeps (inv : InputInv params all rst) (step : PopStep rst rst') :
    InputInv params all rst' ∧ rst'.work < rst.work := by
  obtain ⟨content, someIn, isFront, waits, inPool, atEnd, good, pastEnd, isEmpty, isEnded⟩ := inv
  cases step with
  | hasBlock pc some_ =>
    refine ⟨⟨content, someIn, fun _ => some_, by simp, inPool, atEnd, good, pastEnd, isEmpty, nofun⟩, ?_⟩
    simp [InputState.work, pc]
  | test pc null none_ goesOn =>
    refine ⟨⟨content, someIn, nofun, fun _ => ⟨null, none_, goesOn⟩, inPool, atEnd, good, pastEnd, isEmpty, nofun⟩, ?_⟩
    simp [InputState.work, pc]
  | wait pc =>
    refine ⟨⟨content, someIn, nofun, fun _ => waits (Or.inl pc), inPool, atEnd, good, pastEnd, isEmpty, nofun⟩, ?_⟩
    simp [InputState.work, pc]
  | @takeBlock block queue pc null front =>
    have notEmpty := someIn.2.1
    rw [front, List.mem_cons, not_or] at notEmpty
    refine ⟨⟨?_, ⟨?_, notEmpty.2, someIn.2.2⟩, fun _ => Option.some_ne_none _, by simp, ?_, atEnd, good, pastEnd,
      isEmpty, nofun⟩, ?_⟩
    · simpa [InputState.remaining, null, front] using content
    · exact fun same => notEmpty.1 (Option.some.inj same).symm
    · simp only [null, front, inUse, List.length_cons] at inPool ⊢
      omega
    · simp [InputState.work, pc, null, front]
  | isEmpty pc null none_ empty =>
    refine ⟨⟨content, someIn, nofun, by simp, inPool, atEnd, good, pastEnd, isEmpty, fun _ => ⟨null, none_, empty⟩⟩, ?_⟩
    simp [InputState.work, pc]
  | pop pc some_ =>
    refine ⟨⟨?_, ⟨by simp, someIn.2⟩, nofun, by simp, ?_, atEnd, good, pastEnd, isEmpty, nofun⟩, ?_⟩
    · simpa [InputState.remaining, some_] using content
    · simpa [some_, inUse] using inPool
    · simp only [InputState.work, pc, some_, Option.getD_some, List.length_cons]
      omega
  | popBlock pc some_ =>
    refine ⟨⟨?_, ⟨by simp, someIn.2⟩, nofun, by simp, ?_, atEnd, good, pastEnd, isEmpty, nofun⟩, ?_⟩
    · simpa [InputState.remaining, some_] using content
    · simp only [some_, inUse] at inPool ⊢
      omega
    · simp only [InputState.work, pc, some_, Option.getD_some, Option.getD_none, List.length_cons, List.length_nil]
      omega

/-- The thread that reads goes on unless it is asleep or has come to the end. -/
theorem PopStep.can (inv : InputInv params all rst) (awake : rst.pc ≠ .asleep) (goesOn : rst.pc ≠ .ended) :
    ∃ rst', PopStep rst rst' := by
  cases pc : rst.pc with
  | empty =>
    by_cases null : rst.block = none
    · cases front : rst.queue with
      | cons block queue => exact ⟨_, .takeBlock pc null front⟩
      | nil =>
        cases empty : rst.empty with
        | false => exact ⟨_, .test pc null front empty⟩
        | true => exact ⟨_, .isEmpty pc null front empty⟩
    · exact ⟨_, .hasBlock pc null⟩
  | wait => exact ⟨_, .wait pc⟩
  | asleep => exact absurd pc awake
  | front =>
    obtain ⟨block, some_⟩ := Option.ne_none_iff_exists'.mp (inv.isFront pc)
    match block, some_ with
    | [], some_ => exact absurd some_ inv.someIn.1
    | [_], some_ => exact ⟨_, .popBlock pc some_⟩
    | _ :: _ :: _, some_ => exact ⟨_, .pop pc some_⟩
  | ended => exact absurd pc goesOn

/-- Where the other thread sleeps, all blocks are in the pool or with `InputLoop`. -/
theorem InputStep.can (inv : InputInv params all rst) (asleep : rst.pc = .asleep) :
    ∃ rst', InputStep params rst rst' := by
  obtain ⟨null, none_, goesOn⟩ := inv.waits (Or.inr asleep)
  have mutex : rst.pc ≠ .wait := by simp [asleep]
  cases loop : rst.loop with
  | test =>
    cases eof : rst.eof with
    | false => exact ⟨_, .test loop eof⟩
    | true => exact ⟨_, .pastEnd loop eof⟩
  | allocate =>
    refine ⟨_, .allocate loop ?_⟩
    have blocks := inv.inPool
    have positive := params.memblocks_pos
    simp only [null, none_, loop, inUse, InputPc.filled, List.length_nil] at blocks
    omega
  | read => exact ⟨_, .read loop⟩
  | free => exact ⟨_, .free loop⟩
  | push block => exact ⟨_, .push loop mutex⟩
  | finish => exact ⟨_, .finish loop mutex⟩
  | quit =>
    rw [inv.isEmpty.mpr loop] at goesOn
    exact absurd goesOn (by simp)

/-- Whatever the two threads do, `Empty` comes to say so, and what was read is what the file had. -/
theorem input_reads (params : BlockPool) (file : List α) :
    AlwaysEnds (ReadStep params) (fun st => st.pc = .ended) (fun st => st.values = file) (inputStart params file) := by
  refine AlwaysEnds.of_running_invariant (InputInv params file) InputState.work (inputInv_start params file)
    (by simp [inputStart]) ?_ ?_ ?_
  · intro st inv goesOn
    by_cases asleep : st.pc = .asleep
    · obtain ⟨st', step⟩ := InputStep.can inv asleep
      exact ⟨st', Or.inl step⟩
    · obtain ⟨st', step⟩ := PopStep.can inv asleep goesOn
      exact ⟨st', Or.inr step⟩
  · intro st inv ended
    obtain ⟨null, none_, empty⟩ := inv.isEnded ended
    have quit := inv.isEmpty.mp empty
    have content := inv.content
    simpa [InputState.remaining, null, none_, quit, InputPc.filled, inv.atEnd (inv.pastEnd (Or.inr quit))] using content
  · intro st st' inv _ step
    rcases step with input | pop
    · exact input.keeps inv
    · exact pop.keeps inv

/-! ## A stream as the list of its records -/

theorem InputInv.of_reads {file : List α} (run : ReflTransGen (ReadStep params) (inputStart params file) rst) :
    InputInv params file rst := by
  induction run with
  | refl => exact inputInv_start params file
  | tail _ step ih =>
    rcases step with input | pop
    · exact (input.keeps ih).1
    · exact (pop.keeps ih).1

theorem InputInv.remaining_eq (inv : InputInv params all rst) : rst.remaining = all.drop rst.values.length := by
  rw [← inv.content, List.drop_left]

/-- `Pop` of the stream is that of the list. -/
theorem PopStep.refines [Inhabited α] (step : PopStep rst rst') {mem : Nat → List α} {s : Nat}
    (same : mem s = rst.remaining) :
    (rst.pc ≠ .front ∧ rst'.values = rst.values ∧ rst'.remaining = mem s) ∨
      (rst.pc = .front ∧ rst'.values = rst.values ++ [ExternalSort.front mem s] ∧ rst'.remaining = (mem s).tail) := by
  rw [ExternalSort.front, same]
  cases step with
  | hasBlock pc some_ => exact Or.inl ⟨by simp [pc], rfl, rfl⟩
  | test pc null none_ goesOn => exact Or.inl ⟨by simp [pc], rfl, rfl⟩
  | wait pc => exact Or.inl ⟨by simp [pc], rfl, rfl⟩
  | takeBlock pc null front => exact Or.inl ⟨by simp [pc], rfl, by simp [InputState.remaining, null, front]⟩
  | isEmpty pc null none_ empty => exact Or.inl ⟨by simp [pc], rfl, rfl⟩
  | pop pc some_ => exact Or.inr ⟨pc, by simp [InputState.remaining, some_], by simp [InputState.remaining, some_]⟩
  | popBlock pc some_ => exact Or.inr ⟨pc, by simp [InputState.remaining, some_], by simp [InputState.remaining, some_]⟩

/-- `Empty`, `Front` and `Pop` of the stream are those of the list that `merge_streams` is modelled with. -/
theorem input_refines [Inhabited α] {file : List α}
    (run : ReflTransGen (ReadStep params) (inputStart params file) rst) (mem : Nat → List α) (s : Nat)
    (same : mem s = file.drop rst.values.length) :
    (rst.pc = .front → (mem s).isEmpty = false ∧ ∃ rest, rst.block = some (ExternalSort.front mem s :: rest)) ∧
      (rst.pc = .ended → (mem s).isEmpty = true) ∧
      ∀ rst', ReadStep params rst rst' → rst'.values = rst.values ∨
        rst.pc = .front ∧ rst'.values = rst.values ++ [ExternalSort.front mem s] ∧
          (mem s).tail = file.drop rst'.values.length := by
  have inv := InputInv.of_reads run
  rw [← inv.remaining_eq] at same
  refine ⟨?_, ?_, ?_⟩
  · intro front
    obtain ⟨block, some_⟩ := Option.ne_none_iff_exists'.mp (inv.isFront front)
    obtain ⟨value, rest, rfl⟩ := List.exists_cons_of_ne_nil fun none_ => inv.someIn.1 (none_ ▸ some_)
    have first : mem s = value :: (rest ++ rst.queue.flatten ++ rst.loop.filled.getD [] ++ rst.file) := by
      rw [same, InputState.remaining, some_]
      rfl
    refine ⟨by rw [first]; rfl, rest, ?_⟩
    rw [some_, ExternalSort.front, first]
    rfl
  · intro ended
    obtain ⟨null, none_, empty⟩ := inv.isEnded ended
    have quit := inv.isEmpty.mp empty
    rw [same, InputState.remaining, null, none_, quit, inv.atEnd (inv.pastEnd (Or.inr quit))]
    rfl
  · rintro rst' (input | pop)
    · exact Or.inl input.refines.1
    · rcases pop.refines same with ⟨_, values, _⟩ | ⟨front, values, remaining⟩
      · exact Or.inl values
      · refine Or.inr ⟨front, values, ?_⟩
        rw [← remaining, (pop.keeps inv).1.remaining_eq]

/-- The first block of a file is in the hands of the thread that reads. -/
theorem reads_one : ReflTransGen (ReadStep ⟨1, 1, by decide, by decide⟩) (inputStart ⟨1, 1, by decide, by decide⟩ [7])
    ⟨.front, .test, [], false, 0, [], false, some [7], []⟩ := by
  refine ReflTransGen.head (Or.inl (.test rfl rfl)) ?_
  refine ReflTransGen.head (Or.inl (.allocate rfl (by decide))) ?_
  refine ReflTransGen.head (Or.inl (.read rfl)) ?_
  refine ReflTransGen.head (Or.inl (.push rfl (by decide))) ?_
  exact ReflTransGen.single (Or.inr (.takeBlock rfl rfl rfl))

theorem input_refines_one : ∃ rest, some [7] = some (ExternalSort.front (fun _ => [7]) 0 :: rest) :=
  ((input_refines reads_one (fun _ => [7]) 0 rfl).1 rfl).2

end BlockStream

end MBFGraph
