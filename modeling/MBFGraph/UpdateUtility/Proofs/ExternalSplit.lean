import MBFGraph.UpdateUtility.ExternalSort

/-!
# Splitting, proved

In every order of steps `split` comes to its end, and the files that were collected together with those that are
ready are the sorted blocks. A file can be left behind: where the last threads end between `Ready` and `Running`,
neither test sees them.
-/

namespace MBFGraph

namespace ExternalSort

open KWayMerge NondetLoop

variable {α : Type} {comp : α → α → Bool} {sort : StdSort comp} {input : List (List α)} {st st' : SplitState α}

/-! ## The blocks of the file -/

theorem inputLoop_spec {capacity fuel : Nat} (positive : 0 < capacity) {file : List α} (enough : file.length < fuel) :
    (inputLoop capacity fuel file).flatten = file ∧ ∀ block ∈ inputLoop capacity fuel file, block ≠ [] := by
  induction fuel generalizing file with
  | zero => exact absurd enough (Nat.not_lt_zero _)
  | succ fuel ih =>
    have rest : (if file.length < capacity then [] else inputLoop capacity fuel (file.drop capacity)).flatten =
          file.drop capacity ∧
        ∀ block ∈ if file.length < capacity then [] else inputLoop capacity fuel (file.drop capacity), block ≠ [] := by
      split
      · rename_i short
        rw [List.drop_eq_nil_of_le short.le]
        exact ⟨rfl, fun block member => absurd member List.not_mem_nil⟩
      · exact ih (by rw [List.length_drop]; omega)
    unfold inputLoop
    by_cases empty : (file.take capacity).isEmpty = true
    · have nothing : file.take capacity = [] := List.isEmpty_iff.mp empty
      have whole := List.take_append_drop capacity file
      rw [nothing, List.nil_append] at whole
      simp only [if_pos empty]
      exact ⟨rest.1.trans whole, rest.2⟩
    · simp only [if_neg empty]
      refine ⟨?_, fun block member => ?_⟩
      · rw [List.flatten_cons, rest.1, List.take_append_drop]
      · rcases List.mem_cons.mp member with rfl | later
        · exact fun nothing => empty (List.isEmpty_iff.mpr nothing)
        · exact rest.2 block later

/-! ## The steps -/

/-- What holds in front of every step of `split`. -/
structure SplitInv (sort : StdSort comp) (input : List (List α)) (st : SplitState α) : Prop where
  content : (st.ofiles ++ st.ready ++ (st.running ++ st.blocks).map sort.sort).Perm (input.map sort.sort)
  awaited : st.pc = .getAny → st.ready ≠ [] ∨ st.running ≠ []
  seenAll : st.pc = .whileMore ∨ st.pc = .closed → st.blocks = [] → st.running = []
  seenEnd : st.pc = .closed → st.blocks = []

/-- Where nothing is left to be started, and no thread ended unseen, nothing is ready. -/
structure CalmInv (sort : StdSort comp) (input : List (List α)) (st : SplitState α) : Prop extends
    SplitInv sort input st where
  noneReady : st.pc = .running ∨ st.pc = .whileMore ∨ st.pc = .closed → st.blocks = [] → st.ready = []

/-- The work that is left. -/
def SplitState.work (st : SplitState α) : Nat :=
  8 * st.blocks.length + 4 * (st.running.length + st.ready.length) + st.running.length +
    match st.pc with
    | .ready => 3
    | .running => 2
    | .whileMore => 1
    | .getAny => 0
    | .closed => 0

theorem splitInv_start : SplitInv sort input (splitStart input) where
  content := List.Perm.refl _
  awaited := nofun
  seenAll _ _ := rfl
  seenEnd := nofun

theorem SplitMain.keeps (inv : SplitInv sort input st) (step : SplitMain st st') :
    SplitInv sort input st' ∧ st'.work < st.work := by
  obtain ⟨content, awaited, seenAll, seenEnd⟩ := inv
  cases step with
  | close pc ended =>
    refine ⟨⟨content, nofun, fun _ => seenAll (Or.inl pc), fun _ => ended⟩, ?_⟩
    simp [SplitState.work, pc]
  | @async block blocks pc more =>
    refine ⟨⟨?_, nofun, by simp, nofun⟩, ?_⟩
    · simp only [more] at content
      simpa using content
    · simp only [SplitState.work, pc, more, List.length_append, List.length_cons, List.length_nil]
      omega
  | someReady pc some_ =>
    refine ⟨⟨content, fun _ => Or.inl some_, by simp, nofun⟩, ?_⟩
    simp [SplitState.work, pc]
  | noneReady pc none_ =>
    refine ⟨⟨content, nofun, by simp, nofun⟩, ?_⟩
    simp [SplitState.work, pc]
  | await pc some_ ended =>
    refine ⟨⟨content, fun _ => Or.inr some_, by simp, nofun⟩, ?_⟩
    simp [SplitState.work, pc]
  | goOn pc no =>
    refine ⟨⟨content, nofun, fun _ ended => ?_, nofun⟩, ?_⟩
    · exact not_not.mp fun some_ => no ⟨some_, ended⟩
    · simp [SplitState.work, pc]
  | @collect file ready pc some_ =>
    refine ⟨⟨?_, nofun, by simp, nofun⟩, ?_⟩
    · simp only [some_] at content
      simpa using content
    · simp only [SplitState.work, pc, some_, List.length_cons]
      omega

theorem SplitTask.keeps (inv : SplitInv sort input st) (step : SplitTask comp sort st st') :
    SplitInv sort input st' ∧ st'.work < st.work := by
  obtain ⟨content, awaited, seenAll, seenEnd⟩ := inv
  cases step with
  | @finish before behind block runs =>
    refine ⟨⟨?_, fun _ => Or.inl (by simp), fun pc ended => ?_, seenEnd⟩, ?_⟩
    · refine List.Perm.trans ?_ content
      rw [runs]
      simp only [List.map_append, List.map_cons, List.append_assoc, List.cons_append, List.nil_append]
      refine ((List.perm_middle.symm).append_left st.ready).append_left st.ofiles |>.trans ?_
      exact List.Perm.refl _
    · rw [seenAll pc ended] at runs
      exact absurd runs.symm (by simp)
    · simp only [SplitState.work, runs, List.length_append, List.length_cons, List.length_nil]
      omega

/-- `GetAny` never waits for nothing. -/
theorem SplitInv.can (inv : SplitInv sort input st) (goesOn : st.pc ≠ .closed) : ∃ st', CalmStep comp sort st st' := by
  cases pc : st.pc with
  | whileMore =>
    cases more : st.blocks with
    | nil => exact ⟨_, Or.inl (.close pc more)⟩
    | cons block blocks => exact ⟨_, Or.inl (.async pc more)⟩
  | ready =>
    by_cases none_ : st.ready = []
    · exact ⟨_, Or.inl (.noneReady pc none_)⟩
    · exact ⟨_, Or.inl (.someReady pc none_)⟩
  | running =>
    by_cases waits : st.running ≠ [] ∧ st.blocks = []
    · exact ⟨_, Or.inl (.await pc waits.1 waits.2)⟩
    · exact ⟨_, Or.inl (.goOn pc waits)⟩
  | getAny =>
    cases some_ : st.ready with
    | cons file ready => exact ⟨_, Or.inl (.collect pc some_)⟩
    | nil =>
      rcases inv.awaited pc with isReady | isRunning
      · exact absurd some_ isReady
      · obtain ⟨block, behind, runs⟩ := List.exists_cons_of_ne_nil isRunning
        have task := @SplitTask.finish _ comp sort st [] behind block runs
        exact ⟨_, Or.inr ⟨task, fun between => absurd (pc.symm.trans between.1) (by decide)⟩⟩
  | closed => exact absurd pc goesOn

theorem SplitStep.of_calm (step : CalmStep comp sort st st') : SplitStep comp sort st st' :=
  step.imp_right And.left

/-- At the end all threads have ended, and their files are collected or ready. -/
theorem split_ends (sort : StdSort comp) (input : List (List α)) :
    AlwaysEnds (SplitStep comp sort) (fun st => st.pc = .closed)
      (fun st => st.running = [] ∧ (st.ofiles ++ st.ready).Perm (input.map sort.sort)) (splitStart input) := by
  refine AlwaysEnds.of_running_invariant (SplitInv sort input) SplitState.work splitInv_start (by simp [splitStart])
    ?_ ?_ ?_
  · intro st inv goesOn
    obtain ⟨st', step⟩ := inv.can goesOn
    exact ⟨st', SplitStep.of_calm step⟩
  · intro st inv closed
    have ended := inv.seenEnd closed
    have none_ := inv.seenAll (Or.inr closed) ended
    refine ⟨none_, ?_⟩
    have content := inv.content
    rwa [ended, none_, List.append_nil, List.map_nil, List.append_nil] at content
  · intro st st' inv _ step
    rcases step with main | task
    · exact main.keeps inv
    · exact task.keeps inv

theorem CalmStep.keeps (inv : CalmInv sort input st) (step : CalmStep comp sort st st') :
    CalmInv sort input st' ∧ st'.work < st.work := by
  rcases step with main | ⟨task, calm⟩
  · obtain ⟨kept, less⟩ := main.keeps inv.toSplitInv
    refine ⟨⟨kept, ?_⟩, less⟩
    have before := inv.noneReady
    cases main with
    | close pc ended => exact fun _ => before (Or.inr (Or.inl pc))
    | async pc more => simp
    | someReady pc some_ => simp
    | noneReady pc none_ => exact fun _ _ => none_
    | await pc some_ ended => simp
    | goOn pc no => exact fun _ => before (Or.inl pc)
    | collect pc some_ => simp
  · obtain ⟨kept, less⟩ := task.keeps inv.toSplitInv
    refine ⟨⟨kept, fun pc ended => ?_⟩, less⟩
    cases task with
    | finish runs =>
      rcases pc with pc | pc
      · exact absurd ⟨pc, ended⟩ calm
      · rw [inv.seenAll pc ended] at runs
        exact absurd runs.symm (by simp)

/-- If no thread ends between the two reads, all files are collected. -/
theorem split_calm (sort : StdSort comp) (input : List (List α)) :
    AlwaysEnds (CalmStep comp sort) (fun st => st.pc = .closed)
      (fun st => st.ofiles.Perm (input.map sort.sort)) (splitStart input) := by
  have start : CalmInv sort input (splitStart input) := ⟨splitInv_start, fun _ _ => rfl⟩
  refine AlwaysEnds.of_running_invariant (CalmInv sort input) SplitState.work start (by simp [splitStart])
    (fun st inv goesOn => inv.toSplitInv.can goesOn) ?_ fun st st' inv _ step => step.keeps inv
  intro st inv closed
  have ended := inv.seenEnd closed
  have content := inv.content
  rwa [ended, inv.seenAll (Or.inr closed) ended, inv.noneReady (Or.inr (Or.inr closed)) ended, List.append_nil,
    List.append_nil, List.map_nil, List.append_nil] at content

/-! ## Files that are left behind -/

open Relation

theorem finish_all (sort : StdSort comp) (running ready : List (List α)) :
    ReflTransGen (SplitStep comp sort) ⟨.running, [], running, ready, []⟩
      ⟨.running, [], [], ready ++ running.map sort.sort, []⟩ := by
  induction running generalizing ready with
  | nil =>
    rw [List.map_nil, List.append_nil]
  | cons block running ih =>
    have task := @SplitTask.finish _ comp sort ⟨.running, [], block :: running, ready, []⟩ [] running block rfl
    refine ReflTransGen.head (Or.inr task) ?_
    have rest := ih (ready ++ [sort.sort block])
    rwa [List.append_assoc] at rest

/-- All threads run until the end of the input was seen, and then all of them end. -/
theorem split_loses (sort : StdSort comp) {input : List (List α)} (some_ : input ≠ []) :
    ∃ st, ReflTransGen (SplitStep comp sort) (splitStart input) st ∧ st.pc = .closed ∧ st.ofiles = [] := by
  have loses : ∀ (blocks : List (List α)), blocks ≠ [] → ∀ running : List (List α), ∃ st,
      ReflTransGen (SplitStep comp sort) ⟨.whileMore, blocks, running, [], []⟩ st ∧ st.pc = .closed ∧
        st.ofiles = [] := by
    intro blocks
    induction blocks with
    | nil => exact fun none_ => absurd rfl none_
    | cons block blocks ih =>
      intro _ running
      have starts : ReflTransGen (SplitStep comp sort) ⟨.whileMore, block :: blocks, running, [], []⟩
          ⟨.running, blocks, running ++ [block], [], []⟩ :=
        ReflTransGen.head (Or.inl (.async rfl rfl)) (ReflTransGen.single (Or.inl (.noneReady rfl rfl)))
      cases blocks with
      | nil =>
        refine ⟨⟨.closed, [], [], [] ++ (running ++ [block]).map sort.sort, []⟩, ?_, rfl, rfl⟩
        refine (starts.trans (finish_all sort (running ++ [block]) [])).trans ?_
        exact ReflTransGen.head (Or.inl (.goOn rfl (by simp))) (ReflTransGen.single (Or.inl (.close rfl rfl)))
      | cons block' blocks =>
        obtain ⟨st, run, closed, none_⟩ := ih (List.cons_ne_nil _ _) (running ++ [block])
        refine ⟨st, starts.trans (ReflTransGen.head (Or.inl (.goOn rfl (by simp))) run), closed, none_⟩
  exact loses input some_ []

end ExternalSort

end MBFGraph
