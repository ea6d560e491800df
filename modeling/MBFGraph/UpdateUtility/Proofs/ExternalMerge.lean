import MBFGraph.UpdateUtility.Proofs.ExternalSplit
import MBFGraph.UpdateUtility.Proofs.MergeStreams

/-!
# Merging files, proved

`Empty` of `merges` reads two counts one after the other, and a thread may end in between. The tests of `merge` are
placed so that this does no harm: in every order of steps no merge has fewer than two files, `GetAny` never waits for
nothing, and one file is left in the end, sorted and with all records.
-/

namespace MBFGraph

namespace ExternalSort

open KWayMerge NondetLoop

variable {α : Type} {comp : α → α → Bool} {params : MergeParams} {all : List α} {st st' : MergeState α}

/-- No merge runs, and the result of none is to be collected. -/
def Idle (st : MergeState α) : Prop := st.ready = [] ∧ st.running = []

/-- The files that there are, or will be merged. -/
def MergeState.allFiles (st : MergeState α) : List (List α) :=
  st.files ++ st.ready.reduceOption ++ st.running.flatten

/-- What is known in front of a statement. -/
def PcInv (params : MergeParams) (st : MergeState α) : Prop :=
  match st.pc with
  | .outer => st.files.length < params.kmerge → Idle st
  | .outerEmpty _ seen => st.files.length ≤ 1 ∧ Idle st ∧ seen = 0
  | .start => 1 < st.files.length
  | .inner => True
  | .innerEmpty first seen =>
    (first = .running → seen = 0 → st.running = []) ∧ (seen ≠ 0 → ¬Idle st)
  | .ready => st.files.length < params.kmerge → st.running = []
  | .running => st.files.length < params.kmerge → Idle st
  | .getAny => ¬Idle st
  | .ended => st.files.length ≤ 1 ∧ Idle st

/-- What holds in front of every step of `merge`. -/
structure MergeInv (comp : α → α → Bool) (params : MergeParams) (all : List α) (st : MergeState α) : Prop where
  content : st.allFiles.flatten.Perm all
  runs : ∀ file ∈ st.allFiles, Sorted comp file ∧ file ≠ []
  results : ∀ result ∈ st.ready, result ≠ none
  inputs : ∀ inputs ∈ st.running, inputs ≠ []
  atPc : PcInv params st

/-- The work that is left. -/
def MergeState.work (st : MergeState α) : Nat :=
  15 * (st.files.length + st.ready.length + st.running.length) + 7 * (st.ready.length + st.running.length) +
    st.running.length +
      match st.pc with
      | .inner => 6
      | .innerEmpty _ _ => 5
      | .ready => 4
      | .running => 3
      | .outer => 2
      | .outerEmpty _ _ => 1
      | .start => 0
      | .getAny => 0
      | .ended => 0

theorem Idle.count (idle : Idle st) (which : Count) : st.count which = 0 := by
  cases which with
  | ready => exact List.length_eq_zero_iff.mpr idle.1
  | running => exact List.length_eq_zero_iff.mpr idle.2

/-- Some count was not zero. -/
theorem not_idle_of_count {which : Count} (some_ : st.count which ≠ 0) : ¬Idle st :=
  fun idle => some_ (idle.count which)

theorem MergeInv.goTo (inv : MergeInv comp params all st) {pc : MergePc} (atPc : PcInv params { st with pc }) :
    MergeInv comp params all { st with pc } :=
  ⟨inv.content, inv.runs, inv.results, inv.inputs, atPc⟩

theorem MergeMain.keeps (two : 2 ≤ params.kmerge) (one : 1 ≤ params.merges) (inv : MergeInv comp params all st)
    (step : MergeMain params st st') : MergeInv comp params all st' ∧ st'.work < st.work := by
  have atPc := inv.atPc
  cases step with
  | outerFiles pc some_ => exact ⟨inv.goTo some_, by simp [MergeState.work, pc]⟩
  | outerRead first pc few =>
    simp only [PcInv, pc] at atPc
    have idle := atPc (by omega)
    exact ⟨inv.goTo ⟨Nat.not_lt.mp few, idle, idle.count first⟩, by simp [MergeState.work, pc]⟩
  | @outerMerges first seen pc some_ =>
    simp only [PcInv, pc] at atPc
    obtain ⟨-, idle, rfl⟩ := atPc
    rw [idle.count] at some_
    exact absurd rfl some_
  | outerEnds pc none_ =>
    simp only [PcInv, pc] at atPc
    exact ⟨inv.goTo ⟨atPc.1, atPc.2.1⟩, by simp [MergeState.work, pc]⟩
  | async pc =>
    simp only [PcInv, pc] at atPc
    have same : (MergeState.allFiles { st with
        pc := .inner
        files := st.files.drop params.kmerge
        running := st.running ++ [st.files.take params.kmerge] }).Perm st.allFiles := by
      unfold MergeState.allFiles
      have split := List.take_append_drop params.kmerge st.files
      conv_rhs => rw [← split]
      simp only [List.flatten_append, List.flatten_cons, List.flatten_nil, List.append_nil]
      generalize st.files.take params.kmerge = taken
      rw [List.append_assoc taken, List.append_assoc taken]
      exact (List.append_assoc _ _ taken ▸ List.perm_append_comm)
    refine ⟨⟨same.flatten.trans inv.content, fun file member => inv.runs file (same.subset member), inv.results,
      fun inputs member => ?_, trivial⟩, ?_⟩
    · rcases List.mem_append.mp member with before | new
      · exact inv.inputs inputs before
      · rw [List.mem_singleton.mp new]
        refine List.ne_nil_of_length_pos ?_
        rw [List.length_take]
        omega
    · simp only [MergeState.work, pc, List.length_append, List.length_drop, List.length_singleton]
      omega
  | innerRead first pc few =>
    refine ⟨inv.goTo ⟨?_, not_idle_of_count⟩, by simp [MergeState.work, pc]⟩
    rintro rfl none_
    exact List.length_eq_zero_iff.mp none_
  | innerFiles pc enough => exact ⟨inv.goTo fun few => absurd few enough, by simp [MergeState.work, pc]⟩
  | @innerMerges first seen pc some_ =>
    simp only [PcInv, pc] at atPc
    refine ⟨inv.goTo ?_, by simp [MergeState.work, pc]⟩
    show ¬Idle st
    by_cases zero : seen = 0
    · exact not_idle_of_count fun none_ => some_ (by rw [zero, none_])
    · exact atPc.2 zero
  | @innerEmpty first seen pc none_ =>
    simp only [PcInv, pc] at atPc
    refine ⟨inv.goTo fun _ => ?_, by simp [MergeState.work, pc]⟩
    obtain ⟨zero, other⟩ := Nat.add_eq_zero_iff.mp none_
    cases first with
    | ready => exact List.length_eq_zero_iff.mp other
    | running => exact atPc.1 rfl zero
  | someReady pc some_ => exact ⟨inv.goTo fun idle => some_ idle.1, by simp [MergeState.work, pc]⟩
  | noneReady pc none_ =>
    simp only [PcInv, pc] at atPc
    exact ⟨inv.goTo fun few => ⟨none_, atPc few⟩, by simp [MergeState.work, pc]⟩
  | tooMany pc many =>
    refine ⟨inv.goTo fun idle => ?_, by simp [MergeState.work, pc]⟩
    rw [show st.running = [] from idle.2, List.length_nil] at many
    omega
  | goOn pc few =>
    simp only [PcInv, pc] at atPc
    exact ⟨inv.goTo atPc, by simp [MergeState.work, pc]⟩
  | @collect result ready pc some_ =>
    have isSome := inv.results result (by rw [some_]; exact List.mem_cons_self)
    obtain ⟨file, rfl⟩ := Option.ne_none_iff_exists'.mp isSome
    have same : MergeState.allFiles { st with pc := .inner, ready, files := st.files ++ (some file).toList } =
        st.allFiles := by
      simp [MergeState.allFiles, some_]
    refine ⟨⟨by rw [same]; exact inv.content, by rw [same]; exact inv.runs, fun r member => ?_, inv.inputs, trivial⟩, ?_⟩
    · exact inv.results r (by rw [some_]; exact List.mem_cons_of_mem _ member)
    · simp only [MergeState.work, pc, some_, Option.toList_some, List.length_append, List.length_cons, List.length_nil]
      omega

theorem MergeInv.inputs_runs (inv : MergeInv comp params all st) {inputs : List (List α)}
    (member : inputs ∈ st.running) : ∀ file ∈ inputs, Sorted comp file ∧ file ≠ [] := by
  intro file inside
  refine inv.runs file ?_
  unfold MergeState.allFiles
  exact List.mem_append_right _ (List.mem_flatten.mpr ⟨inputs, member, inside⟩)

/-! ## The end -/

/-- What `merge` leaves of files with the given records. -/
def Merged (comp : α → α → Bool) (all : List α) (st : MergeState α) : Prop :=
  (all = [] → mergeResult st = .error "Merge failed. No input") ∧
    (all ≠ [] → ∃ file, mergeResult st = .ok file ∧ Sorted comp file ∧ file.Perm all)

theorem MergeInv.merged_of_ended (inv : MergeInv comp params all st) (pc : st.pc = .ended) : Merged comp all st := by
  have atPc := inv.atPc
  simp only [PcInv, pc] at atPc
  obtain ⟨few, noneReady, noneRunning⟩ := atPc
  have files : st.allFiles = st.files := by
    unfold MergeState.allFiles
    rw [noneReady, noneRunning]
    simp
  have content := inv.content
  have runs := inv.runs
  rw [files] at content runs
  unfold Merged mergeResult
  match left : st.files, few with
  | [], _ =>
    rw [left] at content
    exact ⟨fun _ => rfl, fun some_ => absurd content.nil_eq.symm some_⟩
  | [file], _ =>
    rw [left, List.flatten_singleton] at content
    obtain ⟨sorted, some_⟩ := runs file (by rw [left]; exact List.mem_cons_self)
    refine ⟨fun none_ => ?_, fun _ => ⟨file, rfl, sorted, content⟩⟩
    rw [none_] at content
    exact absurd content.eq_nil some_

/-! ## The threads -/

variable [Inhabited α]

/-- The result of a merge that was started. -/
theorem MergeInv.merged (weak : StrictWeak comp) (heaps : StdHeap Nat) (inv : MergeInv comp params all st) (set : SetOrder)
    {inputs : List (List α)} (member : inputs ∈ st.running) :
    ∃ file, mergeStreams comp heaps set inputs = some (some file) ∧ Sorted comp file ∧ file.Perm inputs.flatten ∧
      file ≠ [] := by
  have runs := inv.inputs_runs member
  obtain ⟨result, merged, sorted, perm, none_⟩ := mergeStreams_spec weak heaps set fun file inside => (runs file inside).1
  obtain ⟨first, rest, rfl⟩ := List.exists_cons_of_ne_nil (inv.inputs inputs member)
  have records : (first :: rest).flatten ≠ [] := by
    rw [List.flatten_cons]
    exact fun nothing => (runs first List.mem_cons_self).2 (List.append_eq_nil_iff.mp nothing).1
  cases result with
  | none => exact absurd (none_.mp rfl) records
  | some file => exact ⟨file, merged, sorted, perm, fun empty => records (by rw [empty] at perm; exact perm.nil_eq.symm)⟩

theorem MergeTask.keeps (weak : StrictWeak comp) {heaps : StdHeap Nat} (inv : MergeInv comp params all st)
    (step : MergeTask comp heaps st st') : MergeInv comp params all st' ∧ st'.work < st.work := by
  cases step with
  | @finish before behind inputs result set runs merged =>
    have member : inputs ∈ st.running := by
      rw [runs]
      exact List.mem_append_right before List.mem_cons_self
    obtain ⟨file, merged', sorted, perm, some_⟩ := inv.merged weak heaps set member
    obtain rfl : some file = result := Option.some.inj (merged'.symm.trans merged)
    have busy : st.running ≠ [] := List.ne_nil_of_mem member
    have notIdle : ¬Idle st := fun idle => busy idle.2
    have collects : st.ready ++ [some file] ≠ [] := List.append_ne_nil_of_right_ne_nil _ (List.cons_ne_nil _ _)
    have fewer {inputs' : List (List α)} (inside : inputs' ∈ before ++ behind) : inputs' ∈ st.running := by
      rw [runs]
      rcases List.mem_append.mp inside with left | right
      · exact List.mem_append_left _ left
      · exact List.mem_append_right before (List.mem_cons_of_mem inputs right)
    refine ⟨⟨?_, fun f isFile => ?_, fun r isResult => ?_, fun i isInput => inv.inputs i (fewer isInput), ?_⟩, ?_⟩
    · refine List.Perm.trans ?_ inv.content
      unfold MergeState.allFiles
      rw [runs]
      simp only [List.reduceOption_append, List.reduceOption_singleton, List.flatten_append, List.flatten_cons,
        Option.toList_some, List.flatten_nil, List.append_nil]
      simp only [List.append_assoc]
      refine List.Perm.append_left _ (List.Perm.append_left _ ?_)
      calc file ++ (before.flatten.flatten ++ behind.flatten.flatten)
          |>.Perm (inputs.flatten ++ (before.flatten.flatten ++ behind.flatten.flatten)) := perm.append_right _
        _ |>.Perm (before.flatten.flatten ++ (inputs.flatten ++ behind.flatten.flatten)) := by
          rw [← List.append_assoc, ← List.append_assoc]
          exact List.perm_append_comm.append_right _
    · unfold MergeState.allFiles at isFile
      simp only [List.reduceOption_append, List.reduceOption_singleton, Option.toList_some] at isFile
      rcases List.mem_append.mp isFile with left | right
      · rcases List.mem_append.mp left with inFiles | inReady
        · exact inv.runs f (List.mem_append_left _ (List.mem_append_left _ inFiles))
        · rcases List.mem_append.mp inReady with old | new
          · exact inv.runs f (List.mem_append_left _ (List.mem_append_right _ old))
          · rw [List.mem_singleton.mp new]
            exact ⟨sorted, some_⟩
      · obtain ⟨inputs', inside, isInput⟩ := List.mem_flatten.mp right
        exact inv.inputs_runs (fewer inside) f isInput
    · rcases List.mem_append.mp isResult with old | new
      · exact inv.results r old
      · rw [List.mem_singleton.mp new]
        exact Option.some_ne_none file
    · have atPc := inv.atPc
      cases pc : st.pc with
      | outer =>
        simp only [PcInv, pc] at atPc ⊢
        exact fun few => absurd (atPc few) notIdle
      | outerEmpty first seen =>
        simp only [PcInv, pc] at atPc
        exact absurd atPc.2.1 notIdle
      | start =>
        simp only [PcInv, pc] at atPc ⊢
        exact atPc
      | inner => simp only [PcInv]
      | innerEmpty first seen =>
        simp only [PcInv, pc] at atPc ⊢
        exact ⟨fun isRunning zero => absurd (atPc.1 isRunning zero) busy, fun _ idle => collects idle.1⟩
      | ready =>
        simp only [PcInv, pc] at atPc ⊢
        exact fun few => absurd (atPc few) busy
      | running =>
        simp only [PcInv, pc] at atPc ⊢
        exact fun few => absurd (atPc few) notIdle
      | getAny =>
        simp only [PcInv]
        exact fun idle => collects idle.1
      | ended =>
        simp only [PcInv, pc] at atPc
        exact absurd atPc.2 notIdle
    · simp only [MergeState.work, runs, List.length_append, List.length_cons, List.length_nil]
      omega

theorem MergeInv.can (weak : StrictWeak comp) (heaps : StdHeap Nat) (inv : MergeInv comp params all st)
    (goesOn : st.pc ≠ .ended) : ∃ st', MergeStep comp params heaps st st' := by
  cases pc : st.pc with
  | outer =>
    by_cases some_ : 1 < st.files.length
    · exact ⟨_, Or.inl (.outerFiles pc some_)⟩
    · exact ⟨_, Or.inl (.outerRead .ready pc some_)⟩
  | outerEmpty first seen =>
    by_cases none_ : seen + st.count first.other = 0
    · exact ⟨_, Or.inl (.outerEnds pc none_)⟩
    · exact ⟨_, Or.inl (.outerMerges pc none_)⟩
  | start => exact ⟨_, Or.inl (.async pc)⟩
  | inner =>
    by_cases few : st.files.length < params.kmerge
    · exact ⟨_, Or.inl (.innerRead .ready pc few)⟩
    · exact ⟨_, Or.inl (.innerFiles pc few)⟩
  | innerEmpty first seen =>
    by_cases none_ : seen + st.count first.other = 0
    · exact ⟨_, Or.inl (.innerEmpty pc none_)⟩
    · exact ⟨_, Or.inl (.innerMerges pc none_)⟩
  | ready =>
    by_cases none_ : st.ready = []
    · exact ⟨_, Or.inl (.noneReady pc none_)⟩
    · exact ⟨_, Or.inl (.someReady pc none_)⟩
  | running =>
    by_cases many : params.merges ≤ st.running.length
    · exact ⟨_, Or.inl (.tooMany pc many)⟩
    · exact ⟨_, Or.inl (.goOn pc many)⟩
  | getAny =>
    have atPc := inv.atPc
    simp only [PcInv, pc] at atPc
    cases some_ : st.ready with
    | cons result ready => exact ⟨_, Or.inl (.collect pc some_)⟩
    | nil =>
      obtain ⟨inputs, behind, runs⟩ := List.exists_cons_of_ne_nil fun none_ => atPc ⟨some_, none_⟩
      let set : SetOrder := ⟨id, fun l => List.Perm.refl l⟩
      obtain ⟨file, merged, -⟩ := inv.merged weak heaps set (by rw [runs]; exact List.mem_cons_self)
      exact ⟨_, Or.inr (@MergeTask.finish _ _ comp heaps st [] behind inputs (some file) set runs merged)⟩
  | ended => exact absurd pc goesOn

/-- `merge` comes to its end with one file, in every order of steps. -/
theorem merge_ends (weak : StrictWeak comp) (heaps : StdHeap Nat) (two : 2 ≤ params.kmerge) (one : 1 ≤ params.merges)
    {ifiles : List (List α)} (runs : ∀ file ∈ ifiles, Sorted comp file ∧ file ≠ []) (content : ifiles.flatten.Perm all) :
    AlwaysEnds (MergeStep comp params heaps) (fun st => st.pc = .ended) (Merged comp all) (mergeStart ifiles) := by
  have files : (mergeStart ifiles).allFiles = ifiles := by simp [MergeState.allFiles, mergeStart]
  have start : MergeInv comp params all (mergeStart ifiles) :=
    ⟨by rw [files]; exact content, by rw [files]; exact runs, fun _ => nofun, fun _ => nofun, fun _ => ⟨rfl, rfl⟩⟩
  refine AlwaysEnds.of_running_invariant (MergeInv comp params all) MergeState.work start (by simp [mergeStart])
    (fun st inv goesOn => inv.can weak heaps goesOn) (fun st inv pc => inv.merged_of_ended pc) ?_
  intro st st' inv _ step
  rcases step with main | task
  · exact main.keeps two one inv
  · exact task.keeps weak inv

end ExternalSort

end MBFGraph
