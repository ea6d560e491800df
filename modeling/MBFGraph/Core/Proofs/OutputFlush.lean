import MBFGraph.Core.Proofs.OutputWork

/-!
# The threads meet to flush

All threads arrive at a barrier before one of them leaves it, so that they go through the stages together. Thread
0 exchanges the buffer while the others wait.
-/

namespace MBFGraph

namespace OutWork

variable {ρ : Type} {processors waits capacity g : Nat} {emitted : Multiset ρ} {w : OutWork ρ processors}
  {stage : Stage} {content : List ρ} {logs : List (List ρ)} {i : Fin processors}

/-! ## Meeting -/

/-- A thread arrives at the barrier behind the stage. -/
theorem Stands.step_arrive (stands : Stands waits capacity emitted w g stage content logs) {place : WaitAt}
    (arrives : (w.thread i).pc = .arrive place) {bufbytes itemSize : Nat} {useQsort : Bool} :
    (w.thread i).arrivals = g ∧
      Stands waits capacity emitted (step bufbytes itemSize useQsort w i) g stage content logs := by
  have isInside : (w.thread i).arrivals = g ∧ place = stage.closes w.bufsize ∧ stage ≠ .done ∧
      (i.val = 0 → stage ≠ .append ∧ stage ≠ .null) := by
    cases stands.position i with
    | behind _ _ waiting => rw [arrives] at waiting; exact WorkPc.noConfusion waiting
    | arrived waiting => rw [arrives] at waiting; exact WorkPc.noConfusion waiting
    | inside holds count =>
      rw [arrives] at holds
      refine ⟨count, ?_⟩
      cases stage <;> simp_all [Stage.Holds, Stage.closes]
  obtain ⟨count, isPlace, notDone, notFirst⟩ := isInside
  have fine := stands.fine i
  refine ⟨count, ?_⟩
  unfold step
  simp only [arrives]
  refine stands.goOn (.arrived (congrArg _ isPlace) (congrArg (· + 1) count) notDone notFirst) ?_ ?_ (by simp)
    (by simp [arrives])
  · refine { final := fine.final, atNext := by simp, atWhile := by simp, swaps := by simp, copies := by simp
             full := fun meets notFinal => fine.full ?_ notFinal, ends := fun finishes => fine.ends ?_ }
    · simp only [reduceCtorEq, false_or, or_false, WorkPc.wait.injEq] at meets
      rw [arrives, meets]
      exact .inl rfl
    · simp only [reduceCtorEq, false_or, or_false, WorkPc.wait.injEq] at finishes
      rw [arrives]
      rcases finishes with rfl | rfl
      · exact .inl rfl
      · exact .inr (.inr (.inl rfl))
  · unfold pending
    rw [arrives]

theorem behind_index_of_lt {useQsort final : Bool} {j : Nat} (more : j + 1 < indexWaits useQsort) :
    behind useQsort i final (.index j) = .arrive (.index (j + 1)) := if_pos more

theorem behind_index_of_first {useQsort final : Bool} {j : Nat} (last : ¬ j + 1 < indexWaits useQsort)
    (first : i.val = 0) : behind useQsort i final (.index j) = .append :=
  (if_neg last).trans (if_pos first)

theorem behind_index_of_not_first {useQsort final : Bool} {j : Nat} (last : ¬ j + 1 < indexWaits useQsort)
    (other : i.val ≠ 0) : behind useQsort i final (.index j) = .arrive (.leave false) :=
  (if_neg last).trans (if_neg other)

/-- A thread leaves the barrier in front of the stage. -/
theorem Stands.pass (stands : Stands waits capacity emitted w g stage content logs) {place : WaitAt}
    (waiting : (w.thread i).pc = .wait place) {useQsort : Bool} (isWaits : waits = indexWaits useQsort)
    (opens : stage.Opens waits place) (count : (w.thread i).arrivals = g)
    (notFirst : i.val = 0 → stage ≠ .null ∧ stage ≠ .fresh) :
    Stands waits capacity emitted
      (w.goOn i { w.thread i with pc := behind useQsort i (w.thread i).final place }) g stage content logs := by
  have fine := stands.fine i
  have stageCount := stands.count
  have isPc : stage.Holds (i.val = 0) w.bufsize (behind useQsort i (w.thread i).final place) := by
    cases stage with
    | work =>
      rw [show place = .leave false from opens]
      unfold behind
      cases (w.thread i).final <;> simp [Stage.Holds]
    | test =>
      rw [show place = .enter from opens]
      exact .inl rfl
    | index j =>
      obtain ⟨j', rfl, rfl⟩ := opens
      have more : j' + 1 < indexWaits useQsort := by
        rw [← isWaits]
        exact stageCount.2.2
      exact behind_index_of_lt more
    | append =>
      obtain ⟨j', isLast, rfl⟩ := opens
      by_cases first : i.val = 0
      · exact .inl ⟨first, behind_index_of_first (by omega) first⟩
      · exact .inr ⟨first, behind_index_of_not_first (by omega) first⟩
    | null =>
      obtain ⟨j', isLast, rfl⟩ := opens
      have other : i.val ≠ 0 := fun first => (notFirst first).1 rfl
      exact .inr ⟨other, behind_index_of_not_first (by omega) other⟩
    | fresh =>
      obtain ⟨j', isLast, rfl⟩ := opens
      have other : i.val ≠ 0 := fun first => (notFirst first).2 rfl
      exact behind_index_of_not_first (by omega) other
    | last =>
      rw [show place = .leave true from opens] at waiting ⊢
      unfold behind
      rw [fine.ends (.inr (.inl waiting))]
      rfl
    | done =>
      rw [show place = .last from opens]
      rfl
  refine stands.goOn (.inside isPc count) ?_ ?_ ?_ (by simp [waiting])
  · cases place with
    | enter =>
      exact { final := fine.final, atNext := by simp [behind], atWhile := by simp [behind]
              swaps := by simp [behind], copies := by simp [behind]
              full := fun _ notFinal => fine.full (.inr (.inl waiting)) notFinal, ends := by simp [behind] }
    | index j =>
      have cases_ : behind useQsort i (w.thread i).final (.index j) = .arrive (.index (j + 1)) ∨
          behind useQsort i (w.thread i).final (.index j) = .append ∨
          behind useQsort i (w.thread i).final (.index j) = .arrive (.leave false) := by
        by_cases more : j + 1 < indexWaits useQsort
        · exact .inl (behind_index_of_lt more)
        · by_cases first : i.val = 0
          · exact .inr (.inl (behind_index_of_first more first))
          · exact .inr (.inr (behind_index_of_not_first more first))
      rcases cases_ with isPc | isPc | isPc <;> rw [isPc] <;>
        exact { final := fine.final, atNext := by simp, atWhile := by simp, swaps := by simp, copies := by simp
                full := by simp, ends := by simp }
    | leave empty =>
      cases isFinal : (w.thread i).final with
      | true =>
        have finals := fine.final isFinal
        cases empty <;>
          exact { final := fun _ => finals, atNext := by simp [behind], atWhile := by simp [behind]
                  swaps := by simp [behind], copies := by simp [behind]
                  full := fun _ notFinal => absurd (isFinal.symm.trans notFinal) Bool.noConfusion
                  ends := fun _ => isFinal }
      | false =>
        exact { final := fine.final, atNext := by simp [behind], atWhile := fun _ => isFinal
                swaps := by simp [behind], copies := by simp [behind]
                full := by simp [behind], ends := by simp [behind] }
    | last =>
      exact { final := fine.final, atNext := by simp [behind], atWhile := by simp [behind]
              swaps := by simp [behind], copies := by simp [behind], full := by simp [behind]
              ends := fun _ => fine.ends (.inr (.inr (.inr (.inl waiting)))) }
  · have noCopy : ∀ pc : WorkPc, (∀ offset space copied, pc ≠ .copy offset space copied) →
        pending { w.thread i with pc } = (w.thread i).bytes ++ (w.thread i).batches.flatten := by
      intro pc notCopy
      cases pc <;> first | rfl | exact absurd rfl (notCopy _ _ _)
    rw [noCopy _ ?_]
    · unfold pending
      rw [waiting]
    · intro offset space copied
      unfold behind
      split <;> (repeat' split) <;> simp
  · intro offset space copied
    unfold behind
    split <;> (repeat' split) <;> simp

/-- All threads have arrived, and the next stage begins. -/
theorem Stands.reopen (stands : Stands waits capacity emitted w g stage content logs)
    (all : ∀ j, (w.thread j).arrivals = g + 1) {stage' : Stage} (notNull : stage ≠ .null)
    (notNull' : stage' ≠ .null) (notFresh' : stage' ≠ .fresh)
    (opens : stage'.Opens waits (stage.closes w.bufsize))
    (full : (stage' = .append ∨ ∃ j, stage' = .index j) → 0 < w.bufsize)
    (empty : stage' = .last ∨ stage' = .done → w.bufsize = 0)
    (count : stage'.Count waits logs.length (g + 1)) :
    Stands waits capacity emitted w (g + 1) stage' content logs where
  position j := by
    cases stands.position j with
    | behind _ _ _ count => have := all j; omega
    | inside _ count => have := all j; omega
    | arrived waiting count => exact .behind _ opens waiting count fun _ => ⟨notNull', notFresh'⟩
  fine := stands.fine
  stream _ := stands.stream notNull
  contains _ := stands.contains notNull
  null isNull := absurd isNull notNull'
  apart := stands.apart
  fits := stands.fits
  full := full
  empty := empty
  isAppended := stands.isAppended
  nonempty := stands.nonempty
  conserved := stands.conserved
  count := count

theorem Stands.advance (stands : Stands waits capacity emitted w g stage content logs)
    (many : 1 < waits) (i : Fin processors) (all : ∀ j, (w.thread j).arrivals = g + 1) :
    ∃ stage', Stands waits capacity emitted w (g + 1) stage' content logs := by
  have someone : 0 < processors := Nat.lt_of_le_of_lt (Nat.zero_le _) i.isLt
  have first : stage ≠ .append ∧ stage ≠ .null ∧ stage ≠ .done := by
    cases stands.position ⟨0, someone⟩ with
    | behind _ _ _ count => have := all ⟨0, someone⟩; omega
    | inside _ count => have := all ⟨0, someone⟩; omega
    | arrived _ _ notDone notFirst => exact ⟨(notFirst rfl).1, (notFirst rfl).2, notDone⟩
  have stageCount := stands.count
  cases stage with
  | work =>
    have isCount : g = logs.length * (waits + 2) := stageCount
    refine ⟨.test, stands.reopen all (by simp) (by simp) (by simp) rfl (by simp) (by simp) ?_⟩
    exact congrArg (· + 1) isCount
  | test =>
    have isCount : g = logs.length * (waits + 2) + 1 := stageCount
    by_cases full : 0 < w.bufsize
    · refine ⟨.index 1, stands.reopen all (by simp) (by simp) (by simp) ⟨0, rfl, ?_⟩ (fun _ => full) (by simp) ?_⟩
      · exact if_pos full
      · exact ⟨congrArg (· + 1) isCount, Nat.one_pos, many⟩
    · refine ⟨.last, stands.reopen all (by simp) (by simp) (by simp) ?_ (by simp) (fun _ => ?_) ?_⟩
      · exact if_neg full
      · exact Nat.eq_zero_of_not_pos full
      · exact congrArg (· + 1) isCount
  | index j =>
    obtain ⟨isCount, _, below⟩ := stageCount
    have full : 0 < w.bufsize := stands.full (.inr ⟨j, rfl⟩)
    by_cases more : j + 1 < waits
    · refine ⟨.index (j + 1), stands.reopen all (by simp) (by simp) (by simp) ⟨j, rfl, rfl⟩ (fun _ => full)
        (by simp) ⟨?_, Nat.succ_pos _, more⟩⟩
      omega
    · refine ⟨.append, stands.reopen all (by simp) (by simp) (by simp) ⟨j, by omega, rfl⟩ (fun _ => full)
        (by simp) ?_⟩
      change g + 1 = logs.length * (waits + 2) + 1 + waits
      omega
  | fresh =>
    exact ⟨.work, stands.reopen all (by simp) (by simp) (by simp) rfl (by simp) (by simp) stageCount⟩
  | last =>
    have isCount : g = logs.length * (waits + 2) + 2 := stageCount
    have empty := stands.empty (.inl rfl)
    exact ⟨.done, stands.reopen all (by simp) (by simp) (by simp) rfl (by simp) (fun _ => empty)
      (congrArg (· + 1) isCount)⟩
  | append => exact absurd rfl first.1
  | null => exact absurd rfl first.2.1
  | done => exact absurd rfl first.2.2

theorem Position.le {first : Prop} {bufsize : Nat} {pc : WorkPc} {arrivals : Nat}
    (position : Position waits first bufsize stage g pc arrivals) : g ≤ arrivals ∧ arrivals ≤ g + 1 := by
  cases position with
  | behind _ _ _ count => omega
  | inside _ count => omega
  | arrived _ count => omega

/-- A thread waits, or leaves the barrier. -/
theorem Stands.step_wait (stands : Stands waits capacity emitted w g stage content logs) {place : WaitAt}
    (waiting : (w.thread i).pc = .wait place) {bufbytes itemSize : Nat} {useQsort : Bool}
    (isWaits : waits = indexWaits useQsort) :
    ∃ g stage, Stands waits capacity emitted (step bufbytes itemSize useQsort w i) g stage content logs := by
  have many : 1 < waits := by
    rw [isWaits]
    unfold indexWaits
    split <;> omega
  unfold step
  simp only [waiting]
  split
  · rename_i released
    have passes : ∀ {g stage}, Stands waits capacity emitted w g stage content logs →
        (w.thread i).arrivals = g → Stands waits capacity emitted
          (w.goOn i { w.thread i with pc := behind useQsort i (w.thread i).final place }) g stage content
          logs := by
      intro g stage stands count
      cases stands.position i with
      | behind place' opens waiting' _ notFirst =>
        rw [waiting] at waiting'
        injection waiting' with same
        exact stands.pass waiting isWaits (same ▸ opens) count notFirst
      | inside holds _ =>
        rw [waiting] at holds
        cases stage <;> simp [Stage.Holds] at holds
      | arrived _ count' => omega
    cases stands.position i with
    | behind _ _ _ count => exact ⟨g, stage, passes stands count⟩
    | inside _ count => exact ⟨g, stage, passes stands count⟩
    | arrived _ count =>
      have all : ∀ j, (w.thread j).arrivals = g + 1 := by
        intro j
        have := released j
        have := (stands.position j).le
        omega
      obtain ⟨stage', stands'⟩ := stands.advance many i all
      exact ⟨g + 1, stage', passes stands' count⟩
  · exact ⟨g, stage, stands⟩

/-! ## Flushing -/

theorem Stands.step_test (stands : Stands waits capacity emitted w g stage content logs)
    (tests : (w.thread i).pc = .testBufsize) {bufbytes itemSize : Nat} {useQsort : Bool} :
    Stands waits capacity emitted (step bufbytes itemSize useQsort w i) g stage content logs := by
  have isTest : stage = .test ∧ (w.thread i).arrivals = g := by
    cases stands.position i with
    | behind _ _ waiting => rw [tests] at waiting; exact WorkPc.noConfusion waiting
    | arrived waiting => rw [tests] at waiting; exact WorkPc.noConfusion waiting
    | inside holds count =>
      rw [tests] at holds
      refine ⟨?_, count⟩
      cases stage <;> simp [Stage.Holds] at holds
      rfl
  obtain ⟨rfl, count⟩ := isTest
  have fine := stands.fine i
  unfold step
  simp only [tests]
  refine stands.goOn (.inside (.inr rfl) count) ?_ ?_ (by simp) (by simp [tests])
  · refine { final := fine.final, atNext := by simp, atWhile := by simp, swaps := by simp, copies := by simp
             full := ?_, ends := ?_ }
    · split <;> simp
    · intro finishes
      by_contra notFinal
      have full := fine.full (.inr (.inr tests)) (Bool.not_eq_true _ ▸ notFinal)
      rw [if_pos full] at finishes
      simp at finishes
  · unfold pending
    rw [tests]

/-- Where the threads are while the buffer is exchanged. -/
theorem Stands.others (stands : Stands waits capacity emitted w g stage content logs)
    (exchanged : stage = .append ∨ stage = .null) {j : Fin processors} (other : j.val ≠ 0) :
    (∃ place, (w.thread j).pc = .wait place ∧ (stage.Opens waits place ∨ place = .leave false)) ∨
      (w.thread j).pc = .arrive (.leave false) := by
  cases stands.position j with
  | behind place opens waiting => exact .inl ⟨place, waiting, .inl opens⟩
  | inside holds =>
    rcases exchanged with rfl | rfl
    · rcases holds with ⟨first, _⟩ | ⟨_, isPc⟩
      · exact absurd first other
      · exact .inr isPc
    · rcases holds with ⟨first, _⟩ | ⟨_, isPc⟩
      · exact absurd first other
      · exact .inr isPc
  | arrived waiting =>
    rcases exchanged with rfl | rfl
    · exact .inl ⟨_, waiting, .inr rfl⟩
    · exact .inl ⟨_, waiting, .inr rfl⟩

/-- The positions of the other threads do not tell the exchange of the buffer. -/
theorem Position.exchange {bufsize bufsize' g : Nat} {pc : WorkPc} {arrivals : Nat} {first : Prop}
    (notFirst : ¬ first)
    {stage' : Stage} (exchanges : stage = .append ∧ stage' = .null ∨ stage = .null ∧ stage' = .fresh)
    (position : Position waits first bufsize stage g pc arrivals) :
    Position waits first bufsize' stage' g pc arrivals := by
  rcases exchanges with ⟨rfl, rfl⟩ | ⟨rfl, rfl⟩
  · cases position with
    | behind place opens waiting count => exact .behind place opens waiting count fun first => absurd first notFirst
    | inside holds count =>
      exact .inside (.inr (holds.resolve_left fun isFirst => notFirst isFirst.1)) count
    | arrived waiting count =>
      exact .arrived waiting count (by simp) fun first => absurd first notFirst
  · cases position with
    | behind place opens waiting count => exact .behind place opens waiting count fun first => absurd first notFirst
    | inside holds count => exact .inside (holds.resolve_left fun isFirst => notFirst isFirst.1).2 count
    | arrived waiting count => exact .arrived waiting count (by simp) fun first => absurd first notFirst

/-- While the buffer is exchanged, a thread does not look into it. -/
theorem Stands.fine_exchange (stands : Stands waits capacity emitted w g stage content logs)
    (exchanged : stage = .append ∨ stage = .null) {j : Fin processors} (other : j.val ≠ 0) (bufsize : Nat) :
    Fine bufsize (w.thread j) := by
  have fine := stands.fine j
  have index : ∀ place, stage.Opens waits place → ∃ j', place = .index j' := by
    rintro place opens
    rcases exchanged with rfl | rfl
    · obtain ⟨j', _, isPlace⟩ := opens
      exact ⟨j', isPlace⟩
    · obtain ⟨j', _, isPlace⟩ := opens
      exact ⟨j', isPlace⟩
  rcases stands.others exchanged other with ⟨place, isPc, opens | rfl⟩ | isPc
  · obtain ⟨j', rfl⟩ := index place opens
    exact { final := fine.final, atNext := by simp [isPc], atWhile := by simp [isPc], swaps := by simp [isPc]
            copies := by simp [isPc], full := by simp [isPc], ends := by simp [isPc] }
  · exact { final := fine.final, atNext := by simp [isPc], atWhile := by simp [isPc], swaps := by simp [isPc]
            copies := by simp [isPc], full := by simp [isPc], ends := by simp [isPc] }
  · exact { final := fine.final, atNext := by simp [isPc], atWhile := by simp [isPc], swaps := by simp [isPc]
            copies := by simp [isPc], full := by simp [isPc], ends := by simp [isPc] }

/-- Nobody copies while the buffer is exchanged. -/
theorem Stands.no_copy (stands : Stands waits capacity emitted w g stage content logs)
    (exchanged : stage = .append ∨ stage = .null) (j : Fin processors) (offset space copied : Nat) :
    (w.thread j).pc ≠ .copy offset space copied := by
  intro isCopy
  have working := (stands.atWork (.inr (.inr (.inr (.inl ⟨_, _, _, isCopy⟩))))).1
  rcases exchanged with same | same <;> rw [same] at working <;> exact Stage.noConfusion working

/-- Thread 0 appends the buffer. -/
theorem Stands.step_append (stands : Stands waits capacity emitted w g stage content logs)
    (appends : (w.thread i).pc = .append) {bufbytes itemSize : Nat} {useQsort : Bool} :
    Stands waits capacity emitted (step bufbytes itemSize useQsort w i) g .null [] (logs ++ [content]) := by
  have isFirst : stage = .append ∧ i.val = 0 ∧ (w.thread i).arrivals = g := by
    cases stands.position i with
    | behind _ _ waiting => rw [appends] at waiting; exact WorkPc.noConfusion waiting
    | arrived waiting => rw [appends] at waiting; exact WorkPc.noConfusion waiting
    | inside holds count =>
      rw [appends] at holds
      cases stage <;> simp [Stage.Holds] at holds
      exact ⟨rfl, holds, count⟩
  obtain ⟨rfl, first, count⟩ := isFirst
  have others : ∀ j, j ≠ i → j.val ≠ 0 := fun j other isZero => other (Fin.ext (isZero.trans first.symm))
  have notNull : Stage.append ≠ .null := by simp
  obtain ⟨isLength, _, filled⟩ := stands.contains notNull
  have written : (List.range w.bufsize).map w.buffer = content.map some := by
    refine List.ext_getElem? fun p => ?_
    rw [List.getElem?_map, List.getElem?_map]
    rcases Nat.lt_or_ge p w.bufsize with below | above
    · rw [List.getElem?_range below]
      rcases filled p below with isFilled | ⟨j, offset, space, copied, isCopy, _⟩
      · rw [Option.map_some, isFilled, List.getElem?_eq_getElem (by omega)]
        rfl
      · exact absurd isCopy (stands.no_copy (.inl rfl) j offset space copied)
    · rw [List.getElem?_eq_none (by simpa using above), List.getElem?_eq_none (by omega)]
      rfl
  have here : pending { w.thread i with pc := .getBuffer } = pending (w.thread i) := by
    unfold pending
    rw [appends]
  have isCount : g = logs.length * (waits + 2) + 1 + waits := stands.count
  unfold step
  simp only [appends]
  constructor
  · intro j
    refine forall_goOn (P := fun j t => Position waits (j.val = 0) w.bufsize .null g t.pc t.arrivals) ?_
      (fun j other => (stands.position j).exchange (others j other) (.inl ⟨rfl, rfl⟩)) j
    exact .inside (.inl ⟨first, rfl⟩) count
  · intro j
    refine forall_goOn (P := fun _ t => Fine w.bufsize t) ?_ (fun j _ => stands.fine j) j
    exact { final := (stands.fine i).final, atNext := by simp, atWhile := by simp, swaps := by simp
            copies := by simp, full := by simp, ends := by simp }
  · exact fun isNull => absurd rfl isNull
  · exact fun isNull => absurd rfl isNull
  · exact fun _ => rfl
  · intro j j' different offset space copied offset' space' copied' isCopy _
    by_cases same : j = i
    · rw [same] at isCopy
      change ((w.goOn i _).thread i).pc = _ at isCopy
      rw [goOn_thread_self] at isCopy
      exact WorkPc.noConfusion isCopy
    · change ((w.goOn i _).thread j).pc = _ at isCopy
      rw [goOn_thread_of_ne same] at isCopy
      exact absurd isCopy (stands.no_copy (.inl rfl) j _ _ _)
  · exact stands.fits
  · rintro (isAppend | ⟨_, isIndex⟩)
    · exact absurd isAppend (by simp)
    · exact absurd isIndex (by simp)
  · simp
  · change w.appended ++ [_] = _
    rw [written, stands.isAppended, List.map_append, List.map_singleton]
  · intro buffer member
    rcases List.mem_append.mp member with before | now
    · exact stands.nonempty buffer before
    · have full := stands.full (.inl rfl)
      have fits := stands.fits
      rw [List.mem_singleton.mp now]
      exact ⟨List.ne_nil_of_length_pos (by omega), by omega⟩
  · have sum := sum_goOn_add (fun t => (pending t : Multiset ρ)) w i { w.thread i with pc := .getBuffer }
    rw [here] at sum
    have same := add_right_cancel sum
    have joined : ((logs ++ [content]).flatten : Multiset ρ) = logs.flatten + content := by
      rw [List.flatten_append, List.flatten_singleton, Multiset.coe_add]
    rw [← stands.conserved, ← same, joined]
    simp
  · change g + 1 = (logs ++ [content]).length * (waits + 2)
    rw [List.length_append, List.length_singleton, Nat.add_mul, isCount]
    omega

/-- Only thread 0 is at this statement, and there is no buffer. -/
theorem Stands.atGetBuffer (stands : Stands waits capacity emitted w g stage content logs)
    (gets : (w.thread i).pc = .getBuffer) : stage = .null ∧ i.val = 0 ∧ (w.thread i).arrivals = g := by
  cases stands.position i with
  | behind _ _ waiting => rw [gets] at waiting; exact WorkPc.noConfusion waiting
  | arrived waiting => rw [gets] at waiting; exact WorkPc.noConfusion waiting
  | inside holds count =>
    rw [gets] at holds
    cases stage <;> simp [Stage.Holds] at holds
    exact ⟨rfl, holds, count⟩

/-- Thread 0 gets an empty buffer. -/
theorem Stands.step_getBuffer (stands : Stands waits capacity emitted w g stage content logs)
    (gets : (w.thread i).pc = .getBuffer) {bufbytes itemSize : Nat} {useQsort : Bool} :
    Stands waits capacity emitted (step bufbytes itemSize useQsort w i) g .fresh content logs := by
  obtain ⟨rfl, first, count⟩ := stands.atGetBuffer gets
  have others : ∀ j, j ≠ i → j.val ≠ 0 := fun j other isZero => other (Fin.ext (isZero.trans first.symm))
  have empty : content = [] := stands.null rfl
  have noCopy : ∀ j offset space copied, ((w.goOn i { w.thread i with
      pc := .arrive (.leave false) }).thread j).pc ≠ .copy offset space copied := by
    intro j offset space copied
    by_cases same : j = i
    · rw [same, goOn_thread_self]
      exact WorkPc.noConfusion
    · rw [goOn_thread_of_ne same]
      exact stands.no_copy (.inr rfl) j _ _ _
  have here : pending { w.thread i with pc := .arrive (.leave false) } = pending (w.thread i) := by
    unfold pending
    rw [gets]
  unfold step
  simp only [gets]
  constructor
  · intro j
    refine forall_goOn (P := fun j t => Position waits (j.val = 0) 0 .fresh g t.pc t.arrivals) ?_
      (fun j other => (stands.position j).exchange (others j other) (.inr ⟨rfl, rfl⟩)) j
    exact .inside rfl count
  · intro j
    refine forall_goOn (P := fun _ t => Fine 0 t) ?_
      (fun j other => stands.fine_exchange (.inr rfl) (others j other) 0) j
    exact { final := (stands.fine i).final, atNext := by simp, atWhile := by simp, swaps := by simp
            copies := by simp, full := by simp, ends := by simp }
  · exact fun _ => rfl
  · intro _
    rw [empty]
    exact ⟨rfl, fun j _ _ _ isCopy => absurd isCopy (noCopy j _ _ _), fun p below => absurd below (Nat.not_lt_zero _)⟩
  · exact fun isNull => absurd isNull (by simp)
  · exact fun j _ _ _ _ _ _ _ _ isCopy => absurd isCopy (noCopy j _ _ _)
  · exact Nat.zero_le _
  · rintro (isAppend | ⟨_, isIndex⟩)
    · exact absurd isAppend (by simp)
    · exact absurd isIndex (by simp)
  · exact fun _ => rfl
  · exact stands.isAppended
  · exact stands.nonempty
  · have sum := sum_goOn_add (fun t => (pending t : Multiset ρ)) w i
      { w.thread i with pc := .arrive (.leave false) }
    rw [here] at sum
    rw [← stands.conserved, ← add_right_cancel sum]
  · exact stands.count

end OutWork

end MBFGraph
