import MBFGraph.Core.OutputWork
import Mathlib.Algebra.BigOperators.Group.Finset.Basic
import Mathlib.Algebra.BigOperators.Group.Finset.Piecewise
import Mathlib.Algebra.Order.BigOperators.Group.Finset
import Mathlib.Algebra.BigOperators.Fin
import Mathlib.Data.Multiset.AddSub

/-!
# Nothing is lost in the shared output buffer

The threads go through stages together: between two barriers they are in the stage behind the first, those that
have not left the first barrier yet, those at work, and those that wait at the second. While they work, each
record that has been counted in `bufsize` is in the buffer or is being copied by one thread. A thread that flushes
because its records did not fit sees a buffer with records; so when the buffer is found empty, all threads are in
`final_flush`, and leave together.
-/

namespace MBFGraph

open Interleaving

namespace OutWork

/-- What the threads do between two barriers. -/
inductive Stage
  | work
  | test
  | index (i : Nat)
  /-- Thread 0 has to append the buffer. -/
  | append
  /-- `stream_out` is `NULL`. -/
  | null
  | fresh
  | last
  | done
  deriving DecidableEq

namespace Stage

/-- The barrier in front of a stage. -/
def Opens (waits : Nat) : Stage → WaitAt → Prop
  | .work, place => place = .leave false
  | .test, place => place = .enter
  | .index i, place => ∃ j, i = j + 1 ∧ place = .index j
  | .append, place => ∃ j, waits = j + 1 ∧ place = .index j
  | .null, place => ∃ j, waits = j + 1 ∧ place = .index j
  | .fresh, place => ∃ j, waits = j + 1 ∧ place = .index j
  | .last, place => place = .leave true
  | .done, place => place = .last

/-- The barrier behind a stage. -/
def closes (bufsize : Nat) : Stage → WaitAt
  | .work => .enter
  | .test => if 0 < bufsize then .index 0 else .leave true
  | .index i => .index i
  | .append | .null | .fresh => .leave false
  | .last | .done => .last

/-- The statements of a stage. -/
def Holds (first : Prop) (bufsize : Nat) : Stage → WorkPc → Prop
  | .work, pc => pc = .next ∨ pc = .whileBytes ∨ (∃ offset, pc = .compareAndSwap offset) ∨
      (∃ offset space copied, pc = .copy offset space copied) ∨ pc = .arrive .enter ∨ pc = .finalFlush
  | .test, pc => pc = .testBufsize ∨ pc = .arrive (closes bufsize .test)
  | .index i, pc => pc = .arrive (.index i)
  | .append, pc => first ∧ pc = .append ∨ ¬ first ∧ pc = .arrive (.leave false)
  | .null, pc => first ∧ pc = .getBuffer ∨ ¬ first ∧ pc = .arrive (.leave false)
  | .fresh, pc => pc = .arrive (.leave false)
  | .last, pc => pc = .arrive .last
  | .done, pc => pc = .done

/-- How often the threads have arrived at barriers in a stage, with so many buffers appended. -/
def Count (waits appended g : Nat) : Stage → Prop
  | .work => g = appended * (waits + 2)
  | .test => g = appended * (waits + 2) + 1
  | .index i => g = appended * (waits + 2) + 1 + i ∧ 0 < i ∧ i < waits
  | .append => g = appended * (waits + 2) + 1 + waits
  | .null | .fresh => g + 1 = appended * (waits + 2)
  | .last => g = appended * (waits + 2) + 2
  | .done => g = appended * (waits + 2) + 3

end Stage

/-- Where a thread is in a stage. -/
inductive Position (waits : Nat) (first : Prop) (bufsize : Nat) (stage : Stage) (g : Nat) (pc : WorkPc)
    (arrivals : Nat) : Prop
  /-- It has not left the barrier in front of the stage. -/
  | behind (place : WaitAt) (opens : stage.Opens waits place) (waiting : pc = .wait place)
      (count : arrivals = g) (notFirst : first → stage ≠ .null ∧ stage ≠ .fresh)
  | inside (holds : stage.Holds first bufsize pc) (count : arrivals = g)
  | arrived (waiting : pc = .wait (stage.closes bufsize)) (count : arrivals = g + 1)
      (notDone : stage ≠ .done) (notFirst : first → stage ≠ .append ∧ stage ≠ .null)

section

variable {ρ : Type} {processors : Nat}

/-- What holds of a thread at its statement. -/
structure Fine (bufsize : Nat) (t : OutThread ρ) : Prop where
  final : t.final = true → t.batches = [] ∧ t.bytes = []
  atNext : t.pc = .next → t.bytes = [] ∧ t.final = false
  atWhile : t.pc = .whileBytes → t.final = false
  swaps : ∀ offset, t.pc = .compareAndSwap offset → t.bytes ≠ [] ∧ offset ≤ bufsize ∧ t.final = false
  copies : ∀ offset space copied, t.pc = .copy offset space copied → copied ≤ space ∧
    space ≤ t.bytes.length ∧ offset + space ≤ bufsize ∧ 0 < offset + space ∧ t.final = false
  full : t.pc = .arrive .enter ∨ t.pc = .wait .enter ∨ t.pc = .testBufsize → t.final = false → 0 < bufsize
  ends : t.pc = .arrive (.leave true) ∨ t.pc = .wait (.leave true) ∨ t.pc = .arrive .last ∨
    t.pc = .wait .last ∨ t.pc = .done ∨ t.pc = .finalFlush → t.final = true

/-- The records that a thread has not counted in `bufsize`. -/
def pending (t : OutThread ρ) : List ρ :=
  (match t.pc with
    | .copy _ space _ => t.bytes.drop space
    | _ => t.bytes) ++ t.batches.flatten

/-- What will be in the buffer when all threads have copied. -/
structure Contains (w : OutWork ρ processors) (content : List ρ) : Prop where
  length : content.length = w.bufsize
  promised : ∀ i offset space copied, (w.thread i).pc = .copy offset space copied →
    ∀ j < space, content[offset + j]? = (w.thread i).bytes[j]?
  filled : ∀ p < w.bufsize, w.buffer p = content[p]? ∨ ∃ i offset space copied,
    (w.thread i).pc = .copy offset space copied ∧ offset + copied ≤ p ∧ p < offset + space

/-- No two threads copy to the same place. -/
def Apart (w : OutWork ρ processors) : Prop :=
  ∀ i j, i ≠ j → ∀ offset space copied offset' space' copied',
    (w.thread i).pc = .copy offset space copied → (w.thread j).pc = .copy offset' space' copied' →
    offset + space ≤ offset' ∨ offset' + space' ≤ offset

/-- What holds in every state. `g` is how often a thread has arrived that is not at the next barrier, `content`
what belongs in the buffer, and `logs` what has been appended. -/
structure Stands (waits capacity : Nat) (emitted : Multiset ρ) (w : OutWork ρ processors) (g : Nat)
    (stage : Stage) (content : List ρ) (logs : List (List ρ)) : Prop where
  position : ∀ i, Position waits (i.val = 0) w.bufsize stage g (w.thread i).pc (w.thread i).arrivals
  fine : ∀ i, Fine w.bufsize (w.thread i)
  stream : stage ≠ .null → w.streamOut = true
  contains : stage ≠ .null → Contains w content
  null : stage = .null → content = []
  apart : Apart w
  fits : w.bufsize ≤ capacity
  full : (stage = .append ∨ ∃ i, stage = .index i) → 0 < w.bufsize
  empty : stage = .last ∨ stage = .done → w.bufsize = 0
  isAppended : w.appended = logs.map (List.map some)
  nonempty : ∀ buffer ∈ logs, buffer ≠ [] ∧ buffer.length ≤ capacity
  conserved : (logs.flatten : Multiset ρ) + content + ∑ i, (pending (w.thread i) : Multiset ρ) = emitted
  count : stage.Count waits logs.length g

variable {waits capacity g : Nat} {emitted : Multiset ρ} {w : OutWork ρ processors} {stage : Stage}
  {content : List ρ} {logs : List (List ρ)} {i : Fin processors}

@[simp] theorem goOn_thread_self (t : OutThread ρ) : (w.goOn i t).thread i = t := Function.update_self ..

theorem goOn_thread_of_ne {j : Fin processors} (other : j ≠ i) (t : OutThread ρ) :
    (w.goOn i t).thread j = w.thread j := Function.update_of_ne other ..

/-- A sum in which one summand is exchanged. -/
theorem sum_goOn_add {M : Type*} [AddCommMonoid M] (h : OutThread ρ → M) (w : OutWork ρ processors)
    (i : Fin processors) (t : OutThread ρ) :
    ∑ j, h ((w.goOn i t).thread j) + h (w.thread i) = ∑ j, h (w.thread j) + h t := by
  have member := Finset.mem_univ i
  rw [← Finset.add_sum_erase _ _ member, ← Finset.add_sum_erase _ (fun j => h (w.thread j)) member]
  have rest : ∑ j ∈ Finset.univ.erase i, h ((w.goOn i t).thread j) =
      ∑ j ∈ Finset.univ.erase i, h (w.thread j) := by
    refine Finset.sum_congr rfl fun j other => ?_
    rw [goOn_thread_of_ne (Finset.mem_erase.mp other).1]
  rw [rest, goOn_thread_self, add_right_comm, add_comm (h t), add_right_comm, add_right_comm (h (w.thread i))]

/-- A property of all threads, when one of them has gone on. -/
theorem forall_goOn {P : Fin processors → OutThread ρ → Prop} {t : OutThread ρ} (here : P i t)
    (others : ∀ j, j ≠ i → P j (w.thread j)) (j : Fin processors) : P j ((w.goOn i t).thread j) := by
  by_cases same : j = i
  · rw [same, goOn_thread_self]
    exact here
  · rw [goOn_thread_of_ne same]
    exact others j same

/-- A thread goes on that does not copy, and has nothing left to copy. -/
theorem Stands.goOn (stands : Stands waits capacity emitted w g stage content logs) {t : OutThread ρ}
    (position : Position waits (i.val = 0) w.bufsize stage g t.pc t.arrivals) (fine : Fine w.bufsize t)
    (samePending : (pending t).Perm (pending (w.thread i)))
    (noCopy : ∀ offset space copied, t.pc ≠ .copy offset space copied)
    (copied : ∀ offset space copied, (w.thread i).pc = .copy offset space copied → space ≤ copied) :
    Stands waits capacity emitted (w.goOn i t) g stage content logs where
  position := forall_goOn (P := fun j t => Position waits (j.val = 0) w.bufsize stage g t.pc t.arrivals)
    position fun j _ => stands.position j
  fine := forall_goOn (P := fun _ t => Fine w.bufsize t) fine fun j _ => stands.fine j
  stream := stands.stream
  contains notNull := by
    obtain ⟨length, promised, filled⟩ := stands.contains notNull
    refine ⟨length, fun j => ?_, fun p below => (filled p below).imp id ?_⟩
    · refine forall_goOn (P := fun _ t => ∀ offset space copied, t.pc = .copy offset space copied →
        ∀ j < space, content[offset + j]? = t.bytes[j]?) ?_ (fun j _ => promised j) j
      exact fun offset space copied isCopy => absurd isCopy (noCopy offset space copied)
    · rintro ⟨j, offset, space, copied', isCopy, le, lt⟩
      have other : j ≠ i := by
        rintro rfl
        have := copied offset space copied' isCopy
        omega
      exact ⟨j, offset, space, copied', by rw [goOn_thread_of_ne other]; exact isCopy, le, lt⟩
  null := stands.null
  apart := by
    intro j j' different
    have notHere : ∀ j offset space copied, ((w.goOn i t).thread j).pc = .copy offset space copied →
        j ≠ i ∧ (w.thread j).pc = .copy offset space copied := by
      intro j offset space copied isCopy
      have other : j ≠ i := by
        rintro rfl
        rw [goOn_thread_self] at isCopy
        exact noCopy _ _ _ isCopy
      rw [goOn_thread_of_ne other] at isCopy
      exact ⟨other, isCopy⟩
    intro offset space copied offset' space' copied' isCopy isCopy'
    exact stands.apart j j' different _ _ _ _ _ _ (notHere _ _ _ _ isCopy).2 (notHere _ _ _ _ isCopy').2
  fits := stands.fits
  full := stands.full
  empty := stands.empty
  isAppended := stands.isAppended
  nonempty := stands.nonempty
  conserved := by
    have sum := sum_goOn_add (fun t => (pending t : Multiset ρ)) w i t
    have same : (pending t : Multiset ρ) = pending (w.thread i) := Multiset.coe_eq_coe.mpr samePending
    rw [same] at sum
    rw [add_right_cancel sum]
    exact stands.conserved
  count := stands.count

/-! ## Working -/

/-- Only a thread that is at work is at these statements. -/
theorem Stands.atWork (stands : Stands waits capacity emitted w g stage content logs)
    (working : (w.thread i).pc = .next ∨ (w.thread i).pc = .whileBytes ∨
      (∃ offset, (w.thread i).pc = .compareAndSwap offset) ∨
      (∃ offset space copied, (w.thread i).pc = .copy offset space copied) ∨ (w.thread i).pc = .finalFlush) :
    stage = .work ∧ (w.thread i).arrivals = g := by
  cases stands.position i with
  | behind place opens waiting count notFirst =>
    rw [waiting] at working
    simp at working
  | inside holds count =>
    refine ⟨?_, count⟩
    cases stage with
    | work => rfl
    | append =>
      rcases holds with ⟨_, isPc⟩ | ⟨_, isPc⟩ <;> rw [isPc] at working <;> simp at working
    | null =>
      rcases holds with ⟨_, isPc⟩ | ⟨_, isPc⟩ <;> rw [isPc] at working <;> simp at working
    | test => rcases holds with isPc | isPc <;> rw [isPc] at working <;> simp at working
    | index _ | fresh | last | done =>
      rw [show (w.thread i).pc = _ from holds] at working
      simp at working
  | arrived waiting count notDone notFirst =>
    rw [waiting] at working
    simp at working

/-- The next batch, or the end of the input. -/
theorem Stands.step_next (stands : Stands waits capacity emitted w g stage content logs)
    (atNext : (w.thread i).pc = .next) {bufbytes itemSize : Nat} {useQsort : Bool} :
    Stands waits capacity emitted (step bufbytes itemSize useQsort w i) g stage content logs := by
  obtain ⟨rfl, count⟩ := stands.atWork (.inl atNext)
  obtain ⟨empty, notFinal⟩ := (stands.fine i).atNext atNext
  have here : pending (w.thread i) = (w.thread i).batches.flatten := by
    unfold pending
    rw [atNext, empty]
    rfl
  have there : w.streamOut = true := stands.stream (by simp)
  unfold step
  simp only [atNext]
  split
  · rename_i noBatch
    rw [if_pos there]
    refine stands.goOn (.inside (.inr (.inr (.inr (.inr (.inr rfl))))) count) ?_ ?_ (by simp) (by simp [atNext])
    · exact { final := fun _ => ⟨noBatch, empty⟩, atNext := by simp, atWhile := by simp, swaps := by simp,
              copies := by simp, full := fun _ final => absurd final Bool.noConfusion, ends := fun _ => rfl }
    · rw [here]
      unfold pending
      simp [empty]
  · rename_i batch batches isBatch
    rw [if_pos there]
    refine stands.goOn (.inside (.inr (.inl rfl)) count) ?_ ?_ (by simp) (by simp [atNext])
    · exact { final := fun final => absurd (notFinal.symm.trans final) Bool.noConfusion
              atNext := by simp, atWhile := fun _ => notFinal, swaps := by simp, copies := by simp
              full := by simp, ends := by simp }
    · rw [here]
      unfold pending
      simp [isBatch]

/-- A thread goes to flush, at the end of its input. -/
theorem Stands.step_finalFlush (stands : Stands waits capacity emitted w g stage content logs)
    (flushes : (w.thread i).pc = .finalFlush) {bufbytes itemSize : Nat} {useQsort : Bool} :
    Stands waits capacity emitted (step bufbytes itemSize useQsort w i) g stage content logs := by
  obtain ⟨rfl, count⟩ := stands.atWork (.inr (.inr (.inr (.inr flushes))))
  have isFinal := (stands.fine i).ends (.inr (.inr (.inr (.inr (.inr flushes)))))
  have there : w.streamOut = true := stands.stream (by simp)
  unfold step
  simp only [flushes]
  rw [if_pos there]
  refine stands.goOn (.inside (.inr (.inr (.inr (.inr (.inl rfl))))) count) ?_ ?_ (by simp) (by simp [flushes])
  · exact { final := (stands.fine i).final, atNext := by simp, atWhile := by simp, swaps := by simp
            copies := by simp, full := fun _ notFinal => absurd (isFinal.symm.trans notFinal) Bool.noConfusion
            ends := by simp }
  · unfold pending
    rw [flushes]

/-- The loop of `append_buffer`, up to the read of `bufsize`. -/
theorem Stands.step_while (stands : Stands waits capacity emitted w g stage content logs)
    (atWhile : (w.thread i).pc = .whileBytes) {bufbytes itemSize : Nat} {useQsort : Bool} :
    Stands waits capacity emitted (step bufbytes itemSize useQsort w i) g stage content logs := by
  obtain ⟨rfl, count⟩ := stands.atWork (.inr (.inl atWhile))
  have notFinal := (stands.fine i).atWhile atWhile
  have isFinal : (w.thread i).final = true → (w.thread i).batches = [] ∧ (w.thread i).bytes = [] :=
    (stands.fine i).final
  unfold step
  simp only [atWhile]
  split
  · rename_i empty
    refine stands.goOn (.inside (.inl rfl) count) ?_ ?_ (by simp) (by simp [atWhile])
    · exact { final := isFinal, atNext := fun _ => ⟨empty, notFinal⟩, atWhile := by simp, swaps := by simp
              copies := by simp, full := by simp, ends := by simp }
    · unfold pending
      rw [atWhile]
  · rename_i some_
    refine stands.goOn (.inside (.inr (.inr (.inl ⟨_, rfl⟩))) count) ?_ ?_ (by simp) (by simp [atWhile])
    · exact { final := isFinal, atNext := by simp, atWhile := by simp
              swaps := fun offset isSwap => by
                injection isSwap with same
                exact ⟨some_, Nat.le_of_eq same.symm, notFinal⟩
              copies := by simp, full := by simp, ends := by simp }
    · unfold pending
      rw [atWhile]

theorem space_eq {bufbytes itemSize : Nat} (positive : 0 < itemSize) (offsetStart bytes : Nat) :
    space bufbytes itemSize offsetStart bytes = min (bufbytes / itemSize - offsetStart) bytes := by
  have mono : Monotone fun n => n / itemSize := fun _ _ le => Nat.div_le_div_right le
  unfold space
  rw [mono.map_min, Nat.mul_comm offsetStart, Nat.sub_mul_div, Nat.mul_div_cancel _ positive]

/-- The swap fails, as another thread has been faster. -/
theorem Stands.step_swap_fails (stands : Stands waits capacity emitted w g stage content logs) {offset : Nat}
    (atSwap : (w.thread i).pc = .compareAndSwap offset) (other : w.bufsize ≠ offset)
    {bufbytes itemSize : Nat} {useQsort : Bool} :
    Stands waits capacity emitted (step bufbytes itemSize useQsort w i) g stage content logs := by
  obtain ⟨rfl, count⟩ := stands.atWork (.inr (.inr (.inl ⟨_, atSwap⟩)))
  obtain ⟨_, _, notFinal⟩ := (stands.fine i).swaps offset atSwap
  unfold step
  simp only [atSwap]
  rw [if_neg other]
  refine stands.goOn (.inside (.inr (.inl rfl)) count) ?_ ?_ (by simp) (by simp [atSwap])
  · exact { final := (stands.fine i).final, atNext := by simp, atWhile := fun _ => notFinal, swaps := by simp
            copies := by simp, full := by simp, ends := by simp }
  · unfold pending
    rw [atSwap]

theorem Fine.mono {bufsize bufsize' : Nat} {t : OutThread ρ} (fine : Fine bufsize t) (le : bufsize ≤ bufsize') :
    Fine bufsize' t where
  final := fine.final
  atNext := fine.atNext
  atWhile := fine.atWhile
  swaps offset isSwap := by
    obtain ⟨some_, le', notFinal⟩ := fine.swaps offset isSwap
    exact ⟨some_, Nat.le_trans le' le, notFinal⟩
  copies offset space copied isCopy := by
    obtain ⟨le₁, le₂, le₃, positive, notFinal⟩ := fine.copies offset space copied isCopy
    exact ⟨le₁, le₂, Nat.le_trans le₃ le, positive, notFinal⟩
  full meets notFinal := Nat.lt_of_lt_of_le (fine.full meets notFinal) le
  ends := fine.ends

/-- In the stage of work, positions do not depend on `bufsize`. -/
theorem Position.of_work {first : Prop} {bufsize bufsize' : Nat} {pc : WorkPc} {arrivals : Nat}
    (position : Position waits first bufsize .work g pc arrivals) :
    Position waits first bufsize' .work g pc arrivals := by
  cases position with
  | behind place opens waiting count notFirst => exact .behind place opens waiting count notFirst
  | inside holds count => exact .inside holds count
  | arrived waiting count notDone notFirst => exact .arrived waiting count notDone notFirst

/-- The swap succeeds: the thread has got a part of the buffer for itself. -/
theorem Stands.step_swap (stands : Stands waits capacity emitted w g stage content logs) {offset : Nat}
    (atSwap : (w.thread i).pc = .compareAndSwap offset) (same : w.bufsize = offset)
    {bufbytes itemSize : Nat} {useQsort : Bool} (positive : 0 < itemSize) (room : 0 < capacity)
    (isCapacity : capacity = bufbytes / itemSize) :
    ∃ content, Stands waits capacity emitted (step bufbytes itemSize useQsort w i) g stage content logs := by
  obtain ⟨rfl, count⟩ := stands.atWork (.inr (.inr (.inl ⟨_, atSwap⟩)))
  obtain ⟨some_, _, notFinal⟩ := (stands.fine i).swaps offset atSwap
  have isSpace : space bufbytes itemSize offset (w.thread i).bytes.length =
      min (bufbytes / itemSize - offset) (w.thread i).bytes.length := space_eq positive _ _
  rw [← isCapacity] at isSpace
  have fits := stands.fits
  have length := List.length_pos_iff.mpr some_
  unfold step
  simp only [atSwap]
  rw [if_pos same]
  generalize space bufbytes itemSize offset (w.thread i).bytes.length = taken at isSpace ⊢
  obtain ⟨isLength, promised, filled⟩ := stands.contains (by simp)
  have le : taken ≤ (w.thread i).bytes.length := by omega
  have copyHere : ∀ j offset' space' copied', ((w.goOn i { w.thread i with pc := .copy offset taken 0 }).thread
      j).pc = .copy offset' space' copied' →
      j = i ∧ offset' = offset ∧ space' = taken ∧ copied' = 0 ∨
        j ≠ i ∧ (w.thread j).pc = .copy offset' space' copied' := by
    intro j offset' space' copied' isCopy
    by_cases here : j = i
    · left
      rw [here, goOn_thread_self] at isCopy
      injection isCopy with h₁ h₂ h₃
      exact ⟨here, h₁.symm, h₂.symm, h₃.symm⟩
    · rw [goOn_thread_of_ne here] at isCopy
      exact .inr ⟨here, isCopy⟩
  refine ⟨content ++ (w.thread i).bytes.take taken, ?_⟩
  constructor
  · intro j
    refine forall_goOn (P := fun j t => Position waits (j.val = 0) (offset + taken) .work g t.pc t.arrivals)
      ?_ (fun j _ => (stands.position j).of_work) j
    exact .inside (.inr (.inr (.inr (.inl ⟨_, _, _, rfl⟩)))) count
  · intro j
    refine forall_goOn (P := fun _ t => Fine (offset + taken) t) ?_
      (fun j _ => (stands.fine j).mono (by omega)) j
    exact { final := (stands.fine i).final, atNext := by simp, atWhile := by simp, swaps := by simp
            copies := fun offset' space' copied' isCopy => by
              injection isCopy with h₁ h₂ h₃
              subst h₁ h₂ h₃
              exact ⟨Nat.zero_le _, le, Nat.le_refl _, by omega, notFinal⟩
            full := by simp, ends := by simp }
  · exact stands.stream
  · intro _
    constructor
    · rw [List.length_append, List.length_take, isLength, same]
      change offset + min taken _ = offset + taken
      rw [Nat.min_eq_left le]
    · intro j offset' space' copied' isCopy p below
      rcases copyHere j offset' space' copied' isCopy with ⟨rfl, rfl, rfl, _⟩ | ⟨other, before⟩
      · rw [List.getElem?_append_right (by omega), isLength, same, Nat.add_sub_cancel_left,
          List.getElem?_take_of_lt below]
        change _ = ((w.goOn j _).thread j).bytes[p]?
        rw [goOn_thread_self]
      · obtain ⟨_, _, inside, _⟩ := (stands.fine j).copies _ _ _ before
        rw [List.getElem?_append_left (by omega), promised j _ _ _ before p below]
        change _ = ((w.goOn i _).thread j).bytes[p]?
        rw [goOn_thread_of_ne other]
    · intro p below
      change p < offset + taken at below
      rcases Nat.lt_or_ge p offset with early | late
      · rcases filled p (by omega) with isFilled | ⟨j, offset', space', copied', isCopy, le', lt⟩
        · left
          rw [List.getElem?_append_left (by omega)]
          exact isFilled
        · have other : j ≠ i := by
            rintro rfl
            rw [atSwap] at isCopy
            exact WorkPc.noConfusion isCopy
          right
          refine ⟨j, offset', space', copied', ?_, le', lt⟩
          change ((w.goOn i _).thread j).pc = _
          rw [goOn_thread_of_ne other]
          exact isCopy
      · right
        refine ⟨i, offset, taken, 0, ?_, late, below⟩
        change ((w.goOn i _).thread i).pc = _
        rw [goOn_thread_self]
  · intro null
    exact absurd null (by simp)
  · intro j j' different offset₁ space₁ copied₁ offset₂ space₂ copied₂ isCopy isCopy'
    rcases copyHere j _ _ _ isCopy with ⟨rfl, rfl, rfl, _⟩ | ⟨other, before⟩ <;>
      rcases copyHere j' _ _ _ isCopy' with ⟨rfl, rfl, rfl, _⟩ | ⟨other', before'⟩
    · exact absurd rfl different
    · have := (stands.fine j').copies _ _ _ before'
      omega
    · have := (stands.fine j).copies _ _ _ before
      omega
    · exact stands.apart j j' different _ _ _ _ _ _ before before'
  · change offset + taken ≤ capacity
    omega
  · rintro (isAppend | ⟨_, isIndex⟩)
    · exact absurd isAppend (by simp)
    · exact absurd isIndex (by simp)
  · simp
  · exact stands.isAppended
  · exact stands.nonempty
  · have sum := sum_goOn_add (fun t => (pending t : Multiset ρ)) w i
      { w.thread i with pc := .copy offset taken 0 }
    have before : pending (w.thread i) = (w.thread i).bytes ++ (w.thread i).batches.flatten := by
      unfold pending
      rw [atSwap]
    have after : pending { w.thread i with pc := .copy offset taken 0 } =
        (w.thread i).bytes.drop taken ++ (w.thread i).batches.flatten := rfl
    have split : (pending (w.thread i) : Multiset ρ) = ((w.thread i).bytes.take taken : Multiset ρ) +
        (pending { w.thread i with pc := .copy offset taken 0 } : Multiset ρ) := by
      rw [before, after, Multiset.coe_add, ← List.append_assoc, List.take_append_drop]
    rw [split, ← add_assoc] at sum
    have rest := add_right_cancel sum
    rw [← stands.conserved, ← rest, ← Multiset.coe_add]
    simp only [add_assoc]
    rw [add_comm (∑ j, _) (((w.thread i).bytes.take taken : List ρ) : Multiset ρ)]
  · exact stands.count

/-- One record is copied. -/
theorem Stands.step_copy (stands : Stands waits capacity emitted w g stage content logs)
    {offset space copied : Nat} (atCopy : (w.thread i).pc = .copy offset space copied) (more : copied < space)
    {bufbytes itemSize : Nat} {useQsort : Bool} :
    Stands waits capacity emitted (step bufbytes itemSize useQsort w i) g stage content logs := by
  obtain ⟨rfl, count⟩ := stands.atWork (.inr (.inr (.inr (.inl ⟨_, _, _, atCopy⟩))))
  obtain ⟨_, le, inside, positive, notFinal⟩ := (stands.fine i).copies _ _ _ atCopy
  obtain ⟨isLength, promised, filled⟩ := stands.contains (by simp)
  unfold step
  simp only [atCopy]
  rw [if_pos more]
  have copyHere : ∀ j offset' space' copied', ((w.goOn i { w.thread i with
      pc := .copy offset space (copied + 1) }).thread j).pc = .copy offset' space' copied' →
      ∃ before, (w.thread j).pc = .copy offset' space' before := by
    intro j offset' space' copied' isCopy
    by_cases here : j = i
    · rw [here, goOn_thread_self] at isCopy
      injection isCopy with h₁ h₂ _
      subst here h₁ h₂
      exact ⟨copied, atCopy⟩
    · rw [goOn_thread_of_ne here] at isCopy
      exact ⟨copied', isCopy⟩
  constructor
  · intro j
    refine forall_goOn (P := fun j t => Position waits (j.val = 0) w.bufsize .work g t.pc t.arrivals)
      ?_ (fun j _ => stands.position j) j
    exact .inside (.inr (.inr (.inr (.inl ⟨_, _, _, rfl⟩)))) count
  · intro j
    refine forall_goOn (P := fun _ t => Fine w.bufsize t) ?_ (fun j _ => stands.fine j) j
    exact { final := (stands.fine i).final, atNext := by simp, atWhile := by simp, swaps := by simp
            copies := fun offset' space' copied' isCopy => by
              injection isCopy with h₁ h₂ h₃
              subst h₁ h₂ h₃
              exact ⟨more, le, inside, positive, notFinal⟩
            full := by simp, ends := by simp }
  · exact stands.stream
  · intro _
    refine ⟨isLength, fun j offset' space' copied' isCopy p below => ?_, fun p below => ?_⟩
    · obtain ⟨before, wasCopy⟩ := copyHere j _ _ _ isCopy
      rw [promised j _ _ _ wasCopy p below]
      change _ = ((w.goOn i _).thread j).bytes[p]?
      by_cases here : j = i
      · rw [here, goOn_thread_self]
      · rw [goOn_thread_of_ne here]
    · change Function.update w.buffer (offset + copied) (w.thread i).bytes[copied]? p = _ ∨ _
      by_cases now : p = offset + copied
      · left
        rw [now, Function.update_self, promised i _ _ _ atCopy copied more]
      · rw [Function.update_of_ne now]
        rcases filled p below with isFilled | ⟨j, offset', space', copied', isCopy, le', lt⟩
        · exact .inl isFilled
        · right
          by_cases here : j = i
          · rw [here, atCopy] at isCopy
            injection isCopy with h₁ h₂ h₃
            subst h₁ h₂ h₃
            refine ⟨i, offset, space, copied + 1, ?_, by omega, lt⟩
            change ((w.goOn i _).thread i).pc = _
            rw [goOn_thread_self]
          · refine ⟨j, offset', space', copied', ?_, le', lt⟩
            change ((w.goOn i _).thread j).pc = _
            rw [goOn_thread_of_ne here]
            exact isCopy
  · exact stands.null
  · intro j j' different offset₁ space₁ copied₁ offset₂ space₂ copied₂ isCopy isCopy'
    obtain ⟨_, wasCopy⟩ := copyHere j _ _ _ isCopy
    obtain ⟨_, wasCopy'⟩ := copyHere j' _ _ _ isCopy'
    exact stands.apart j j' different _ _ _ _ _ _ wasCopy wasCopy'
  · exact stands.fits
  · exact stands.full
  · exact stands.empty
  · exact stands.isAppended
  · exact stands.nonempty
  · have sum := sum_goOn_add (fun t => (pending t : Multiset ρ)) w i
      { w.thread i with pc := .copy offset space (copied + 1) }
    have same : pending { w.thread i with pc := .copy offset space (copied + 1) } = pending (w.thread i) := by
      unfold pending
      rw [atCopy]
    rw [same] at sum
    rw [← stands.conserved, ← add_right_cancel sum]
  · exact stands.count

/-- A thread has copied what it could. -/
theorem Stands.step_copied (stands : Stands waits capacity emitted w g stage content logs)
    {offset space copied : Nat} (atCopy : (w.thread i).pc = .copy offset space copied) (all : ¬ copied < space)
    {bufbytes itemSize : Nat} {useQsort : Bool} :
    Stands waits capacity emitted (step bufbytes itemSize useQsort w i) g stage content logs := by
  obtain ⟨rfl, count⟩ := stands.atWork (.inr (.inr (.inr (.inl ⟨_, _, _, atCopy⟩))))
  obtain ⟨_, _, inside, positive, notFinal⟩ := (stands.fine i).copies _ _ _ atCopy
  have isPending : pending (w.thread i) = (w.thread i).bytes.drop space ++ (w.thread i).batches.flatten := by
    unfold pending
    rw [atCopy]
  have nothing : ∀ offset' space' copied', (w.thread i).pc = .copy offset' space' copied' →
      space' ≤ copied' := by
    intro offset' space' copied' isCopy
    rw [atCopy] at isCopy
    injection isCopy with _ h₂ h₃
    omega
  unfold step
  simp only [atCopy]
  rw [if_neg all]
  by_cases part : space ≠ (w.thread i).bytes.length
  · rw [if_pos part]
    refine stands.goOn (.inside (.inr (.inr (.inr (.inr (.inl rfl))))) count) ?_ ?_ (by simp) nothing
    · exact { final := fun final => absurd (notFinal.symm.trans final) Bool.noConfusion
              atNext := by simp, atWhile := by simp, swaps := by simp, copies := by simp
              full := fun _ _ => by omega, ends := by simp }
    · rw [isPending]
      exact List.Perm.refl _
  · rw [if_neg part]
    refine stands.goOn (.inside (.inr (.inl rfl)) count) ?_ ?_ (by simp) nothing
    · exact { final := fun final => absurd (notFinal.symm.trans final) Bool.noConfusion
              atNext := by simp, atWhile := fun _ => notFinal, swaps := by simp, copies := by simp
              full := by simp, ends := by simp }
    · rw [isPending]
      exact List.Perm.refl _

end

end OutWork

end MBFGraph
