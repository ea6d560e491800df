import MBFGraph.Core.Proofs.OutputFlush
import Mathlib.Data.Fintype.Lattice

/-!
# All records are appended

The invariant holds in every state, whichever thread makes the next step; and under every fair schedule the threads
come to the end. What is still to be done gets less with each step of a thread that does not wait. A swap that
succeeds may let the swaps of the other threads fail, but takes a record.
-/

namespace MBFGraph

open Interleaving

namespace OutWork

section

variable {ρ : Type} {processors waits capacity g : Nat} {emitted : Multiset ρ} {w : OutWork ρ processors}
  {stage : Stage} {content : List ρ} {logs : List (List ρ)} {i : Fin processors}

/-! ## Every state -/

/-- The invariant. -/
def Sound (waits capacity : Nat) (emitted : Multiset ρ) (w : OutWork ρ processors) : Prop :=
  ∃ g stage content logs, Stands waits capacity emitted w g stage content logs

/-- The records of all threads. -/
def emittedBy (batches : Fin processors → List (List ρ)) : Multiset ρ := ∑ i, ((batches i).flatten : Multiset ρ)

theorem start_sound (batches : Fin processors → List (List ρ)) (waits capacity : Nat) :
    Sound waits capacity (emittedBy batches) (start batches) := by
  refine ⟨0, .work, [], [], ?_⟩
  constructor
  · exact fun i => .inside (.inl rfl) rfl
  · exact fun i => { final := fun final => Bool.noConfusion final, atNext := fun _ => ⟨rfl, rfl⟩, atWhile := fun _ => rfl
                     swaps := by simp [start], copies := by simp [start], full := by simp [start]
                     ends := by simp [start] }
  · exact fun _ => rfl
  · exact fun _ => ⟨rfl, by simp [start], by simp [start]⟩
  · exact fun _ => rfl
  · exact fun i j _ _ _ _ _ _ _ isCopy => WorkPc.noConfusion isCopy
  · exact Nat.zero_le _
  · simp
  · simp
  · rfl
  · simp
  · simp [emittedBy, pending, start]
  · exact (Nat.zero_mul _).symm

variable {bufbytes itemSize : Nat} {useQsort : Bool}

/-- Every step keeps the invariant. -/
theorem Sound.step (positive : 0 < itemSize) (fits : itemSize ≤ bufbytes)
    (sound : Sound (indexWaits useQsort) (bufbytes / itemSize) emitted w) (i : Fin processors) :
    Sound (indexWaits useQsort) (bufbytes / itemSize) emitted (step bufbytes itemSize useQsort w i) := by
  obtain ⟨g, stage, content, logs, stands⟩ := sound
  cases isPc : (w.thread i).pc with
  | next => exact ⟨g, stage, content, logs, stands.step_next isPc⟩
  | whileBytes => exact ⟨g, stage, content, logs, stands.step_while isPc⟩
  | compareAndSwap offset =>
    by_cases same : w.bufsize = offset
    · have room : 0 < bufbytes / itemSize := Nat.div_pos fits positive
      obtain ⟨content', stands'⟩ := stands.step_swap isPc same positive room rfl
      exact ⟨g, stage, content', logs, stands'⟩
    · exact ⟨g, stage, content, logs, stands.step_swap_fails isPc same⟩
  | copy offset space copied =>
    by_cases more : copied < space
    · exact ⟨g, stage, content, logs, stands.step_copy isPc more⟩
    · exact ⟨g, stage, content, logs, stands.step_copied isPc more⟩
  | arrive place => exact ⟨g, stage, content, logs, (stands.step_arrive isPc).2⟩
  | wait place =>
    obtain ⟨g', stage', stands'⟩ := stands.step_wait isPc rfl
    exact ⟨g', stage', content, logs, stands'⟩
  | testBufsize => exact ⟨g, stage, content, logs, stands.step_test isPc⟩
  | append => exact ⟨g, .null, [], logs ++ [content], stands.step_append isPc⟩
  | getBuffer => exact ⟨g, .fresh, content, logs, stands.step_getBuffer isPc⟩
  | finalFlush => exact ⟨g, stage, content, logs, stands.step_finalFlush isPc⟩
  | done =>
    have same : OutWork.step bufbytes itemSize useQsort w i = w := by
      unfold OutWork.step
      simp only [isPc]
    rw [same]
    exact ⟨g, stage, content, logs, stands⟩

/-- While `stream_out` is `NULL`, no thread looks into it. -/
theorem Stands.not_dereferences (stands : Stands waits capacity emitted w g .null content logs)
    (i : Fin processors) : ¬ Dereferences (w.thread i).pc := by
  cases stands.position i with
  | behind _ _ waiting => rw [waiting]; exact id
  | arrived waiting => rw [waiting]; exact id
  | inside holds =>
    rcases holds with ⟨_, isPc⟩ | ⟨_, isPc⟩
    · rw [isPc]; exact id
    · rw [isPc]; exact id

theorem Sound.safe (positive : 0 < itemSize) (sound : Sound waits (bufbytes / itemSize) emitted w) :
    Safe bufbytes itemSize w := by
  obtain ⟨g, stage, content, logs, stands⟩ := sound
  constructor
  · intro i looks
    refine stands.stream fun isNull => ?_
    subst isNull
    exact stands.not_dereferences i looks
  · intro i offset space copied isCopy
    obtain ⟨_, _, inside, _⟩ := (stands.fine i).copies _ _ _ isCopy
    exact (Nat.le_div_iff_mul_le positive).mp (Nat.le_trans inside stands.fits)
  · exact stands.apart

/-- A thread that has returned has seen an empty buffer, and so have all others. -/
theorem Stands.done_of (stands : Stands waits capacity emitted w g stage content logs)
    (returned : (w.thread i).pc = .done) : stage = .done := by
  cases stands.position i with
  | behind _ _ waiting => rw [returned] at waiting; exact WorkPc.noConfusion waiting
  | arrived waiting => rw [returned] at waiting; exact WorkPc.noConfusion waiting
  | inside holds =>
    rw [returned] at holds
    cases stage <;> simp [Stage.Holds] at holds
    rfl

/-- At the end, all threads have arrived equally often. -/
theorem Stands.arrivals_of_done (stands : Stands waits capacity emitted w g .done content logs)
    (i : Fin processors) : (w.thread i).arrivals = g := by
  cases stands.position i with
  | behind _ _ _ count => exact count
  | inside _ count => exact count
  | arrived _ _ notDone => exact absurd rfl notDone

theorem emittedBy_eq (batches : Fin processors → List (List ρ)) :
    emittedBy batches = ((List.ofFn batches).flatten.flatten : Multiset ρ) := by
  induction processors with
  | zero => simp [emittedBy]
  | succ n ih =>
    have rest := ih fun i => batches i.succ
    unfold emittedBy at rest ⊢
    rw [Fin.sum_univ_succ, rest, List.ofFn_succ, List.flatten_cons, List.flatten_append, Multiset.coe_add]

/-- When all threads have returned, everything has been appended. -/
theorem Sound.appended (positive : 0 < itemSize) (someone : 0 < processors)
    {batches : Fin processors → List (List ρ)}
    (sound : Sound waits (bufbytes / itemSize) (emittedBy batches) w) (finished : Finished w) :
    Appended bufbytes itemSize batches w := by
  obtain ⟨g, stage, content, logs, stands⟩ := sound
  have isDone : stage = .done := stands.done_of (finished ⟨0, someone⟩)
  subst isDone
  have contentLength := (stands.contains (by simp)).length
  rw [stands.empty (.inr rfl)] at contentLength
  have noContent : content = [] := List.eq_nil_of_length_eq_zero contentLength
  have nothing : ∀ i, (pending (w.thread i) : Multiset ρ) = 0 := by
    intro i
    have fine := stands.fine i
    obtain ⟨noBatches, noBytes⟩ := fine.final (fine.ends (.inr (.inr (.inr (.inr (.inl (finished i)))))))
    unfold pending
    rw [finished i, noBatches, noBytes]
    rfl
  have all : (logs.flatten : Multiset ρ) = emittedBy batches := by
    rw [← stands.conserved, noContent, Finset.sum_eq_zero fun i _ => nothing i]
    simp
  constructor
  · rw [stands.isAppended, ← List.map_flatten]
    refine List.Perm.map _ ?_
    rw [← Multiset.coe_eq_coe, all, emittedBy_eq]
  · intro buffer member
    rw [stands.isAppended] at member
    obtain ⟨records, isIn, rfl⟩ := List.mem_map.mp member
    exact fun isEmpty => (stands.nonempty records isIn).1 (List.map_eq_nil_iff.mp isEmpty)
  · intro buffer member
    rw [stands.isAppended] at member
    obtain ⟨records, isIn, rfl⟩ := List.mem_map.mp member
    rw [List.length_map]
    exact (Nat.le_div_iff_mul_le positive).mp (stands.nonempty records isIn).2
  · exact fun i j => (stands.arrivals_of_done i).trans (stands.arrivals_of_done j).symm

/-! ## Progress -/

/-- The steps to the next barrier, for a thread whose swap is not tried again. A swap will fail if the buffer has
got another size meanwhile. -/
def rank (bufsize : Nat) (t : OutThread ρ) : Nat :=
  match t.pc with
  | .next => 2
  | .whileBytes => 4
  | .compareAndSwap offset => if offset = bufsize then 3 else 5
  | .copy _ space _ => if space = t.bytes.length then 5 else 1
  | .arrive _ => 0
  | .wait _ => 5
  | .testBufsize => 1
  | .append => 2
  | .getBuffer => 1
  | .finalFlush => 1
  | .done => 0

/-- What is to be done with the batch at hand, where a record that has no place yet counts `a`. -/
def toCopy (a : Nat) (t : OutThread ρ) : Nat :=
  match t.pc with
  | .copy _ space copied => (t.bytes.length - space) * a + (space - copied)
  | _ => t.bytes.length * a

/-- What a thread has still to do, if it arrives at most `barriers` times at a barrier. -/
def weight (a barriers bufsize : Nat) (t : OutThread ρ) : Nat :=
  (barriers - t.arrivals) * 6 + (t.batches.map fun batch => batch.length * a + 3).sum + toCopy a t + rank bufsize t

/-- What the threads have still to do. -/
def size (waits : Nat) (emitted : Multiset ρ) (w : OutWork ρ processors) : Nat :=
  ∑ i, weight (2 * processors + 2) ((emitted.card + 1) * (waits + 2)) w.bufsize (w.thread i)

/-- A thread that has something to do, and need not wait for another one. -/
def Helps (w : OutWork ρ processors) (i : Fin processors) : Prop :=
  (w.thread i).pc ≠ .done ∧
    ∀ place, (w.thread i).pc = .wait place → ∀ j, (w.thread i).arrivals ≤ (w.thread j).arrivals

/-- One thread has less to do. -/
theorem sum_goOn_lt {t : OutThread ρ} {a barriers : Nat}
    (less : weight a barriers w.bufsize t < weight a barriers w.bufsize (w.thread i)) :
    ∑ j, weight a barriers w.bufsize ((w.goOn i t).thread j) < ∑ j, weight a barriers w.bufsize (w.thread j) := by
  have sum := sum_goOn_add (weight a barriers w.bufsize) w i t
  omega

theorem rank_le_add (bufsize bufsize' : Nat) (t : OutThread ρ) : rank bufsize' t ≤ rank bufsize t + 2 := by
  unfold rank
  split
  case h_3 => split <;> split <;> omega
  all_goals omega

/-- Another size of the buffer costs each thread two steps. -/
theorem weight_le_add (a barriers bufsize bufsize' : Nat) (t : OutThread ρ) :
    weight a barriers bufsize' t ≤ weight a barriers bufsize t + 2 :=
  Nat.add_le_add_left (rank_le_add bufsize bufsize' t) _

theorem sum_weight_le_add (a barriers bufsize bufsize' : Nat) (w : OutWork ρ processors) :
    ∑ j, weight a barriers bufsize' (w.thread j) ≤
      ∑ j, weight a barriers bufsize (w.thread j) + 2 * processors := by
  calc ∑ j, weight a barriers bufsize' (w.thread j)
      ≤ ∑ j, (weight a barriers bufsize (w.thread j) + 2) :=
        Finset.sum_le_sum fun j _ => weight_le_add a barriers bufsize bufsize' (w.thread j)
    _ = ∑ j, weight a barriers bufsize (w.thread j) + 2 * processors := by
        rw [Finset.sum_add_distrib, Finset.sum_const, Finset.card_univ, Fintype.card_fin, smul_eq_mul,
          Nat.mul_comm]

/-- A thread leaves a barrier. -/
theorem weight_behind_lt {t : OutThread ρ} {place : WaitAt} (a barriers bufsize : Nat) (waiting : t.pc = .wait place)
    (useQsort : Bool) (i : Fin processors) :
    weight a barriers bufsize { t with pc := behind useQsort i t.final place } < weight a barriers bufsize t := by
  have same : toCopy a { t with pc := behind useQsort i t.final place } = toCopy a t := by
    unfold behind
    split <;> (repeat' split) <;> simp [toCopy, waiting]
  have few : rank bufsize { t with pc := behind useQsort i t.final place } ≤ 4 := by
    unfold behind
    split <;> (repeat' split) <;> simp [rank]
  have rankHere : rank bufsize t = 5 := by
    simp only [rank, waiting]
  unfold weight
  rw [same, rankHere]
  exact Nat.add_lt_add_left (Nat.lt_of_le_of_lt few (by decide)) _

/-- The number of arrivals is bounded, as each buffer holds a record. -/
theorem Stands.count_lt (stands : Stands waits capacity emitted w g stage content logs) (many : 1 < waits) :
    g < (emitted.card + 1) * (waits + 2) := by
  have each : ∀ logs : List (List ρ), (∀ buffer ∈ logs, buffer ≠ []) → logs.length ≤ logs.flatten.length := by
    intro logs
    induction logs with
    | nil => exact fun _ => Nat.le_refl _
    | cons buffer logs ih =>
      intro nonempty
      have rest := ih fun buffer' member => nonempty buffer' (List.mem_cons_of_mem _ member)
      have here := List.length_pos_iff.mpr (nonempty buffer List.mem_cons_self)
      rw [List.flatten_cons, List.length_append, List.length_cons]
      omega
  have few : logs.length ≤ emitted.card := by
    have card := congrArg Multiset.card stands.conserved
    rw [Multiset.card_add, Multiset.card_add, Multiset.coe_card] at card
    have := each logs fun buffer member => (stands.nonempty buffer member).1
    omega
  have below : g < (logs.length + 1) * (waits + 2) := by
    have count := stands.count
    rw [Nat.add_mul, Nat.one_mul]
    cases stage with
    | work | test | append | null | fresh | last | done =>
      simp only [Stage.Count] at count
      omega
    | index _ =>
      simp only [Stage.Count] at count
      omega
  exact Nat.lt_of_lt_of_le below (Nat.mul_le_mul_right _ (Nat.succ_le_succ few))

/-- A swap that succeeds takes a record, or finds the buffer full. -/
theorem Stands.size_swap_lt (stands : Stands waits capacity emitted w g stage content logs) {offset : Nat}
    (atSwap : (w.thread i).pc = .compareAndSwap offset) (same : w.bufsize = offset) {bufbytes itemSize : Nat}
    {useQsort : Bool} (positive : 0 < itemSize) :
    size waits emitted (OutWork.step bufbytes itemSize useQsort w i) < size waits emitted w := by
  obtain ⟨some_, _, _⟩ := (stands.fine i).swaps offset atSwap
  have length := List.length_pos_iff.mpr some_
  have isSpace : space bufbytes itemSize offset (w.thread i).bytes.length =
      min (bufbytes / itemSize - offset) (w.thread i).bytes.length := space_eq positive _ _
  unfold OutWork.step
  simp only [atSwap]
  rw [if_pos same]
  generalize space bufbytes itemSize offset (w.thread i).bytes.length = taken at isSpace ⊢
  have le : taken ≤ (w.thread i).bytes.length := by omega
  unfold size
  generalize isBarriers : (emitted.card + 1) * (waits + 2) = barriers
  rcases Nat.eq_zero_or_pos taken with nothing | takes
  · subst nothing
    change ∑ j, weight _ _ (offset + 0) _ < _
    rw [Nat.add_zero, ← same]
    refine sum_goOn_lt (w := w) ?_
    have isPart : 0 ≠ (w.thread i).bytes.length := by omega
    simp only [weight, toCopy, rank, atSwap, same, if_neg isPart, Nat.sub_zero, Nat.add_zero, reduceIte]
    omega
  · change ∑ j, weight _ _ (offset + taken) ((w.goOn i { w.thread i with
      pc := .copy offset taken 0 }).thread j) < _
    have sum := sum_goOn_add (weight (2 * processors + 2) barriers (offset + taken)) w i
      { w.thread i with pc := .copy offset taken 0 }
    have others := sum_weight_le_add (2 * processors + 2) barriers w.bufsize (offset + taken) w
    have moved : offset ≠ offset + taken := by omega
    have before : weight (2 * processors + 2) barriers (offset + taken) (w.thread i) =
        (barriers - (w.thread i).arrivals) * 6 +
          ((w.thread i).batches.map fun batch => batch.length * (2 * processors + 2) + 3).sum +
          (w.thread i).bytes.length * (2 * processors + 2) + 5 := by
      simp only [weight, toCopy, rank, atSwap, if_neg moved]
    have after : weight (2 * processors + 2) barriers (offset + taken)
        { w.thread i with pc := .copy offset taken 0 } ≤
        (barriers - (w.thread i).arrivals) * 6 +
          ((w.thread i).batches.map fun batch => batch.length * (2 * processors + 2) + 3).sum +
          (((w.thread i).bytes.length - taken) * (2 * processors + 2) + taken) + 5 := by
      have few : rank (offset + taken) { w.thread i with pc := .copy offset taken 0 } ≤ 5 := by
        simp only [rank]
        split <;> omega
      exact Nat.add_le_add_left few _
    have paid : ((w.thread i).bytes.length - taken) * (2 * processors + 2) + taken * (2 * processors + 2) =
        (w.thread i).bytes.length * (2 * processors + 2) := by
      rw [← Nat.add_mul, Nat.sub_add_cancel le]
    have enough : taken + (2 * processors + 1) ≤ taken * (2 * processors + 2) := by
      have : 1 * (2 * processors + 1) ≤ taken * (2 * processors + 1) := Nat.mul_le_mul_right _ takes
      rw [Nat.mul_succ]
      omega
    omega

/-- A step of a thread that need not wait brings the end nearer. -/
theorem Sound.size_lt (positive : 0 < itemSize)
    (sound : Sound (indexWaits useQsort) (bufbytes / itemSize) emitted w) (helps : Helps w i) :
    size (indexWaits useQsort) emitted (OutWork.step bufbytes itemSize useQsort w i) <
      size (indexWaits useQsort) emitted w := by
  obtain ⟨g, stage, content, logs, stands⟩ := sound
  have many : 1 < indexWaits useQsort := by
    unfold indexWaits
    split <;> omega
  cases isPc : (w.thread i).pc with
  | next =>
    have empty := ((stands.fine i).atNext isPc).1
    obtain ⟨rfl, _⟩ := stands.atWork (.inl isPc)
    have there : w.streamOut = true := stands.stream (by simp)
    unfold OutWork.step
    simp only [isPc]
    split
    · rw [if_pos there]
      refine sum_goOn_lt (w := w) ?_
      simp only [weight, toCopy, rank, isPc]
      omega
    · rename_i batch batches isBatch
      rw [if_pos there]
      refine sum_goOn_lt (w := w) ?_
      simp only [weight, toCopy, rank, isPc, empty, isBatch, List.map_cons, List.sum_cons, List.length_nil]
      omega
  | whileBytes =>
    unfold OutWork.step
    simp only [isPc]
    split
    · refine sum_goOn_lt (w := w) ?_
      simp only [weight, toCopy, rank, isPc]
      omega
    · refine sum_goOn_lt (w := w) ?_
      simp only [weight, toCopy, rank, isPc, reduceIte]
      omega
  | compareAndSwap offset =>
    by_cases same : w.bufsize = offset
    · exact stands.size_swap_lt isPc same positive
    · unfold OutWork.step
      simp only [isPc]
      rw [if_neg same]
      refine sum_goOn_lt (w := w) ?_
      have other : offset ≠ w.bufsize := fun h => same h.symm
      simp only [weight, toCopy, rank, isPc, if_neg other]
      omega
  | copy offset space copied =>
    unfold OutWork.step
    simp only [isPc]
    split
    · refine sum_goOn_lt (w := w) ?_
      simp only [weight, toCopy, rank, isPc]
      omega
    · refine sum_goOn_lt (w := w) ?_
      by_cases part : space ≠ (w.thread i).bytes.length
      · simp only [if_pos part, weight, toCopy, rank, isPc, if_neg part, List.length_drop]
        omega
      · have whole : space = (w.thread i).bytes.length := by omega
        simp only [if_neg part, weight, toCopy, rank, isPc, if_pos whole, List.length_drop]
        omega
  | arrive place =>
    obtain ⟨isCount, _⟩ : (w.thread i).arrivals = g ∧ Stands _ _ _
        (OutWork.step bufbytes itemSize useQsort w i) _ _ _ _ := stands.step_arrive isPc
    have few := stands.count_lt many
    unfold OutWork.step
    simp only [isPc]
    refine sum_goOn_lt (w := w) ?_
    simp only [weight, toCopy, rank, isPc]
    omega
  | wait place =>
    unfold OutWork.step
    simp only [isPc]
    rw [if_pos (helps.2 place isPc)]
    refine sum_goOn_lt (w := w) ?_
    have less := weight_behind_lt (2 * processors + 2) ((emitted.card + 1) * (indexWaits useQsort + 2)) w.bufsize
      isPc useQsort i
    exact less
  | testBufsize | finalFlush =>
    unfold OutWork.step
    simp only [isPc]
    refine sum_goOn_lt (w := w) ?_
    simp only [weight, toCopy, rank, isPc]
    omega
  | append =>
    unfold OutWork.step
    simp only [isPc]
    refine sum_goOn_lt (w := w) ?_
    simp only [weight, toCopy, rank, isPc]
    omega
  | getBuffer =>
    -- nobody tries a swap while there is no buffer
    have noSwap : ∀ j offset, (w.thread j).pc ≠ .compareAndSwap offset := by
      intro j offset isSwap
      have working := (stands.atWork (.inr (.inr (.inl ⟨_, isSwap⟩)))).1
      have isNull := (stands.atGetBuffer isPc).1
      exact Stage.noConfusion (working.symm.trans isNull)
    have sameRank : ∀ j, weight (2 * processors + 2) ((emitted.card + 1) * (indexWaits useQsort + 2)) 0
        (w.thread j) = weight (2 * processors + 2) ((emitted.card + 1) * (indexWaits useQsort + 2)) w.bufsize
        (w.thread j) := by
      intro j
      unfold weight
      refine congrArg _ ?_
      unfold rank
      split
      case h_3 offset isSwap => exact absurd isSwap (noSwap j offset)
      all_goals rfl
    have sum := sum_goOn_add (weight (2 * processors + 2) ((emitted.card + 1) * (indexWaits useQsort + 2)) 0) w i
      { w.thread i with pc := .arrive (.leave false) }
    rw [Finset.sum_congr rfl fun j _ => sameRank j] at sum
    have less : weight (2 * processors + 2) ((emitted.card + 1) * (indexWaits useQsort + 2)) 0
          { w.thread i with pc := .arrive (.leave false) } <
        weight (2 * processors + 2) ((emitted.card + 1) * (indexWaits useQsort + 2)) 0 (w.thread i) := by
      simp only [weight, toCopy, rank, isPc]
      omega
    unfold OutWork.step
    simp only [isPc]
    change ∑ j, weight _ _ 0 ((w.goOn i { w.thread i with pc := .arrive (.leave false) }).thread j) <
      ∑ j, weight _ _ w.bufsize (w.thread j)
    omega
  | done => exact absurd isPc helps.1

/-- A thread that waits changes nothing. -/
theorem step_of_not_helps (waits_ : ¬ Helps w i) : OutWork.step bufbytes itemSize useQsort w i = w := by
  unfold OutWork.step
  cases isPc : (w.thread i).pc with
  | done => simp only [isPc]
  | wait place =>
    simp only [isPc]
    refine if_neg fun released => waits_ ⟨by simp [isPc], fun _ _ => released⟩
  | next | whileBytes | compareAndSwap _ | copy _ _ _ | arrive _ | testBufsize | append | getBuffer | finalFlush =>
    exact absurd ⟨by simp [isPc], by simp [isPc]⟩ waits_

/-- As long as a thread is not at its end, one of them need not wait. -/
theorem Sound.some_helps (sound : Sound waits capacity emitted w) : Finished w ∨ ∃ i, Helps w i := by
  obtain ⟨g, stage, content, logs, stands⟩ := sound
  by_cases finished : Finished w
  · exact .inl finished
  right
  obtain ⟨i, notDone⟩ : ∃ i, (w.thread i).pc ≠ .done := not_forall.mp finished
  by_cases isDone : stage = .done
  · subst isDone
    exact ⟨i, notDone, fun _ _ j =>
      Nat.le_of_eq ((stands.arrivals_of_done i).trans (stands.arrivals_of_done j).symm)⟩
  · have : Nonempty (Fin processors) := ⟨i⟩
    obtain ⟨last, least⟩ := Finite.exists_min fun j => (w.thread j).arrivals
    exact ⟨last, fun returned => isDone (stands.done_of returned), fun _ _ => least⟩

/-- Every fair schedule comes to the end. -/
theorem finished_of_fair (positive : 0 < itemSize) (fits : itemSize ≤ bufbytes)
    (batches : Fin processors → List (List ρ)) {schedule : Nat → Fin processors} (fair : Fair schedule) :
    ∃ n, Finished (states (OutWork.step bufbytes itemSize useQsort) (start batches) schedule n) := by
  have sound := start_sound batches (indexWaits useQsort) (bufbytes / itemSize)
  refine reaches_of_fair (size (indexWaits useQsort) (emittedBy batches))
    (fun w i sound => sound.step positive fits i) (fun w sound => sound.some_helps)
    (fun w i sound helps => sound.size_lt positive helps) (fun w i j sound helps => ?_) sound fair
  by_cases helpful : Helps w j
  · exact .inl (sound.size_lt positive helpful)
  · rw [step_of_not_helps helpful]
    exact .inr ⟨rfl, helps⟩

end

end OutWork

/-- No record is lost or duplicated by the shared output buffer, under any schedule. -/
theorem outputAppended {ρ : Type} {processors : Nat} (bufbytes itemSize : Nat) (useQsort : Bool)
    (batches : Fin processors → List (List ρ)) (someone : 0 < processors) (positive : 0 < itemSize)
    (fits : itemSize ≤ bufbytes) :
    (∀ schedule, OutWork.Safe bufbytes itemSize
      (run (OutWork.step bufbytes itemSize useQsort) (OutWork.start batches) schedule)) ∧
    (∀ schedule, Fair schedule →
      ∃ n, OutWork.Finished (states (OutWork.step bufbytes itemSize useQsort) (OutWork.start batches) schedule n)) ∧
    ∀ schedule,
      OutWork.Finished (run (OutWork.step bufbytes itemSize useQsort) (OutWork.start batches) schedule) →
      OutWork.Appended bufbytes itemSize batches
        (run (OutWork.step bufbytes itemSize useQsort) (OutWork.start batches) schedule) := by
  have sound : ∀ schedule, OutWork.Sound (OutWork.indexWaits useQsort) (bufbytes / itemSize)
      (OutWork.emittedBy batches)
      (run (OutWork.step bufbytes itemSize useQsort) (OutWork.start batches) schedule) :=
    run_keeps (fun w i sound => sound.step positive fits i) (OutWork.start_sound batches _ _)
  refine ⟨fun schedule => (sound schedule).safe positive, fun schedule fair => ?_, fun schedule finished => ?_⟩
  · exact OutWork.finished_of_fair positive fits batches fair
  · exact (sound schedule).appended positive someone finished

/-- Two threads and a buffer with room for two records. -/
def twoThreads : Fin 2 → List (List Nat)
  | 0 => [[1, 2, 3], []]
  | 1 => [[4]]

theorem outputAppended_two :
    (∀ schedule, OutWork.Safe 9 4 (run (OutWork.step 9 4 true) (OutWork.start twoThreads) schedule)) ∧
    (∀ schedule, Fair schedule →
      ∃ n, OutWork.Finished (states (OutWork.step 9 4 true) (OutWork.start twoThreads) schedule n)) ∧
    ∀ schedule, OutWork.Finished (run (OutWork.step 9 4 true) (OutWork.start twoThreads) schedule) →
      OutWork.Appended 9 4 twoThreads (run (OutWork.step 9 4 true) (OutWork.start twoThreads) schedule) :=
  outputAppended 9 4 true twoThreads (by decide) (by decide) (by decide)

end MBFGraph
