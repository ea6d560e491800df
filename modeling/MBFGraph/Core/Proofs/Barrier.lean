import MBFGraph.Core.Barrier
import Mathlib.Algebra.Order.BigOperators.Group.Finset
import Mathlib.Data.Fintype.BigOperators

/-!
# The barrier holds every thread back

The calls of `wait` come in generations, and generation `g` uses the count `g % 2`. While the threads of
one generation gather, some may still be behind: they have not seen yet that the generation before is
complete. Its count is 0 until the last of them has left, since the last thread to arrive needs all.
-/

namespace MBFGraph

open Interleaving

/-- The thread has arrived in the generation and waits for the others. -/
def arrivedIn (g : Nat) : Waiter := ⟨.whileCount (g % 2), g + 1, g⟩

/-- Where a thread may be while a generation gathers. -/
inductive Waiter.Stands (g : Nat) : Waiter → Prop
  /-- It still waits in the generation before. -/
  | behind (p : Nat) (before : g = p + 1) : Waiter.Stands g (arrivedIn p)
  | outside : Waiter.Stands g ⟨.outside, g, g⟩
  | readSense : Waiter.Stands g ⟨.readSense, g + 1, g⟩
  | fetchAndAdd : Waiter.Stands g ⟨.fetchAndAdd (g % 2), g + 1, g⟩
  | arrived : Waiter.Stands g (arrivedIn g)

/-- The statements of a call that are left. -/
def WaitPc.left : WaitPc → Nat
  | .outside => 0
  | .whileCount _ => 1
  | .clearCount _ => 2
  | .reverseSense _ => 3
  | .fetchAndAdd _ => 4
  | .readSense => 5

namespace Waiter

variable (b : Barrier) {w : Waiter}

/-- A thread inside `wait` that does not spin comes nearer to its return. -/
theorem step_left_lt (inside : w.pc ≠ .outside)
    (clear : ∀ side, w.pc = .whileCount side → b.count side = 0) :
    (w.step b).2.pc.left < w.pc.left := by
  cases pc : w.pc with
  | outside => exact absurd pc inside
  | readSense => simp [Waiter.step, pc, WaitPc.left]
  | fetchAndAdd side =>
    simp only [Waiter.step, pc]
    split <;> simp [WaitPc.left]
  | reverseSense side => simp [Waiter.step, pc, WaitPc.left]
  | clearCount side => simp [Waiter.step, pc, WaitPc.left]
  | whileCount side => simp [Waiter.step, pc, clear side pc, WaitPc.left]

theorem le_step_returned (w : Waiter) : w.returned ≤ (w.step b).2.returned := by
  unfold Waiter.step
  split <;> dsimp only <;> try exact le_rfl
  split
  · exact le_rfl
  · exact Nat.le_succ _

/-- A thread stays inside `wait`, or it returns. -/
theorem step_inside (inside : w.pc ≠ .outside) :
    (w.step b).2.pc ≠ .outside ∨ w.returned < (w.step b).2.returned := by
  cases pc : w.pc with
  | outside => exact absurd pc inside
  | readSense => simp [Waiter.step, pc]
  | fetchAndAdd side =>
    left
    simp only [Waiter.step, pc]
    split <;> simp
  | reverseSense side => simp [Waiter.step, pc]
  | clearCount side => simp [Waiter.step, pc]
  | whileCount side => by_cases clear : b.count side = 0 <;> simp [Waiter.step, pc, clear]

end Waiter

namespace BarrierState

variable {threads : Nat} {s : BarrierState threads} {g : Nat}

/-- The threads that have arrived in a generation. -/
def arrived (s : BarrierState threads) (g : Nat) : Finset (Fin threads) :=
  Finset.univ.filter fun i => s.waiters i = arrivedIn g

@[simp] theorem mem_arrived {i : Fin threads} : i ∈ s.arrived g ↔ s.waiters i = arrivedIn g := by
  simp [arrived]

/-- A generation gathers, and is not complete. -/
structure Gathers (s : BarrierState threads) (g : Nat) : Prop where
  expected : s.barrier.expected = threads
  sense : s.barrier.sense = g % 2
  count : s.barrier.count (g % 2) = (s.arrived g).card
  clear : s.barrier.count (1 - g % 2) = 0
  missing : 0 < threads → (s.arrived g).card < threads
  stands : ∀ i, (s.waiters i).Stands g

/-- All threads have arrived in a generation, and the last of them reverses the sense and clears the
count. -/
structure Completes (s : BarrierState threads) (g : Nat) (last : Fin threads) : Prop where
  expected : s.barrier.expected = threads
  atLast : s.waiters last = ⟨.reverseSense (g % 2), g + 1, g⟩ ∧ s.barrier.sense = g % 2 ∨
    s.waiters last = ⟨.clearCount (g % 2), g + 1, g⟩ ∧ s.barrier.sense = 1 - g % 2
  count : s.barrier.count (g % 2) = threads
  clear : s.barrier.count (1 - g % 2) = 0
  others : ∀ i, i ≠ last → s.waiters i = arrivedIn g

/-- What holds in every state. -/
def Sound (s : BarrierState threads) : Prop := ∃ g, s.Gathers g ∨ ∃ last, s.Completes g last

theorem start_sound : (start threads).Sound := by
  refine ⟨0, Or.inl ⟨rfl, rfl, ?_, rfl, fun some => ?_, fun _ => .outside⟩⟩ <;>
    simp [arrived, start, arrivedIn]
  exact some

/-- A thread that spins on a count above 0 stays where it is. -/
theorem step_spin {i : Fin threads} (waits : s.waiters i = arrivedIn g)
    (count : s.barrier.count (g % 2) ≠ 0) : s.step i = s := by
  simp [step, Waiter.step, waits, arrivedIn, count]
  rw [← arrivedIn, ← waits, Function.update_eq_self]

theorem arrived_update {b : Barrier} {i : Fin threads} {w : Waiter} (old : s.waiters i ≠ arrivedIn g)
    (new : w ≠ arrivedIn g) :
    arrived ⟨b, Function.update s.waiters i w⟩ g = s.arrived g := by
  ext j
  obtain rfl | other := eq_or_ne j i
  · simp [old, new]
  · simp [other]

theorem arrived_insert {b : Barrier} {i : Fin threads} :
    arrived ⟨b, Function.update s.waiters i (arrivedIn g)⟩ g = insert i (s.arrived g) := by
  ext j
  obtain rfl | other := eq_or_ne j i
  · simp
  · simp [other]

/-- A thread that goes on without arriving. -/
theorem Gathers.moves (gathers : s.Gathers g) {i : Fin threads} {w : Waiter}
    (old : s.waiters i ≠ arrivedIn g) (new : w ≠ arrivedIn g) (stands : w.Stands g) :
    Gathers ⟨s.barrier, Function.update s.waiters i w⟩ g := by
  refine ⟨gathers.expected, gathers.sense, ?_, gathers.clear, ?_, fun j => ?_⟩
  · rw [arrived_update old new]
    exact gathers.count
  · rw [arrived_update old new]
    exact gathers.missing
  · obtain rfl | other := eq_or_ne j i
    · simpa using stands
    · simpa [Function.update_of_ne other] using gathers.stands j

/-- A thread arrives: it is the last, or it waits. -/
theorem Gathers.arrives (gathers : s.Gathers g) {i : Fin threads}
    (here : s.waiters i = ⟨.fetchAndAdd (g % 2), g + 1, g⟩) :
    (s.step i).Gathers g ∨ (s.step i).Completes g i := by
  have absent : i ∉ s.arrived g := by simp [here, arrivedIn]
  have room : (s.arrived g).card < threads := gathers.missing (Fin.pos i)
  have other : 1 - g % 2 ≠ g % 2 := by omega
  have step : s.step i = ⟨{ s.barrier with
        count := Function.update s.barrier.count (g % 2) ((s.arrived g).card + 1) },
      Function.update s.waiters i ⟨if (s.arrived g).card = threads - 1 then .reverseSense (g % 2)
        else .whileCount (g % 2), g + 1, g⟩⟩ := by
    simp [BarrierState.step, Waiter.step, here, gathers.count, gathers.expected]
  rw [step]
  by_cases last : (s.arrived g).card = threads - 1
  · right
    rw [if_pos last]
    have all : insert i (s.arrived g) = Finset.univ := by
      apply Finset.eq_univ_of_card
      rw [Finset.card_insert_of_notMem absent, Fintype.card_fin]
      omega
    refine ⟨gathers.expected, Or.inl ⟨by simp, gathers.sense⟩, ?_, ?_, fun j ne => ?_⟩
    · simp
      omega
    · simpa [Function.update_of_ne other] using gathers.clear
    · have mem : j ∈ insert i (s.arrived g) := by simp [all]
      simpa [Function.update_of_ne ne, ne] using mem
  · left
    rw [if_neg last, ← arrivedIn]
    have card : (insert i (s.arrived g)).card = (s.arrived g).card + 1 :=
      Finset.card_insert_of_notMem absent
    refine ⟨gathers.expected, gathers.sense, ?_, ?_, fun _ => ?_, fun j => ?_⟩
    · rw [arrived_insert, card]
      simp
    · simpa [Function.update_of_ne other] using gathers.clear
    · rw [arrived_insert, card]
      omega
    · obtain rfl | ne := eq_or_ne j i
      · simpa using Waiter.Stands.arrived
      · simpa [Function.update_of_ne ne] using gathers.stands j

theorem Gathers.step (gathers : s.Gathers g) (i : Fin threads) : (s.step i).Sound := by
  refine ⟨g, ?_⟩
  generalize here : s.waiters i = w
  have stands := gathers.stands i
  rw [here] at stands
  cases stands with
  | behind p before =>
    -- the count of the generation before is clear, so that the thread leaves
    have clear : s.barrier.count (p % 2) = 0 := by
      have side : p % 2 = 1 - g % 2 := by omega
      rw [side]
      exact gathers.clear
    subst before
    have step : s.step i = ⟨s.barrier, Function.update s.waiters i ⟨.outside, p + 1, p + 1⟩⟩ := by
      simp [BarrierState.step, Waiter.step, here, arrivedIn, clear]
    rw [step]
    exact Or.inl (gathers.moves (by simp [here, arrivedIn]) (by simp [arrivedIn]) .outside)
  | outside =>
    have step : s.step i = ⟨s.barrier, Function.update s.waiters i ⟨.readSense, g + 1, g⟩⟩ := by
      simp [BarrierState.step, Waiter.step, here]
    rw [step]
    exact Or.inl (gathers.moves (by simp [here, arrivedIn]) (by simp [arrivedIn]) .readSense)
  | readSense =>
    have step : s.step i =
        ⟨s.barrier, Function.update s.waiters i ⟨.fetchAndAdd (g % 2), g + 1, g⟩⟩ := by
      simp [BarrierState.step, Waiter.step, here, gathers.sense]
    rw [step]
    exact Or.inl (gathers.moves (by simp [here, arrivedIn]) (by simp [arrivedIn]) .fetchAndAdd)
  | fetchAndAdd => exact (gathers.arrives here).imp_right fun completes => ⟨i, completes⟩
  | arrived =>
    have some : s.barrier.count (g % 2) ≠ 0 := by
      rw [gathers.count]
      exact Finset.card_ne_zero_of_mem (mem_arrived.mpr here)
    rw [step_spin here some]
    exact Or.inl gathers

theorem Completes.step {last : Fin threads} (completes : s.Completes g last) (i : Fin threads) :
    (s.step i).Sound := by
  have other : 1 - g % 2 ≠ g % 2 := by omega
  obtain rfl | ne := eq_or_ne i last
  · obtain ⟨here, sense⟩ | ⟨here, sense⟩ := completes.atLast
    · have step : s.step i = ⟨{ s.barrier with sense := 1 - g % 2 },
          Function.update s.waiters i ⟨.clearCount (g % 2), g + 1, g⟩⟩ := by
        simp [BarrierState.step, Waiter.step, here]
      rw [step]
      exact ⟨g, Or.inr ⟨i, completes.expected, Or.inr ⟨by simp, rfl⟩, completes.count,
        completes.clear, fun j ne => by simpa [Function.update_of_ne ne] using completes.others j ne⟩⟩
    · -- the next generation begins, and all threads are behind
      have step : s.step i = ⟨{ s.barrier with
            count := Function.update s.barrier.count (g % 2) 0 },
          Function.update s.waiters i (arrivedIn g)⟩ := by
        simp [BarrierState.step, Waiter.step, here, arrivedIn]
      have all (j : Fin threads) : (s.step i).waiters j = arrivedIn g := by
        rw [step]
        obtain rfl | ne := eq_or_ne j i
        · simp
        · simpa [Function.update_of_ne ne] using completes.others j ne
      have none : (s.step i).arrived (g + 1) = ∅ := by
        ext j
        simp [all, arrivedIn]
      have next : (g + 1) % 2 = 1 - g % 2 := by omega
      refine ⟨g + 1, Or.inl ⟨?_, ?_, ?_, ?_, fun some => ?_, fun j => ?_⟩⟩
      · rw [step]
        exact completes.expected
      · rw [step, next]
        exact sense
      · rw [none, Finset.card_empty, step, next]
        simpa [Function.update_of_ne other] using completes.clear
      · have same : 1 - (g + 1) % 2 = g % 2 := by omega
        rw [step, same]
        simp
      · rw [none]
        exact some
      · rw [all j]
        exact .behind g rfl
  · have some : s.barrier.count (g % 2) ≠ 0 := by
      have := Fin.pos i
      rw [completes.count]
      omega
    rw [step_spin (completes.others i ne) some]
    exact ⟨g, Or.inr ⟨last, completes⟩⟩

theorem step_sound (s : BarrierState threads) (i : Fin threads) (sound : s.Sound) :
    (s.step i).Sound := by
  obtain ⟨g, gathers | ⟨last, completes⟩⟩ := sound
  · exact gathers.step i
  · exact completes.step i

/-- The threads of one generation: none has left it, and none has not left the one before. -/
theorem Sound.generation (sound : s.Sound) :
    ∃ g, ∀ i, g ≤ (s.waiters i).started ∧ (s.waiters i).returned ≤ g := by
  obtain ⟨g, gathers | ⟨last, completes⟩⟩ := sound
  · refine ⟨g, fun i => ?_⟩
    generalize s.waiters i = w, gathers.stands i = stands
    cases stands <;> simp [arrivedIn]
    omega
  · refine ⟨g, fun i => ?_⟩
    obtain rfl | ne := eq_or_ne i last
    · obtain ⟨here, -⟩ | ⟨here, -⟩ := completes.atLast <;> simp [here]
    · simp [completes.others i ne, arrivedIn]

/-- All threads have called `wait` and not returned. -/
def Inside (s : BarrierState threads) : Prop := ∀ i, (s.waiters i).pc ≠ .outside

/-- A thread has returned from `wait` since. -/
def Leaves (before s : BarrierState threads) : Prop :=
  ∃ i, (before.waiters i).returned < (s.waiters i).returned

/-- The statements that are left of all calls. -/
def allLeft (s : BarrierState threads) : Nat := ∑ i, (s.waiters i).pc.left

theorem allLeft_lt {b : Barrier} {i : Fin threads} {w : Waiter}
    (less : w.pc.left < (s.waiters i).pc.left) :
    allLeft ⟨b, Function.update s.waiters i w⟩ < s.allLeft := by
  refine Finset.sum_lt_sum (fun j _ => ?_) ⟨i, Finset.mem_univ i, by simpa using less⟩
  obtain rfl | ne := eq_or_ne j i
  · simpa using less.le
  · simp [Function.update_of_ne ne]

/-- While all threads are inside, one of them can come nearer to its return. -/
theorem Sound.nearer (sound : s.Sound) (some : 0 < threads) (inside : s.Inside) :
    ∃ i, (s.step i).allLeft < s.allLeft := by
  obtain ⟨g, gathers | ⟨last, completes⟩⟩ := sound
  · obtain ⟨i, missing⟩ : ∃ i, i ∉ s.arrived g := by
      by_contra all
      push Not at all
      have card := gathers.missing some
      rw [Finset.eq_univ_of_forall all, Finset.card_univ, Fintype.card_fin] at card
      exact lt_irrefl _ card
    refine ⟨i, allLeft_lt (Waiter.step_left_lt _ (inside i) fun side spins => ?_)⟩
    -- it has not arrived, and so it is behind where it spins
    rw [mem_arrived] at missing
    have stands := gathers.stands i
    generalize s.waiters i = w at stands missing spins
    cases stands with
    | behind p before =>
      have same : side = 1 - g % 2 := by
        have := WaitPc.whileCount.inj spins
        omega
      rw [same]
      exact gathers.clear
    | arrived => exact absurd rfl missing
    | _ => nomatch spins
  · refine ⟨last, allLeft_lt (Waiter.step_left_lt _ (inside last) fun side spins => ?_)⟩
    obtain ⟨here, -⟩ | ⟨here, -⟩ := completes.atLast <;> simp [here] at spins

theorem le_step_returned (s : BarrierState threads) (i j : Fin threads) :
    (s.waiters j).returned ≤ ((s.step i).waiters j).returned := by
  obtain rfl | ne := eq_or_ne j i
  · simpa [step] using Waiter.le_step_returned s.barrier (s.waiters j)
  · simp [step, Function.update_of_ne ne]

/-- As long as none has returned, all are inside. -/
theorem step_inside (i : Fin threads) (inside : s.Inside) :
    (s.step i).Inside ∨ Leaves s (s.step i) := by
  obtain stays | leaves := Waiter.step_inside s.barrier (inside i)
  · left
    intro j
    obtain rfl | ne := eq_or_ne j i
    · simpa [step] using stays
    · simpa [step, Function.update_of_ne ne] using inside j
  · exact Or.inr ⟨i, by simpa [step] using leaves⟩

/-- Since all were inside `wait`, one has left it or they still are. -/
structure WaitsSince (before s : BarrierState threads) : Prop where
  sound : s.Sound
  returned : ∀ i, (before.waiters i).returned ≤ (s.waiters i).returned
  inside : Leaves before s ∨ s.Inside

theorem WaitsSince.step {before : BarrierState threads} (s : BarrierState threads)
    (i : Fin threads) (waits : WaitsSince before s) : WaitsSince before (s.step i) := by
  refine ⟨step_sound s i waits.sound, fun j => (waits.returned j).trans (le_step_returned s i j), ?_⟩
  obtain ⟨j, leaves⟩ | inside := waits.inside
  · exact Or.inl ⟨j, leaves.trans_le (le_step_returned s i j)⟩
  · obtain still | ⟨j, leaves⟩ := step_inside i inside
    · exact Or.inr still
    · exact Or.inl ⟨j, (waits.returned j).trans_lt leaves⟩

/-- Where all threads are inside `wait`, one of them can leave. -/
theorem Sound.exists_leaves (sound : s.Sound) (some : 0 < threads) (inside : s.Inside) :
    ∃ rest, Leaves s (run step s rest) :=
  exists_run allLeft WaitsSince.step
    (fun _ waits => waits.inside.imp_right (waits.sound.nearer some))
    ⟨sound, fun _ => le_rfl, Or.inr inside⟩

end BarrierState

open BarrierState

/-- The barrier is safe in every state of every run. -/
theorem barrierSafe (threads : Nat) (schedule : List (Fin threads)) :
    (run step (start threads) schedule).Safe := by
  have sound : (run step (start threads) schedule).Sound := run_keeps step_sound start_sound schedule
  constructor
  · obtain ⟨g, generation⟩ := sound.generation
    exact fun i j => (generation i).2.trans (generation j).1
  · exact sound.exists_leaves

/-- Two threads: one has returned twice and waits for the third time, the other is still inside its second
call; one of them can leave. -/
theorem barrierSafe_two : ∃ rest i,
    ((run step (start 2) [0, 0, 0, 1, 1, 1, 1, 1, 1, 0, 0, 0, 0, 1, 1, 1, 1, 1, 1, 1, 1, 1]).waiters
        i).returned <
      ((run step (run step (start 2) [0, 0, 0, 1, 1, 1, 1, 1, 1, 0, 0, 0, 0, 1, 1, 1, 1, 1, 1, 1, 1, 1])
        rest).waiters i).returned :=
  (barrierSafe 2 _).leaves (by decide) (by decide)

end MBFGraph
