import MBFGraph.Core.Proofs.ScatterGather
import MBFGraph.Lib.Relaxation

/-!
# Runs of programs that relax

The driver runs a program that relaxes (`Relaxation.Relaxes`) round by round, for every order of
deliveries (`Spreads.step`). If the labels are ordered linearly, the loop comes to its end, and then
no walk brings a better label (`Propagates.computes`). The number of supersteps is bounded by the
number of ids, since a walk that cannot be shortened does not come to a vertex twice.
-/

namespace MBFGraph

open Relaxation

namespace ScatterGather

variable {σ υ δ γ O E W X L : Type}

/-- Nothing is counted. -/
theorem counts_nothing {A : SgAlgorithm σ υ δ γ W} {view : σ → O} :
    Counts A view (fun _ => True) (fun _ => 0) (fun _ => 0) where
  apply _ _ _ _ _ := rfl
  generate _ _ _ _ _ _ := rfl

/-- So many passes of the driver's loop. -/
inductive Passed (c : Configuration) (A : SgAlgorithm σ υ δ γ W) (F : FormatUtils E W)
    (scan : Scan σ υ δ γ E) (st : SgState σ υ δ γ) : Nat → SgState σ υ δ γ → Prop
  | none : Passed c A F scan st 0 st
  | next {k : Nat} {before after : SgState σ υ δ γ} (passes : Passed c A F scan st k before)
      (step : Superstep c A F scan before after) : Passed c A F scan st (k + 1) after

/-! ## Rounds -/

/-- The program relaxes a problem on the edges that are not deleted. -/
structure Spreads [SemilatticeInf L] (c : Configuration) (A : SgAlgorithm σ υ δ γ W)
    (F : FormatUtils E W) (edges : List E) (R : Bsp.Rules Nat O υ X) (link : Nat → W → X)
    (view : σ → O) (fresh : Nat → O → Prop) (P : Problem Nat X L) (label : O → L)
    (value : υ → L) : Prop where
  follows : Follows A c.vertices R link view fresh fun _ => True
  relaxes : Relaxes R P label value
  edges_eq : P.edges = liveLinks link F edges
  inside : P.Inside
  carry_inf : ∀ x a b, P.carry x (a ⊓ b) = P.carry x a ⊓ P.carry x b

/-- The invariant of the driver's loop. -/
structure Rounds [SemilatticeInf L] (c : Configuration) (A : SgAlgorithm σ υ δ γ W)
    (R : Bsp.Rules Nat O υ X) (view : σ → O) (fresh : Nat → O → Prop) (P : Problem Nat X L)
    (label : O → L) (st : SgState σ υ δ γ) : Prop where
  ready : Ready c A view fresh (fun _ => True) st
  first : st.bspPhase = 0 → st.updatesIn = []
  settled : ∀ k, st.bspPhase = k + 1 →
    Settled R P label k (fun v => view (st.state v)) st.updatesIn
  best : ∀ k, st.bspPhase = k + 1 → Best P k fun v => label (view (st.state v))

section

variable [SemilatticeInf L] {c : Configuration} {A : SgAlgorithm σ υ δ γ W} {F : FormatUtils E W}
  {edges : List E} {R : Bsp.Rules Nat O υ X} {link : Nat → W → X} {view : σ → O}
  {fresh : Nat → O → Prop} {P : Problem Nat X L} {label : O → L} {value : υ → L}

theorem Rounds.zero {st : SgState σ υ δ γ}
    (ready : Ready c A view fresh (fun _ => True) st)
    (first : st.bspPhase = 0) (noUpdates : st.updatesIn = []) :
    Rounds c A R view fresh P label st :=
  ⟨ready, fun _ => noUpdates, fun k late => by omega, fun k late => by omega⟩

/-- One pass of the loop is a round. -/
theorem Spreads.step (spreads : Spreads c A F edges R link view fresh P label value)
    {scan : Scan σ υ δ γ E} (complete : Complete c R link view F edges scan)
    (targets : ∀ e ∈ edges, (F.dst e).toNat < c.vertices) {st st' : SgState σ υ δ γ}
    (stays : ∀ o, fresh st.bspPhase o → fresh (st.bspPhase + 1) o)
    (rounds : Rounds c A R view fresh P label st) (stepped : Superstep c A F scan st st') :
    Rounds c A R view fresh P label st' ∧ st'.bspPhase = st.bspPhase + 1 ∧
      (∃ algo, st'.globalStop = (A.reduce st.total algo c.processors).2.2) ∧
      ∃ mail, Bsp.Superstep R P.edges st.bspPhase mail (fun v => view (st.state v)) st.updatesIn
        (fun v => view (st'.state v)) st'.updatesIn (AllVote c st'.iVoteToStop) := by
  have relaxes := spreads.relaxes
  obtain ⟨ready, mail, algo, advances⟩ := advances_of_superstep spreads.follows counts_nothing
    complete targets stays rounds.ready stepped
  have superstep := advances.superstep
  rw [← spreads.edges_eq] at superstep
  refine ⟨?_, advances.bspPhase, ⟨algo, congrArg (fun r => r.2.2) advances.reduced⟩, mail,
    superstep⟩
  have notFirst : st'.bspPhase ≠ 0 := by rw [advances.bspPhase]; exact Nat.succ_ne_zero _
  have next : ∀ k, st'.bspPhase = k + 1 → k = st.bspPhase := by
    intro k isNext
    rw [advances.bspPhase] at isNext
    omega
  refine ⟨ready, fun h => absurd h notFirst, fun k isNext => ?_, fun k isNext => ?_⟩
  all_goals
    rw [next k isNext]
    cases isPhase : st.bspPhase with
    | zero =>
      rw [isPhase, rounds.first isPhase] at superstep
      obtain ⟨settled, _, best⟩ := relaxes.settled_zero spreads.inside superstep
      first
        | exact settled
        | exact best
    | succ k =>
      rw [isPhase] at superstep
      have settled := rounds.settled k isPhase
      first
        | exact relaxes.settled_succ settled superstep
        | exact (rounds.best k isPhase).succ spreads.inside spreads.carry_inf
            (relaxes.round settled superstep)

theorem Spreads.rounds_of_passed (spreads : Spreads c A F edges R link view fresh P label value)
    {scan : Scan σ υ δ γ E} (complete : Complete c R link view F edges scan)
    (targets : ∀ e ∈ edges, (F.dst e).toNat < c.vertices)
    (stays : ∀ k o, fresh k o → fresh (k + 1) o) {st st' : SgState σ υ δ γ}
    (rounds : Rounds c A R view fresh P label st) (first : st.bspPhase = 0) {k : Nat}
    (passed : Passed c A F scan st k st') :
    Rounds c A R view fresh P label st' ∧ st'.bspPhase = k := by
  induction passed with
  | none => exact ⟨rounds, first⟩
  | next _ step ih =>
    obtain ⟨before, phase⟩ := ih
    obtain ⟨after, next, _⟩ := spreads.step complete targets (stays _) before step
    exact ⟨after, by rw [next, phase]⟩

end

/-! ## Termination -/

variable [LinearOrder L]

/-- The labels are ordered linearly, and the program never asks the driver to stop. -/
structure Propagates (c : Configuration) (A : SgAlgorithm σ υ δ γ W) (F : FormatUtils E W)
    (edges : List E) (R : Bsp.Rules Nat O υ X) (link : Nat → W → X) (view : σ → O)
    (fresh : Nat → O → Prop) (P : Problem Nat X L) (label : O → L) (value : υ → L) (pred : O → Nat)
    (sender : υ → Nat) : Prop where
  follows : Follows A c.vertices R link view fresh fun _ => True
  relaxes : Relaxes R P label value
  names : Names R P label value pred sender
  edges_eq : P.edges = liveLinks link F edges
  known_iff : ∀ v, P.known v ↔ v < c.vertices
  inside : P.Inside
  head_lt : ∀ e ∈ P.edges, P.head e.2 < 2 ^ 32
  carry_mono : ∀ x, Monotone (P.carry x)
  carry_le : ∀ e ∈ P.edges, ∀ l, l ≤ P.carry e.2 l
  stays : ∀ k ≤ 2 ^ 32 + 1, ∀ o, fresh k o → fresh (k + 1) o
  reduce : ∀ total algo processors, (A.reduce total algo processors).2.2 = false
  minSuperPhases : A.minSuperPhases = 1

/-- The labels are the best that walks bring, and each comes from a predecessor. -/
structure Relaxed (P : Problem Nat X L) (label : O → L) (pred : O → Nat) (s : Nat → O) : Prop where
  isLeast : ∀ v, P.known v → IsLeast {b | ∃ j, Brings P j v b} (label (s v))
  exists_edge : ∀ v, P.known v → label (s v) ≠ P.first v → ∃ e ∈ P.edges, e.1 = pred (s v) ∧
    P.head e.2 = v ∧ label (s v) = P.carry e.2 (label (s e.1))

section

variable {c : Configuration} {A : SgAlgorithm σ υ δ γ W} {F : FormatUtils E W} {edges : List E}
  {R : Bsp.Rules Nat O υ X} {link : Nat → W → X} {view : σ → O} {fresh : Nat → O → Prop}
  {P : Problem Nat X L} {label : O → L} {value : υ → L} {pred : O → Nat} {sender : υ → Nat}

namespace Propagates

/-- The number of supersteps in which a label may fall. -/
def bound (c : Configuration) : Nat := min c.vertices (2 ^ 32)

/-- The rounds go on, and every label can be explained. -/
structure Running (c : Configuration) (A : SgAlgorithm σ υ δ γ W) (R : Bsp.Rules Nat O υ X)
    (view : σ → O) (fresh : Nat → O → Prop) (P : Problem Nat X L) (label : O → L) (pred : O → Nat)
    (st : SgState σ υ δ γ) : Prop where
  rounds : Rounds c A R view fresh P label st
  small : st.bspPhase ≤ bound c + 1
  explained : ∀ k, st.bspPhase = k + 1 → Explained P label pred fun v => view (st.state v)

variable (propagates : Propagates c A F edges R link view fresh P label value pred sender)

include propagates in
theorem spreads : Spreads c A F edges R link view fresh P label value where
  follows := propagates.follows
  relaxes := propagates.relaxes
  edges_eq := propagates.edges_eq
  inside := propagates.inside
  carry_inf := carry_inf_of_monotone propagates.carry_mono

include propagates in
/-- One pass of the loop. -/
theorem step {scan : Scan σ υ δ γ E} (complete : Complete c R link view F edges scan)
    (targets : ∀ e ∈ edges, (F.dst e).toNat < c.vertices) {st st' : SgState σ υ δ γ}
    (running : Running c A R view fresh P label pred st) (stepped : Superstep c A F scan st st') :
    Rounds c A R view fresh P label st' ∧ st'.bspPhase = st.bspPhase + 1 ∧
      st'.globalStop = false ∧ Explained P label pred (fun v => view (st'.state v)) ∧
      ∀ k, st.bspPhase = k + 1 →
        Round P (fun v => label (view (st.state v))) (fun v => label (view (st'.state v))) ∧
        (∀ v, label (view (st'.state v)) ≠ label (view (st.state v)) → P.known v) ∧
        (AllVote c st'.iVoteToStop ↔
          ∀ v, label (view (st'.state v)) = label (view (st.state v))) := by
  have relaxes := propagates.relaxes
  have early : st.bspPhase ≤ 2 ^ 32 + 1 :=
    running.small.trans (Nat.succ_le_succ (Nat.min_le_right _ _))
  obtain ⟨rounds, phase, ⟨algo, isStop⟩, mail, superstep⟩ := propagates.spreads.step complete
    targets (propagates.stays _ early) running.rounds stepped
  refine ⟨rounds, phase, by rw [isStop, propagates.reduce], ?_, fun k isPhase => ?_⟩
  · cases isPhase : st.bspPhase with
    | zero =>
      intro v known
      left
      rw [isPhase, running.rounds.first isPhase] at superstep
      obtain ⟨_, state, _⟩ := relaxes.settled_zero propagates.inside superstep
      simp only [state]
      exact relaxes.start_zero v _ known
    | succ k =>
      rw [isPhase] at superstep
      exact propagates.names.explained_succ relaxes propagates.carry_mono propagates.inside
        (running.rounds.settled k isPhase) (running.explained k isPhase) superstep
  · rw [isPhase] at superstep
    have settled := running.rounds.settled k isPhase
    exact ⟨relaxes.round settled superstep,
      fun v changed => relaxes.known_of_changed propagates.inside settled superstep changed,
      relaxes.quiet_iff superstep⟩

include propagates in
/-- A label can only fall in the first supersteps. -/
theorem le_bound {k v : Nat} {l l' : Nat → L} (before : Best P k l) (best : Best P (k + 1) l')
    (known : P.known v) (fell : l' v < l v) : k + 1 ≤ bound c := by
  have needs := before.needs_of_lt best known fell
  have le := needs.le_card propagates.carry_mono propagates.carry_le (Finset.range (bound c))
    fun e edge => Finset.mem_range.mpr (lt_min ((propagates.known_iff _).mp
      (propagates.inside e edge).2) (propagates.head_lt e edge))
  rwa [Finset.card_range] at le

include propagates in
/-- The loop ends with the best labels. -/
theorem computes {scan : Scan σ υ δ γ E} (complete : Complete c R link view F edges scan)
    (targets : ∀ e ∈ edges, (F.dst e).toNat < c.vertices)
    (fits : ∀ superp < c.superPartitions, c.StateFits A.vertexStateBytes superp)
    {st : SgState σ υ δ γ} (ready : ScatterGather.Ready c A view fresh (fun _ => True) st)
    (first : st.bspPhase = 0) (noUpdates : st.updatesIn = []) :
    Computes c A F scan (fun st => Relaxed P label pred fun v => view (st.state v)) st := by
  refine NondetLoop.AlwaysEnds.of_invariant (Running c A R view fresh P label pred)
    (fun st => bound c + 2 - st.bspPhase)
    ⟨.zero ready first noUpdates, by omega, fun k late => by omega⟩
    (fun st _ => exists_superstep complete.reads_some fits st) ?_ ?_
  · intro st st' running stepped stops
    obtain ⟨rounds, phase, goesOn, explained, later⟩ :=
      propagates.step complete targets running stepped
    have late : 1 < st'.bspPhase := propagates.minSuperPhases ▸ stops.1
    obtain ⟨k, isPhase⟩ : ∃ k, st.bspPhase = k + 1 := ⟨st.bspPhase - 1, by omega⟩
    obtain ⟨round, _, quiet⟩ := later k isPhase
    have vote : AllVote c st'.iVoteToStop := stops.2.resolve_left (by simp [goesOn])
    have same : (fun v => label (view (st.state v))) = fun v => label (view (st'.state v)) :=
      funext fun v => (quiet.mp vote v).symm
    rw [same] at round
    exact ⟨fun v known => (rounds.best (k + 1) (by omega)).isLeast propagates.carry_mono round known,
      fun v known other => explained.exists_edge round known other⟩
  · intro st st' running stepped goesOn
    obtain ⟨rounds, phase, noStop, explained, later⟩ :=
      propagates.step complete targets running stepped
    have small := running.small
    refine ⟨⟨rounds, ?_, fun _ _ => explained⟩, by omega⟩
    cases isPhase : st.bspPhase with
    | zero => omega
    | succ k =>
      obtain ⟨round, known_of, quiet⟩ := later k isPhase
      have changed : ¬ ∀ v, label (view (st'.state v)) = label (view (st.state v)) := fun none_ =>
        goesOn ⟨by rw [propagates.minSuperPhases]; omega, .inr (quiet.mpr none_)⟩
      push Not at changed
      obtain ⟨v, changed⟩ := changed
      have known := known_of v changed
      have le := propagates.le_bound (running.rounds.best k isPhase) (rounds.best (k + 1) (by omega))
        known (lt_of_le_of_ne (round.le v known) changed)
      omega

end Propagates

end

end ScatterGather

end MBFGraph
