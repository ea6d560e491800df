import MBFGraph.Algorithms.Proofs.BfsAsyncSearch
import MBFGraph.Algorithms.Proofs.BfsExact
import MBFGraph.Core.Proofs.AsyncScatterGather
import MBFGraph.Lib.LockStep

/-!
# bfs_async finds shortest paths

When no update is generated in a superstep, everything has been found, each vertex on its level. So bfs_async ends
with the result of bfs.
-/

namespace MBFGraph

open Walks Discovery

section

variable {E : Type} (F : FormatUtils E) (edges : List E) (c : Configuration) (bfsRoot : Nat)

/-- What bfs_async leaves behind. -/
structure BfsAsyncExact (st : BfsAsync.State) : Prop where
  discovered : ∀ v < c.vertices,
    (st.state v).bfsParent ≠ Bfs.noParent ↔ Reachable (edgeEnds F edges) bfsRoot v
  level : ∀ v < c.vertices, ∀ d, Dist (edgeEnds F edges) bfsRoot v d →
    (st.state v).bspPhase.toNat = d
  parent : ∀ v < c.vertices, v ≠ bfsRoot → (st.state v).bfsParent ≠ Bfs.noParent →
    ((st.state v).bfsParent.toNat, v) ∈ edgeEnds F edges ∧
      (st.state (st.state v).bfsParent.toNat).bspPhase.toNat + 1 = (st.state v).bspPhase.toNat
  verticesDiscovered : st.total.verticesDiscovered =
    {v | v < c.vertices ∧ v ≠ bfsRoot ∧ Reachable (edgeEnds F edges) bfsRoot v}.ncard

/-- The state in front of the first superstep. -/
def bfsAsyncStart (state : Nat → BfsAsync.BfsVertex) : BfsAsync.State :=
  AsyncScatterGather.start state (fun _ => ⟨0, 0, false⟩) ⟨0, 0⟩

/-- bfs_async ends with some result. -/
def ComputesBfsAsync (post : BfsAsync.State → Prop) (state : Nat → BfsAsync.BfsVertex) : Prop :=
  AsyncScatterGather.Computes c (bfsAsync bfsRoot) F edges post (bfsAsyncStart state)

variable {F edges c bfsRoot}

namespace BfsAsync

open Bfs (noParent)
open AsyncScatterGather

theorem sum_initial (root_lt : bfsRoot < c.vertices) : discovered c.vertices (initial bfsRoot) = 1 := by
  unfold discovered
  have each : ∀ v ∈ Finset.range c.vertices,
      (if initial bfsRoot v = none then 0 else 1) = if bfsRoot = v then 1 else 0 := by
    intro v _
    unfold initial
    by_cases isRoot : v = bfsRoot
    · simp [isRoot]
    · simp [isRoot, Ne.symm isRoot]
  rw [Finset.sum_congr rfl each, Finset.sum_ite_eq, if_pos (Finset.mem_range.mpr root_lt)]

theorem running_start (sound : Sound F edges c bfsRoot) (state : Nat → BfsVertex) :
    Running F edges c bfsRoot (bfsAsyncStart state) := by
  have isInitial : shown bfsRoot (begun c 0 0) state = initial bfsRoot := by
    funext v
    unfold shown begun
    simp
  have never (v : Nat) : ¬ c.mapSuperPartition v < 0 := Nat.not_lt_zero _
  refine ⟨⟨?_, ?_, ?_, ?_⟩, rfl, fun _ _ => rfl⟩
  · change Wave (edgeEnds F edges) bfsRoot 0 _ _ (shown bfsRoot (begun c 0 0) state) [] []
    rw [isInitial]
    simpa only [never] using Wave.first (edgeEnds F edges) bfsRoot
  · exact fun _ _ => Nat.zero_le _
  · refine iff_of_false ?_ fun ⟨_, _, _, below⟩ => absurd below (Nat.not_lt_zero _)
    rintro ⟨p, _, isSeen⟩
    exact absurd isSeen Bool.false_ne_true
  · change counted c (fun _ => ⟨0, 0, false⟩) + 0 + 1 =
      discovered c.vertices (shown bfsRoot (begun c 0 0) state)
    rw [isInitial, sum_initial sound.root_lt]
    unfold counted
    simp

/-- If no offer was made in the last superstep, everything has been found. -/
theorem Running.exact (sound : Sound F edges c bfsRoot) {k : Nat} {st : State}
    (running : Running F edges c bfsRoot st) (isPhase : st.bspPhase = k + 1)
    (quiet : ∀ e ∈ edgeEnds F edges, ¬ Dist (edgeEnds F edges) bfsRoot e.1 k) :
    BfsAsyncExact F edges c bfsRoot st := by
  obtain ⟨wave, _, _, counts⟩ := running.searching
  rw [isPhase] at wave counts
  have isShown : ∀ v < c.vertices, shown bfsRoot (begun c (k + 1) 0) st.state v = view (st.state v) := by
    intro v inside
    unfold shown begun
    simp only [inside, decide_true, Nat.succ_pos, Bool.true_or, Bool.and_true, if_true]
  have lt_of_dist : ∀ {v d}, Dist (edgeEnds F edges) bfsRoot v d → v < c.vertices := fun dist =>
    dist.walk.lt_of_inside sound.root_lt fun _ edge => (sound.ends edge).2
  have found : ∀ v < c.vertices, (st.state v).bfsParent ≠ noParent →
      Right (edgeEnds F edges) bfsRoot v
        (some ((st.state v).bfsParent.toNat, (st.state v).bspPhase.toNat)) := by
    intro v inside isFound
    have right := wave.right v
    rw [isShown v inside] at right
    unfold view at right
    rwa [if_neg isFound] at right
  have discovered_iff : ∀ v < c.vertices,
      (st.state v).bfsParent ≠ noParent ↔ Reachable (edgeEnds F edges) bfsRoot v := by
    intro v inside
    constructor
    · intro isFound
      exact ⟨_, (found v inside isFound _ _ rfl).1.walk⟩
    · rintro ⟨d, walk⟩ undiscovered
      obtain ⟨d', _, dist⟩ := walk.exists_dist
      have some_ := wave.found_of_quiet quiet dist
      rw [isShown v inside] at some_
      exact some_ ((view_eq_none_iff _).mpr undiscovered)
  have level : ∀ v < c.vertices, ∀ d, Dist (edgeEnds F edges) bfsRoot v d →
      (st.state v).bspPhase.toNat = d := by
    intro v inside d dist
    have isFound := (discovered_iff v inside).mpr ⟨d, dist.walk⟩
    exact (found v inside isFound _ _ rfl).1.unique dist
  refine ⟨discovered_iff, level, fun v inside notRoot isFound => ?_, ?_⟩
  · obtain ⟨_, above⟩ := found v inside isFound _ _ rfl
    obtain ⟨edge, d, isNext, dist⟩ := above notRoot
    exact ⟨edge, by rw [level _ (lt_of_dist dist) d dist, isNext]⟩
  · have sum : discovered c.vertices (shown bfsRoot (begun c (k + 1) 0) st.state) =
        ((Finset.range c.vertices).filter fun v => (st.state v).bfsParent ≠ noParent).card := by
      rw [Finset.card_filter]
      refine Finset.sum_congr rfl fun v member => ?_
      rw [isShown v (Finset.mem_range.mp member)]
      by_cases undiscovered : (st.state v).bfsParent = noParent
      · rw [if_pos ((view_eq_none_iff _).mpr undiscovered), if_neg (not_not_intro undiscovered)]
      · rw [if_neg (mt (view_eq_none_iff _).mp undiscovered), if_pos undiscovered]
    have isSet : {v | v < c.vertices ∧ v ≠ bfsRoot ∧ Reachable (edgeEnds F edges) bfsRoot v} =
        (((Finset.range c.vertices).filter fun v => (st.state v).bfsParent ≠ noParent).erase bfsRoot :
          Finset Nat) := by
      ext v
      simp only [Set.mem_ofPred_eq, Finset.coe_erase, Finset.coe_filter, Finset.mem_range,
        Set.mem_sdiff, Set.mem_singleton_iff]
      constructor
      · rintro ⟨inside, notRoot, reached⟩
        exact ⟨⟨inside, (discovered_iff v inside).mpr reached⟩, notRoot⟩
      · rintro ⟨⟨inside, isFound⟩, notRoot⟩
        exact ⟨inside, notRoot, (discovered_iff v inside).mp isFound⟩
    have rootFound : bfsRoot ∈ (Finset.range c.vertices).filter
        fun v => (st.state v).bfsParent ≠ noParent :=
      Finset.mem_filter.mpr ⟨Finset.mem_range.mpr sound.root_lt,
        (discovered_iff bfsRoot sound.root_lt).mpr ⟨0, .nil⟩⟩
    have zero : counted c st.algoPcpu = 0 :=
      Finset.sum_eq_zero fun p member => running.cleared p (Finset.mem_range.mp member)
    rw [isSet, Set.ncard_coe_finset, Finset.card_erase_of_mem rootFound, ← sum, ← counts, zero, Nat.zero_add,
      Nat.add_sub_cancel]

end BfsAsync

theorem computesBfsAsync_of_sound (sound : BfsAsync.Sound F edges c bfsRoot)
    (fits : ∀ superp < c.superPartitions, c.StateFits (bfsAsync bfsRoot).vertexStateBytes superp)
    (state : Nat → BfsAsync.BfsVertex) :
    ComputesBfsAsync F edges c bfsRoot (BfsAsyncExact F edges c bfsRoot) state := by
  have minPhases : (bfsAsync bfsRoot).minSuperPhases = 1 := rfl
  refine NondetLoop.AlwaysEnds.of_invariant (BfsAsync.Running F edges c bfsRoot)
    (fun st => c.vertices + 1 - st.bspPhase) (BfsAsync.running_start sound state)
    (fun st _ => AsyncScatterGather.exists_superstep fits st) ?_ ?_
  · intro st st' running stepped stops
    obtain ⟨running', phase, quiet⟩ := running.step sound stepped
    exact running'.exact sound phase (quiet.mp stops.2)
  · intro st st' running stepped goesOn
    obtain ⟨running', phase, quiet⟩ := running.step sound stepped
    refine ⟨running', ?_⟩
    rcases Nat.eq_zero_or_pos st.bspPhase with isFirst | late
    · omega
    · have found : ¬ ∀ e ∈ edgeEnds F edges, ¬ Dist (edgeEnds F edges) bfsRoot e.1 st.bspPhase :=
        fun none_ => goesOn ⟨by omega, quiet.mpr none_⟩
      push Not at found
      obtain ⟨e, _, dist⟩ := found
      have := sound.dist_lt dist
      omega

end

end MBFGraph
