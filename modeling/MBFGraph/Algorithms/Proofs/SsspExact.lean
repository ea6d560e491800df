import MBFGraph.Algorithms.Sssp
import MBFGraph.Core.Proofs.RelaxationRuns
import MBFGraph.Lib.ShortestPaths
import Mathlib.Algebra.Order.Ring.Unbundled.Rat

/-!
# sssp finds shortest paths

A vertex of `sssp` keeps the smallest distance that it has been told, one of `sssp_forest` the
smallest component and in it the smallest distance. Both relax (`Relaxation.Relaxes`): labels are
distances, or components and distances in lexicographic order.
-/

namespace MBFGraph

open Relaxation ShortestPaths ScatterGather

variable {E : Type}

/-- A record of type 1 with an exact weight. -/
structure RationalEdge where
  src : VertexT
  dst : VertexT
  value : ℚ
  deriving DecidableEq

/-- The format of type 1 with exact weights. -/
def weighted : FormatUtils RationalEdge ℚ where
  splitSizeBytes := 16
  src := RationalEdge.src
  dst := RationalEdge.dst
  holdsTwoIds := type1.holdsTwoIds
  edgeWeight := RationalEdge.value

/-- The two ends and the weights of all edges. -/
def weightedEdges (F : FormatUtils E ℚ) (edges : List E) : List (Nat × Nat × ℚ) :=
  edges.map fun e => ((F.src e).toNat, (F.dst e).toNat, F.edgeWeight e)

/-- The edges that are not deleted. -/
abbrev liveWeighted (F : FormatUtils E ℚ) (edges : List E) : List (Nat × Nat × ℚ) :=
  liveLinks Prod.mk F edges

section

variable {F : FormatUtils E ℚ} {edges : List E}

theorem mem_liveWeighted_iff {e : Nat × Nat × ℚ} :
    e ∈ liveWeighted F edges ↔ e ∈ weightedEdges F edges ∧ e.1 ≠ tombstone := by
  simp only [liveWeighted, liveLinks, weightedEdges, List.mem_map, List.mem_filter,
    decide_eq_true_eq, FormatUtils.splitKey_zero]
  constructor
  · rintro ⟨e', ⟨member, live⟩, rfl⟩
    exact ⟨⟨e', member, rfl⟩, live⟩
  · rintro ⟨⟨e', member, rfl⟩, live⟩
    exact ⟨e', ⟨member, live⟩, rfl⟩

theorem liveWeighted_eq (unmarked : ∀ e ∈ edges, (F.src e).toNat ≠ tombstone) :
    liveWeighted F edges = weightedEdges F edges := by
  unfold liveWeighted liveLinks weightedEdges
  rw [List.filter_eq_self.mpr]
  intro e member
  simpa using unmarked e member

/-- The ids of an edge have 32 bits. -/
theorem lt_of_mem_liveWeighted {e : Nat × Nat × ℚ} (edge : e ∈ liveWeighted F edges) :
    e.1 < 2 ^ 32 ∧ e.2.1 < 2 ^ 32 := by
  obtain ⟨e', _, rfl⟩ := List.mem_map.mp (mem_liveWeighted_iff.mp edge).1
  exact ⟨(F.src e').isLt, (F.dst e').isLt⟩

theorem inside_of_mem_liveWeighted {n : Nat} (inside : EndsInside F edges n) {e : Nat × Nat × ℚ}
    (edge : e ∈ liveWeighted F edges) : e.1 < n ∧ e.2.1 < n := by
  obtain ⟨e', member, rfl⟩ := List.mem_map.mp (mem_liveWeighted_iff.mp edge).1
  exact inside e' member

theorem nonneg_of_mem_liveWeighted (nonneg : ∀ e ∈ edges, 0 ≤ F.edgeWeight e)
    {e : Nat × Nat × ℚ} (edge : e ∈ liveWeighted F edges) : 0 ≤ e.2.2 := by
  obtain ⟨e', member, rfl⟩ := List.mem_map.mp (mem_liveWeighted_iff.mp edge).1
  exact nonneg e' member

end

namespace Sssp

/-- What a superstep looks at. -/
def view (v : Vertex) : Vertex := { v with changed := false }

/-- `sssp` as rules. An edge leads to a vertex and has a weight. -/
def rules (ssspSource vertices : Nat) : Bsp.Rules Nat Vertex Update (Nat × ℚ) where
  start k v o := if k = 0 ∧ v < vertices then view (init ssspSource v).1 else o
  apply k o u := if u.distance < o.distance then ⟨u.predecessor, u.distance, k, false⟩ else o
  activates _ o u := decide (u.distance < o.distance)
  active k o := decide (o.activePhase = k)
  send k o src x :=
    if o.activePhase = k then
      some ⟨BitVec.ofNat 32 x.1, BitVec.ofNat 32 src, o.distance + x.2⟩
    else none
  target u := u.target.toNat

/-- The distance did not fall in this superstep. -/
def Fresh (k : Nat) (o : Vertex) : Prop :=
  k < 0x7FFFFFFFFFFFFFFF ∧ (o.activePhase < k ∨ o.activePhase = 0x7FFFFFFFFFFFFFFF)

theorem follows (ssspSource vertices : Nat) :
    Follows (sssp ssspSource) vertices (rules ssspSource vertices) Prod.mk view Fresh
      (fun _ => True) where
  target _ := rfl
  apply_view s u d k := by
    simp only [sssp, applyOneUpdate, rules, view]
    split <;> rfl
  apply_activates s u d k := by
    simp only [sssp, applyOneUpdate, rules, view]
    split <;> simp_all
  init_view s v k needed inside := by
    have first : k = 0 := of_decide_eq_true needed
    simp only [sssp, rules, first, inside, and_self, if_true]
  start_else k v o not_ := by
    have not' : ¬(k = 0 ∧ v < vertices) := fun h => not_ ⟨decide_eq_true h.1, h.2⟩
    simp only [rules, not', if_false]
  init_active s v k needed active := by
    have first : k = 0 := of_decide_eq_true needed
    subst first
    simp only [sssp, rules, init, view] at active ⊢
    split
    · rfl
    · rename_i other
      simp [other] at active
  reset_view s := by
    simp only [sssp, checkResetChanged, view]
    split <;> rfl
  check_view s k := rfl
  generate_eq s src dst w d k := by
    simp only [sssp, generateUpdate, rules, view]
    split <;> simp
  vertex_after _ _ := rfl
  send_active k o src x inactive := by
    simp only [rules, decide_eq_false_iff_not] at inactive ⊢
    rw [if_neg inactive]
  send_target k o src dst w u below sent := by
    simp only [rules] at sent ⊢
    split at sent
    · rw [← Option.some.inj sent]
      exact Nat.mod_eq_of_lt below
    · exact absurd sent (by simp)
  send_good _ _ _ _ _ _ _ _ := trivial
  apply_active k o u active := by
    simp only [rules] at active ⊢
    by_cases smaller : u.distance < o.distance
    · simp [smaller]
    · simp only [smaller, if_false] at active
      exact .inl active
  fresh_active k o needed isFresh := by
    refine decide_eq_false ?_
    obtain ⟨small, earlier | never⟩ := isFresh
    · exact Nat.ne_of_lt earlier
    · rw [never]
      exact Nat.ne_of_gt small
  fresh_start k v o needed inside := by
    have first : k = 0 := of_decide_eq_true needed
    subst first
    simp only [rules, inside, and_self, if_true, init]
    refine ⟨by norm_num, ?_⟩
    split
    · exact .inl Nat.zero_lt_one
    · exact .inr rfl
  fresh_apply k o u isFresh := by
    simp only [rules]
    split
    · exact ⟨isFresh.1, .inl (Nat.lt_succ_self k)⟩
    · exact isFresh

variable {F : FormatUtils E ℚ} {edges : List E} {c : Configuration} {ssspSource : Nat}

theorem relaxes :
    Relaxes (rules ssspSource c.vertices)
      (fromSource (liveWeighted F edges) c.vertices ssspSource) Vertex.distance Update.distance where
  apply_label k s m := by
    simp only [rules]
    split
    · rename_i smaller
      exact (inf_eq_right.mpr smaller.le).symm
    · rename_i notSmaller
      exact (inf_eq_left.mpr (not_lt.mp notSmaller)).symm
  apply_same k s m worse := by
    simp only [rules, if_neg (not_lt.mpr worse)]
  activates_iff k s m := by
    simp only [rules, decide_eq_true_eq, not_le]
  apply_active k s m cause := by
    simp only [rules, decide_eq_true_eq] at cause ⊢
    by_cases smaller : m.distance < s.distance
    · simp only [smaller, if_true]
    · simp only [smaller, if_false]
      exact cause.resolve_right fun worse => worse (not_lt.mp smaller)
  start_zero v s known := by
    have inside : v < c.vertices := known
    simp only [rules, inside, and_self, if_true, init, view, fromSource]
    split <;> rfl
  start_succ k v s := by
    simp only [rules, Nat.succ_ne_zero, false_and, if_false]
  send_active k s e edge active := by
    have isActive : s.activePhase = k := of_decide_eq_true active
    refine ⟨_, if_pos isActive, rfl, ?_⟩
    exact Nat.mod_eq_of_lt (lt_of_mem_liveWeighted edge).2
  send_inactive k s v x inactive := if_neg (of_decide_eq_false inactive)
  silent v s x b inactive known := by
    have inside : v < c.vertices := known
    have other : v ≠ ssspSource := by
      rintro rfl
      have := of_decide_eq_false inactive
      simp [rules, inside, init, view] at this
    simp only [fromSource, other, if_false, WithTop.top_add, le_top]

theorem names :
    Names (rules ssspSource c.vertices)
      (fromSource (liveWeighted F edges) c.vertices ssspSource) Vertex.distance Update.distance
      (fun o => o.predecessor.toNat) (fun u => u.predecessor.toNat) where
  apply_pred k s m better := by
    simp only [rules, if_pos (not_le.mp better)]
  start_pred k v s := by
    simp only [rules, Nat.succ_ne_zero, false_and, if_false]
  send_sender k s m e edge sent := by
    simp only [rules] at sent
    split at sent
    · rw [← Option.some.inj sent]
      exact Nat.mod_eq_of_lt (lt_of_mem_liveWeighted edge).1
    · exact absurd sent (by simp)

theorem propagates (inside : EndsInside F edges c.vertices)
    (nonneg : ∀ e ∈ edges, 0 ≤ F.edgeWeight e) :
    Propagates c (sssp ssspSource) F edges (rules ssspSource c.vertices) Prod.mk view Fresh
      (fromSource (liveWeighted F edges) c.vertices ssspSource) Vertex.distance Update.distance
      (fun o => o.predecessor.toNat) (fun u => u.predecessor.toNat) where
  follows := follows ssspSource c.vertices
  relaxes := relaxes
  names := names
  edges_eq := rfl
  known_iff _ := Iff.rfl
  inside _ edge := inside_of_mem_liveWeighted inside edge
  head_lt _ edge := (lt_of_mem_liveWeighted edge).2
  carry_mono := fromSource_mono
  carry_le := fromSource_le fun _ edge => nonneg_of_mem_liveWeighted nonneg edge
  stays k le o isFresh := by
    obtain ⟨small, phase⟩ := isFresh
    exact ⟨by omega, phase.imp Nat.lt_succ_of_lt id⟩
  reduce _ _ _ := rfl
  minSuperPhases := rfl

end Sssp

/-! ## Distances -/

/-- What sssp leaves behind: the distances from the source, and a predecessor on a shortest path. -/
structure SsspExact (edges : List (Nat × Nat × ℚ)) (vertices ssspSource : Nat)
    (st : SgState Sssp.Vertex Sssp.Update Unit Unit) : Prop where
  distance : ∀ v < vertices, IsDistance edges ssspSource v (st.state v).distance
  predecessor : ∀ v < vertices, v ≠ ssspSource → Reachable edges ssspSource v →
    ∃ w, ((st.state v).predecessor.toNat, v, w) ∈ edges ∧
      (st.state v).distance = (st.state (st.state v).predecessor.toNat).distance + w

/-- sssp run on all edges ends with the distances in the graph `graph`. -/
def ComputesDistances (F : FormatUtils E ℚ) (edges : List E) (c : Configuration) (ssspSource : Nat)
    (graph : List (Nat × Nat × ℚ)) (state : Nat → Sssp.Vertex) : Prop :=
  Computes c (sssp ssspSource) F (scanAll c F edges) (SsspExact graph c.vertices ssspSource)
    (start state (fun _ => ()) ())

/-- Where edges are marked as deleted, sssp computes the distances without them. -/
theorem computesDistances_live (c : Configuration) (F : FormatUtils E ℚ) (edges : List E)
    (ssspSource : Nat) (state : Nat → Sssp.Vertex) (inside : EndsInside F edges c.vertices)
    (nonneg : ∀ e ∈ edges, 0 ≤ F.edgeWeight e) (isVertex : ssspSource < c.vertices)
    (fits : ∀ superp < c.superPartitions, c.StateFits (sssp ssspSource).vertexStateBytes superp) :
    ComputesDistances F edges c ssspSource (liveWeighted F edges) state := by
  have propagates : Propagates c (sssp ssspSource) F edges _ _ _ _ _ _ _ _ _ :=
    Sssp.propagates inside nonneg
  have complete : Complete c _ _ _ F edges
      (scanAll c F edges : Scan Sssp.Vertex Sssp.Update Unit Unit E) :=
    complete_scanAll propagates.follows fun e member => (inside e member).1
  have ends : Computes c (sssp ssspSource) F (scanAll c F edges) _
      (start state (fun _ => ()) ()) := propagates.computes complete
    (fun e member => (inside e member).2) fits
    ⟨rfl, fun u none_ => absurd none_ List.not_mem_nil, fun late => by simp [sssp,
      ScatterGather.start] at late⟩ rfl rfl
  refine ends.mono fun st relaxed => ?_
  have distance : ∀ v < c.vertices,
      IsDistance (liveWeighted F edges) ssspSource v (st.state v).distance :=
    fun v known => isDistance_of_isLeast isVertex (relaxed.isLeast v known)
  refine ⟨distance, fun v known other reachable => ?_⟩
  have notFirst : (st.state v).distance ≠
      (fromSource (liveWeighted F edges) c.vertices ssspSource).first v := by
    simp only [fromSource, other, if_false]
    exact fun isTop => (distance v known).unreachable isTop reachable
  obtain ⟨⟨u, w, x⟩, edge, isPred, isHead, same⟩ := relaxed.exists_edge v known notFirst
  have isPred' : u = (st.state v).predecessor.toNat := isPred
  have isHead' : w = v := isHead
  subst isHead'
  rw [← isPred']
  exact ⟨x, edge, same⟩

/-- sssp is exact. No source of an edge is the mark of a deleted edge, and the vertex records fit in
the state buffer. -/
theorem computesDistances (c : Configuration) (F : FormatUtils E ℚ) (edges : List E)
    (ssspSource : Nat) (state : Nat → Sssp.Vertex) (inside : EndsInside F edges c.vertices)
    (nonneg : ∀ e ∈ edges, 0 ≤ F.edgeWeight e) (isVertex : ssspSource < c.vertices)
    (unmarked : ∀ e ∈ edges, (F.src e).toNat ≠ tombstone)
    (fits : ∀ superp < c.superPartitions, c.StateFits (sssp ssspSource).vertexStateBytes superp) :
    ComputesDistances F edges c ssspSource (weightedEdges F edges) state := by
  rw [← liveWeighted_eq unmarked]
  exact computesDistances_live c F edges ssspSource state inside nonneg isVertex fits

/-- Two ways to vertex 2, of which the longer one is shorter. -/
theorem computesDistances_triangle :
    ComputesDistances weighted [⟨0, 2, 5⟩, ⟨0, 1, 1⟩, ⟨1, 2, 3⟩]
      (Configuration.single 0 3 (by decide)) 0
      (weightedEdges weighted [⟨0, 2, 5⟩, ⟨0, 1, 1⟩, ⟨1, 2, 3⟩]) fun _ => ⟨0, 0, 0, false⟩ :=
  computesDistances _ _ _ _ _ (by unfold EndsInside; decide)
    (by decide) (by decide) (by decide) (by unfold Configuration.StateFits; decide +kernel)

/-- An edge of vertex 0xFFFFFFFF. -/
def markedEdge : List RationalEdge := [⟨0xFFFFFFFF, 0, 1⟩]

/-- 2^32 vertices in one partition. -/
def everyId : Configuration := Configuration.single 0 (2 ^ 32) Configuration.ids_pos

theorem endsInside_markedEdge : EndsInside weighted markedEdge everyId.vertices := by
  change EndsInside weighted markedEdge (2 ^ 32)
  unfold EndsInside
  decide

theorem fits_everyId : ∀ superp < everyId.superPartitions,
    everyId.StateFits (sssp 0xFFFFFFFF).vertexStateBytes superp := by
  intro superp below
  have only : superp = 0 := Nat.lt_one_iff.mp below
  subst only
  unfold Configuration.StateFits
  decide +kernel

/-- The edge counts as deleted, so the source reaches nothing. -/
theorem not_computesDistances_marked (state : Nat → Sssp.Vertex) :
    ¬ ComputesDistances weighted markedEdge everyId 0xFFFFFFFF (weightedEdges weighted markedEdge)
      state := by
  intro computes
  have known : 0 < everyId.vertices := everyId.vertices_pos
  have isVertex : 0xFFFFFFFF < everyId.vertices := show 0xFFFFFFFF < 2 ^ 32 by norm_num
  have live := computesDistances_live everyId weighted markedEdge 0xFFFFFFFF state
    endsInside_markedEdge (by decide) isVertex fits_everyId
  obtain ⟨st, claimed, exact_⟩ := (computes.and live).exists_post
  have same := exact_.distance 0 known
  have noEdges : liveWeighted weighted markedEdge = [] := by decide
  rw [noEdges] at same
  have walk : Walk (weightedEdges weighted markedEdge) 0xFFFFFFFF (0 + 1) 0 :=
    Walk.nil.snoc (by decide)
  cases isDistance : (st.state 0).distance with
  | top => exact (claimed.distance 0 known).unreachable isDistance ⟨_, walk⟩
  | coe q =>
    cases (same.least q isDistance).1 with
    | snoc _ edge => exact List.not_mem_nil edge

/-- With two super partitions the state buffer has room for 512 of the 513 records of super
partition 0. -/
theorem not_computesDistances_tight (state : Nat → Sssp.Vertex) :
    ¬ ComputesDistances weighted [] (Configuration.single 1 1025 (by decide)) 0
      (weightedEdges weighted []) state := by
  intro computes
  obtain ⟨st, stepped⟩ := computes.can_step
  have fits := fits_of_superstep stepped 0 (by decide)
  unfold Configuration.StateFits at fits
  revert fits
  decide +kernel

/-- sssp is not exact on a graph with an edge of vertex 0xFFFFFFFF, and where a super partition has
more records than the state buffer holds. -/
theorem not_computesDistances :
    (EndsInside weighted markedEdge everyId.vertices ∧
      ∀ state, ¬ ComputesDistances weighted markedEdge everyId 0xFFFFFFFF
        (weightedEdges weighted markedEdge) state) ∧
    ∀ state, ¬ ComputesDistances weighted [] (Configuration.single 1 1025 (by decide)) 0
      (weightedEdges weighted []) state :=
  ⟨⟨endsInside_markedEdge, not_computesDistances_marked⟩, not_computesDistances_tight⟩

end MBFGraph
