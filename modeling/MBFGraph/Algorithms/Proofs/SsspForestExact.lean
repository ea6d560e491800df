import MBFGraph.Algorithms.Proofs.SsspExact

/-!
# sssp_forest finds shortest path forests

The label of a vertex is its component together with its distance, and an update is taken exactly if
it is smaller in the lexicographic order. So a distance never gets mixed with the component of
another root, in whatever order the updates come.
-/

namespace MBFGraph

open Relaxation ShortestPaths ScatterGather

namespace SsspForest

/-- Component and distance, in lexicographic order. -/
def label (v : Vertex) : Nat ×ₗ ℚ := toLex (v.component.toNat, v.distance)

/-- The same of an update. -/
def value (u : Update) : Nat ×ₗ ℚ := toLex (u.component.toNat, u.distance)

/-- The test of `apply_one_update`. -/
theorem value_lt_iff (v : Vertex) (u : Update) :
    u.component < v.component ∨ u.component = v.component ∧ u.distance < v.distance ↔
      value u < label v := by
  rw [value, label, Prod.Lex.toLex_lt_toLex, BitVec.lt_def, BitVec.toNat_inj]

/-- `sssp_forest` as rules. An edge leads to a vertex and has a weight. -/
def rules (vertices : Nat) : Bsp.Rules Nat Vertex Update (Nat × ℚ) where
  start k v o := if k = 0 ∧ v < vertices then (init v).1 else o
  apply k o u := if value u < label o then ⟨u.component, u.predecessor, u.distance, k⟩ else o
  activates _ o u := decide (value u < label o)
  active k o := decide (o.activePhase = k)
  send k o src x :=
    if o.activePhase = k then
      some ⟨BitVec.ofNat 32 x.1, BitVec.ofNat 32 src, o.distance + x.2, o.component⟩
    else none
  target u := u.target.toNat

/-- The label did not fall in this superstep. -/
def Fresh (k : Nat) (o : Vertex) : Prop := o.activePhase < k

theorem follows (vertices : Nat) :
    Follows ssspForest vertices (rules vertices) Prod.mk (fun o => o) Fresh (fun _ => True) where
  target _ := rfl
  apply_view s u d k := by
    simp only [ssspForest, applyOneUpdate, rules, value_lt_iff]
    split <;> rfl
  apply_activates s u d k := by
    simp only [ssspForest, applyOneUpdate, rules, value_lt_iff]
    split <;> simp_all
  init_view s v k needed inside := by
    have first : k = 0 := of_decide_eq_true needed
    simp only [ssspForest, rules, first, inside, and_self, if_true]
  start_else k v o not_ := by
    have not' : ¬(k = 0 ∧ v < vertices) := fun h => not_ ⟨decide_eq_true h.1, h.2⟩
    simp only [rules, not', if_false]
  init_active _ _ _ _ _ := rfl
  reset_view _ := rfl
  check_view _ _ := rfl
  generate_eq s src dst w d k := by
    simp only [ssspForest, generateUpdate, rules]
    split <;> simp
  vertex_after _ _ := rfl
  send_active k o src x inactive := by
    simp only [rules, decide_eq_false_iff_not] at inactive ⊢
    rw [if_neg inactive]
  send_target k o src dst w u below sent := by
    simp only [rules] at sent ⊢
    split at sent
    · rw [← Option.some.inj sent]
      exact Nat.mod_eq_of_lt below
    · exact absurd sent (by simp)
  send_good _ _ _ _ _ _ _ _ := trivial
  apply_active k o u active := by
    simp only [rules] at active ⊢
    by_cases smaller : value u < label o
    · simp [smaller]
    · simp only [smaller, if_false] at active
      exact .inl active
  fresh_active k o needed isFresh := decide_eq_false (Nat.ne_of_lt isFresh)
  fresh_start k v o needed inside := by
    have first : k = 0 := of_decide_eq_true needed
    simp only [rules, first, inside, and_self, if_true, init]
    exact Nat.zero_lt_one
  fresh_apply k o u isFresh := by
    simp only [rules]
    split
    · exact Nat.lt_succ_self k
    · exact isFresh

variable {E : Type} {F : FormatUtils E ℚ} {edges : List E} {c : Configuration}

theorem relaxes (ids : c.vertices ≤ 2 ^ 32) :
    Relaxes (rules c.vertices) (fromRoots (liveWeighted F edges) c.vertices) label value where
  apply_label k s m := by
    simp only [rules]
    split
    · rename_i smaller
      exact (inf_eq_right.mpr smaller.le).symm
    · rename_i notSmaller
      exact (inf_eq_left.mpr (not_lt.mp notSmaller)).symm
  apply_same k s m worse := by
    simp only [rules, if_neg (not_lt.mpr worse)]
  activates_iff k s m := by
    simp only [rules, decide_eq_true_eq, not_le]
  apply_active k s m cause := by
    simp only [rules, decide_eq_true_eq] at cause ⊢
    by_cases smaller : value m < label s
    · simp only [smaller, if_true]
    · simp only [smaller, if_false]
      exact cause.resolve_right fun worse => worse (not_lt.mp smaller)
  start_zero v s known := by
    have inside : v < c.vertices := known
    have small : v % 2 ^ 32 = v := Nat.mod_eq_of_lt (Nat.lt_of_lt_of_le inside ids)
    simp only [rules, inside, and_self, if_true, init, label, fromRoots, BitVec.toNat_ofNat, small]
  start_succ k v s := by
    simp only [rules, Nat.succ_ne_zero, false_and, if_false]
  send_active k s e edge active := by
    have isActive : s.activePhase = k := of_decide_eq_true active
    refine ⟨_, if_pos isActive, rfl, ?_⟩
    exact Nat.mod_eq_of_lt (lt_of_mem_liveWeighted edge).2
  send_inactive k s v x inactive := if_neg (of_decide_eq_false inactive)
  silent v s x b inactive known := by
    have inside : v < c.vertices := known
    have := of_decide_eq_false inactive
    simp [rules, inside, init] at this

theorem names :
    Names (rules c.vertices) (fromRoots (liveWeighted F edges) c.vertices) label value
      (fun o => o.predecessor.toNat) (fun u => u.predecessor.toNat) where
  apply_pred k s m better := by
    simp only [rules, if_pos (not_le.mp better)]
  start_pred k v s := by
    simp only [rules, Nat.succ_ne_zero, false_and, if_false]
  send_sender k s m e edge sent := by
    simp only [rules] at sent
    split at sent
    · rw [← Option.some.inj sent]
      exact Nat.mod_eq_of_lt (lt_of_mem_liveWeighted edge).1
    · exact absurd sent (by simp)

theorem propagates (ids : c.vertices ≤ 2 ^ 32) (inside : EndsInside F edges c.vertices)
    (nonneg : ∀ e ∈ edges, 0 ≤ F.edgeWeight e) :
    Propagates c ssspForest F edges (rules c.vertices) Prod.mk (fun o => o) Fresh
      (fromRoots (liveWeighted F edges) c.vertices) label value
      (fun o => o.predecessor.toNat) (fun u => u.predecessor.toNat) where
  follows := follows c.vertices
  relaxes := relaxes ids
  names := names
  edges_eq := rfl
  known_iff _ := Iff.rfl
  inside _ edge := inside_of_mem_liveWeighted inside edge
  head_lt _ edge := (lt_of_mem_liveWeighted edge).2
  carry_mono := fromRoots_mono
  carry_le := fromRoots_le fun _ edge => nonneg_of_mem_liveWeighted nonneg edge
  stays _ _ _ isFresh := Nat.lt_succ_of_lt isFresh
  reduce _ _ _ := rfl
  minSuperPhases := rfl

end SsspForest

/-! ## Forests -/

/-- What sssp_forest leaves behind: the smallest vertex from which a vertex is reached, the distance
from it, and a predecessor in the same component. -/
structure SsspForestExact (edges : List (Nat × Nat × ℚ)) (vertices : Nat)
    (st : SgState SsspForest.Vertex SsspForest.Update Unit Unit) : Prop where
  component : ∀ v < vertices, IsLeast {r | Reachable edges r v} (st.state v).component.toNat
  distance : ∀ v < vertices,
    IsLeast {x | Walk edges (st.state v).component.toNat x v} (st.state v).distance
  predecessor : ∀ v < vertices, v ≠ (st.state v).component.toNat →
    ∃ w, ((st.state v).predecessor.toNat, v, w) ∈ edges ∧
      (st.state (st.state v).predecessor.toNat).component = (st.state v).component ∧
      (st.state v).distance = (st.state (st.state v).predecessor.toNat).distance + w

/-- sssp_forest run on all edges ends with a shortest path forest of the graph `graph`. -/
def ComputesForest {E : Type} (F : FormatUtils E ℚ) (edges : List E) (c : Configuration)
    (graph : List (Nat × Nat × ℚ)) (state : Nat → SsspForest.Vertex) : Prop :=
  Computes c ssspForest F (scanAll c F edges) (SsspForestExact graph c.vertices)
    (start state (fun _ => ()) ())

/-- Where edges are marked as deleted, sssp_forest computes the forest without them. -/
theorem computesForest_live {E : Type} (c : Configuration) (F : FormatUtils E ℚ) (edges : List E)
    (state : Nat → SsspForest.Vertex) (inside : EndsInside F edges c.vertices)
    (nonneg : ∀ e ∈ edges, 0 ≤ F.edgeWeight e) (ids : c.vertices ≤ 2 ^ 32)
    (fits : ∀ superp < c.superPartitions, c.StateFits ssspForest.vertexStateBytes superp) :
    ComputesForest F edges c (liveWeighted F edges) state := by
  have propagates := SsspForest.propagates ids inside nonneg
  have complete : Complete c _ _ _ F edges
      (scanAll c F edges : Scan SsspForest.Vertex SsspForest.Update Unit Unit E) :=
    complete_scanAll propagates.follows fun e member => (inside e member).1
  have ends : Computes c ssspForest F (scanAll c F edges) _
      (start state (fun _ => ()) ()) := propagates.computes complete
    (fun e member => (inside e member).2) fits
    ⟨rfl, fun u none_ => absurd none_ List.not_mem_nil, fun late => by simp [ssspForest,
      ScatterGather.start] at late⟩ rfl rfl
  refine ends.mono fun st relaxed => ?_
  have least : ∀ v < c.vertices, _ := fun v known => isLeast_of_isLeast (relaxed.isLeast v known)
  refine ⟨fun v known => ?_, fun v known => (least v known).2, fun v known other => ?_⟩
  · obtain ⟨⟨_, reachable⟩, smallest⟩ := (least v known).1
    refine ⟨reachable, fun r reaches => smallest ⟨?_, reaches⟩⟩
    obtain ⟨d, walk⟩ := reaches
    exact walk.start_lt (fun e edge => (inside_of_mem_liveWeighted inside edge).1) known
  · have notFirst : SsspForest.label (st.state v) ≠
        (fromRoots (liveWeighted F edges) c.vertices).first v := by
      intro same
      exact other (Prod.mk.inj (toLex.injective same)).1.symm
    obtain ⟨⟨u, w, x⟩, edge, isPred, isHead, same⟩ := relaxed.exists_edge v known notFirst
    have isPred' : u = (st.state v).predecessor.toNat := isPred
    have isHead' : w = v := isHead
    subst isHead'
    obtain ⟨component, distance⟩ := Prod.mk.inj (toLex.injective same)
    rw [← isPred']
    exact ⟨x, edge, BitVec.eq_of_toNat_eq component.symm, distance⟩

/-- sssp_forest is exact. Ids are 32 bit numbers, no source of an edge is the mark of a deleted
edge, and the vertex records fit in the state buffer. -/
theorem computesForest {E : Type} (c : Configuration) (F : FormatUtils E ℚ) (edges : List E)
    (state : Nat → SsspForest.Vertex) (inside : EndsInside F edges c.vertices)
    (nonneg : ∀ e ∈ edges, 0 ≤ F.edgeWeight e) (ids : c.vertices ≤ 2 ^ 32)
    (unmarked : ∀ e ∈ edges, (F.src e).toNat ≠ tombstone)
    (fits : ∀ superp < c.superPartitions, c.StateFits ssspForest.vertexStateBytes superp) :
    ComputesForest F edges c (weightedEdges F edges) state := by
  rw [← liveWeighted_eq unmarked]
  exact computesForest_live c F edges state inside nonneg ids fits

/-- Vertex 2 is reached from 0 and from 1, vertex 1 only from itself. -/
theorem computesForest_two_roots :
    ComputesForest weighted [⟨1, 2, 1⟩, ⟨0, 2, 5⟩] (Configuration.single 0 3 (by decide))
      (weightedEdges weighted [⟨1, 2, 1⟩, ⟨0, 2, 5⟩]) fun _ => ⟨0, 0, 0, 0⟩ :=
  computesForest _ _ _ _ (by unfold EndsInside; decide) (by decide) (by decide) (by decide)
    (by unfold Configuration.StateFits; decide +kernel)

/-- A path from 0 to 1 through vertex 0xFFFFFFFF. -/
def markedPath : List RationalEdge := [⟨0, 0xFFFFFFFF, 1⟩, ⟨0xFFFFFFFF, 1, 1⟩]

theorem endsInside_markedPath : EndsInside weighted markedPath everyId.vertices := by
  change EndsInside weighted markedPath (2 ^ 32)
  unfold EndsInside
  decide

theorem forest_fits_everyId : ∀ superp < everyId.superPartitions,
    everyId.StateFits ssspForest.vertexStateBytes superp := by
  intro superp below
  have only : superp = 0 := Nat.lt_one_iff.mp below
  subst only
  unfold Configuration.StateFits
  decide +kernel

/-- The second edge counts as deleted, so vertex 1 keeps its own component. -/
theorem not_computesForest_marked (state : Nat → SsspForest.Vertex) :
    ¬ ComputesForest weighted markedPath everyId (weightedEdges weighted markedPath) state := by
  intro computes
  have known : 1 < everyId.vertices := show 1 < 2 ^ 32 by norm_num
  have live := computesForest_live everyId weighted markedPath state endsInside_markedPath
    (by decide) (show 2 ^ 32 ≤ 2 ^ 32 from le_refl _) forest_fits_everyId
  obtain ⟨st, claimed, exact_⟩ := (computes.and live).exists_post
  have liveEdges_eq : liveWeighted weighted markedPath = [(0, 0xFFFFFFFF, 1)] := by decide
  obtain ⟨d, walk⟩ := (exact_.component 1 known).1
  rw [liveEdges_eq] at walk
  have own : (st.state 1).component.toNat = 1 := by
    generalize (st.state 1).component.toNat = r at walk
    generalize isEnd : 1 = v at walk
    cases walk with
    | nil => rfl
    | snoc _ edge => simp [← isEnd] at edge
  have path : Walk (weightedEdges weighted markedPath) 0 (0 + 1 + 1) 1 :=
    (Walk.nil.snoc (v := 0) (w := 0xFFFFFFFF) (by decide)).snoc (by decide)
  have le := (claimed.component 1 known).2 ⟨_, path⟩
  omega

/-- A component has 32 bits. -/
theorem not_computesForest_wide (state : Nat → SsspForest.Vertex) :
    ¬ ComputesForest weighted [] (Configuration.single 0 (2 ^ 32 + 1) (Nat.succ_pos _))
      (weightedEdges weighted []) state := by
  intro computes
  obtain ⟨st, exact_⟩ := computes.exists_post
  obtain ⟨d, walk⟩ := (exact_.component (2 ^ 32) (Nat.lt_succ_self _)).1
  have small := (st.state (2 ^ 32)).component.isLt
  generalize (st.state (2 ^ 32)).component.toNat = r at walk small
  generalize isEnd : 2 ^ 32 = v at walk
  cases walk with
  | nil => omega
  | snoc _ edge => exact List.not_mem_nil edge

/-- With two super partitions the state buffer has room for 409 of the 410 records of super
partition 0. -/
theorem not_computesForest_tight (state : Nat → SsspForest.Vertex) :
    ¬ ComputesForest weighted [] (Configuration.single 1 819 (by decide))
      (weightedEdges weighted []) state := by
  intro computes
  obtain ⟨st, stepped⟩ := computes.can_step
  have fits := fits_of_superstep stepped 0 (by decide)
  unfold Configuration.StateFits at fits
  revert fits
  decide +kernel

/-- sssp_forest is not exact on a graph with an edge of vertex 0xFFFFFFFF, with an id of 33 bits,
and where a super partition has more records than the state buffer holds. -/
theorem not_computesForest :
    (EndsInside weighted markedPath everyId.vertices ∧
      ∀ state, ¬ ComputesForest weighted markedPath everyId (weightedEdges weighted markedPath)
        state) ∧
    (∀ state, ¬ ComputesForest weighted [] (Configuration.single 0 (2 ^ 32 + 1) (Nat.succ_pos _))
      (weightedEdges weighted []) state) ∧
    ∀ state, ¬ ComputesForest weighted [] (Configuration.single 1 819 (by decide))
      (weightedEdges weighted []) state :=
  ⟨⟨endsInside_markedPath, not_computesForest_marked⟩, not_computesForest_wide,
    not_computesForest_tight⟩

end MBFGraph
