import MBFGraph.Algorithms.Proofs.BfsExact
import MBFGraph.Algorithms.Proofs.CcExact
import MBFGraph.Algorithms.Proofs.MisExact
import MBFGraph.Core.Proofs.Selective

/-!
# bfs, cc and mis with selective scattering

None of the three programs depends on the order of its messages in what it reports. A run that reads the pages
with active sources only has as many supersteps as a run that reads everything, and the same result.
-/

namespace MBFGraph

open ScatterGather NondetLoop

variable {σ υ δ γ E W : Type}

/-- The start of a run looks the same to both drivers. -/
theorem alike_start {O Q τ : Type} (c : Configuration) (A : SgAlgorithm σ υ δ γ W) (view : σ → O)
    (fresh : Nat → O → Prop) (good : υ → Prop) (count : δ → Nat) (obs : O → Q) (reported : γ → τ)
    (begins : A.needInit 0 = true) (state : Nat → σ) (algoPcpu : Nat → δ) (total : γ) :
    Alike c A view fresh good count obs reported (ScatterGather.start state algoPcpu total)
      (ScatterGather.start state algoPcpu total) := by
  have ready : ScatterGather.Ready c A view fresh good (ScatterGather.start state algoPcpu total) :=
    ⟨rfl, fun _ none_ => absurd none_ List.not_mem_nil, fun needed => absurd needed (by
      change A.needInit 0 ≠ false
      rw [begins]
      exact Bool.noConfusion)⟩
  exact ⟨ready, ready, rfl, fun _ => rfl, List.Perm.refl _, rfl, rfl⟩

/-- A sum of counters, as the reductions form it. -/
theorem foldl_add_eq_sum (f : Nat → Nat) (start n : Nat) :
    (List.range n).foldl (fun total i => total + f i) start = start + ∑ p ∈ Finset.range n, f p := by
  induction n with
  | zero => simp
  | succ n ih => rw [List.range_succ, List.foldl_append, ih, Finset.sum_range_succ, ← Nat.add_assoc]; rfl

/-- The counters of all processors are cleared. -/
theorem sum_cleared {α : Type} (f : α → Nat) (zero : α) (isZero : f zero = 0) (data : Nat → α) (n : Nat) :
    ∑ p ∈ Finset.range n, f (if p < n then zero else data p) = 0 := by
  refine Finset.sum_eq_zero fun p member => ?_
  rw [if_pos (Finset.mem_range.mp member), isZero]

namespace Bfs

/-- The superstep in which a vertex was discovered. -/
def discoveredIn (o : View) : Option (BitVec 31) := if o.1 = noParent then none else some o.2

theorem discoveredIn_eq_iff {o o' : View} (same : discoveredIn o = discoveredIn o') :
    (o.1 = noParent ↔ o'.1 = noParent) ∧ (o.1 ≠ noParent → o.2 = o'.2) := by
  unfold discoveredIn at same
  split at same <;> split at same <;> simp_all

theorem orderFree (bfsRoot vertices : Nat) : Bsp.OrderFree (rules bfsRoot vertices) Carries discoveredIn where
  start k v o o' same := by
    simp only [rules]
    split
    · split <;> simp [discoveredIn]
    · exact same
  apply k o o' u carries same := by
    have isParent : u.parent ≠ noParent := carries
    obtain ⟨both, _⟩ := discoveredIn_eq_iff same
    by_cases undiscovered : o.1 = noParent
    · simp [rules, undiscovered, both.mp undiscovered, discoveredIn, isParent]
    · simpa only [rules, if_neg undiscovered, if_neg (mt both.mpr undiscovered)] using same
  swap k o u u' carries carries' := by
    have isParent : u.parent ≠ noParent := carries
    have isParent' : u'.parent ≠ noParent := carries'
    by_cases undiscovered : o.1 = noParent
    · simp [rules, undiscovered, discoveredIn, isParent, isParent']
    · simp [rules, undiscovered]
  activates k o o' u _ same := by
    simp only [rules, (discoveredIn_eq_iff same).1]
  activates_swap k o u u' carries carries' := by
    have isParent : u.parent ≠ noParent := carries
    have isParent' : u'.parent ≠ noParent := carries'
    by_cases undiscovered : o.1 = noParent <;> simp [rules, undiscovered]
  send k o o' src dst same := by
    obtain ⟨both, phase⟩ := discoveredIn_eq_iff same
    by_cases undiscovered : o.1 = noParent
    · simp [rules, undiscovered, both.mp undiscovered]
    · simp only [rules, ne_eq, undiscovered, mt both.mpr undiscovered, phase undiscovered]

/-- Two drivers that run bfs and send everything, in lock step. -/
theorem lockStep {c : Configuration} {F : FormatUtils E} {edges : List E} {bfsRoot : Nat}
    {scan scan' : Scan BfsVertex BfsUpdate PerProcessorData PerProcessorData E}
    (complete : Complete c (rules bfsRoot c.vertices) (fun v _ => v) view F edges scan)
    (complete' : Complete c (rules bfsRoot c.vertices) (fun v _ => v) view F edges scan')
    (inside : EndsInside F edges c.vertices) :
    LockStep (Superstep c (bfs bfsRoot) F scan) (Stops c (bfs bfsRoot)) (Superstep c (bfs bfsRoot) F scan')
      (Stops c (bfs bfsRoot))
      (Alike c (bfs bfsRoot) view Fresh Carries PerProcessorData.verticesDiscovered discoveredIn
        PerProcessorData.verticesDiscovered) := by
  refine ScatterGather.lockStep (follows bfsRoot c.vertices) (counts bfsRoot)
    PerProcessorData.verticesDiscovered (orderFree bfsRoot c.vertices) (fun o o' same => ?_)
    (fun g g' algo algo' same sums => ?_) (fun k o isFresh discovered => Nat.lt_succ_of_lt (isFresh discovered))
    complete complete' fun e member => (inside e member).2
  · simp only [weight, (discoveredIn_eq_iff same).1]
  · constructor
    · change (reduce g algo c.processors).1.verticesDiscovered =
        (reduce g' algo' c.processors).1.verticesDiscovered
      rw [reduce_fst, reduce_fst, same, sums]
    · exact (sum_cleared PerProcessorData.verticesDiscovered ⟨0, 0⟩ rfl algo _).trans
        (sum_cleared PerProcessorData.verticesDiscovered ⟨0, 0⟩ rfl algo' _).symm
    · rfl

/-- What bfs reports: when each vertex was discovered, and how many vertices were. -/
def reported (st : SgState BfsVertex BfsUpdate PerProcessorData PerProcessorData) :
    (Nat → Option (BitVec 31)) × Nat :=
  (fun v => discoveredIn (view (st.state v)), st.total.verticesDiscovered)

end Bfs

/-- bfs reads the pages with active sources only, and finds the same. -/
theorem bfs_sameRuns (c : Configuration) (F : FormatUtils E) (edges : List E) (bfsRoot edgesPerPage : Nat)
    (inside : EndsInside F edges c.vertices) (state : Nat → Bfs.BfsVertex)
    (algoPcpu : Nat → Bfs.PerProcessorData) (total : Bfs.PerProcessorData) :
    SameRuns c (bfs bfsRoot) F (scanPages c (bfs bfsRoot) F edgesPerPage edges) (scanWhole c F edges)
      Bfs.reported (ScatterGather.start state algoPcpu total) := by
  have both := Bfs.lockStep (complete_scanPages (Bfs.follows bfsRoot c.vertices) edgesPerPage
    fun e member => (inside e member).1) complete_scanWhole inside
  exact sameRuns_of_lockStep both
    (fun st st' alike => Prod.ext (funext alike.state) alike.total)
    (alike_start _ _ _ _ _ _ _ _ rfl _ _ _)

theorem bfs_sameRuns_path :
    SameRuns (Configuration.single 0 3 (by decide)) (bfs 0) type2
      (scanPages (Configuration.single 0 3 (by decide)) (bfs 0) type2 1 [⟨0, 1⟩, ⟨1, 2⟩])
      (scanWhole (Configuration.single 0 3 (by decide)) type2 [⟨0, 1⟩, ⟨1, 2⟩]) Bfs.reported
      (ScatterGather.start (fun _ => ⟨0, 0, false⟩) (fun _ => ⟨0, 0⟩) ⟨0, 0⟩) :=
  bfs_sameRuns _ _ _ 0 1 (by unfold EndsInside; decide) _ _ _

namespace Cc

theorem apply_component (vertices k : Nat) (o : Vertex) (u : Update) :
    ((rules vertices).apply k o u).component = if u.component < o.component then u.component
      else o.component := by
  simp only [rules]
  split <;> rfl

theorem orderFree (vertices : Nat) : Bsp.OrderFree (rules vertices) (fun _ => True) id where
  start _ _ o o' same := by
    have equal : o = o' := same
    rw [equal]
  apply _ o o' _ _ same := by
    have equal : o = o' := same
    rw [equal]
  swap k o u u' _ _ := by
    simp only [rules, id_eq, BitVec.lt_def]
    by_cases first : u.component.toNat < o.component.toNat <;>
      by_cases second : u'.component.toNat < o.component.toNat
    · rcases Nat.lt_trichotomy u.component.toNat u'.component.toNat with less | equal | more
      · simp only [first, second, less, if_true, Nat.lt_asymm less, if_false]
      · have same : u.component = u'.component := BitVec.eq_of_toNat_eq equal
        simp only [same]
      · simp only [first, second, more, if_true, Nat.lt_asymm more, if_false]
    · have more : ¬ u'.component.toNat < u.component.toNat := by omega
      simp only [first, second, more, if_true, if_false]
    · have more : ¬ u.component.toNat < u'.component.toNat := by omega
      simp only [first, second, more, if_true, if_false]
    · simp only [first, second, if_false]
  activates _ o o' _ _ same := by
    have equal : o = o' := same
    rw [equal]
  activates_swap k o u u' _ _ := by
    have either : ∀ u u' : Update, ((rules vertices).activates k o u ||
        (rules vertices).activates k ((rules vertices).apply k o u) u') =
        (decide (u.component < o.component) || decide (u'.component < o.component)) := by
      intro u u'
      change (decide (u.component < o.component) ||
        decide (u'.component < ((rules vertices).apply k o u).component)) = _
      rw [apply_component]
      by_cases smaller : u.component < o.component <;> simp [smaller]
    rw [either, either, Bool.or_comm]
  send _ o o' _ _ same := by
    have equal : o = o' := same
    rw [equal]

/-- Two drivers that run cc and send everything, in lock step. -/
theorem lockStep {c : Configuration} {F : FormatUtils E} {edges : List E}
    {scan scan' : Scan Vertex Update Nat Nat E}
    (complete : Complete c (rules c.vertices) (fun v _ => v) view F edges scan)
    (complete' : Complete c (rules c.vertices) (fun v _ => v) view F edges scan')
    (inside : EndsInside F edges c.vertices) :
    LockStep (Superstep c cc F scan) (Stops c cc) (Superstep c cc F scan') (Stops c cc)
      (Alike c cc view Fresh (fun _ => True) (fun d : Nat => d) id (fun g : Nat => g)) := by
  refine ScatterGather.lockStep (follows c.vertices) counts (fun g : Nat => g) (orderFree c.vertices)
    (fun o o' same => congrArg weight same) (fun g g' algo algo' same sums => ?_)
    (fun k o isFresh => Nat.lt_succ_of_lt isFresh) complete complete' fun e member => (inside e member).2
  constructor
  · change (reduce g algo c.processors).1 = (reduce g' algo' c.processors).1
    rw [reduce_fst, reduce_fst, sums]
    exact congrArg (· + _) same
  · exact (sum_cleared (fun d : Nat => d) 0 rfl algo _).trans (sum_cleared (fun d : Nat => d) 0 rfl algo' _).symm
  · rfl

/-- What cc reports: the label of each vertex, and how many vertices were merged. -/
def reported (st : SgState Vertex Update Nat Nat) : (Nat → VertexT) × Nat :=
  (fun v => (st.state v).component, st.total)

end Cc

/-- cc reads the pages with active sources only, and finds the same. -/
theorem cc_sameRuns (c : Configuration) (F : FormatUtils E) (edges : List E) (edgesPerPage : Nat)
    (inside : EndsInside F edges c.vertices) (state : Nat → Cc.Vertex) (algoPcpu : Nat → Nat) (total : Nat) :
    SameRuns c cc F (scanPages c cc F edgesPerPage edges) (scanWhole c F edges) Cc.reported
      (ScatterGather.start state algoPcpu total) := by
  have both := Cc.lockStep (complete_scanPages (Cc.follows c.vertices) edgesPerPage
    fun e member => (inside e member).1) complete_scanWhole inside
  exact sameRuns_of_lockStep both
    (fun st st' alike => by
      have labels (v : Nat) : (Cc.view (st.state v)).component = (Cc.view (st'.state v)).component :=
        congrArg Cc.Vertex.component (alike.state v)
      exact Prod.ext (funext labels) alike.total)
    (alike_start _ _ _ _ _ _ _ _ rfl _ _ _)

theorem cc_sameRuns_edge :
    SameRuns (Configuration.single 0 2 (by decide)) cc type2
      (scanPages (Configuration.single 0 2 (by decide)) cc type2 1 [⟨0, 1⟩, ⟨1, 0⟩])
      (scanWhole (Configuration.single 0 2 (by decide)) type2 [⟨0, 1⟩, ⟨1, 0⟩]) Cc.reported
      (ScatterGather.start (fun _ => ⟨0, 0, false, false⟩) (fun _ => 0) 0) :=
  cc_sameRuns _ _ _ 1 (by unfold EndsInside; decide) _ _ _

namespace Mis

theorem orderFree (vertices : Nat) : Bsp.OrderFree (rules vertices) (fun _ => True) id where
  start _ _ o o' same := by
    have equal : o = o' := same
    rw [equal]
  apply _ _ _ _ _ _ := rfl
  swap _ _ _ _ _ _ := rfl
  activates _ _ _ _ _ _ := rfl
  activates_swap _ _ _ _ _ _ := rfl
  send _ o o' _ _ same := by
    have equal : o = o' := same
    rw [equal]

/-- Two drivers that run mis and send everything, in lock step. -/
theorem lockStep {c : Configuration} {F : FormatUtils E} {edges : List E}
    {scan scan' : Scan Vertex Update Nat Nat E}
    (complete : Complete c (rules c.vertices) (fun v _ => v) (fun o => o) F edges scan)
    (complete' : Complete c (rules c.vertices) (fun v _ => v) (fun o => o) F edges scan')
    (inside : EndsInside F edges c.vertices) :
    LockStep (Superstep c mis F scan) (Stops c mis) (Superstep c mis F scan') (Stops c mis)
      (Alike c mis (fun o => o) (fun _ _ => True) (fun _ => True) (fun d : Nat => d) id
        (fun g : Nat => g)) := by
  refine ScatterGather.lockStep (follows c.vertices) counts (fun g : Nat => g) (orderFree c.vertices)
    (fun o o' same => congrArg weight same) (fun g g' algo algo' same sums => ?_) (fun _ _ _ => trivial)
    complete complete' fun e member => (inside e member).2
  have sameTotal : (reduce g algo c.processors).1 = (reduce g' algo' c.processors).1 := by
    simp only [reduce, foldl_add_eq_sum, sums]
  constructor
  · exact sameTotal
  · exact (sum_cleared (fun d : Nat => d) 0 rfl algo _).trans (sum_cleared (fun d : Nat => d) 0 rfl algo' _).symm
  · change decide ((reduce g algo c.processors).1 = g) = decide ((reduce g' algo' c.processors).1 = g')
    rw [sameTotal, show g = g' from same]

/-- What mis reports: the set, and how many vertices are not in it. -/
def reported (st : SgState Vertex Update Nat Nat) : (Nat → Bool) × Nat :=
  (fun v => (st.state v).inMis, st.total)

end Mis

/-- mis reads the pages with active sources only, and finds the same. -/
theorem mis_sameRuns (c : Configuration) (F : FormatUtils E) (edges : List E) (edgesPerPage : Nat)
    (inside : EndsInside F edges c.vertices) (state : Nat → Mis.Vertex) (algoPcpu : Nat → Nat) (total : Nat) :
    SameRuns c mis F (scanPages c mis F edgesPerPage edges) (scanWhole c F edges) Mis.reported
      (ScatterGather.start state algoPcpu total) := by
  have both := Mis.lockStep (complete_scanPages (Mis.follows c.vertices) edgesPerPage
    fun e member => (inside e member).1) complete_scanWhole inside
  exact sameRuns_of_lockStep both
    (fun st st' alike => Prod.ext (funext fun v => congrArg Mis.Vertex.inMis (alike.state v)) alike.total)
    (alike_start _ _ _ _ _ _ _ _ rfl _ _ _)

theorem mis_sameRuns_edge :
    SameRuns (Configuration.single 0 2 (by decide)) mis type2
      (scanPages (Configuration.single 0 2 (by decide)) mis type2 1 [⟨0, 1⟩, ⟨1, 0⟩])
      (scanWhole (Configuration.single 0 2 (by decide)) type2 [⟨0, 1⟩, ⟨1, 0⟩]) Mis.reported
      (ScatterGather.start (fun _ => ⟨false⟩) (fun _ => 0) 0) :=
  mis_sameRuns _ _ _ 1 (by unfold EndsInside; decide) _ _ _

end MBFGraph
