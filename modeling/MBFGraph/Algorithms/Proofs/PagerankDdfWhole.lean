import MBFGraph.Algorithms.PagerankDdf
import MBFGraph.Core.Proofs.RelaxationRuns

/-!
# pagerank_ddf pushes whole vertices

A vertex of `pagerank_ddf` is changed by its own scatter phase: it counts the updates that it has
pushed up to its degree. The share that it pushes stays the same until then (`pushed`), so a vertex
whose edges are all read pushes one share along each of them and is whole again behind the phase.
-/

namespace MBFGraph

open ScatterGather

namespace PagerankDdf

variable {E : Type} {F : FormatUtils E} {edges : List E} {c : Configuration} {niters : Nat}

/-! ## The edges of a vertex -/

/-- The edges of a vertex that are not deleted. -/
def edgesFrom (F : FormatUtils E) (v : Nat) (edges : List E) : List E :=
  edges.filter fun e => F.splitKey e 0 ≠ tombstone ∧ (F.src e).toNat = v

theorem edgesFrom_cons_self {e : E} {edges : List E} (live : F.splitKey e 0 ≠ tombstone) :
    (edgesFrom F (F.src e).toNat (e :: edges)).length =
      (edgesFrom F (F.src e).toNat edges).length + 1 := by
  unfold edgesFrom
  rw [List.filter_cons, if_pos (decide_eq_true ⟨live, rfl⟩), List.length_cons]

theorem edgesFrom_cons_of_ne {e : E} {edges : List E} {v : Nat}
    (other : F.splitKey e 0 = tombstone ∨ (F.src e).toNat ≠ v) :
    edgesFrom F v (e :: edges) = edgesFrom F v edges := by
  unfold edgesFrom
  rw [List.filter_cons, if_neg]
  rw [decide_eq_true_eq]
  rintro ⟨live, same⟩
  exact other.elim live fun differ => differ same

/-! ## One vertex -/

/-- A vertex that has pushed its share along all its edges. -/
def moved (s : Vertex) : Vertex :=
  { s with rank := s.rank + s.delta, delta := 0, updatesPushed := 0, changed := true }

/-- A vertex that has pushed its share along so many of its edges. -/
def pushed (s : Vertex) (j : Nat) : Vertex :=
  if aboveThreshold s = false ∨ j = 0 then s
  else if j = s.degree.toNat then moved s
  else { s with updatesPushed := j, changed := true }

/-- A vertex behind superstep 0. -/
def counted (s : Vertex) (j : Nat) : Vertex :=
  if j = 0 then s else { s with degree := s.degree + BitVec.ofNat 31 j, changed := true }

@[simp] theorem pushed_zero (s : Vertex) : pushed s 0 = s := by simp [pushed]

@[simp] theorem counted_zero (s : Vertex) : counted s 0 = s := if_pos rfl

theorem aboveThreshold_counting (s : Vertex) (j : Nat) (changed : Bool) :
    aboveThreshold { s with updatesPushed := j, changed := changed } = aboveThreshold s := rfl

theorem pushed_of_below {s : Vertex} (below : aboveThreshold s = false) (j : Nat) :
    pushed s j = s := if_pos (.inl below)

theorem pushed_degree {s : Vertex} (above : aboveThreshold s = true) (positive : s.degree ≠ 0) :
    pushed s s.degree.toNat = moved s := by
  have notZero : s.degree.toNat ≠ 0 := fun zero => positive (BitVec.eq_of_toNat_eq zero)
  simp [pushed, above, notZero]

theorem counted_succ (s : Vertex) (j : Nat) :
    vertexAfterUpdate (counted s j) 0 = counted s (j + 1) := by
  unfold vertexAfterUpdate counted
  simp only [if_true, Nat.succ_ne_zero, if_false]
  split
  · rename_i zero
    subst zero
    rfl
  · simp only [BitVec.add_assoc, BitVec.ofNat_add]
    rfl

/-- On the way a vertex only counts. -/
theorem pushed_on_way {s : Vertex} (whole : s.updatesPushed = 0) (above : aboveThreshold s = true)
    {j : Nat} (room : s.degree = 0 ∨ j < s.degree.toNat) :
    pushed s j =
      { s with updatesPushed := j, changed := if j = 0 then s.changed else true } := by
  obtain ⟨degree, changed, rank, delta, updatesPushed⟩ := s
  have isWhole : updatesPushed = 0 := whole
  subst isWhole
  by_cases first : j = 0
  · simp [pushed, first]
  · have notLast : j ≠ degree.toNat := by
      rcases room with zero | less
      · have isZero : degree = 0 := zero
        rw [isZero]
        exact first
      · exact Nat.ne_of_lt less
    simp [pushed, first, notLast, above]

/-- One more edge. -/
theorem pushed_succ {s : Vertex} (whole : s.updatesPushed = 0) {j k : Nat} (late : k ≠ 0)
    (room : aboveThreshold s = true → s.degree = 0 ∨ j < s.degree.toNat) :
    vertexAfterUpdate (pushed s j) k = pushed s (j + 1) := by
  unfold vertexAfterUpdate
  rw [if_neg late]
  cases above : aboveThreshold s with
  | false => rw [pushed_of_below above, pushed_of_below above, if_neg (by simp [above])]
  | true =>
    have next : pushed s (j + 1) = if j + 1 = s.degree.toNat then moved s
        else { s with updatesPushed := j + 1, changed := true } := by
      simp [pushed, above]
    rw [next, pushed_on_way whole above (room above), aboveThreshold_counting, above, if_pos rfl]
    rfl

/-- What is sent along one more edge: the share of the vertex in front of the phase. -/
theorem generateUpdate_pushed {s : Vertex} (whole : s.updatesPushed = 0) {j k : Nat} (late : k ≠ 0)
    (dst : VertexT) (room : aboveThreshold s = true → s.degree = 0 ∨ j < s.degree.toNat) :
    generateUpdate (pushed s j) dst k =
      if aboveThreshold s then some ⟨dst, s.delta / s.degree.toNat⟩ else none := by
  unfold generateUpdate
  rw [if_neg late]
  cases above : aboveThreshold s with
  | false => rw [pushed_of_below above, above]
  | true =>
    rw [pushed_on_way whole above (room above), aboveThreshold_counting, above]

/-! ## The records of a scatter phase -/

/-- One edge, as a step on the vertices and the updates. -/
def pushEdge (F : FormatUtils E) (k : Nat) (acc : (Nat → Vertex) × List Update) (e : E) :
    (Nat → Vertex) × List Update :=
  if F.splitKey e 0 = tombstone then acc
  else
    (Function.update acc.1 (F.src e).toNat (vertexAfterUpdate (acc.1 (F.src e).toNat) k),
      acc.2 ++ (generateUpdate (acc.1 (F.src e).toNat) (F.dst e) k).toList)

/-- The driver puts the edges of all visits one after the other. -/
theorem scatterVisits_eq (niters : Nat) {superp : Nat} {visits : List (Visit E)}
    (belong : ∀ v ∈ visits, ∀ e ∈ v.records, c.mapSuperPartition (F.splitKey e 0) = superp ∧
      c.mapCachedPartition (F.splitKey e 0) = v.partition)
    (st : SgState Vertex Update Unit Unit) :
    visits.foldl (scatterVisit c (pagerankDdf niters) F superp) st = { st with
      state := ((visits.flatMap Visit.records).foldl (pushEdge F st.bspPhase)
        (st.state, st.updatesOut)).1
      updatesOut := ((visits.flatMap Visit.records).foldl (pushEdge F st.bspPhase)
        (st.state, st.updatesOut)).2 } := by
  have record : ∀ (processor partition : Nat) (e : E) (st : SgState Vertex Update Unit Unit),
      c.mapSuperPartition (F.splitKey e 0) = superp →
      c.mapCachedPartition (F.splitKey e 0) = partition →
      scatterRecord c (pagerankDdf niters) F superp processor partition st e = { st with
        state := (pushEdge F st.bspPhase (st.state, st.updatesOut) e).1
        updatesOut := (pushEdge F st.bspPhase (st.state, st.updatesOut) e).2 } := by
    intro processor partition e st ofSuperp ofPartition
    unfold scatterRecord pushEdge
    split
    · rfl
    · have index := mapInverse_eq_self (c := c) ofSuperp ofPartition
      rw [F.splitKey_zero] at index
      simp only [FormatUtils.readEdge, index, pagerankDdf, Function.update_eq_self]
  have visit : ∀ (processor partition : Nat) (records : List E),
      (∀ e ∈ records, c.mapSuperPartition (F.splitKey e 0) = superp ∧
        c.mapCachedPartition (F.splitKey e 0) = partition) →
      ∀ st : SgState Vertex Update Unit Unit,
      records.foldl (scatterRecord c (pagerankDdf niters) F superp processor partition) st =
        { st with
          state := (records.foldl (pushEdge F st.bspPhase) (st.state, st.updatesOut)).1
          updatesOut := (records.foldl (pushEdge F st.bspPhase) (st.state, st.updatesOut)).2 } := by
    intro processor partition records
    induction records with
    | nil => exact fun _ st => rfl
    | cons e records ih =>
      intro ends st
      obtain ⟨ofSuperp, ofPartition⟩ := ends e List.mem_cons_self
      rw [List.foldl_cons, record _ _ _ _ ofSuperp ofPartition,
        ih fun e' member => ends e' (List.mem_cons_of_mem _ member)]
      rfl
  induction visits generalizing st with
  | nil => rfl
  | cons v visits ih =>
    rw [List.foldl_cons, List.flatMap_cons, List.foldl_append]
    unfold scatterVisit
    rw [visit v.processor v.partition v.records (belong v List.mem_cons_self)]
    have rest := ih fun v' member => belong v' (List.mem_cons_of_mem _ member)
    unfold scatterVisit at rest
    rw [rest]

/-- The edges of the records that are not deleted. -/
def live (F : FormatUtils E) (edges : List E) : List E :=
  edges.filter fun e => F.splitKey e 0 ≠ tombstone

/-- Edge by edge a vertex goes through the states `at_ v 0`, `at_ v 1`, and so on. -/
theorem foldl_pushEdge {k : Nat} (at_ : Nat → Nat → Vertex) (sends : E → Option Update)
    (records : List E) (done : Nat → Nat)
    (step : ∀ e ∈ records, F.splitKey e 0 ≠ tombstone → ∀ j, done (F.src e).toNat ≤ j →
      j < done (F.src e).toNat + (edgesFrom F (F.src e).toNat records).length →
      vertexAfterUpdate (at_ (F.src e).toNat j) k = at_ (F.src e).toNat (j + 1) ∧
        generateUpdate (at_ (F.src e).toNat j) (F.dst e) k = sends e) (updates : List Update) :
    records.foldl (pushEdge F k) ((fun v => at_ v (done v)), updates) =
      ((fun v => at_ v (done v + (edgesFrom F v records).length)),
        updates ++ (live F records).filterMap sends) := by
  induction records generalizing done updates with
  | nil => simp [edgesFrom, live]
  | cons e records ih =>
    rw [List.foldl_cons]
    by_cases deleted : F.splitKey e 0 = tombstone
    · have same : ∀ v, edgesFrom F v (e :: records) = edgesFrom F v records := fun v =>
        edgesFrom_cons_of_ne (.inl deleted)
      have dead : live F (e :: records) = live F records := by
        unfold live
        rw [List.filter_cons, if_neg (by simpa using deleted)]
      rw [pushEdge, if_pos deleted, ih done fun e' member => same _ ▸ step e' (.tail _ member), dead]
      simp only [same]
    · obtain ⟨after, sent⟩ := step e List.mem_cons_self deleted (done (F.src e).toNat)
        (Nat.le_refl _) (by rw [edgesFrom_cons_self deleted]; omega)
      have one : pushEdge F k ((fun v => at_ v (done v)), updates) e =
          ((fun v => at_ v (Function.update done (F.src e).toNat (done (F.src e).toNat + 1) v)),
            updates ++ (sends e).toList) := by
        rw [pushEdge, if_neg deleted]
        refine Prod.ext (funext fun v => ?_) (by rw [sent])
        by_cases here : v = (F.src e).toNat
        · subst here
          simp only [Function.update_self, after]
        · simp only [Function.update_of_ne here]
      have counts : ∀ v, Function.update done (F.src e).toNat (done (F.src e).toNat + 1) v +
          (edgesFrom F v records).length = done v + (edgesFrom F v (e :: records)).length := by
        intro v
        by_cases here : v = (F.src e).toNat
        · subst here
          rw [Function.update_self, edgesFrom_cons_self deleted]
          omega
        · rw [Function.update_of_ne here, edgesFrom_cons_of_ne (.inr (Ne.symm here))]
      have alive : live F (e :: records) = e :: live F records := by
        unfold live
        rw [List.filter_cons, if_pos (by simpa using deleted)]
      rw [one, ih, alive, List.filterMap_cons]
      · simp only [counts]
        cases sends e <;> simp
      · intro e' member notMark j least most
        rw [counts] at most
        refine step e' (.tail _ member) notMark j ?_ most
        by_cases here : (F.src e').toNat = (F.src e).toNat
        · rw [here, Function.update_self] at least
          rw [here]
          omega
        · rwa [Function.update_of_ne here] at least

/-- Superstep 0 counts the edges and sends nothing. -/
theorem foldl_pushEdge_zero (records : List E) (g : Nat → Vertex) (updates : List Update) :
    records.foldl (pushEdge F 0) (g, updates) =
      ((fun v => counted (g v) (edgesFrom F v records).length), updates) := by
  have all := foldl_pushEdge (F := F) (k := 0) (fun v j => counted (g v) j)
    (fun _ => none) records (fun _ => 0)
    (fun e _ _ j _ _ => ⟨counted_succ _ j, rfl⟩) updates
  simpa using all

/-- What is sent along an edge, given the vertices in front of the phase. -/
def sentBy (F : FormatUtils E) (g : Nat → Vertex) (e : E) : Option Update :=
  if aboveThreshold (g (F.src e).toNat) then
    some ⟨F.dst e, (g (F.src e).toNat).delta / (g (F.src e).toNat).degree.toNat⟩
  else none

/-- A later superstep pushes, as long as no vertex has more edges than it has counted. -/
theorem foldl_pushEdge_late {k : Nat} (late : k ≠ 0) (records : List E) (g : Nat → Vertex)
    (whole : ∀ e ∈ records, (g (F.src e).toNat).updatesPushed = 0)
    (room : ∀ e ∈ records, F.splitKey e 0 ≠ tombstone →
      aboveThreshold (g (F.src e).toNat) = true → (g (F.src e).toNat).degree = 0 ∨
        (edgesFrom F (F.src e).toNat records).length ≤ (g (F.src e).toNat).degree.toNat)
    (updates : List Update) :
    records.foldl (pushEdge F k) (g, updates) =
      ((fun v => pushed (g v) (edgesFrom F v records).length),
        updates ++ (live F records).filterMap (sentBy F g)) := by
  have all := foldl_pushEdge (F := F) (k := k) (fun v j => pushed (g v) j)
    (sentBy F g) records (fun _ => 0) ?_ updates
  · simpa using all
  · intro e member alive j _ most
    have space : aboveThreshold (g (F.src e).toNat) = true →
        (g (F.src e).toNat).degree = 0 ∨ j < (g (F.src e).toNat).degree.toNat := fun above =>
      (room e member alive above).imp_right fun enough => by omega
    exact ⟨pushed_succ (whole e member) late space,
      generateUpdate_pushed (whole e member) late _ space⟩

end PagerankDdf

end MBFGraph
