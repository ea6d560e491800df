import MBFGraph.Core.ScatterGather
import MBFGraph.Lib.Bsp
import Mathlib.Algebra.BigOperators.Group.Finset.Piecewise

/-!
# The phases of the driver

What a gather phase, a scatter phase and an iteration over the vertices do, in whatever order and
by whichever processors the records are worked off. The vertex program is read through a `view` of
its vertex records, which leaves out what only the write-back looks at.
-/

namespace MBFGraph

namespace ScatterGather

variable {σ υ δ γ O E W X : Type}

/-- A vertex program takes updates as rules say. -/
structure FollowsUpdates (A : SgAlgorithm σ υ δ γ W) (R : Bsp.Rules Nat O υ X) (view : σ → O) :
    Prop where
  target : ∀ u, R.target u = A.splitKey u
  apply_view : ∀ s u d k, view (A.applyOneUpdate s u d k).1 = R.apply k (view s) u
  apply_activates : ∀ s u d k, (A.applyOneUpdate s u d k).2.2 = R.activates k (view s) u

/-- A vertex program follows rules. `fresh k` is what holds of a vertex in front of superstep `k`:
no mark of this superstep is on it. `good` is what holds of the updates that are sent. `link` is
what the rules see of a destination and a weight. -/
structure Follows (A : SgAlgorithm σ υ δ γ W) (vertices : Nat) (R : Bsp.Rules Nat O υ X)
    (link : Nat → W → X) (view : σ → O) (fresh : Nat → O → Prop) (good : υ → Prop) : Prop extends
    FollowsUpdates A R view where
  init_view : ∀ s v k, A.needInit k = true → v < vertices →
    view (A.init s v k).1 = R.start k v (view s)
  start_else : ∀ k v o, ¬(A.needInit k = true ∧ v < vertices) → R.start k v o = o
  init_active : ∀ s v k, A.needInit k = true → R.active k (view (A.init s v k).1) = true →
    (A.init s v k).2 = true
  reset_view : ∀ s, view (A.checkResetChanged s).1 = view s
  check_view : ∀ s k, A.checkBsp s k = R.active k (view s)
  generate_eq : ∀ s src dst w d k,
    (A.generateUpdate s src dst w d k).1 = R.send k (view s) src.toNat (link dst.toNat w)
  vertex_after : ∀ s k, A.vertexAfterUpdate s k = s
  send_active : ∀ k o src x, R.active k o = false → R.send k o src x = none
  send_target : ∀ k o src dst w u, dst < 2 ^ 32 → R.send k o src (link dst w) = some u →
    R.target u = dst
  send_good : ∀ k o src x u, src < 2 ^ 32 → src ≠ tombstone → R.send k o src x = some u → good u
  apply_active : ∀ k o u, R.active k (R.apply k o u) = true →
    R.active k o = true ∨ R.activates k o u = true
  fresh_active : ∀ k o, A.needInit k = false → fresh k o → R.active k o = false
  fresh_start : ∀ k v o, A.needInit k = true → v < vertices → fresh (k + 1) (R.start k v o)
  fresh_apply : ∀ k o u, fresh (k + 1) o → fresh (k + 1) (R.apply k o u)

/-- A counter of the processors that goes with a weight of the vertices. -/
structure Counts (A : SgAlgorithm σ υ δ γ W) (view : σ → O) (good : υ → Prop) (count : δ → Nat)
    (weight : O → Nat) : Prop where
  apply : ∀ s u d k, good u → count (A.applyOneUpdate s u d k).2.1 + weight (view s) =
    count d + weight (view (A.applyOneUpdate s u d k).1)
  generate : ∀ s src dst w d k, count (A.generateUpdate s src dst w d k).2 = count d

/-- A sum in which one summand is exchanged. -/
theorem sum_update_add {f : Nat → Nat} {n i : Nat} (inside : i < n) (x : Nat) :
    ∑ j ∈ Finset.range n, Function.update f i x j + f i = ∑ j ∈ Finset.range n, f j + x := by
  have member := Finset.mem_range.mpr inside
  rw [Finset.sum_update_of_mem member, ← Finset.add_sum_erase _ f member,
    Finset.sdiff_singleton_eq_erase]
  omega

section

variable {c : Configuration} {A : SgAlgorithm σ υ δ γ W} {F : FormatUtils E W} {R : Bsp.Rules Nat O υ X}
  {link : Nat → W → X} {view : σ → O} {fresh : Nat → O → Prop} {good : υ → Prop} {count : δ → Nat} {weight : O → Nat}

/-- Sums that differ by the same on a part where all the difference lies. -/
theorem sum_filter_of_eq_outside {f g : Nat → Nat} {s : Finset Nat} (part : Nat → Prop)
    [DecidablePred part] (same : ∀ v ∈ s, ¬ part v → f v = g v) {x y : Nat}
    (total : x + ∑ v ∈ s, f v = y + ∑ v ∈ s, g v) :
    x + ∑ v ∈ s.filter part, f v = y + ∑ v ∈ s.filter part, g v := by
  have outside : ∑ v ∈ s.filter (fun v => ¬ part v), f v = ∑ v ∈ s.filter (fun v => ¬ part v), g v :=
    Finset.sum_congr rfl fun v member =>
      same v (Finset.mem_filter.mp member).1 (Finset.mem_filter.mp member).2
  have split : ∀ h : Nat → Nat, ∑ v ∈ s, h v =
      ∑ v ∈ s.filter part, h v + ∑ v ∈ s.filter (fun v => ¬ part v), h v := fun h =>
    (Finset.sum_filter_add_sum_filter_not s part h).symm
  rw [split f, split g, outside] at total
  omega

/-- What the processors counted together. -/
def counted (c : Configuration) (count : δ → Nat) (st : SgState σ υ δ γ) : Nat :=
  ∑ p ∈ Finset.range c.processors, count (st.algoPcpu p)

/-- The weight of all vertices. -/
def weighed (c : Configuration) (view : σ → O) (weight : O → Nat) (state : Nat → σ) : Nat :=
  ∑ v ∈ Finset.range c.vertices, weight (view (state v))

/-- All processors vote to stop. -/
def AllVote (c : Configuration) (votes : Nat → Bool) : Prop :=
  ∀ p < c.processors, votes p = true

/-- The vertices have taken some updates. -/
structure Takes (c : Configuration) (R : Bsp.Rules Nat O υ X) (view : σ → O) (count : δ → Nat)
    (weight : O → Nat) (records : List υ) (st st' : SgState σ υ δ γ) : Prop where
  bspPhase : st'.bspPhase = st.bspPhase
  updatesIn : st'.updatesIn = st.updatesIn
  updatesOut : st'.updatesOut = st.updatesOut
  total : st'.total = st.total
  globalStop : st'.globalStop = st.globalStop
  state : ∀ v, view (st'.state v) =
    R.gather st.bspPhase (view (st.state v)) (records.filter fun u => R.target u = v)
  votes : AllVote c st'.iVoteToStop ↔ AllVote c st.iVoteToStop ∧ ∀ v, R.activated st.bspPhase (view (st.state v))
    (records.filter fun u => R.target u = v) = false
  counts : counted c count st' + weighed c view weight st.state =
    counted c count st + weighed c view weight st'.state

theorem Takes.refl (st : SgState σ υ δ γ) : Takes c R view count weight [] st st where
  bspPhase := rfl
  updatesIn := rfl
  updatesOut := rfl
  total := rfl
  globalStop := rfl
  state _ := rfl
  votes := by simp [Bsp.Rules.activated]
  counts := rfl

theorem Takes.trans {front back : List υ} {st st' st'' : SgState σ υ δ γ}
    (first : Takes c R view count weight front st st')
    (second : Takes c R view count weight back st' st'') :
    Takes c R view count weight (front ++ back) st st'' where
  bspPhase := second.bspPhase.trans first.bspPhase
  updatesIn := second.updatesIn.trans first.updatesIn
  updatesOut := second.updatesOut.trans first.updatesOut
  total := second.total.trans first.total
  globalStop := second.globalStop.trans first.globalStop
  state v := by
    rw [second.state, first.state, first.bspPhase, List.filter_append, Bsp.Rules.gather_append]
  votes := by
    rw [second.votes, first.votes, first.bspPhase, and_assoc, ← forall_and]
    simp only [first.state, List.filter_append, Bsp.Rules.activated_append, Bool.or_eq_false_iff]
  counts := by
    have := first.counts
    have := second.counts
    omega

/-! ## Gathering -/

/-- The record is where the driver looks for it. -/
theorem mapInverse_eq_self {superp partition key : Nat} (ofSuperp : c.mapSuperPartition key = superp)
    (ofPartition : c.mapCachedPartition key = partition) :
    c.mapInverse superp partition (c.mapOffset key) = key := by
  rw [← ofSuperp, ← ofPartition, c.mapInverse_map]

/-- The votes behind the vote of one processor. -/
theorem allVote_update {votes : Nat → Bool} {processor : Nat} (known : processor < c.processors)
    (activate : Bool) :
    AllVote c (Function.update votes processor (votes processor && !activate)) ↔
      AllVote c votes ∧ activate = false := by
  constructor
  · intro vote
    have here := vote processor known
    simp only [Function.update_self, Bool.and_eq_true, Bool.not_eq_true'] at here
    refine ⟨fun p hp => ?_, here.2⟩
    by_cases same : p = processor
    · rw [same]; exact here.1
    · have := vote p hp
      simpa only [Function.update_of_ne same] using this
  · rintro ⟨vote, rfl⟩ p hp
    by_cases same : p = processor
    · simp [same, vote processor known]
    · rw [Function.update_of_ne same]
      exact vote p hp

section

variable (follows : FollowsUpdates A R view)
  (counts : Counts A view good count weight)

include follows counts in
/-- One record. -/
theorem takes_gatherRecord {superp processor partition : Nat} {u : υ} (st : SgState σ υ δ γ)
    (activate : Bool) (known : processor < c.processors) (isGood : good u)
    (inside : A.splitKey u < c.vertices)
    (ofSuperp : c.mapSuperPartition (A.splitKey u) = superp)
    (ofPartition : c.mapCachedPartition (A.splitKey u) = partition) :
    Takes c R view count weight [u] st
      (gatherRecord c A superp processor partition (st, activate) u).1 := by
  have index := mapInverse_eq_self (c := c) ofSuperp ofPartition
  have target := follows.target u
  have single : ∀ v, ([u].filter fun u => R.target u = v) =
      if A.splitKey u = v then [u] else [] := by
    intro v
    by_cases here : A.splitKey u = v <;> simp [target, here]
  constructor
  · rfl
  · rfl
  · rfl
  · rfl
  · rfl
  · intro v
    simp only [gatherRecord, index, single]
    by_cases here : A.splitKey u = v
    · subst here
      simp [follows.apply_view]
    · have other : v ≠ A.splitKey u := fun h => here h.symm
      simp [here, Function.update_of_ne other]
  · simp only [gatherRecord, index]
    rw [allVote_update known, follows.apply_activates]
    refine and_congr_right fun _ => ?_
    constructor
    · intro silent v
      rw [single]
      split
      · rename_i here
        rw [← here]
        simp [Bsp.Rules.activated, silent]
      · rfl
    · intro silent
      have := silent (A.splitKey u)
      rw [single, if_pos rfl] at this
      simpa [Bsp.Rules.activated] using this
  · have processors := sum_update_add (f := fun p => count (st.algoPcpu p)) known
      (count (A.applyOneUpdate (st.state (A.splitKey u)) u (st.algoPcpu processor) st.bspPhase).2.1)
    have vertices := sum_update_add (f := fun v => weight (view (st.state v))) inside
      (weight (view
        (A.applyOneUpdate (st.state (A.splitKey u)) u (st.algoPcpu processor) st.bspPhase).1))
    have law := counts.apply (st.state (A.splitKey u)) u (st.algoPcpu processor) st.bspPhase isGood
    have processors' := Function.comp_update count st.algoPcpu processor
      (A.applyOneUpdate (st.state (A.splitKey u)) u (st.algoPcpu processor) st.bspPhase).2.1
    have vertices' := Function.comp_update (weight ∘ view) st.state (A.splitKey u)
      (A.applyOneUpdate (st.state (A.splitKey u)) u (st.algoPcpu processor) st.bspPhase).1
    simp only [counted, weighed, gatherRecord, index]
    simp only [funext_iff, Function.comp_apply] at processors' vertices'
    simp only [processors', vertices']
    simp only [Function.comp_def] at processors vertices ⊢
    omega

/-- An update of a visit. -/
structure Belongs (c : Configuration) (A : SgAlgorithm σ υ δ γ W) (good : υ → Prop)
    (superp partition : Nat) (u : υ) : Prop where
  isGood : good u
  inside : A.splitKey u < c.vertices
  ofSuperp : c.mapSuperPartition (A.splitKey u) = superp
  ofPartition : c.mapCachedPartition (A.splitKey u) = partition

include follows counts in
/-- The records of a visit. The flag says whether one of them activated its vertex. -/
theorem takes_gatherRecords {superp processor partition : Nat} (known : processor < c.processors)
    {records : List υ} (belong : ∀ u ∈ records, Belongs c A good superp partition u)
    (acc : SgState σ υ δ γ × Bool) :
    let done := records.foldl (gatherRecord c A superp processor partition) acc
    Takes c R view count weight records acc.1 done.1 ∧
      done.1.scatterFilter = acc.1.scatterFilter ∧
      ∀ v, R.activated acc.1.bspPhase (view (acc.1.state v))
        (records.filter fun u => R.target u = v) = true ∨ acc.2 = true → done.2 = true := by
  induction records generalizing acc with
  | nil => exact ⟨Takes.refl _, rfl, fun v flag => by simpa [Bsp.Rules.activated] using flag⟩
  | cons u records ih =>
    obtain ⟨isGood, inside, ofSuperp, ofPartition⟩ := belong u List.mem_cons_self
    have one := takes_gatherRecord follows counts acc.1 acc.2 known isGood inside ofSuperp ofPartition
    have rest := ih (fun u' member => belong u' (List.mem_cons_of_mem _ member))
      (gatherRecord c A superp processor partition acc u)
    refine ⟨one.trans rest.1, rest.2.1, fun v flag => rest.2.2 v ?_⟩
    have index := mapInverse_eq_self (c := c) ofSuperp ofPartition
    have flagOf : (gatherRecord c A superp processor partition acc u).2 =
        (acc.2 || R.activates acc.1.bspPhase (view (acc.1.state (A.splitKey u))) u) := by
      simp only [gatherRecord, index, follows.apply_activates]
    rw [← List.singleton_append, List.filter_append, Bsp.Rules.activated_append, ← one.state v,
      Bool.or_eq_true] at flag
    rw [flagOf, Bool.or_eq_true]
    rcases flag with (now | later) | before
    · right; right
      by_cases here : R.target u = v
      · simpa [here, Bsp.Rules.activated, ← follows.target u] using now
      · simp [here, Bsp.Rules.activated] at now
    · left
      exact later
    · right; left
      exact before

/-- The vertices have taken some updates, and the partitions of those that want to scatter are in
the filter. -/
structure Gathers (c : Configuration) (R : Bsp.Rules Nat O υ X) (view : σ → O) (count : δ → Nat)
    (weight : O → Nat) (records : List υ) (st st' : SgState σ υ δ γ) : Prop extends
    Takes c R view count weight records st st' where
  filter_mono : ∀ p ∈ st.scatterFilter, p ∈ st'.scatterFilter
  activated_mem : ∀ v, R.activated st.bspPhase (view (st.state v))
    (records.filter fun u => R.target u = v) = true → c.mapCachedPartition v ∈ st'.scatterFilter

theorem mem_queue {workq : List Nat} {id p : Nat} : p ∈ queue workq id ↔ p = id ∨ p ∈ workq := by
  unfold queue
  split
  · rename_i known
    exact ⟨.inr, fun h => h.elim (fun same => same ▸ known) fun member => member⟩
  · exact List.mem_cons

theorem Gathers.refl (st : SgState σ υ δ γ) : Gathers c R view count weight [] st st where
  toTakes := Takes.refl st
  filter_mono _ member := member
  activated_mem v active := by simp [Bsp.Rules.activated] at active

theorem Gathers.trans {front back : List υ} {st st' st'' : SgState σ υ δ γ}
    (first : Gathers c R view count weight front st st')
    (second : Gathers c R view count weight back st' st'') :
    Gathers c R view count weight (front ++ back) st st'' where
  toTakes := first.toTakes.trans second.toTakes
  filter_mono p member := second.filter_mono p (first.filter_mono p member)
  activated_mem v active := by
    rw [List.filter_append, Bsp.Rules.activated_append, Bool.or_eq_true, ← first.state v] at active
    rcases active with early | late
    · exact second.filter_mono _ (first.activated_mem v early)
    · exact second.activated_mem v (by rw [first.bspPhase]; exact late)

/-- Only a vertex with messages is activated. -/
theorem exists_of_activated {k : Nat} {o : O} {records : List υ} {v : Nat}
    (active : R.activated k o (records.filter fun u => R.target u = v) = true) :
    ∃ u ∈ records, R.target u = v := by
  by_contra none_
  have empty : (records.filter fun u => R.target u = v) = [] := by
    rw [List.filter_eq_nil_iff]
    intro u member
    simpa using fun same => none_ ⟨u, member, same⟩
  rw [empty] at active
  simp [Bsp.Rules.activated] at active

include follows counts in
theorem gathers_gatherVisit {superp : Nat} {v : Visit υ} (known : v.processor < c.processors)
    (belong : ∀ u ∈ v.records, Belongs c A good superp v.partition u)
    (st : SgState σ υ δ γ) :
    Gathers c R view count weight v.records st (gatherVisit c A superp st v) := by
  obtain ⟨takes, filter, flag⟩ := takes_gatherRecords follows counts known belong (st, false)
  have queues : ∀ p, p ∈ (gatherVisit c A superp st v).scatterFilter ↔
      p ∈ st.scatterFilter ∨ p = v.partition ∧
        (v.records.foldl (gatherRecord c A superp v.processor v.partition) (st, false)).2 = true := by
    intro p
    unfold gatherVisit
    simp only
    split
    · rename_i active
      simp only [active, and_true, mem_queue, filter, or_comm]
    · rename_i quiet
      simp only [quiet, Bool.false_eq_true, and_false, or_false, filter]
  refine ⟨?_, fun p member => (queues p).mpr (.inl member), fun w active => (queues _).mpr ?_⟩
  · unfold gatherVisit
    simp only
    split
    · exact { takes with }
    · exact takes
  · obtain ⟨u, member, target⟩ := exists_of_activated active
    have := (belong u member).ofPartition
    rw [← follows.target, target] at this
    exact .inr ⟨this, flag w (.inl active)⟩

include follows counts in
theorem gathers_gatherVisits {superp : Nat} {visits : List (Visit υ)}
    (known : ∀ v ∈ visits, v.processor < c.processors)
    (belong : ∀ v ∈ visits, ∀ u ∈ v.records, Belongs c A good superp v.partition u)
    (st : SgState σ υ δ γ) :
    Gathers c R view count weight (visits.flatMap Visit.records) st
      (visits.foldl (gatherVisit c A superp) st) := by
  induction visits generalizing st with
  | nil => exact Gathers.refl st
  | cons v visits ih =>
    rw [List.flatMap_cons, List.foldl_cons]
    exact (gathers_gatherVisit follows counts (known v List.mem_cons_self)
      (belong v List.mem_cons_self) st).trans
      (ih (fun v' member => known v' (List.mem_cons_of_mem _ member))
        (fun v' member => belong v' (List.mem_cons_of_mem _ member)) _)

end

/-! ## Scattering -/

/-- The ends of the edges that are not deleted. -/
def liveEdges (F : FormatUtils E) (edges : List E) : List (Nat × Nat) :=
  (edges.filter fun e => F.splitKey e 0 ≠ tombstone).map
    fun e => ((F.src e).toNat, (F.dst e).toNat)

/-- The edges that are not deleted, as the rules see them. -/
def liveLinks (link : Nat → W → X) (F : FormatUtils E W) (edges : List E) : List (Nat × X) :=
  (edges.filter fun e => F.splitKey e 0 ≠ tombstone).map
    fun e => ((F.src e).toNat, link (F.dst e).toNat (F.edgeWeight e))

theorem liveLinks_plain (F : FormatUtils E) (edges : List E) :
    liveLinks (fun v _ => v) F edges = liveEdges F edges := rfl

/-- What is sent along some edges. -/
def sentAlong (R : Bsp.Rules Nat O υ X) (link : Nat → W → X) (F : FormatUtils E W) (k : Nat) (state : Nat → O)
    (edges : List E) : List υ :=
  (liveLinks link F edges).filterMap fun e => R.send k (state e.1) e.1 e.2

theorem sentAlong_append (k : Nat) (state : Nat → O) (front back : List E) :
    sentAlong R link F k state (front ++ back) =
      sentAlong R link F k state front ++ sentAlong R link F k state back := by
  simp only [sentAlong, liveLinks, List.filter_append, List.map_append, List.filterMap_append]

theorem sentAlong_perm {k : Nat} {state : Nat → O} {edges edges' : List E}
    (perm : edges.Perm edges') :
    (sentAlong R link F k state edges).Perm (sentAlong R link F k state edges') :=
  ((perm.filter _).map _).filterMap _

/-- Some edges have been scattered. -/
structure Scatters (c : Configuration) (R : Bsp.Rules Nat O υ X) (link : Nat → W → X)
    (view : σ → O) (F : FormatUtils E W) (count : δ → Nat) (records : List E) (st st' : SgState σ υ δ γ) : Prop where
  bspPhase : st'.bspPhase = st.bspPhase
  state : st'.state = st.state
  updatesIn : st'.updatesIn = st.updatesIn
  updatesOut : st'.updatesOut = st.updatesOut ++
    sentAlong R link F st.bspPhase (fun v => view (st.state v)) records
  scatterFilter : st'.scatterFilter = st.scatterFilter
  iVoteToStop : st'.iVoteToStop = st.iVoteToStop
  total : st'.total = st.total
  globalStop : st'.globalStop = st.globalStop
  counts : counted c count st' = counted c count st

theorem Scatters.refl (st : SgState σ υ δ γ) : Scatters c R link view F count [] st st where
  bspPhase := rfl
  state := rfl
  updatesIn := rfl
  updatesOut := by simp [sentAlong, liveLinks]
  scatterFilter := rfl
  iVoteToStop := rfl
  total := rfl
  globalStop := rfl
  counts := rfl

theorem Scatters.trans {front back : List E} {st st' st'' : SgState σ υ δ γ}
    (first : Scatters c R link view F count front st st')
    (second : Scatters c R link view F count back st' st'') :
    Scatters c R link view F count (front ++ back) st st'' where
  bspPhase := second.bspPhase.trans first.bspPhase
  state := second.state.trans first.state
  updatesIn := second.updatesIn.trans first.updatesIn
  updatesOut := by
    rw [second.updatesOut, first.updatesOut, first.bspPhase, first.state, sentAlong_append,
      List.append_assoc]
  scatterFilter := second.scatterFilter.trans first.scatterFilter
  iVoteToStop := second.iVoteToStop.trans first.iVoteToStop
  total := second.total.trans first.total
  globalStop := second.globalStop.trans first.globalStop
  counts := second.counts.trans first.counts

section

variable (follows : Follows A c.vertices R link view fresh good)
  (counts : Counts A view good count weight)

include follows counts in
theorem scatters_scatterRecord {superp processor partition : Nat} {e : E} (st : SgState σ υ δ γ)
    (ofSuperp : c.mapSuperPartition (F.splitKey e 0) = superp)
    (ofPartition : c.mapCachedPartition (F.splitKey e 0) = partition) :
    Scatters c R link view F count [e] st (scatterRecord c A F superp processor partition st e) := by
  by_cases deleted : F.splitKey e 0 = tombstone
  · have same : scatterRecord c A F superp processor partition st e = st := by
      unfold scatterRecord
      rw [if_pos deleted]
    have nothing : sentAlong R link F st.bspPhase (fun v => view (st.state v)) [e] = [] := by
      have isMark : (F.src e).toNat = tombstone := (F.splitKey_zero e).symm.trans deleted
      simp [sentAlong, liveLinks, isMark]
    rw [same]
    have none_ : Scatters c R link view F count [] st st := Scatters.refl st
    exact { none_ with updatesOut := by rw [nothing, List.append_nil] }
  · have index := mapInverse_eq_self (c := c) ofSuperp ofPartition
    rw [F.splitKey_zero] at index
    constructor
    all_goals simp only [scatterRecord, if_neg deleted, FormatUtils.readEdge, index]
    · rw [follows.vertex_after, Function.update_eq_self]
    · rw [follows.generate_eq]
      congr 1
      simp only [sentAlong, liveLinks, List.filter_cons, ne_eq, deleted, not_false_eq_true,
        decide_true, if_true, List.filter_nil, List.map_cons, List.map_nil]
      cases sent : R.send st.bspPhase (view (st.state (F.src e).toNat)) (F.src e).toNat
        (link (F.dst e).toNat (F.edgeWeight e)) <;> simp [sent]
    · unfold counted
      refine Finset.sum_congr rfl fun p _ => ?_
      by_cases here : p = processor
      · simp only [here, Function.update_self, counts.generate]
      · simp only [Function.update_of_ne here]

include follows counts in
theorem scatters_scatterVisits {superp : Nat} {visits : List (Visit E)}
    (belong : ∀ v ∈ visits, ∀ e ∈ v.records, c.mapSuperPartition (F.splitKey e 0) = superp ∧
      c.mapCachedPartition (F.splitKey e 0) = v.partition) (st : SgState σ υ δ γ) :
    Scatters c R link view F count (visits.flatMap Visit.records) st
      (visits.foldl (scatterVisit c A F superp) st) := by
  have one : ∀ (processor partition : Nat) (records : List E),
      (∀ e ∈ records, c.mapSuperPartition (F.splitKey e 0) = superp ∧
        c.mapCachedPartition (F.splitKey e 0) = partition) → ∀ st : SgState σ υ δ γ,
      Scatters c R link view F count records st
        (records.foldl (scatterRecord c A F superp processor partition) st) := by
    intro processor partition records
    induction records with
    | nil => exact fun _ st => Scatters.refl st
    | cons e records ih =>
      intro ends st
      have here := ends e List.mem_cons_self
      exact (scatters_scatterRecord follows counts st here.1 here.2).trans
        (ih (fun e' member => ends e' (List.mem_cons_of_mem _ member)) _)
  induction visits generalizing st with
  | nil => exact Scatters.refl st
  | cons v visits ih =>
    rw [List.flatMap_cons, List.foldl_cons]
    exact (one v.processor v.partition v.records (belong v List.mem_cons_self) st).trans
      (ih (fun v' member => belong v' (List.mem_cons_of_mem _ member)) _)

end

/-! ## Iterating over the vertices -/

/-- What `init` of some vertices does. -/
structure Inits (c : Configuration) (A : SgAlgorithm σ υ δ γ W) (ids : List Nat)
    (st st' : SgState σ υ δ γ) : Prop where
  others : st' = { st with state := st'.state, scatterFilter := st'.scatterFilter }
  state : ∀ v, st'.state v =
    if v ∈ ids then (A.init (st.state v) v st.bspPhase).1 else st.state v
  filter_mono : ∀ p ∈ st.scatterFilter, p ∈ st'.scatterFilter
  filter : ∀ v ∈ ids, (A.init (st.state v) v st.bspPhase).2 = true →
    c.mapCachedPartition v ∈ st'.scatterFilter

theorem inits_initVertices {superp : Nat} (hs : superp < c.superPartitions)
    (st : SgState σ υ δ γ) :
    Inits c A (c.vertexIds superp) st (initVertices c A superp st) := by
  have nodup := c.nodup_vertexIds hs
  have partitions : ∀ a ∈ (List.range c.processors).flatMap (c.stateIter superp),
      a.1 < c.cachedPartitions := by
    rintro ⟨i, k⟩ visit
    simp only [List.mem_flatMap, List.mem_range, Configuration.mem_stateIter_iff] at visit
    exact visit.1
  unfold Configuration.vertexIds at nodup ⊢
  unfold initVertices
  generalize (List.range c.processors).flatMap (c.stateIter superp) = visits at nodup partitions
  induction visits generalizing st with
  | nil => exact ⟨rfl, fun v => by simp, fun p member => member, fun v none_ => by simp at none_⟩
  | cons a visits ih =>
    rw [List.map_cons, List.nodup_cons] at nodup
    rw [List.foldl_cons]
    have partition : c.mapCachedPartition (c.mapInverse superp a.1 a.2) = a.1 :=
      c.mapCachedPartition_mapInverse hs (partitions a List.mem_cons_self)
    obtain ⟨others, state, mono, filter⟩ := ih _ nodup.2 fun a' member =>
      partitions a' (List.mem_cons_of_mem _ member)
    refine ⟨others, fun v => ?_, fun p member => mono p ?_, fun v member started => ?_⟩
    · rw [state, List.map_cons]
      by_cases here : v = c.mapInverse superp a.1 a.2
      · subst here
        simp only [nodup.1, if_false, List.mem_cons_self, if_true, Function.update_self]
      · simp only [Function.update_of_ne here, List.mem_cons, here, false_or]
    · simp only
      split
      · exact mem_queue.mpr (.inr member)
      · exact member
    · rw [List.map_cons, List.mem_cons] at member
      rcases member with rfl | later
      · apply mono
        simp only [started, if_true, partition, mem_queue, true_or]
      · refine filter v later ?_
        have other : v ≠ c.mapInverse superp a.1 a.2 := fun same => nodup.1 (same ▸ later)
        simpa only [Function.update_of_ne other] using started

theorem resetVertices_eq {superp : Nat} (st : SgState σ υ δ γ) :
    resetVertices c A superp st =
      { st with state := (resetVertices c A superp st).state } := by
  unfold resetVertices
  generalize (List.range c.processors).flatMap (c.stateIter superp) = visits
  induction visits generalizing st with
  | nil => rfl
  | cons a visits ih => rw [List.foldl_cons, ih]

/-- Looking for changed records does not change what the program sees of a vertex. -/
theorem view_resetVertices (reset : ∀ s, view (A.checkResetChanged s).1 = view s) {superp : Nat}
    (st : SgState σ υ δ γ) (v : Nat) :
    view ((resetVertices c A superp st).state v) = view (st.state v) := by
  unfold resetVertices
  generalize (List.range c.processors).flatMap (c.stateIter superp) = visits
  induction visits generalizing st with
  | nil => rfl
  | cons a visits ih =>
    rw [List.foldl_cons, ih]
    simp only
    by_cases here : v = c.mapInverse superp a.1 a.2
    · rw [here, Function.update_self, reset]
    · rw [Function.update_of_ne here]

/-! ## The number of the superstep -/

/-- What every step of a fold keeps. -/
theorem foldl_keeps {α β κ : Type*} (of : α → κ) {f : α → β → α}
    (keeps : ∀ a b, of (f a b) = of a) (l : List β) (a : α) : of (l.foldl f a) = of a := by
  induction l generalizing a with
  | nil => rfl
  | cons b l ih => rw [List.foldl_cons, ih, keeps]

theorem bspPhase_prepare (superp : Nat) (st : SgState σ υ δ γ) :
    (prepare c A superp st).bspPhase = st.bspPhase := by
  unfold prepare initVertices
  split
  · refine foldl_keeps SgState.bspPhase (fun _ _ => ?_) _ st
    rfl
  · rfl

theorem bspPhase_gatherPhase (superp : Nat) (gathers : List (Visit υ)) (st : SgState σ υ δ γ) :
    (gatherPhase c A superp gathers st).bspPhase = st.bspPhase := by
  refine foldl_keeps SgState.bspPhase (fun s v => ?_) gathers st
  have records : (v.records.foldl (gatherRecord c A superp v.processor v.partition)
      (s, false)).1.bspPhase = s.bspPhase :=
    foldl_keeps (fun acc : SgState σ υ δ γ × Bool => acc.1.bspPhase) (fun acc u => by rfl) v.records
      (s, false)
  unfold gatherVisit
  simp only
  split <;> exact records

/-- Within a superstep the driver does not count. -/
theorem bspPhase_of_superpStep {scan : Scan σ υ δ γ E} {superp : Nat} {st st' : SgState σ υ δ γ}
    (step : SuperpStep c A F scan superp st st') : st'.bspPhase = st.bspPhase := by
  cases step with
  | @visit gathers scatters records fits gathered read scattered =>
  have scatter : ∀ s, (scatterPhase c A F superp scatters s).bspPhase = s.bspPhase := by
    intro s
    have visits : (scatters.foldl (scatterVisit c A F superp) s).bspPhase = s.bspPhase := by
      refine foldl_keeps SgState.bspPhase (fun s v => ?_) scatters s
      refine foldl_keeps SgState.bspPhase (fun s e => ?_) v.records s
      unfold scatterRecord
      split <;> rfl
    unfold scatterPhase
    simp only
    split
    · rw [resetVertices_eq]
      exact visits
    · exact visits
  have post : ∀ s, (postScatter c A superp s).bspPhase = s.bspPhase := by
    intro s
    unfold postScatter
    split <;> rfl
  rw [post, scatter, bspPhase_gatherPhase, bspPhase_prepare]

theorem bspPhase_of_superps {scan : Scan σ υ δ γ E} {superps : Nat} {st mid : SgState σ υ δ γ}
    (run : Superps c A F scan st superps mid) : mid.bspPhase = st.bspPhase := by
  induction run with
  | none => rfl
  | next _ step ih => exact (bspPhase_of_superpStep step).trans ih

end

end ScatterGather

end MBFGraph
