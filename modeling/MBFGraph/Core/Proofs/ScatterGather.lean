import MBFGraph.Core.Proofs.DriverPhases

/-!
# The driver runs supersteps

One pass of the driver's loop is a superstep of the vertex program, in whatever order the records
are delivered: every vertex takes the updates that are addressed to it, and every edge whose source
sends gives one update (`advances_of_superstep`). Only a state buffer that is too small can stop
the driver (`exists_superstep`, `fits_of_superstep`).
-/

namespace MBFGraph

namespace ScatterGather

variable {σ υ δ γ O E W X : Type}

section

variable {c : Configuration} {A : SgAlgorithm σ υ δ γ W} {F : FormatUtils E W} {R : Bsp.Rules Nat O υ X}
  {link : Nat → W → X} {view : σ → O} {fresh : Nat → O → Prop} {good : υ → Prop} {count : δ → Nat} {weight : O → Nat}

/-! ## One super partition -/

/-- The scan sends everything, provided that the partitions of active vertices are queued. -/
structure Complete (c : Configuration) (R : Bsp.Rules Nat O υ X) (link : Nat → W → X)
    (view : σ → O) (F : FormatUtils E W) (edges : List E) (scan : Scan σ υ δ γ E) : Prop where
  reads_some : ∀ st superp, ∃ records, scan.reads st superp records
  ofSuperp : ∀ st superp records, scan.reads st superp records →
    ∀ e ∈ records, c.mapSuperPartition (F.splitKey e 0) = superp
  sends_all : ∀ st superp records, scan.reads st superp records →
    (∀ v < c.vertices, c.mapSuperPartition v = superp →
      R.active st.bspPhase (view (st.state v)) = true → c.mapCachedPartition v ∈ st.scatterFilter) →
    (sentAlong R link F st.bspPhase (fun v => view (st.state v))
      (records.filter fun e => scan.visits st (c.mapCachedPartition (F.splitKey e 0)))).Perm
      (sentAlong R link F st.bspPhase (fun v => view (st.state v)) (edgesOf c F edges superp))

/-- The updates are good and name vertices. -/
def Inside (c : Configuration) (A : SgAlgorithm σ υ δ γ W) (good : υ → Prop) (updates : List υ) : Prop :=
  ∀ u ∈ updates, good u ∧ A.splitKey u < c.vertices

/-- A super partition has been processed, up to the reduction. -/
structure Passes (c : Configuration) (A : SgAlgorithm σ υ δ γ W) (R : Bsp.Rules Nat O υ X)
    (link : Nat → W → X) (view : σ → O) (F : FormatUtils E W) (edges : List E) (count : δ → Nat)
    (weight : O → Nat)
    (superp : Nat) (mail : List υ) (st st' : SgState σ υ δ γ) : Prop where
  bspPhase : st'.bspPhase = st.bspPhase
  state : ∀ v, view (st'.state v) = if c.mapSuperPartition v = superp
    then R.gather st.bspPhase (R.start st.bspPhase v (view (st.state v)))
      (mail.filter fun u => R.target u = v)
    else view (st.state v)
  delivered : mail.Perm (updatesOf c A superp st)
  updatesIn : st'.updatesIn =
    st.updatesIn.filter fun u => c.mapSuperPartition (A.splitKey u) ≠ superp
  sent : st'.updatesOut.Perm (st.updatesOut ++
    sentAlong R link F st.bspPhase (fun v => view (st'.state v)) (edgesOf c F edges superp))
  votes : AllVote c st'.iVoteToStop ↔ AllVote c st.iVoteToStop ∧
    ∀ v, c.mapSuperPartition v = superp →
      R.activated st.bspPhase (R.start st.bspPhase v (view (st.state v)))
        (mail.filter fun u => R.target u = v) = false
  total : st'.total = st.total
  counts : counted c count st' +
      ∑ v ∈ (Finset.range c.vertices).filter (fun v => c.mapSuperPartition v = superp),
        weight (R.start st.bspPhase v (view (st.state v))) =
    counted c count st +
      ∑ v ∈ (Finset.range c.vertices).filter (fun v => c.mapSuperPartition v = superp),
        weight (view (st'.state v))

section

variable (follows : Follows A c.vertices R link view fresh good)
  (counts : Counts A view good count weight)

include follows in
/-- Behind `prepare` the vertices of the super partition are ready for their messages. -/
theorem view_prepare {superp : Nat} (hs : superp < c.superPartitions) (st : SgState σ υ δ γ)
    (v : Nat) :
    view ((prepare c A superp st).state v) = if c.mapSuperPartition v = superp
      then R.start st.bspPhase v (view (st.state v)) else view (st.state v) := by
  unfold prepare
  split
  · rename_i needed
    rw [(inits_initVertices hs st).state]
    simp only [Configuration.mem_vertexIds_iff hs]
    by_cases inside : v < c.vertices
    · by_cases here : c.mapSuperPartition v = superp
      · simp only [inside, here, and_self, if_true, follows.init_view _ _ _ needed inside]
      · simp only [here, and_false, if_false]
    · have same := follows.start_else st.bspPhase v (view (st.state v)) fun h => inside h.2
      simp only [inside, false_and, if_false, same, ite_self]
  · rename_i notNeeded
    rw [follows.start_else st.bspPhase v (view (st.state v)) fun h => notNeeded h.1, ite_self]

theorem prepare_others {superp : Nat} (hs : superp < c.superPartitions) (st : SgState σ υ δ γ) :
    prepare c A superp st = { st with
      state := (prepare c A superp st).state
      scatterFilter := (prepare c A superp st).scatterFilter } := by
  unfold prepare
  split
  · exact (inits_initVertices hs st).others
  · rfl

include follows in
/-- A vertex that is active behind the messages is queued. -/
theorem queued_of_active {superp v : Nat} {records : List υ} {st st' : SgState σ υ δ γ}
    (hs : superp < c.superPartitions) (inside : v < c.vertices)
    (ofSuperp : c.mapSuperPartition v = superp)
    (isFresh : A.needInit st.bspPhase = false → fresh st.bspPhase (view (st.state v)))
    (gathers : Gathers c R view count weight records (prepare c A superp st) st')
    (active : R.active st.bspPhase (view (st'.state v)) = true) :
    c.mapCachedPartition v ∈ st'.scatterFilter := by
  have phase : (prepare c A superp st).bspPhase = st.bspPhase := by rw [prepare_others hs]
  have orActive : ∀ (mail : List υ) (o : O),
      R.active st.bspPhase (R.gather st.bspPhase o mail) = true →
      R.active st.bspPhase o = true ∨ R.activated st.bspPhase o mail = true := by
    intro mail
    induction mail with
    | nil => exact fun o => .inl
    | cons u mail ih =>
      intro o later
      rw [Bsp.Rules.activated, Bool.or_eq_true]
      rcases ih _ later with here | rest
      · rcases follows.apply_active _ _ _ here with before | now
        · exact .inl before
        · exact .inr (.inl now)
      · exact .inr (.inr rest)
  rw [gathers.state, phase] at active
  rcases orActive _ _ active with before | now
  · apply gathers.filter_mono
    unfold prepare at before ⊢
    split at before
    · rename_i needed
      rw [if_pos needed]
      have inits := inits_initVertices (A := A) hs st
      have member := (Configuration.mem_vertexIds_iff hs).mpr ⟨inside, ofSuperp⟩
      rw [inits.state, if_pos member] at before
      exact inits.filter v member (follows.init_active _ _ _ needed before)
    · rename_i notNeeded
      have stale := follows.fresh_active _ _ (Bool.not_eq_true _ ▸ notNeeded)
        (isFresh (Bool.not_eq_true _ ▸ notNeeded))
      rw [stale] at before
      exact absurd before Bool.false_ne_true
  · exact gathers.activated_mem v (by rw [phase]; exact now)

include follows counts in
/-- A step of a super partition, up to `postScatter`. -/
theorem passes_of_step {edges : List E} {scan : Scan σ υ δ γ E} {superp : Nat}
    {st : SgState σ υ δ γ} {gathers : List (Visit υ)} {scatters : List (Visit E)} {records : List E}
    (hs : superp < c.superPartitions) (complete : Complete c R link view F edges scan)
    (inside : Inside c A good st.updatesIn)
    (isFresh : A.needInit st.bspPhase = false → ∀ v < c.vertices,
      c.mapSuperPartition v = superp → fresh st.bspPhase (view (st.state v)))
    (gathered : Delivers c A.splitKey (fun _ => true)
      (updatesOf c A superp (prepare c A superp st)) gathers)
    (read : scan.reads (gatherPhase c A superp gathers (prepare c A superp st)) superp records)
    (scattered : Delivers c (fun e => F.splitKey e 0)
      (scan.visits (gatherPhase c A superp gathers (prepare c A superp st))) records scatters) :
    Passes c A R link view F edges count weight superp (gathers.flatMap Visit.records) st
      (scatterPhase c A F superp scatters
        (gatherPhase c A superp gathers (prepare c A superp st))) := by
  have others := prepare_others (A := A) hs st
  have prepared := view_prepare follows hs st
  have pending : updatesOf c A superp (prepare c A superp st) = updatesOf c A superp st := by
    unfold updatesOf; rw [others]
  rw [pending] at gathered
  have perm : (gathers.flatMap Visit.records).Perm (updatesOf c A superp st) := by
    have := gathered.perm
    rwa [List.filter_true] at this
  have belong : ∀ v ∈ gathers, ∀ u ∈ v.records, Belongs c A good superp v.partition u := by
    intro v visit u member
    have update := perm.subset (List.mem_flatMap.mpr ⟨v, visit, member⟩)
    have split := List.mem_filter.mp update
    have known := inside u split.1
    exact ⟨known.1, known.2, of_decide_eq_true split.2, gathered.partition_eq v visit u member⟩
  have gather := gathers_gatherVisits follows.toFollowsUpdates counts gathered.processor_lt belong
    (prepare c A superp st)
  generalize isPrepared : prepare c A superp st = p at *
  have phase : p.bspPhase = st.bspPhase := by rw [others]
  have inP : p.updatesIn = st.updatesIn := by rw [others]
  have outP : p.updatesOut = st.updatesOut := by rw [others]
  have voteP : p.iVoteToStop = st.iVoteToStop := by rw [others]
  have algoP : p.algoPcpu = st.algoPcpu := by rw [others]
  have totalP : p.total = st.total := by rw [others]
  -- the scatter phase sees the vertices behind their messages
  have edgesBelong : ∀ v ∈ scatters, ∀ e ∈ v.records,
      c.mapSuperPartition (F.splitKey e 0) = superp ∧
        c.mapCachedPartition (F.splitKey e 0) = v.partition := by
    intro v visit e member
    have delivered := scattered.perm.subset (List.mem_flatMap.mpr ⟨v, visit, member⟩)
    exact ⟨complete.ofSuperp _ _ _ read e (List.mem_filter.mp delivered).1,
      scattered.partition_eq v visit e member⟩
  have scatter := scatters_scatterVisits follows counts edgesBelong
    (gatherPhase c A superp gathers p)
  have queued : ∀ v < c.vertices, c.mapSuperPartition v = superp →
      R.active (gatherPhase c A superp gathers p).bspPhase
        (view ((gatherPhase c A superp gathers p).state v)) = true →
      c.mapCachedPartition v ∈ (gatherPhase c A superp gathers p).scatterFilter := by
    intro v known ofSuperp active
    subst isPrepared
    have gatherActive : R.active st.bspPhase
        (view ((gathers.foldl (gatherVisit c A superp) (prepare c A superp st)).state v)) = true := by
      rw [← phase, ← gather.bspPhase]
      exact active
    have member := queued_of_active follows hs known ofSuperp (fun h => isFresh h v known ofSuperp)
      gather gatherActive
    exact member
  have out := (sentAlong_perm scattered.perm).trans (complete.sends_all _ _ _ read queued)
  have reset : scatterPhase c A F superp scatters (gatherPhase c A superp gathers p) =
      { scatters.foldl (scatterVisit c A F superp) (gatherPhase c A superp gathers p) with
        state := (scatterPhase c A F superp scatters (gatherPhase c A superp gathers p)).state } := by
    unfold scatterPhase
    simp only
    split
    · exact resetVertices_eq _
    · rfl
  have viewOf : ∀ v, view ((scatterPhase c A F superp scatters
      (gatherPhase c A superp gathers p)).state v) =
        view ((gathers.foldl (gatherVisit c A superp) p).state v) := by
    intro v
    unfold scatterPhase
    simp only
    split
    · rw [view_resetVertices follows.reset_view, scatter.state]
      rfl
    · rw [scatter.state]
      rfl
  have noMail : ∀ v, c.mapSuperPartition v ≠ superp →
      ((gathers.flatMap Visit.records).filter fun u => R.target u = v) = [] := by
    intro v elsewhere
    rw [List.filter_eq_nil_iff]
    intro u member target
    have update := List.mem_filter.mp (perm.subset member)
    rw [decide_eq_true_eq, follows.target] at target
    exact elsewhere (target ▸ of_decide_eq_true update.2)
  generalize scatterPhase c A F superp scatters (gatherPhase c A superp gathers p) = done at *
  generalize scatters.foldl (scatterVisit c A F superp) (gatherPhase c A superp gathers p) = s at *
  rw [reset]
  have sPhase : s.bspPhase = st.bspPhase := by
    rw [scatter.bspPhase]; exact gather.bspPhase.trans phase
  have mPhase : (gatherPhase c A superp gathers p).bspPhase = st.bspPhase :=
    gather.bspPhase.trans phase
  rw [mPhase] at out
  have viewDone : ∀ v, view (done.state v) = if c.mapSuperPartition v = superp
      then R.gather st.bspPhase (R.start st.bspPhase v (view (st.state v)))
        ((gathers.flatMap Visit.records).filter fun u => R.target u = v)
      else view (st.state v) := by
    intro v
    rw [viewOf, gather.state, phase, prepared]
    split
    · rfl
    · rename_i elsewhere
      rw [noMail v elsewhere, Bsp.Rules.gather_nil]
  constructor
  · exact sPhase
  · exact viewDone
  · exact perm
  · rw [scatter.updatesIn]
    unfold gatherPhase
    simp only
    rw [gather.updatesIn, inP]
  · have before : (gatherPhase c A superp gathers p).updatesOut = st.updatesOut :=
      gather.updatesOut.trans outP
    rw [scatter.updatesOut, before, mPhase]
    simp only [viewOf]
    exact List.Perm.append_left _ out
  · rw [scatter.iVoteToStop]
    have votes := gather.votes
    rw [voteP] at votes
    refine votes.trans (and_congr_right fun _ => forall_congr' fun v => ?_)
    rw [prepared, phase]
    by_cases here : c.mapSuperPartition v = superp
    · simp only [here, if_true, true_implies]
    · simp only [noMail v here, Bsp.Rules.activated, here, false_implies]
  · rw [scatter.total]
    exact gather.total.trans totalP
  · have countOf : counted c count { s with state := done.state } =
        counted c count (gathers.foldl (gatherVisit c A superp) p) := scatter.counts
    have countP : counted c count p = counted c count st := by unfold counted; rw [algoP]
    have all := gather.counts
    rw [countP, ← countOf] at all
    unfold weighed at all
    have local_ := sum_filter_of_eq_outside (fun v => c.mapSuperPartition v = superp)
      (fun v _ elsewhere => by rw [← viewOf, viewDone, prepared, if_neg elsewhere, if_neg elsewhere])
      all
    convert local_ using 2
    · refine Finset.sum_congr rfl fun v member => ?_
      rw [prepared, if_pos (Finset.mem_filter.mp member).2]
    · refine Finset.sum_congr rfl fun v _ => ?_
      rw [viewOf]

end

/-! ## A superstep -/

/-- The first super partitions have been processed. `algo` is the data of the processors in front
of the reduction, if it has taken place. -/
structure Ran (c : Configuration) (A : SgAlgorithm σ υ δ γ W) (R : Bsp.Rules Nat O υ X)
    (link : Nat → W → X) (view : σ → O)
    (F : FormatUtils E W) (edges : List E) (count : δ → Nat) (weight : O → Nat) (superps : Nat)
    (mail : Nat → List υ) (algo : Nat → δ) (st st' : SgState σ υ δ γ) : Prop where
  bspPhase : st'.bspPhase = st.bspPhase
  state : ∀ v, view (st'.state v) = if c.mapSuperPartition v < superps
    then R.gather st.bspPhase (R.start st.bspPhase v (view (st.state v))) (mail v)
    else view (st.state v)
  delivered : ∀ v, c.mapSuperPartition v < superps →
    (mail v).Perm (st.updatesIn.filter fun u => R.target u = v)
  updatesIn : st'.updatesIn =
    st.updatesIn.filter fun u => superps ≤ c.mapSuperPartition (A.splitKey u)
  sent : st'.updatesOut.Perm (sentAlong R link F st.bspPhase (fun v => view (st'.state v))
    (edges.filter fun e => c.mapSuperPartition (F.splitKey e 0) < superps))
  votes : AllVote c st'.iVoteToStop ↔ ∀ v, c.mapSuperPartition v < superps →
    R.activated st.bspPhase (R.start st.bspPhase v (view (st.state v))) (mail v) = false
  reduced : if superps = c.superPartitions
    then (st'.total, st'.algoPcpu, st'.globalStop) = A.reduce st.total algo c.processors
    else st'.total = st.total ∧ st'.algoPcpu = algo
  counts : ∑ p ∈ Finset.range c.processors, count (algo p) +
      ∑ v ∈ (Finset.range c.vertices).filter (fun v => c.mapSuperPartition v < superps),
        weight (R.start st.bspPhase v (view (st.state v))) =
    counted c count st +
      ∑ v ∈ (Finset.range c.vertices).filter (fun v => c.mapSuperPartition v < superps),
        weight (view (st'.state v))

/-- What holds of the driver in front of a superstep. -/
structure Ready (c : Configuration) (A : SgAlgorithm σ υ δ γ W) (view : σ → O)
    (fresh : Nat → O → Prop) (good : υ → Prop) (st : SgState σ υ δ γ) : Prop where
  updatesOut : st.updatesOut = []
  inside : Inside c A good st.updatesIn
  fresh : A.needInit st.bspPhase = false → ∀ v < c.vertices, fresh st.bspPhase (view (st.state v))

section

variable (follows : Follows A c.vertices R link view fresh good)
  (counts : Counts A view good count weight)
  {edges : List E} {scan : Scan σ υ δ γ E}

/-- Sending looks at the sources only. -/
theorem sentAlong_congr {k : Nat} {state state' : Nat → O} {edges : List E}
    (same : ∀ e ∈ edges, state (F.src e).toNat = state' (F.src e).toNat) :
    sentAlong R link F k state edges = sentAlong R link F k state' edges := by
  unfold sentAlong liveLinks
  rw [List.filterMap_map, List.filterMap_map]
  refine List.filterMap_congr fun e member => ?_
  simp only [Function.comp_apply, same e (List.mem_filter.mp member).1]

/-- A sum over one more super partition. -/
theorem sum_filter_lt_succ (m : Mapping) (f : Nat → Nat) (n i : Nat) :
    ∑ v ∈ (Finset.range n).filter (fun v => m.mapSuperPartition v < i + 1), f v =
      ∑ v ∈ (Finset.range n).filter (fun v => m.mapSuperPartition v < i), f v +
        ∑ v ∈ (Finset.range n).filter (fun v => m.mapSuperPartition v = i), f v := by
  rw [← Finset.sum_union]
  · congr 1
    ext v
    simp only [Finset.mem_filter, Finset.mem_union, ← and_or_left, Nat.lt_succ_iff_lt_or_eq]
  · rw [Finset.disjoint_filter]
    intro v _ less equal
    omega

/-- The edges of one more super partition. -/
theorem perm_filter_lt_succ (f : E → Nat) (edges : List E) (i : Nat) :
    ((edges.filter fun e => f e < i) ++ edges.filter fun e => f e = i).Perm
      (edges.filter fun e => f e < i + 1) := by
  have split := List.filter_append_perm (fun e => decide (f e < i))
    (edges.filter fun e => f e < i + 1)
  rw [List.filter_filter, List.filter_filter] at split
  refine List.Perm.trans (List.Perm.of_eq ?_) split
  congr 1
  · refine List.filter_congr fun e _ => ?_
    rw [Bool.eq_iff_iff]
    simp only [Bool.and_eq_true, decide_eq_true_eq]
    omega
  · refine List.filter_congr fun e _ => ?_
    rw [Bool.eq_iff_iff]
    simp only [Bool.and_eq_true, Bool.not_eq_true', decide_eq_true_eq, decide_eq_false_iff_not]
    omega

include follows counts in
theorem ran_of_superps (complete : Complete c R link view F edges scan) {st after : SgState σ υ δ γ}
    (ready : Ready c A view fresh good st) {superps : Nat}
    (superps_le : superps ≤ c.superPartitions)
    (run : Superps c A F scan st superps after) :
    ∃ mail algo, Ran c A R link view F edges count weight superps mail algo st after := by
  induction run with
  | none =>
    refine ⟨fun _ => [], st.algoPcpu, ?_⟩
    have positive := c.superPartitions_pos
    constructor
    · rfl
    · intro v; rw [if_neg (Nat.not_lt_zero _)]; rfl
    · intro v none_; exact absurd none_ (Nat.not_lt_zero _)
    · simp [beginSuperphase]
    · simp [beginSuperphase, ready.updatesOut, sentAlong, liveLinks]
    · simp [beginSuperphase, AllVote]
    · rw [if_neg (by omega)]
      exact ⟨rfl, rfl⟩
    · simp [counted]
  | @next superp before after others step ih =>
    obtain ⟨mail, algo, ran⟩ := ih (by omega)
    cases step with
    | @visit gathers scatters records fits gathered read scattered =>
    have phase := ran.bspPhase
    have unseen : ∀ v, superp ≤ c.mapSuperPartition v →
        view (before.state v) = view (st.state v) := by
      intro v later
      rw [ran.state, if_neg (by omega)]
    have pass := passes_of_step follows counts (by omega) complete
      (fun u member => ready.inside u (List.mem_of_mem_filter (ran.updatesIn ▸ member)))
      (fun needed v known ofSuperp => by
        rw [unseen v (by omega), phase]
        exact ready.fresh (phase ▸ needed) v known) gathered read scattered
    generalize scatterPhase c A F superp scatters
      (gatherPhase c A superp gathers (prepare c A superp before)) = mid at pass
    generalize gathers.flatMap Visit.records = taken at pass
    refine ⟨fun v => if c.mapSuperPartition v = superp then taken.filter fun u => R.target u = v
      else mail v, mid.algoPcpu, ?_⟩
    have post : postScatter c A superp mid = { mid with
        scatterFilter := []
        total := (postScatter c A superp mid).total
        algoPcpu := (postScatter c A superp mid).algoPcpu
        globalStop := (postScatter c A superp mid).globalStop } := by
      unfold postScatter
      split <;> rfl
    have notAll : ¬ superp = c.superPartitions := by omega
    have unreduced := ran.reduced
    rw [if_neg notAll] at unreduced
    obtain ⟨sameTotal, sameAlgo⟩ := unreduced
    have stateOf : ∀ v, view (mid.state v) = if c.mapSuperPartition v < superp + 1
        then R.gather st.bspPhase (R.start st.bspPhase v (view (st.state v)))
          (if c.mapSuperPartition v = superp then taken.filter fun u => R.target u = v
            else mail v)
        else view (st.state v) := by
      intro v
      rw [pass.state, phase]
      rcases Nat.lt_trichotomy (c.mapSuperPartition v) superp with less | equal | more
      · rw [if_neg (by omega), if_pos (by omega), if_neg (by omega), ran.state, if_pos less]
      · rw [if_pos equal, if_pos (by omega), if_pos equal, unseen v (by omega)]
      · rw [if_neg (by omega), if_neg (by omega), unseen v (by omega)]
    constructor
    · rw [post]
      exact pass.bspPhase.trans phase
    · intro v
      rw [post]
      exact stateOf v
    · intro v below
      by_cases here : c.mapSuperPartition v = superp
      · rw [if_pos here]
        refine (pass.delivered.filter _).trans ?_
        unfold updatesOf
        rw [ran.updatesIn, List.filter_filter, List.filter_filter]
        refine List.Perm.of_eq (List.filter_congr fun u _ => ?_)
        by_cases target : R.target u = v
        · have key : c.mapSuperPartition (A.splitKey u) = superp := by
            rw [← follows.target, target, here]
          simp [target, key]
        · simp [target]
      · rw [if_neg here]
        exact ran.delivered v (by omega)
    · rw [post]
      simp only
      rw [pass.updatesIn, ran.updatesIn, List.filter_filter]
      refine List.filter_congr fun u _ => ?_
      rw [Bool.eq_iff_iff]
      simp only [Bool.and_eq_true, decide_eq_true_eq]
      omega
    · rw [post]
      simp only
      refine pass.sent.trans ?_
      rw [phase]
      refine ((ran.sent.append_right _).trans ?_)
      have earlier : sentAlong R link F st.bspPhase (fun v => view (before.state v))
          (edges.filter fun e => c.mapSuperPartition (F.splitKey e 0) < superp) =
          sentAlong R link F st.bspPhase (fun v => view (mid.state v))
          (edges.filter fun e => c.mapSuperPartition (F.splitKey e 0) < superp) := by
        refine sentAlong_congr fun e member => ?_
        have less := of_decide_eq_true (List.mem_filter.mp member).2
        rw [F.splitKey_zero] at less
        rw [pass.state, if_neg (by omega)]
      rw [earlier, ← sentAlong_append]
      exact sentAlong_perm (perm_filter_lt_succ _ edges superp)
    · rw [post]
      simp only
      rw [pass.votes, ran.votes, phase]
      constructor
      · rintro ⟨early, now⟩ v below
        by_cases here : c.mapSuperPartition v = superp
        · rw [if_pos here, ← unseen v (by omega)]
          exact now v here
        · rw [if_neg here]
          exact early v (by omega)
      · intro all
        refine ⟨fun v less => ?_, fun v here => ?_⟩
        · have := all v (by omega)
          rwa [if_neg (by omega)] at this
        · have := all v (by omega)
          rwa [if_pos here, ← unseen v (by omega)] at this
    · by_cases last : superp + 1 = c.superPartitions
      · rw [if_pos last]
        unfold postScatter
        rw [if_pos (by omega), pass.total, sameTotal]
      · rw [if_neg last]
        unfold postScatter
        rw [if_neg (by omega)]
        exact ⟨pass.total.trans sameTotal, rfl⟩
    · rw [post]
      simp only
      rw [sum_filter_lt_succ, sum_filter_lt_succ]
      have now := pass.counts
      have earlier := ran.counts
      have starts : ∑ v ∈ (Finset.range c.vertices).filter (fun v => c.mapSuperPartition v = superp),
          weight (R.start before.bspPhase v (view (before.state v))) =
          ∑ v ∈ (Finset.range c.vertices).filter (fun v => c.mapSuperPartition v = superp),
          weight (R.start st.bspPhase v (view (st.state v))) := by
        refine Finset.sum_congr rfl fun v member => ?_
        rw [phase, unseen v (by have := (Finset.mem_filter.mp member).2; omega)]
      have stays : ∑ v ∈ (Finset.range c.vertices).filter (fun v => c.mapSuperPartition v < superp),
          weight (view (before.state v)) =
          ∑ v ∈ (Finset.range c.vertices).filter (fun v => c.mapSuperPartition v < superp),
          weight (view (mid.state v)) := by
        refine Finset.sum_congr rfl fun v member => ?_
        rw [pass.state, if_neg (by have := (Finset.mem_filter.mp member).2; omega)]
      rw [starts] at now
      rw [stays, ← sameAlgo] at earlier
      unfold counted at now earlier ⊢
      omega

/-- A superstep of the driver is a superstep of the vertex program. -/
structure Advances (c : Configuration) (A : SgAlgorithm σ υ δ γ W) (R : Bsp.Rules Nat O υ X)
    (link : Nat → W → X) (view : σ → O) (F : FormatUtils E W) (edges : List E) (count : δ → Nat)
    (weight : O → Nat)
    (mail : Nat → List υ) (algo : Nat → δ) (st st' : SgState σ υ δ γ) : Prop where
  bspPhase : st'.bspPhase = st.bspPhase + 1
  superstep : Bsp.Superstep R (liveLinks link F edges) st.bspPhase mail (fun v => view (st.state v))
    st.updatesIn (fun v => view (st'.state v)) st'.updatesIn (AllVote c st'.iVoteToStop)
  reduced : (st'.total, st'.algoPcpu, st'.globalStop) = A.reduce st.total algo c.processors
  counts : ∑ p ∈ Finset.range c.processors, count (algo p) +
      ∑ v ∈ Finset.range c.vertices, weight (R.start st.bspPhase v (view (st.state v))) =
    counted c count st + ∑ v ∈ Finset.range c.vertices, weight (view (st'.state v))

include follows counts in
theorem advances_of_superstep (complete : Complete c R link view F edges scan)
    (targets : ∀ e ∈ edges, (F.dst e).toNat < c.vertices) {st st' : SgState σ υ δ γ}
    (stays : ∀ o, fresh st.bspPhase o → fresh (st.bspPhase + 1) o)
    (ready : Ready c A view fresh good st) (step : Superstep c A F scan st st') :
    Ready c A view fresh good st' ∧
      ∃ mail algo, Advances c A R link view F edges count weight mail algo st st' := by
  cases step with
  | @done after run =>
  obtain ⟨mail, algo, ran⟩ := ran_of_superps follows counts complete ready (Nat.le_refl _) run
  have all : ∀ v, c.mapSuperPartition v < c.superPartitions := c.mapSuperPartition_lt
  have everything : (edges.filter fun e => c.mapSuperPartition (F.splitKey e 0) <
      c.superPartitions) = edges := List.filter_eq_self.mpr fun e _ => by simp [all]
  have whole : (Finset.range c.vertices).filter
      (fun v => c.mapSuperPartition v < c.superPartitions) = Finset.range c.vertices :=
    Finset.filter_true_of_mem fun v _ => all v
  have sent := ran.sent
  rw [everything] at sent
  have state : ∀ v, view (after.state v) =
      R.gather st.bspPhase (R.start st.bspPhase v (view (st.state v))) (mail v) := by
    intro v
    rw [ran.state, if_pos (all v)]
  constructor
  · constructor
    · change after.updatesIn = []
      rw [ran.updatesIn, List.filter_eq_nil_iff]
      intro u _
      simp [all]
    · intro u member
      obtain ⟨e, edge, sends⟩ := List.mem_filterMap.mp (sent.subset member)
      obtain ⟨e', edge', rfl⟩ := List.mem_map.mp edge
      have notMark := of_decide_eq_true (List.mem_filter.mp edge').2
      rw [F.splitKey_zero] at notMark
      refine ⟨follows.send_good _ _ _ _ _ (F.src e').isLt notMark sends, ?_⟩
      rw [← follows.target, follows.send_target _ _ _ _ _ _ (F.dst e').isLt sends]
      exact targets e' (List.mem_of_mem_filter edge')
    · intro _ v known
      change fresh (after.bspPhase + 1) (view (after.state v))
      rw [ran.bspPhase, state]
      refine Bsp.Rules.gather_induction (fun s m => follows.fresh_apply _ s m) ?_ _
      cases needed : A.needInit st.bspPhase with
      | true => exact follows.fresh_start _ _ _ needed known
      | false =>
        rw [follows.start_else _ _ _ fun h => by simp [needed] at h]
        exact stays _ (ready.fresh needed v known)
  · refine ⟨mail, algo, ?_, ⟨fun v => ran.delivered v (all v), state, sent, ?_⟩, ?_, ?_⟩
    · change after.bspPhase + 1 = st.bspPhase + 1
      rw [ran.bspPhase]
    · exact ran.votes.trans (forall_congr' fun v => by simp only [all, true_implies])
    · have reduced := ran.reduced
      rw [if_pos rfl] at reduced
      exact reduced
    · have := ran.counts
      rw [whole] at this
      exact this

/-! ## A superstep can be made -/

/-- Each record in a visit of its own. -/
theorem exists_delivers (c : Configuration) {ρ : Type} (key : ρ → Nat) (visited : Nat → Bool)
    (records : List ρ) : ∃ visits, Delivers c key visited records visits := by
  refine ⟨(records.filter fun r => visited (c.mapCachedPartition (key r))).map
    fun r => ⟨0, c.mapCachedPartition (key r), [r]⟩, ?_, ?_, ?_⟩
  · intro v visit
    obtain ⟨r, _, rfl⟩ := List.mem_map.mp visit
    exact c.processors_pos
  · intro v visit r member
    obtain ⟨r', _, rfl⟩ := List.mem_map.mp visit
    rw [List.mem_singleton.mp member]
  · rw [List.flatMap_map]
    simp only [List.flatMap_singleton']
    exact List.Perm.refl _

theorem exists_superps (reads : ∀ st superp, ∃ records, scan.reads st superp records)
    (fits : ∀ superp < c.superPartitions, c.StateFits A.vertexStateBytes superp)
    (st : SgState σ υ δ γ) {superps : Nat} (superps_le : superps ≤ c.superPartitions) :
    ∃ after, Superps c A F scan st superps after := by
  induction superps with
  | zero => exact ⟨_, .none⟩
  | succ superp ih =>
    obtain ⟨before, others⟩ := ih (by omega)
    obtain ⟨gathers, gathered⟩ := exists_delivers c A.splitKey (fun _ => true)
      (updatesOf c A superp (prepare c A superp before))
    obtain ⟨records, read⟩ := reads
      (gatherPhase c A superp gathers (prepare c A superp before)) superp
    obtain ⟨scatters, scattered⟩ := exists_delivers c (fun e => F.splitKey e 0)
      (scan.visits (gatherPhase c A superp gathers (prepare c A superp before))) records
    exact ⟨_, .next others (.visit (fits superp (by omega)) gathered read scattered)⟩

/-- If the vertex records fit in the state buffer, the driver is never stuck. -/
theorem exists_superstep (reads : ∀ st superp, ∃ records, scan.reads st superp records)
    (fits : ∀ superp < c.superPartitions, c.StateFits A.vertexStateBytes superp)
    (st : SgState σ υ δ γ) : ∃ st', Superstep c A F scan st st' := by
  obtain ⟨after, run⟩ := exists_superps (F := F) reads fits st (Nat.le_refl _)
  exact ⟨_, .done run⟩

/-- And otherwise it is stuck in the first superstep. -/
theorem fits_of_superstep {st st' : SgState σ υ δ γ} (step : Superstep c A F scan st st') :
    ∀ superp < c.superPartitions, c.StateFits A.vertexStateBytes superp := by
  have each : ∀ {superps after}, Superps c A F scan st superps after →
      ∀ superp < superps, c.StateFits A.vertexStateBytes superp := by
    intro superps after run
    induction run with
    | none => exact fun superp none_ => absurd none_ (Nat.not_lt_zero _)
    | next _ step ih =>
      intro superp below
      rcases Nat.lt_succ_iff_lt_or_eq.mp below with less | rfl
      · exact ih superp less
      · cases step with
        | visit fits _ _ _ => exact fits
  cases step with
  | done run => exact each run

/-- Edges whose source sends nothing can be left out. -/
theorem sentAlong_filter {k : Nat} {state : Nat → O} {edges : List E} {p : E → Bool}
    (silent : ∀ e ∈ edges, p e = false →
      R.send k (state (F.src e).toNat) (F.src e).toNat
        (link (F.dst e).toNat (F.edgeWeight e)) = none) :
    sentAlong R link F k state (edges.filter p) = sentAlong R link F k state edges := by
  induction edges with
  | nil => rfl
  | cons e edges ih =>
    have rest := ih fun e' member => silent e' (List.mem_cons_of_mem _ member)
    have split : ∀ es : List E, sentAlong R link F k state (e :: es) =
        sentAlong R link F k state [e] ++ sentAlong R link F k state es := fun es =>
      sentAlong_append k state [e] es
    rw [List.filter_cons]
    cases keeps : p e with
    | true => rw [if_pos rfl, split, split edges, rest]
    | false =>
      have nothing := silent e List.mem_cons_self keeps
      rw [if_neg Bool.false_ne_true, rest, split edges]
      have quiet : sentAlong R link F k state [e] = [] := by
        unfold sentAlong liveLinks
        rw [List.filter_singleton]
        cases decide (F.splitKey e 0 ≠ tombstone) <;> simp [nothing]
      rw [quiet, List.nil_append]

include follows in
/-- Reading all edges sends everything. -/
theorem complete_scanAll (sources : ∀ e ∈ edges, (F.src e).toNat < c.vertices) :
    Complete c R link view F edges (scanAll c F edges : Scan σ υ δ γ E) where
  reads_some st superp := ⟨_, rfl⟩
  ofSuperp st superp records read e member := by
    rw [show records = edgesOf c F edges superp from read] at member
    exact of_decide_eq_true (List.mem_filter.mp member).2
  sends_all st superp records read queued := by
    rw [show records = edgesOf c F edges superp from read]
    refine List.Perm.of_eq (sentAlong_filter fun e member unqueued => ?_)
    have ofSuperp := of_decide_eq_true (List.mem_filter.mp member).2
    apply follows.send_active
    have notQueued : c.mapCachedPartition (F.splitKey e 0) ∉ st.scatterFilter :=
      of_decide_eq_false unqueued
    rw [F.splitKey_zero] at notQueued ofSuperp
    rw [← Bool.not_eq_true]
    exact fun active => notQueued
      (queued _ (sources e (List.mem_of_mem_filter member)) ofSuperp active)

theorem liveEdges_eq {F : FormatUtils E} (unmarked : ∀ e ∈ edgeEnds F edges, e.1 ≠ tombstone) :
    liveEdges F edges = edgeEnds F edges := by
  unfold liveEdges edgeEnds
  rw [List.filter_eq_self.mpr]
  intro e member
  have := unmarked _ (List.mem_map.mpr ⟨e, member, rfl⟩)
  simpa using this

end

end

end ScatterGather

end MBFGraph
