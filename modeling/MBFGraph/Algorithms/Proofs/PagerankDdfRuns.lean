import MBFGraph.Algorithms.Proofs.PagerankDdfWhole

/-!
# Runs of pagerank_ddf

In front of a scatter phase no vertex is half pushed (`Gathered`), and every vertex that has to push
is queued: a vertex gets above the threshold by an update, which then activates it. So the phase
reads all edges of the vertices that push, whichever other pages it leaves out.
-/

namespace MBFGraph

open ScatterGather

namespace PagerankDdf

variable {E : Type} {F : FormatUtils E} {edges : List E} {c : Configuration} {niters : Nat}

/-! ## Taking updates -/

/-- `pagerank_ddf` as rules. Its edges are not part of them, since `generate_update` changes the
source. -/
def rules (niters : Nat) : Bsp.Rules Nat Vertex Update Nat where
  start _ _ o := o
  apply k o u := (applyOneUpdate niters o u k).1
  activates k o u := (applyOneUpdate niters o u k).2
  active _ _ := false
  send _ _ _ _ := none
  target u := u.target.toNat

theorem follows (niters : Nat) :
    FollowsUpdates (pagerankDdf niters) (rules niters) (fun o => o) where
  target _ := rfl
  apply_view _ _ _ _ := rfl
  apply_activates _ _ _ _ := rfl

theorem applyOneUpdate_state (o : Vertex) (u : Update) (k : Nat) :
    (applyOneUpdate niters o u k).1 =
      { o with delta := o.delta + 17 / 20 * u.rank, changed := true } := by
  unfold applyOneUpdate
  simp only
  split
  · rfl
  · split <;> rfl

/-- Before superstep `niters` an update activates every vertex that it leaves above the threshold. -/
theorem activates_of_aboveThreshold {o : Vertex} {u : Update} {k : Nat} (early : k ≠ niters)
    (above : aboveThreshold (applyOneUpdate niters o u k).1 = true) :
    (applyOneUpdate niters o u k).2 = true := by
  rw [applyOneUpdate_state] at above
  unfold applyOneUpdate
  simp only
  rw [if_neg early, if_pos above]

theorem gather_updatesPushed (k : Nat) (o : Vertex) (mail : List Update) :
    ((rules niters).gather k o mail).updatesPushed = o.updatesPushed := by
  refine Bsp.Rules.gather_induction (P := fun s : Vertex => s.updatesPushed = o.updatesPushed)
    (fun s u same => ?_) rfl mail
  exact (congrArg Vertex.updatesPushed (applyOneUpdate_state s u k)).trans same

theorem gather_degree (k : Nat) (o : Vertex) (mail : List Update) :
    ((rules niters).gather k o mail).degree = o.degree := by
  refine Bsp.Rules.gather_induction (P := fun s : Vertex => s.degree = o.degree)
    (fun s u same => ?_) rfl mail
  exact (congrArg Vertex.degree (applyOneUpdate_state s u k)).trans same

/-- A vertex that gets above the threshold is activated. -/
theorem activated_of_checkBsp {k : Nat} (early : k ≠ niters) {o : Vertex} {mail : List Update}
    (before : checkBsp o = false) (after : checkBsp ((rules niters).gather k o mail) = true) :
    (rules niters).activated k o mail = true := by
  induction mail generalizing o with
  | nil => exact absurd (before.symm.trans after) Bool.false_ne_true
  | cons u mail ih =>
    rw [Bsp.Rules.activated, Bool.or_eq_true]
    cases now : checkBsp ((rules niters).apply k o u) with
    | false => exact .inr (ih now after)
    | true =>
      unfold checkBsp at now
      rw [Bool.and_eq_true] at now
      exact .inl (activates_of_aboveThreshold early now.2)

/-! ## Which edges are read -/

/-- Superstep 0 reads all edges. A later superstep reads some pages of the edge file, at least those
with an edge whose source passes `check_bsp`. The partitions in `scatter_filter` are visited. -/
def pageScan (c : Configuration) (F : FormatUtils E) (edges : List E) :
    Scan Vertex Update Unit Unit E where
  reads st superp records :=
    if st.bspPhase = 0 then records = edgesOf c F edges superp
    else ∃ pages : List (Bool × List E), pages.flatMap Prod.snd = edgesOf c F edges superp ∧
      (∀ page ∈ pages, page.1 = false →
        ∀ e ∈ page.2, checkBsp (st.state (F.src e).toNat) = false) ∧
      records = (pages.filter Prod.fst).flatMap Prod.snd
  visits st partition := decide (partition ∈ st.scatterFilter)

/-- Reading all edges is always possible. -/
theorem reads_edgesOf (st : SgState Vertex Update Unit Unit) (superp : Nat) :
    (pageScan c F edges).reads st superp (edgesOf c F edges superp) := by
  unfold pageScan
  by_cases first : st.bspPhase = 0
  · simp only [first, if_true]
  · simp only [first, if_false]
    exact ⟨[(true, edgesOf c F edges superp)], by simp, by simp, by simp⟩

/-- A vertex of the super partition that has to push. -/
def Pushes (c : Configuration) (superp : Nat) (st : SgState Vertex Update Unit Unit) (v : Nat) :
    Prop :=
  v < c.vertices ∧ c.mapSuperPartition v = superp ∧ checkBsp (st.state v) = true ∧
    c.mapCachedPartition v ∈ st.scatterFilter

instance (superp : Nat) (st : SgState Vertex Update Unit Unit) (v : Nat) :
    Decidable (Pushes c superp st v) := inferInstanceAs (Decidable (_ ∧ _ ∧ _ ∧ _))

/-- Pages that are left out have no edges of the kind. -/
theorem filter_pages {pages : List (Bool × List E)} {q : E → Bool}
    (left : ∀ page ∈ pages, page.1 = false → ∀ e ∈ page.2, q e = false) :
    ((pages.filter Prod.fst).flatMap Prod.snd).filter q =
      (pages.flatMap Prod.snd).filter q := by
  induction pages with
  | nil => rfl
  | cons page pages ih =>
    have rest := ih fun page' member => left page' (List.mem_cons_of_mem _ member)
    obtain ⟨chosen, es⟩ := page
    rw [List.flatMap_cons, List.filter_append, ← rest]
    cases chosen with
    | true => rw [List.filter_cons, if_pos rfl, List.flatMap_cons, List.filter_append]
    | false =>
      have none_ : es.filter q = [] := List.filter_eq_nil_iff.mpr fun e member => by
        rw [left _ List.mem_cons_self rfl e member]
        exact Bool.false_ne_true
      rw [List.filter_cons, if_neg Bool.false_ne_true, none_, List.nil_append]

/-- What the phase must read is delivered: the edges of queued partitions, in a later superstep if
their source passes `check_bsp`. -/
theorem perm_delivered {superp : Nat} {st : SgState Vertex Update Unit Unit} {records : List E}
    {scatters : List (Visit E)} (read : (pageScan c F edges).reads st superp records)
    (scattered : Delivers c (fun e => F.splitKey e 0) ((pageScan c F edges).visits st) records
      scatters) {q : E → Bool}
    (wanted : ∀ e, q e = true → c.mapSuperPartition (F.src e).toNat = superp ∧
      (st.bspPhase ≠ 0 → checkBsp (st.state (F.src e).toNat) = true) ∧
      c.mapCachedPartition (F.src e).toNat ∈ st.scatterFilter) :
    ((scatters.flatMap Visit.records).filter q).Perm (edges.filter q) := by
  have visited : (records.filter fun e => (pageScan c F edges).visits st
      (c.mapCachedPartition (F.splitKey e 0))).filter q = records.filter q := by
    rw [List.filter_filter]
    refine List.filter_congr fun e _ => ?_
    cases has : q e with
    | false => rfl
    | true =>
      rw [Bool.true_and, F.splitKey_zero]
      exact decide_eq_true (wanted e has).2.2
  have ofSuperp : (edgesOf c F edges superp).filter q = edges.filter q := by
    unfold edgesOf
    rw [List.filter_filter]
    refine List.filter_congr fun e _ => ?_
    cases has : q e with
    | false => rfl
    | true =>
      rw [Bool.true_and, F.splitKey_zero]
      exact decide_eq_true (wanted e has).1
  refine (scattered.perm.filter q).trans (List.Perm.of_eq ?_)
  rw [visited, ← ofSuperp]
  unfold pageScan at read
  simp only at read
  split at read
  · rw [read]
  · rename_i late
    obtain ⟨pages, whole, left, rfl⟩ := read
    rw [← whole]
    refine filter_pages fun page member unread e inPage => ?_
    rw [← Bool.not_eq_true]
    intro has
    have passes := (wanted e has).2.1 late
    rw [left page member unread e inPage] at passes
    exact Bool.false_ne_true passes

/-- All edges of the vertices that push are delivered. -/
theorem perm_of_pushes {superp : Nat} {st : SgState Vertex Update Unit Unit} {records : List E}
    {scatters : List (Visit E)} (read : (pageScan c F edges).reads st superp records)
    (scattered : Delivers c (fun e => F.splitKey e 0) ((pageScan c F edges).visits st) records
      scatters) {q : E → Bool}
    (pushing : ∀ e, q e = true → Pushes c superp st (F.src e).toNat) :
    ((scatters.flatMap Visit.records).filter q).Perm (edges.filter q) :=
  perm_delivered read scattered fun e has =>
    ⟨(pushing e has).2.1, fun _ => (pushing e has).2.2.1, (pushing e has).2.2.2⟩

/-- Only edges of the super partition are delivered, and only of queued partitions. -/
theorem of_mem_delivered {superp : Nat} {st : SgState Vertex Update Unit Unit} {records : List E}
    {scatters : List (Visit E)} (read : (pageScan c F edges).reads st superp records)
    (scattered : Delivers c (fun e => F.splitKey e 0) ((pageScan c F edges).visits st) records
      scatters) {e : E} (member : e ∈ scatters.flatMap Visit.records) :
    e ∈ edges ∧ c.mapSuperPartition (F.src e).toNat = superp ∧
      c.mapCachedPartition (F.src e).toNat ∈ st.scatterFilter := by
  obtain ⟨inRecords, visited⟩ := List.mem_filter.mp (scattered.perm.subset member)
  have queued := of_decide_eq_true visited
  have inEdges : e ∈ edgesOf c F edges superp := by
    unfold pageScan at read
    simp only at read
    split at read
    · rwa [read] at inRecords
    · obtain ⟨pages, whole, _, rfl⟩ := read
      obtain ⟨page, chosen, inPage⟩ := List.mem_flatMap.mp inRecords
      rw [← whole]
      exact List.mem_flatMap.mpr ⟨page, List.mem_of_mem_filter chosen, inPage⟩
  obtain ⟨edge, ofSuperp⟩ := List.mem_filter.mp inEdges
  rw [F.splitKey_zero] at queued ofSuperp
  exact ⟨edge, of_decide_eq_true ofSuperp, queued⟩

/-! ## The invariant -/

/-- A vertex behind superstep 0, in between two scatter phases: its degree is counted, and it is
not half pushed. -/
structure Whole (F : FormatUtils E) (edges : List E) (v : Nat) (s : Vertex) : Prop where
  updatesPushed : s.updatesPushed = 0
  degree : s.degree = BitVec.ofNat 31 (edgesFrom F v edges).length

/-- No vertex has more edges than its degree counts. -/
def Countable (F : FormatUtils E) (edges : List E) : Prop :=
  ∀ v, (edgesFrom F v edges).length < 2 ^ 31

/-- What holds in a superstep when the first `superps` super partitions are done. -/
structure Midway (c : Configuration) (F : FormatUtils E) (edges : List E) (niters superps : Nat)
    (st : SgState Vertex Update Unit Unit) : Prop where
  whole : ∀ v < c.vertices, 1 ≤ st.bspPhase ∨ c.mapSuperPartition v < superps →
    Whole F edges v (st.state v)
  idle : ∀ v < c.vertices, (if c.mapSuperPartition v < superps
    then 1 ≤ st.bspPhase ∧ st.bspPhase < niters
    else 2 ≤ st.bspPhase ∧ st.bspPhase ≤ niters) → checkBsp (st.state v) = false
  delta : ∀ v < c.vertices, c.mapSuperPartition v < superps ∧ st.bspPhase = 0 ∨
    superps ≤ c.mapSuperPartition v ∧ st.bspPhase = 1 → (st.state v).delta = 1
  pending : ∀ u ∈ st.updatesIn, u.target.toNat < c.vertices ∧
    superps ≤ c.mapSuperPartition u.target.toNat
  early : st.bspPhase ≤ 1 → st.updatesIn = []
  sent : ∀ u ∈ st.updatesOut, u.target.toNat < c.vertices
  silent : st.bspPhase = 0 → st.updatesOut = []

/-- What holds behind the gather phase of a super partition. -/
structure Gathered (c : Configuration) (F : FormatUtils E) (edges : List E) (niters superp : Nat)
    (st : SgState Vertex Update Unit Unit) : Prop where
  whole : ∀ v < c.vertices, 1 ≤ st.bspPhase ∨ c.mapSuperPartition v < superp →
    Whole F edges v (st.state v)
  new : st.bspPhase = 0 → ∀ v < c.vertices, c.mapSuperPartition v = superp →
    (st.state v).updatesPushed = 0 ∧ (st.state v).degree = 0
  queued : ∀ v < c.vertices, c.mapSuperPartition v = superp →
    st.bspPhase ≤ 1 ∨ st.bspPhase < niters ∧ checkBsp (st.state v) = true →
    c.mapCachedPartition v ∈ st.scatterFilter
  idle : ∀ v < c.vertices, c.mapSuperPartition v ≠ superp → (if c.mapSuperPartition v < superp
    then 1 ≤ st.bspPhase ∧ st.bspPhase < niters
    else 2 ≤ st.bspPhase ∧ st.bspPhase ≤ niters) → checkBsp (st.state v) = false
  delta : ∀ v < c.vertices, c.mapSuperPartition v ≤ superp ∧ st.bspPhase = 0 ∨
    superp ≤ c.mapSuperPartition v ∧ st.bspPhase = 1 → (st.state v).delta = 1
  pending : ∀ u ∈ st.updatesIn, u.target.toNat < c.vertices ∧
    superp < c.mapSuperPartition u.target.toNat
  early : st.bspPhase ≤ 1 → st.updatesIn = []
  sent : ∀ u ∈ st.updatesOut, u.target.toNat < c.vertices
  silent : st.bspPhase = 0 → st.updatesOut = []

/-- `init` makes new vertices in superstep 0 and queues all partitions in superstep 1. -/
theorem state_prepare (niters : Nat) {superp : Nat} (hs : superp < c.superPartitions)
    (st : SgState Vertex Update Unit Unit) (v : Nat) :
    (prepare c (pagerankDdf niters) superp st).state v =
      if v < c.vertices ∧ c.mapSuperPartition v = superp then (init (st.state v) st.bspPhase).1
      else st.state v := by
  unfold prepare
  split
  · rw [(inits_initVertices hs st).state]
    simp only [Configuration.mem_vertexIds_iff hs]
    rfl
  · rename_i notNeeded
    have late : ¬ st.bspPhase < 2 := fun early => notNeeded (decide_eq_true early)
    have same : (init (st.state v) st.bspPhase).1 = st.state v := by
      unfold init
      rw [if_neg (by omega)]
    rw [same, ite_self]

theorem queued_prepare {superp v : Nat} (niters : Nat) (st : SgState Vertex Update Unit Unit)
    (hs : superp < c.superPartitions) (early : st.bspPhase ≤ 1) (inside : v < c.vertices)
    (ofSuperp : c.mapSuperPartition v = superp) :
    c.mapCachedPartition v ∈ (prepare c (pagerankDdf niters) superp st).scatterFilter := by
  have needed : (pagerankDdf niters).needInit st.bspPhase = true :=
    decide_eq_true (Nat.lt_succ_of_le early)
  unfold prepare
  rw [if_pos needed]
  refine (inits_initVertices hs st).filter v
    ((Configuration.mem_vertexIds_iff hs).mpr ⟨inside, ofSuperp⟩) ?_
  change (init (st.state v) st.bspPhase).2 = true
  unfold init
  split <;> rfl

/-- The gather phase. -/
theorem Midway.gathered {superp : Nat} (hs : superp < c.superPartitions)
    {st : SgState Vertex Update Unit Unit} (midway : Midway c F edges niters superp st)
    {gathers : List (Visit Update)}
    (delivers : Delivers c (pagerankDdf niters).splitKey (fun _ => true)
      (updatesOf c (pagerankDdf niters) superp (prepare c (pagerankDdf niters) superp st)) gathers) :
    Gathered c F edges niters superp (gatherPhase c (pagerankDdf niters) superp gathers
      (prepare c (pagerankDdf niters) superp st)) := by
  have others := prepare_others (A := pagerankDdf niters) hs st
  have start := state_prepare niters hs st
  have queues := fun v early => queued_prepare (v := v) niters st hs early
  generalize prepare c (pagerankDdf niters) superp st = p at *
  have phase : p.bspPhase = st.bspPhase := by rw [others]
  have inP : p.updatesIn = st.updatesIn := by rw [others]
  have outP : p.updatesOut = st.updatesOut := by rw [others]
  have perm : (gathers.flatMap Visit.records).Perm (updatesOf c (pagerankDdf niters) superp p) := by
    have := delivers.perm
    rwa [List.filter_true] at this
  have ofUpdate : ∀ u ∈ gathers.flatMap Visit.records, u ∈ st.updatesIn ∧
      c.mapSuperPartition u.target.toNat = superp := by
    intro u member
    have update := List.mem_filter.mp (perm.subset member)
    exact ⟨inP ▸ update.1, of_decide_eq_true update.2⟩
  have belong : ∀ v ∈ gathers, ∀ u ∈ v.records,
      Belongs c (pagerankDdf niters) (fun _ => True) superp v.partition u := by
    intro v visit u member
    obtain ⟨update, ofSuperp⟩ := ofUpdate u (List.mem_flatMap.mpr ⟨v, visit, member⟩)
    exact ⟨trivial, (midway.pending u update).1, ofSuperp, delivers.partition_eq v visit u member⟩
  have gather := gathers_gatherVisits (follows niters) counts_nothing delivers.processor_lt belong p
  unfold gatherPhase
  generalize gathers.foldl (gatherVisit c (pagerankDdf niters) superp) p = g at *
  have gPhase : g.bspPhase = st.bspPhase := gather.bspPhase.trans phase
  have noMail : ∀ v, c.mapSuperPartition v ≠ superp → g.state v = st.state v := by
    intro v elsewhere
    have none_ : (gathers.flatMap Visit.records).filter
        (fun u => (rules niters).target u = v) = [] := by
      rw [List.filter_eq_nil_iff]
      intro u member target
      exact elsewhere (of_decide_eq_true target ▸ (ofUpdate u member).2)
    rw [gather.state, none_, Bsp.Rules.gather_nil, start, if_neg fun h => elsewhere h.2]
  have noUpdates : st.bspPhase ≤ 1 → gathers.flatMap Visit.records = [] := by
    intro early
    rw [List.eq_nil_iff_forall_not_mem]
    intro u member
    have update := (ofUpdate u member).1
    rw [midway.early early] at update
    exact List.not_mem_nil update
  have late : st.bspPhase ≠ 0 → ∀ v, p.state v = st.state v := by
    intro notFirst v
    rw [start]
    split
    · unfold init
      rw [if_neg notFirst]
    · rfl
  constructor
  · change ∀ v < c.vertices, 1 ≤ g.bspPhase ∨ _ → Whole F edges v (g.state v)
    rw [gPhase]
    intro v known done
    by_cases here : c.mapSuperPartition v = superp
    · have notFirst : st.bspPhase ≠ 0 := by omega
      obtain ⟨updatesPushed, degree⟩ := midway.whole v known (.inl (by omega))
      rw [gather.state, late notFirst]
      exact ⟨(gather_updatesPushed _ _ _).trans updatesPushed, (gather_degree _ _ _).trans degree⟩
    · rw [noMail v here]
      exact midway.whole v known done
  · change g.bspPhase = 0 → ∀ v < c.vertices, _ → (g.state v).updatesPushed = 0 ∧ _
    rw [gPhase]
    intro first v known here
    rw [gather.state, noUpdates (by omega), List.filter_nil, Bsp.Rules.gather_nil, start,
      if_pos ⟨known, here⟩]
    unfold init
    rw [if_pos first]
    exact ⟨rfl, rfl⟩
  · change ∀ v < c.vertices, _ → g.bspPhase ≤ 1 ∨ g.bspPhase < niters ∧ _ →
      c.mapCachedPartition v ∈ g.scatterFilter
    rw [gPhase]
    intro v known here cause
    by_cases early : st.bspPhase ≤ 1
    · exact gather.filter_mono _ (queues v early known here)
    · obtain ⟨small, above⟩ := cause.resolve_left early
      have before : checkBsp (st.state v) = false :=
        midway.idle v known (by rw [if_neg (by omega)]; omega)
      apply gather.activated_mem
      change checkBsp (g.state v) = true at above
      rw [gather.state, phase, late (by omega)] at above
      rw [phase, late (by omega)]
      exact activated_of_checkBsp (by omega) before above
  · change ∀ v < c.vertices, c.mapSuperPartition v ≠ superp → (if c.mapSuperPartition v < superp
      then 1 ≤ g.bspPhase ∧ g.bspPhase < niters
      else 2 ≤ g.bspPhase ∧ g.bspPhase ≤ niters) → checkBsp (g.state v) = false
    rw [gPhase]
    intro v known elsewhere
    rw [noMail v elsewhere]
    exact midway.idle v known
  · change ∀ v < c.vertices, _ ∧ g.bspPhase = 0 ∨ _ ∧ g.bspPhase = 1 → (g.state v).delta = 1
    rw [gPhase]
    intro v known cause
    by_cases here : c.mapSuperPartition v = superp
    · rw [gather.state, noUpdates (by omega), List.filter_nil, Bsp.Rules.gather_nil]
      by_cases first : st.bspPhase = 0
      · rw [start, if_pos ⟨known, here⟩]
        unfold init
        rw [if_pos first]
      · rw [late first]
        exact midway.delta v known (by omega)
    · rw [noMail v here]
      exact midway.delta v known (by omega)
  · intro u member
    obtain ⟨update, elsewhere⟩ := List.mem_filter.mp member
    rw [gather.updatesIn, inP] at update
    obtain ⟨known, least⟩ := midway.pending u update
    have other : c.mapSuperPartition u.target.toNat ≠ superp := of_decide_eq_true elsewhere
    exact ⟨known, by omega⟩
  · change g.bspPhase ≤ 1 → g.updatesIn.filter _ = []
    rw [gPhase, gather.updatesIn, inP]
    intro early
    rw [midway.early early, List.filter_nil]
  · change ∀ u ∈ g.updatesOut, _
    rw [gather.updatesOut, outP]
    exact midway.sent
  · change g.bspPhase = 0 → g.updatesOut = []
    rw [gPhase, gather.updatesOut, outP]
    exact midway.silent

/-! ## The scatter phase -/

/-- What is pushed along an edge. -/
def share (F : FormatUtils E) (st : SgState Vertex Update Unit Unit) (e : E) : Update :=
  ⟨F.dst e, (st.state (F.src e).toNat).delta / (st.state (F.src e).toNat).degree.toNat⟩

/-- A scatter phase pushes whole vertices. -/
structure PushesWhole (c : Configuration) (F : FormatUtils E) (edges : List E) (superp : Nat)
    (before after : SgState Vertex Update Unit Unit) : Prop where
  whole : ∀ v < c.vertices, (after.state v).updatesPushed = 0
  degree : ∀ v < c.vertices,
    (before.state v).degree.toNat = (edgesFrom F v edges).length
  sent : ∃ updates, after.updatesOut = before.updatesOut ++ updates ∧
    updates.Perm (((live F edges).filter fun e =>
      Pushes c superp before (F.src e).toNat).map (share F before))
  moved : ∀ v, Pushes c superp before v → after.state v = moved (before.state v)
  others : ∀ v, ¬ Pushes c superp before v → after.state v = before.state v

/-- A degree that is counted. -/
theorem Whole.toNat_degree {v : Nat} {s : Vertex} (whole : Whole F edges v s)
    (countable : Countable F edges) : s.degree.toNat = (edgesFrom F v edges).length := by
  rw [whole.degree, BitVec.toNat_ofNat, Nat.mod_eq_of_lt (countable v)]

theorem checkBsp_of_above {s : Vertex} (above : aboveThreshold s = true) (some_ : s.degree ≠ 0) :
    checkBsp s = true := by
  unfold checkBsp
  rw [above, Bool.and_true, decide_eq_true_eq, BitVec.lt_def]
  have notZero : s.degree.toNat ≠ 0 := fun zero => some_ (BitVec.eq_of_toNat_eq zero)
  exact Nat.pos_of_ne_zero notZero

theorem aboveThreshold_of_checkBsp {s : Vertex} (passes : checkBsp s = true) :
    aboveThreshold s = true ∧ s.degree ≠ 0 := by
  unfold checkBsp at passes
  rw [Bool.and_eq_true, decide_eq_true_eq] at passes
  exact ⟨passes.2, fun zero => by rw [zero] at passes; exact absurd passes.1 (by decide)⟩

section

variable {superp : Nat} {st : SgState Vertex Update Unit Unit} {records : List E}
  {scatters : List (Visit E)}

theorem perm_edgesFrom (read : (pageScan c F edges).reads st superp records)
    (scattered : Delivers c (fun e => F.splitKey e 0) ((pageScan c F edges).visits st) records
      scatters) {v : Nat} (pushes : Pushes c superp st v) :
    (edgesFrom F v (scatters.flatMap Visit.records)).Perm (edgesFrom F v edges) :=
  perm_of_pushes read scattered fun _ isEdge => (of_decide_eq_true isEdge).2 ▸ pushes

/-- If the source of an edge that is delivered is above the threshold, it has to push. -/
theorem Gathered.pushes_of_delivered (gathered : Gathered c F edges niters superp st)
    (inside : EndsInside F edges c.vertices) (countable : Countable F edges)
    (late : 1 ≤ st.bspPhase) (read : (pageScan c F edges).reads st superp records)
    (scattered : Delivers c (fun e => F.splitKey e 0) ((pageScan c F edges).visits st) records
      scatters) {e : E} (member : e ∈ scatters.flatMap Visit.records)
    (alive : F.splitKey e 0 ≠ tombstone)
    (above : aboveThreshold (st.state (F.src e).toNat) = true) :
    Pushes c superp st (F.src e).toNat := by
  obtain ⟨edge, ofSuperp, queued⟩ := of_mem_delivered read scattered member
  have known := (inside e edge).1
  have degree := (gathered.whole _ known (.inl late)).toNat_degree countable
  refine ⟨known, ofSuperp, checkBsp_of_above above fun zero => ?_, queued⟩
  rw [zero] at degree
  have none_ : edgesFrom F (F.src e).toNat edges = [] :=
    List.eq_nil_of_length_eq_zero degree.symm
  exact List.filter_eq_nil_iff.mp none_ e edge (decide_eq_true ⟨alive, rfl⟩)

/-- A vertex that has to push is given all its edges, and another one pushes nothing. -/
theorem Gathered.pushed_eq (gathered : Gathered c F edges niters superp st)
    (inside : EndsInside F edges c.vertices) (countable : Countable F edges)
    (late : 1 ≤ st.bspPhase) (read : (pageScan c F edges).reads st superp records)
    (scattered : Delivers c (fun e => F.splitKey e 0) ((pageScan c F edges).visits st) records
      scatters) (v : Nat) :
    pushed (st.state v) (edgesFrom F v (scatters.flatMap Visit.records)).length =
      if Pushes c superp st v then moved (st.state v) else st.state v := by
  split
  · rename_i pushes
    obtain ⟨above, positive⟩ := aboveThreshold_of_checkBsp pushes.2.2.1
    have degree := (gathered.whole v pushes.1 (.inl late)).toNat_degree countable
    rw [(perm_edgesFrom read scattered pushes).length_eq, ← degree, pushed_degree above positive]
  · rename_i notPushes
    cases above : aboveThreshold (st.state v) with
    | false => exact pushed_of_below above _
    | true =>
      have none_ : edgesFrom F v (scatters.flatMap Visit.records) = [] := by
        unfold edgesFrom
        rw [List.filter_eq_nil_iff]
        intro e member isEdge
        obtain ⟨alive, rfl⟩ := of_decide_eq_true isEdge
        exact notPushes (gathered.pushes_of_delivered inside countable late read scattered member
          alive above)
      rw [none_]
      exact pushed_zero _

theorem belong_of_delivers (read : (pageScan c F edges).reads st superp records)
    (scattered : Delivers c (fun e => F.splitKey e 0) ((pageScan c F edges).visits st) records
      scatters) : ∀ v ∈ scatters, ∀ e ∈ v.records, c.mapSuperPartition (F.splitKey e 0) = superp ∧
      c.mapCachedPartition (F.splitKey e 0) = v.partition := by
  intro v visit e member
  refine ⟨?_, scattered.partition_eq v visit e member⟩
  rw [F.splitKey_zero]
  exact (of_mem_delivered read scattered (List.mem_flatMap.mpr ⟨v, visit, member⟩)).2.1

/-- The scatter phase of superstep 0 counts the edges. -/
theorem Gathered.counts (gathered : Gathered c F edges niters superp st)
    (first : st.bspPhase = 0) (read : (pageScan c F edges).reads st superp records)
    (scattered : Delivers c (fun e => F.splitKey e 0) ((pageScan c F edges).visits st) records
      scatters) {v : Nat} (known : v < c.vertices)
    (done : c.mapSuperPartition v < superp + 1) :
    Whole F edges v ((scatters.foldl (scatterVisit c (pagerankDdf niters) F superp) st).state v) := by
  rw [scatterVisits_eq niters (belong_of_delivers read scattered), first, foldl_pushEdge_zero]
  simp only
  by_cases here : c.mapSuperPartition v = superp
  · have all : (edgesFrom F v (scatters.flatMap Visit.records)).Perm (edgesFrom F v edges) := by
      refine perm_delivered read scattered fun e isEdge => ?_
      obtain ⟨_, rfl⟩ := of_decide_eq_true isEdge
      exact ⟨here, fun late => absurd first late, gathered.queued _ known here (.inl (by omega))⟩
    obtain ⟨updatesPushed, degree⟩ := gathered.new first v known here
    rw [all.length_eq]
    unfold counted
    split
    · rename_i none_
      exact ⟨updatesPushed, degree.trans (congrArg (BitVec.ofNat 31) none_).symm⟩
    · refine ⟨updatesPushed, ?_⟩
      simp only [degree]
      exact BitVec.zero_add _
  · have none_ : edgesFrom F v (scatters.flatMap Visit.records) = [] := by
      unfold edgesFrom
      rw [List.filter_eq_nil_iff]
      intro e member isEdge
      obtain ⟨_, rfl⟩ := of_decide_eq_true isEdge
      exact here (of_mem_delivered read scattered member).2.1
    rw [none_, List.length_nil, counted_zero]
    exact gathered.whole v known (.inr (by omega))

/-- A scatter phase from superstep 1 on. -/
theorem Gathered.pushesWhole (gathered : Gathered c F edges niters superp st)
    (inside : EndsInside F edges c.vertices) (countable : Countable F edges)
    (late : 1 ≤ st.bspPhase) (read : (pageScan c F edges).reads st superp records)
    (scattered : Delivers c (fun e => F.splitKey e 0) ((pageScan c F edges).visits st) records
      scatters) :
    PushesWhole c F edges superp st
      (scatters.foldl (scatterVisit c (pagerankDdf niters) F superp) st) := by
  have delivered : ∀ e ∈ scatters.flatMap Visit.records, e ∈ edges ∧
      c.mapSuperPartition (F.src e).toNat = superp ∧
      c.mapCachedPartition (F.src e).toNat ∈ st.scatterFilter := fun e member =>
    of_mem_delivered read scattered member
  have whole : ∀ e ∈ scatters.flatMap Visit.records, Whole F edges (F.src e).toNat
      (st.state (F.src e).toNat) := fun e member =>
    gathered.whole _ (inside e (delivered e member).1).1 (.inl late)
  have pushes : ∀ e ∈ scatters.flatMap Visit.records, F.splitKey e 0 ≠ tombstone →
      aboveThreshold (st.state (F.src e).toNat) = true → Pushes c superp st (F.src e).toNat :=
    fun e member => gathered.pushes_of_delivered inside countable late read scattered member
  have room : ∀ e ∈ scatters.flatMap Visit.records, F.splitKey e 0 ≠ tombstone →
      aboveThreshold (st.state (F.src e).toNat) = true →
      (st.state (F.src e).toNat).degree = 0 ∨
        (edgesFrom F (F.src e).toNat (scatters.flatMap Visit.records)).length ≤
          (st.state (F.src e).toNat).degree.toNat := by
    intro e member alive above
    rw [(perm_edgesFrom read scattered (pushes e member alive above)).length_eq,
      (whole e member).toNat_degree countable]
    exact .inr (Nat.le_refl _)
  have after := foldl_pushEdge_late (F := F) (k := st.bspPhase) (by omega)
    (scatters.flatMap Visit.records) st.state (fun e member => (whole e member).updatesPushed) room
    st.updatesOut
  rw [scatterVisits_eq niters (belong_of_delivers read scattered), after]
  have state := fun v => gathered.pushed_eq inside countable late read scattered v
  constructor
  · intro v known
    simp only [state]
    split
    · rfl
    · exact (gathered.whole v known (.inl late)).updatesPushed
  · exact fun v known => (gathered.whole v known (.inl late)).toNat_degree countable
  · refine ⟨_, rfl, ?_⟩
    have pushing : (live F (scatters.flatMap Visit.records)).filterMap (sentBy F st.state) =
        ((live F (scatters.flatMap Visit.records)).filter fun e =>
          Pushes c superp st (F.src e).toNat).map (share F st) := by
      rw [← List.filterMap_eq_map, List.filterMap_filter]
      refine List.filterMap_congr fun e member => ?_
      obtain ⟨inRecords, alive⟩ := List.mem_filter.mp member
      unfold sentBy
      simp only [decide_eq_true_eq]
      split
      · rename_i above
        rw [if_pos (pushes e inRecords (of_decide_eq_true alive) above)]
        rfl
      · rename_i below
        rw [if_neg]
        exact fun has => below (aboveThreshold_of_checkBsp has.2.2.1).1
    rw [pushing]
    refine List.Perm.map _ ?_
    unfold live
    rw [List.filter_filter, List.filter_filter]
    refine perm_of_pushes read scattered fun e has => ?_
    exact of_decide_eq_true (Bool.and_eq_true _ _ ▸ has).1
  · intro v pushes
    simp only [state, if_pos pushes]
  · intro v notPushes
    simp only [state, if_neg notPushes]

/-- Behind its scatter phase a super partition is done, up to the marks of changed records. -/
theorem Gathered.scattered (gathered : Gathered c F edges niters superp st)
    (inside : EndsInside F edges c.vertices) (countable : st.bspPhase ≠ 0 → Countable F edges)
    (read : (pageScan c F edges).reads st superp records)
    (scattered : Delivers c (fun e => F.splitKey e 0) ((pageScan c F edges).visits st) records
      scatters) :
    Midway c F edges niters (superp + 1)
      (scatters.foldl (scatterVisit c (pagerankDdf niters) F superp) st) := by
  have others := scatterVisits_eq niters (belong_of_delivers read scattered) st
  have counts := fun first v known done =>
    gathered.counts (v := v) first read scattered known done
  have pushes : 1 ≤ st.bspPhase → _ := fun late =>
    gathered.pushesWhole inside (countable (by omega)) late read scattered
  have silent : st.bspPhase = 0 →
      (scatters.foldl (scatterVisit c (pagerankDdf niters) F superp) st).updatesOut = [] := by
    intro first
    rw [others, first, foldl_pushEdge_zero]
    exact gathered.silent first
  have counted_ : st.bspPhase = 0 → ∀ v,
      ((scatters.foldl (scatterVisit c (pagerankDdf niters) F superp) st).state v).delta =
        (st.state v).delta := by
    intro first v
    rw [others, first, foldl_pushEdge_zero]
    simp only
    unfold counted
    split <;> rfl
  generalize scatters.foldl (scatterVisit c (pagerankDdf niters) F superp) st = s at *
  have phase : s.bspPhase = st.bspPhase := by rw [others]
  have inS : s.updatesIn = st.updatesIn := by rw [others]
  constructor
  · intro v known done
    by_cases first : st.bspPhase = 0
    · exact counts first v known (by omega)
    · have late : 1 ≤ st.bspPhase := Nat.pos_of_ne_zero first
      refine ⟨(pushes late).whole v known, ?_⟩
      have before := gathered.whole v known (.inl late)
      by_cases has : Pushes c superp st v
      · rw [(pushes late).moved v has]
        exact before.degree
      · rw [(pushes late).others v has]
        exact before.degree
  · rw [phase]
    intro v known cause
    have late : 1 ≤ st.bspPhase := by split at cause <;> omega
    by_cases has : Pushes c superp st v
    · rw [(pushes late).moved v has]
      simp [checkBsp, aboveThreshold, moved]
    · rw [(pushes late).others v has]
      by_cases here : c.mapSuperPartition v = superp
      · rw [if_pos (by omega)] at cause
        rw [← Bool.not_eq_true]
        intro passes
        exact has ⟨known, here, passes, gathered.queued v known here (.inr ⟨cause.2, passes⟩)⟩
      · refine gathered.idle v known here ?_
        by_cases less : c.mapSuperPartition v < superp
        · rw [if_pos (by omega)] at cause
          rwa [if_pos less]
        · rw [if_neg (by omega)] at cause
          rwa [if_neg less]
  · rw [phase]
    intro v known cause
    by_cases first : st.bspPhase = 0
    · rw [counted_ first v]
      exact gathered.delta v known (by omega)
    · have elsewhere : ¬ Pushes c superp st v := fun has => by
        have here := has.2.1
        omega
      rw [(pushes (by omega)).others v elsewhere]
      exact gathered.delta v known (by omega)
  · rw [inS]
    exact gathered.pending
  · rw [phase, inS]
    exact gathered.early
  · intro u member
    by_cases first : st.bspPhase = 0
    · rw [silent first] at member
      exact absurd member List.not_mem_nil
    · obtain ⟨updates, out, perm⟩ := (pushes (Nat.pos_of_ne_zero first)).sent
      rw [out] at member
      rcases List.mem_append.mp member with before | now
      · exact gathered.sent u before
      · obtain ⟨e, edge, rfl⟩ := List.mem_map.mp (perm.subset now)
        exact (inside e (List.mem_of_mem_filter (List.mem_of_mem_filter edge))).2
  · rw [phase]
    exact silent

/-- A vertex without the mark that it has changed. -/
def core (s : Vertex) : Vertex := { s with changed := false }

/-- Looking for changed records keeps the invariant. -/
theorem Midway.reset {superps : Nat} (midway : Midway c F edges niters superps st) :
    Midway c F edges niters superps (resetVertices c (pagerankDdf niters) superp st) := by
  have keeps : ∀ s : Vertex, core ((pagerankDdf niters).checkResetChanged s).1 = core s := by
    intro s
    change core (checkResetChanged s).1 = core s
    unfold checkResetChanged
    split <;> rfl
  have same : ∀ v, core ((resetVertices c (pagerankDdf niters) superp st).state v) =
      core (st.state v) := view_resetVertices keeps st
  have others : resetVertices c (pagerankDdf niters) superp st = { st with
      state := (resetVertices c (pagerankDdf niters) superp st).state } := resetVertices_eq st
  generalize resetVertices c (pagerankDdf niters) superp st = r at *
  have phase : r.bspPhase = st.bspPhase := by rw [others]
  constructor
  · rw [phase]
    intro v known done
    obtain ⟨updatesPushed, degree⟩ := midway.whole v known done
    exact ⟨(congrArg Vertex.updatesPushed (same v)).trans updatesPushed,
      (congrArg Vertex.degree (same v)).trans degree⟩
  · rw [phase]
    intro v known cause
    have passes := congrArg checkBsp (same v)
    exact passes.trans (midway.idle v known cause)
  · rw [phase]
    intro v known cause
    exact (congrArg Vertex.delta (same v)).trans (midway.delta v known cause)
  · rw [others]
    exact midway.pending
  · rw [others]
    exact midway.early
  · rw [others]
    exact midway.sent
  · rw [others]
    exact midway.silent

/-- A super partition. -/
theorem Midway.next {mid after : SgState Vertex Update Unit Unit}
    (hs : superp < c.superPartitions) (midway : Midway c F edges niters superp mid)
    (inside : EndsInside F edges c.vertices) (countable : mid.bspPhase ≠ 0 → Countable F edges)
    (step : SuperpStep c (pagerankDdf niters) F (pageScan c F edges) superp mid after) :
    Midway c F edges niters (superp + 1) after := by
  cases step with
  | @visit gathers scatters records fits gathered read scattered =>
  have samePhase : (gatherPhase c (pagerankDdf niters) superp gathers
      (prepare c (pagerankDdf niters) superp mid)).bspPhase = mid.bspPhase := by
    rw [bspPhase_gatherPhase, bspPhase_prepare]
  have done := (midway.gathered hs gathered).scattered inside (samePhase ▸ countable) read scattered
  have phase : Midway c F edges niters (superp + 1) (scatterPhase c (pagerankDdf niters) F superp
      scatters (gatherPhase c (pagerankDdf niters) superp gathers
        (prepare c (pagerankDdf niters) superp mid))) := by
    unfold scatterPhase
    simp only
    split
    · exact done.reset
    · exact done
  unfold postScatter
  split
  · exact ⟨phase.whole, phase.idle, phase.delta, phase.pending, phase.early, phase.sent,
      phase.silent⟩
  · exact ⟨phase.whole, phase.idle, phase.delta, phase.pending, phase.early, phase.sent,
      phase.silent⟩

end

theorem Midway.begin {st : SgState Vertex Update Unit Unit}
    (midway : Midway c F edges niters 0 st) : Midway c F edges niters 0 (beginSuperphase st) :=
  ⟨midway.whole, midway.idle, midway.delta, midway.pending, midway.early, midway.sent,
    midway.silent⟩

/-- The first super partitions. -/
theorem Midway.superps {st mid : SgState Vertex Update Unit Unit} {superps : Nat}
    (midway : Midway c F edges niters 0 st) (inside : EndsInside F edges c.vertices)
    (countable : st.bspPhase ≠ 0 → Countable F edges) (superps_le : superps ≤ c.superPartitions)
    (run : Superps c (pagerankDdf niters) F (pageScan c F edges) st superps mid) :
    Midway c F edges niters superps mid := by
  induction run with
  | none => exact midway.begin
  | next others step ih =>
    exact (ih (by omega)).next (by omega) inside (bspPhase_of_superps others ▸ countable) step

/-- A superstep. -/
theorem Midway.superstep {st st' : SgState Vertex Update Unit Unit}
    (midway : Midway c F edges niters 0 st) (inside : EndsInside F edges c.vertices)
    (countable : st.bspPhase ≠ 0 → Countable F edges)
    (step : Superstep c (pagerankDdf niters) F (pageScan c F edges) st st') :
    Midway c F edges niters 0 st' ∧ st'.bspPhase = st.bspPhase + 1 := by
  cases step with
  | @done after run =>
  have all := c.mapSuperPartition_lt
  have phase := bspPhase_of_superps run
  obtain ⟨whole, idle, delta, pending, early, sent, silent⟩ :=
    midway.superps inside countable (Nat.le_refl _) run
  have none_ : after.updatesIn = [] := by
    rw [List.eq_nil_iff_forall_not_mem]
    intro u member
    have least := (pending u member).2
    have most := all u.target.toNat
    omega
  refine ⟨⟨?_, ?_, ?_, ?_, ?_, ?_, ?_⟩, congrArg (· + 1) phase⟩
  · exact fun v known _ => whole v known (.inr (all v))
  · intro v known cause
    rw [if_neg (Nat.not_lt_zero _)] at cause
    simp only [endSuperphase] at cause
    exact idle v known (by rw [if_pos (all v)]; omega)
  · intro v known cause
    simp only [endSuperphase] at cause
    exact delta v known (.inl ⟨all v, by omega⟩)
  · exact fun u member => ⟨sent u member, Nat.zero_le _⟩
  · intro small
    simp only [endSuperphase] at small
    exact silent (by omega)
  · intro u member
    simp only [endSuperphase, none_] at member
    exact absurd member List.not_mem_nil
  · exact fun first => absurd first (Nat.succ_ne_zero _)

theorem midway_start (state : Nat → Vertex) :
    Midway c F edges niters 0 (start state (fun _ => ()) ()) := by
  refine ⟨?_, ?_, ?_, ?_, ?_, ?_, ?_⟩
  · intro v _ cause
    simp [start] at cause
  · intro v _ cause
    simp [start] at cause
  · intro v _ cause
    simp [start] at cause
  · exact fun u none_ => absurd none_ List.not_mem_nil
  · exact fun _ => rfl
  · exact fun u none_ => absurd none_ List.not_mem_nil
  · exact fun _ => rfl

/-- The invariant holds in front of every superstep. -/
theorem midway_of_passed (inside : EndsInside F edges c.vertices) (countable : Countable F edges)
    {state : Nat → Vertex} {t : Nat} {st : SgState Vertex Update Unit Unit}
    (passed : Passed c (pagerankDdf niters) F (pageScan c F edges)
      (start state (fun _ => ()) ()) t st) :
    Midway c F edges niters 0 st ∧ st.bspPhase = t := by
  induction passed with
  | none => exact ⟨midway_start state, rfl⟩
  | next _ step ih =>
    obtain ⟨midway, phase⟩ := ih
    obtain ⟨after, next⟩ := midway.superstep inside (fun _ => countable) step
    exact ⟨after, by rw [next, phase]⟩

/-! ## All supersteps -/

end PagerankDdf

open PagerankDdf in
/-- Every superstep of `pagerank_ddf` can be made, from superstep 1 on its scatter phases push whole
vertices, and before superstep `niters` the vertices that have to push are queued. -/
def PushesWholeAlways {E : Type} (F : FormatUtils E) (edges : List E) (c : Configuration)
    (niters : Nat) (state : Nat → Vertex) : Prop :=
  let A := pagerankDdf niters
  let scan := pageScan c F edges
  ∀ t st, Passed c A F scan (start state (fun _ => ()) ()) t st →
    (∃ st', Superstep c A F scan st st') ∧
    ∀ superp mid gathers records scatters, 1 ≤ t → superp < c.superPartitions →
      Superps c A F scan st superp mid →
      Delivers c A.splitKey (fun _ => true) (updatesOf c A superp (prepare c A superp mid)) gathers →
      let before := gatherPhase c A superp gathers (prepare c A superp mid)
      scan.reads before superp records →
      Delivers c (fun e => F.splitKey e 0) (scan.visits before) records scatters →
      PushesWhole c F edges superp before (scatters.foldl (scatterVisit c A F superp) before) ∧
      (t < niters → ∀ v < c.vertices, c.mapSuperPartition v = superp →
        checkBsp (before.state v) = true → c.mapCachedPartition v ∈ before.scatterFilter)

open PagerankDdf in
/-- `pagerank_ddf` pushes whole vertices, if degrees fit in 31 bits and the vertex records fit in the
state buffer. -/
theorem pushesWholeAlways {E : Type} (c : Configuration) (F : FormatUtils E) (edges : List E)
    (niters : Nat) (state : Nat → Vertex) (inside : EndsInside F edges c.vertices)
    (countable : ∀ v, (edgesFrom F v edges).length < 2 ^ 31)
    (fits : ∀ superp < c.superPartitions,
      c.StateFits (pagerankDdf niters).vertexStateBytes superp) :
    PushesWholeAlways F edges c niters state := by
  intro t st passed
  obtain ⟨midway, phase⟩ := midway_of_passed inside countable passed
  refine ⟨exists_superstep (fun st superp => ⟨_, reads_edgesOf st superp⟩) fits st, ?_⟩
  intro superp mid gathers records scatters late hs run gathered before read scattered
  have here := (midway.superps inside (fun _ => countable) (by omega) run).gathered hs gathered
  have beforePhase : before.bspPhase = t := by
    rw [bspPhase_gatherPhase, bspPhase_prepare, bspPhase_of_superps run, phase]
  refine ⟨here.pushesWhole inside countable (beforePhase ▸ late) read scattered, ?_⟩
  intro early v known ofSuperp passes
  exact here.queued v known ofSuperp (.inr ⟨beforePhase ▸ early, passes⟩)

/-- Vertices 0 and 1 push to each other, and 0 to 2. -/
theorem pushesWholeAlways_three :
    PushesWholeAlways type2 [⟨0, 1⟩, ⟨1, 0⟩, ⟨0, 2⟩] (Configuration.single 0 3 (by decide)) 5
      fun _ => ⟨0, false, 0, 0, 0⟩ :=
  pushesWholeAlways _ _ _ _ _ (by unfold EndsInside; decide)
    (fun v => Nat.lt_of_le_of_lt (List.length_filter_le _ _) (by decide))
    (by unfold Configuration.StateFits; decide +kernel)

/-- Where vertex 0 has `2 ^ 31` edges, its degree is counted as 0, and it never gets whole. -/
theorem not_pushesWhole_of_length {edges : List SimpleEdge} (same : ∀ e ∈ edges, e = ⟨0, 1⟩)
    (wraps : edges.length = 2 ^ 31) (niters : Nat) (state : Nat → PagerankDdf.Vertex) :
    ¬ PushesWholeAlways type2 edges (Configuration.single 0 2 (by decide)) niters state := by
  generalize isConfiguration : Configuration.single 0 2 (by decide) = c
  intro always
  have two : c.vertices = 2 := by rw [← isConfiguration]; rfl
  have one : c.superPartitions = 1 := by rw [← isConfiguration]; rfl
  have positive : 0 < c.superPartitions := by omega
  have only : ∀ v, c.mapSuperPartition v = 0 := fun v => by
    have := c.mapSuperPartition_lt v
    omega
  have inside : EndsInside type2 edges c.vertices := by
    intro e member
    rw [same e member, two]
    decide
  have sources : ∀ e ∈ edges, (type2.src e).toNat = 0 := fun e member => by rw [same e member]; rfl
  obtain ⟨st, step⟩ := (always 0 _ .none).1
  obtain ⟨midway, phase⟩ :=
    (PagerankDdf.midway_start state).superstep inside (fun late => absurd rfl late) step
  obtain ⟨gathers, gathered⟩ := exists_delivers c (pagerankDdf niters).splitKey (fun _ => true)
    (updatesOf c (pagerankDdf niters) 0 (prepare c (pagerankDdf niters) 0 (beginSuperphase st)))
  have here := midway.begin.gathered positive gathered
  have claimed := (always 1 st (.next .none step)).2 0 (beginSuperphase st) gathers
  have beforePhase : (gatherPhase c (pagerankDdf niters) 0 gathers
      (prepare c (pagerankDdf niters) 0 (beginSuperphase st))).bspPhase = 1 := by
    rw [bspPhase_gatherPhase, bspPhase_prepare]
    exact phase
  generalize gatherPhase c (pagerankDdf niters) 0 gathers
    (prepare c (pagerankDdf niters) 0 (beginSuperphase st)) = before at *
  have read : (PagerankDdf.pageScan c type2 edges).reads before 0 (edgesOf c type2 edges 0) :=
    PagerankDdf.reads_edgesOf before 0
  obtain ⟨scatters, scattered⟩ := exists_delivers c (fun e => type2.splitKey e 0)
    ((PagerankDdf.pageScan c type2 edges).visits before) (edgesOf c type2 edges 0)
  have whole := (claimed _ scatters (Nat.le_refl _) positive .none gathered read scattered).1.whole 0
    (by omega)
  have all : ∀ {es : List SimpleEdge}, (∀ e ∈ es, e ∈ edges) →
      PagerankDdf.edgesFrom type2 0 es = es := by
    intro es sub
    unfold PagerankDdf.edgesFrom
    refine List.filter_eq_self.mpr fun e member => decide_eq_true ⟨?_, sources e (sub e member)⟩
    rw [type2.splitKey_zero, sources e (sub e member)]
    decide
  have degree : (before.state 0).degree = 0 := by
    rw [(here.whole 0 (by omega) (.inl (by omega))).degree, all fun _ member => member, wraps]
    decide
  have above : PagerankDdf.aboveThreshold (before.state 0) = true := by
    unfold PagerankDdf.aboveThreshold
    rw [if_pos degree, here.delta 0 (by omega) (.inr ⟨Nat.zero_le _, beforePhase⟩)]
    decide
  have sub : ∀ e ∈ scatters.flatMap Visit.records, e ∈ edges := fun e member =>
    (PagerankDdf.of_mem_delivered read scattered member).1
  have length : (scatters.flatMap Visit.records).length = 2 ^ 31 := by
    rw [scattered.perm.length_eq, ← wraps]
    unfold edgesOf
    rw [List.filter_filter]
    refine congrArg List.length (List.filter_eq_self.mpr fun e member => ?_)
    rw [Bool.and_eq_true, type2.splitKey_zero, sources e member]
    exact ⟨decide_eq_true (here.queued 0 (by omega) (only 0) (.inl (by omega))),
      decide_eq_true (only 0)⟩
  have pushes := PagerankDdf.foldl_pushEdge_late (F := type2) (k := before.bspPhase) (by omega)
    (scatters.flatMap Visit.records) before.state
    (fun e member => by
      rw [sources e (sub e member)]
      exact (here.whole 0 (by omega) (.inl (by omega))).updatesPushed)
    (fun e member _ _ => .inl (by rw [sources e (sub e member)]; exact degree)) before.updatesOut
  rw [PagerankDdf.scatterVisits_eq niters (PagerankDdf.belong_of_delivers read scattered), pushes]
    at whole
  simp only [all sub, length] at whole
  rw [PagerankDdf.pushed_on_way (here.whole 0 (by omega) (.inl (by omega))).updatesPushed above
    (.inl degree)] at whole
  exact absurd whole (by norm_num)

/-- So many edges from 0 to 1. -/
def parallelEdges : List SimpleEdge := List.replicate (2 ^ 31) ⟨0, 1⟩

/-- With two super partitions the state buffer has room for 409 of the 410 records of super
partition 0. -/
theorem not_pushesWholeAlways_tight (niters : Nat) (state : Nat → PagerankDdf.Vertex) :
    ¬ PushesWholeAlways type2 [] (Configuration.single 1 819 (by decide)) niters state := by
  intro always
  obtain ⟨st, stepped⟩ := (always 0 _ .none).1
  have fits := fits_of_superstep stepped 0 (by decide)
  have bytes : (pagerankDdf niters).vertexStateBytes = 20 := rfl
  unfold Configuration.StateFits at fits
  rw [bytes] at fits
  revert fits
  decide +kernel

/-- `pagerank_ddf` does not push whole vertices if a vertex has `2 ^ 31` edges, and does not run at
all where a super partition has more records than the state buffer holds. -/
theorem not_pushesWholeAlways :
    (EndsInside type2 parallelEdges 2 ∧ ∀ niters state,
      ¬ PushesWholeAlways type2 parallelEdges (Configuration.single 0 2 (by decide)) niters state) ∧
    ∀ niters state,
      ¬ PushesWholeAlways type2 [] (Configuration.single 1 819 (by decide)) niters state := by
  have same : ∀ e ∈ parallelEdges, e = ⟨0, 1⟩ := fun e member => List.eq_of_mem_replicate member
  refine ⟨⟨fun e member => ?_, not_pushesWhole_of_length same List.length_replicate⟩,
    not_pushesWholeAlways_tight⟩
  rw [same e member]
  decide

end MBFGraph
