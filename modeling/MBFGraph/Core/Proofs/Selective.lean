import MBFGraph.Core.Proofs.ScatterGather
import MBFGraph.Core.Selective
import MBFGraph.Lib.LockStep

/-!
# Reading fewer pages does not change a run

A scan that leaves out edges whose source sends nothing is complete, and so is the scan of everything. Two
drivers with complete scans run in lock step if the program does not depend on the order of its messages
(`lockStep`).
-/

namespace MBFGraph

namespace ScatterGather

open NondetLoop

variable {σ υ δ γ O Q τ E W X : Type}

section

variable {c : Configuration} {A : SgAlgorithm σ υ δ γ W} {F : FormatUtils E W} {R : Bsp.Rules Nat O υ X}
  {link : Nat → W → X} {view : σ → O} {fresh : Nat → O → Prop} {good : υ → Prop} {count : δ → Nat}
  {weight : O → Nat} {edges : List E}

/-! ## Complete scans -/

/-- Deleted edges do not count. -/
theorem sentAlong_live (k : Nat) (state : Nat → O) (edges : List E) :
    sentAlong R link F k state (edges.filter fun e => F.splitKey e 0 ≠ tombstone) =
      sentAlong R link F k state edges := by
  unfold sentAlong liveLinks
  rw [List.filter_filter]
  simp only [Bool.and_self]

/-- Edges that are left out, and are deleted or send nothing. -/
theorem sentAlong_filter_of_live {k : Nat} {state : Nat → O} {edges : List E} {p : E → Bool}
    (silent : ∀ e ∈ edges, F.splitKey e 0 ≠ tombstone → p e = false →
      R.send k (state (F.src e).toNat) (F.src e).toNat
        (link (F.dst e).toNat (F.edgeWeight e)) = none) :
    sentAlong R link F k state (edges.filter p) = sentAlong R link F k state edges := by
  rw [← sentAlong_live k state (edges.filter p), ← sentAlong_live k state edges, List.filter_comm]
  refine sentAlong_filter fun e member unread => ?_
  obtain ⟨there, live⟩ := List.mem_filter.mp member
  exact silent e there (of_decide_eq_true live) unread

/-- Edges none of which sends. -/
theorem sentAlong_eq_nil {k : Nat} {state : Nat → O} {edges : List E}
    (silent : ∀ e ∈ edges, F.splitKey e 0 ≠ tombstone → R.send k (state (F.src e).toNat) (F.src e).toNat
      (link (F.dst e).toNat (F.edgeWeight e)) = none) : sentAlong R link F k state edges = [] := by
  have none_ := sentAlong_filter_of_live (p := fun _ => false) fun e member live _ => silent e member live
  rw [List.filter_false] at none_
  exact none_.symm

/-- Edges on pages that are not read send nothing. -/
theorem sentAlong_readPages {k edgesPerPage : Nat} {pages : Nat → Bool} {state : Nat → O} {records : List E}
    (silent : ∀ i e, records[i]? = some e → F.splitKey e 0 ≠ tombstone → pages (i / edgesPerPage) = false →
      R.send k (state (F.src e).toNat) (F.src e).toNat
        (link (F.dst e).toNat (F.edgeWeight e)) = none) :
    (sentAlong R link F k state (readPages edgesPerPage pages records)).Perm
      (sentAlong R link F k state records) := by
  have split := (List.filter_append_perm (fun e : E × Nat => pages (e.2 / edgesPerPage))
    records.zipIdx).map Prod.fst
  rw [List.map_append, List.zipIdx_map_fst] at split
  have unread : sentAlong R link F k state
      ((records.zipIdx.filter fun e => !pages (e.2 / edgesPerPage)).map Prod.fst) = [] := by
    apply sentAlong_eq_nil
    intro e member live
    obtain ⟨⟨e', i⟩, kept, rfl⟩ := List.mem_map.mp member
    obtain ⟨there, skipped⟩ := List.mem_filter.mp kept
    have position := List.mem_zipIdx_iff_getElem?.mp there
    exact silent i e' position live (Bool.not_eq_true' _ ▸ skipped)
  have sent : (sentAlong R link F k state _).Perm (sentAlong R link F k state _) := sentAlong_perm split
  rw [sentAlong_append, unread, List.append_nil] at sent
  exact sent

/-- A record on a page that is read is a record of the file. -/
theorem mem_of_mem_readPages {edgesPerPage : Nat} {pages : Nat → Bool} {records : List E} {e : E}
    (member : e ∈ readPages edgesPerPage pages records) : e ∈ records := by
  obtain ⟨⟨e', i⟩, kept, rfl⟩ := List.mem_map.mp member
  exact List.mem_of_getElem? (List.mem_zipIdx_iff_getElem?.mp (List.mem_of_mem_filter kept))

section

variable (follows : Follows A c.vertices R link view fresh good)

include follows in
/-- An edge whose partition is not queued has a source that sends nothing. -/
theorem send_eq_none_of_unqueued {st : SgState σ υ δ γ} {superp : Nat} {e : E}
    (source : (F.src e).toNat < c.vertices)
    (ofSuperp : c.mapSuperPartition (F.splitKey e 0) = superp)
    (queued : ∀ v < c.vertices, c.mapSuperPartition v = superp →
      R.active st.bspPhase (view (st.state v)) = true → c.mapCachedPartition v ∈ st.scatterFilter)
    (unqueued : c.mapCachedPartition (F.splitKey e 0) ∉ st.scatterFilter) :
    R.send st.bspPhase (view (st.state (F.src e).toNat)) (F.src e).toNat
      (link (F.dst e).toNat (F.edgeWeight e)) = none := by
  rw [F.splitKey_zero] at unqueued ofSuperp
  apply follows.send_active
  rw [← Bool.not_eq_true]
  exact fun active => unqueued (queued _ source ofSuperp active)

include follows in
theorem complete_scanPages (edgesPerPage : Nat) (sources : ∀ e ∈ edges, (F.src e).toNat < c.vertices) :
    Complete c R link view F edges (scanPages c A F edgesPerPage edges : Scan σ υ δ γ E) where
  reads_some st superp := ⟨_, fun _ => true, fun _ _ _ _ => rfl, rfl⟩
  ofSuperp st superp records read e member := by
    obtain ⟨pages, _, rfl⟩ := read
    exact of_decide_eq_true (List.mem_filter.mp (mem_of_mem_readPages member)).2
  sends_all st superp records read queued := by
    obtain ⟨pages, hasActive, rfl⟩ := read
    have known : ∀ e ∈ edgesOf c F edges superp, (F.src e).toNat < c.vertices ∧
        c.mapSuperPartition (F.splitKey e 0) = superp := fun e member =>
      ⟨sources e (List.mem_of_mem_filter member), of_decide_eq_true (List.mem_filter.mp member).2⟩
    have visited : sentAlong R link F st.bspPhase (fun v => view (st.state v))
        ((readPages edgesPerPage pages (edgesOf c F edges superp)).filter fun e =>
          decide (c.mapCachedPartition (F.splitKey e 0) ∈ st.scatterFilter)) =
        sentAlong R link F st.bspPhase (fun v => view (st.state v))
          (readPages edgesPerPage pages (edgesOf c F edges superp)) := by
      refine sentAlong_filter fun e member unqueued => ?_
      have there := known e (mem_of_mem_readPages member)
      exact send_eq_none_of_unqueued follows there.1 there.2 queued (of_decide_eq_false unqueued)
    refine (List.Perm.of_eq visited).trans (sentAlong_readPages fun i e position _ unread => ?_)
    apply follows.send_active
    rw [← follows.check_view, ← Bool.not_eq_true]
    intro active
    rw [hasActive i e position active] at unread
    exact Bool.noConfusion unread

theorem complete_scanWhole :
    Complete c R link view F edges (scanWhole c F edges : Scan σ υ δ γ E) where
  reads_some st superp := ⟨_, rfl⟩
  ofSuperp st superp records read e member := by
    rw [show records = edgesOf c F edges superp from read] at member
    exact of_decide_eq_true (List.mem_filter.mp member).2
  sends_all st superp records read _ := by
    rw [show records = edgesOf c F edges superp from read]
    exact List.Perm.of_eq (congrArg _ (List.filter_true _))

end

/-! ## Two drivers -/

/-- What two drivers agree on in front of a superstep: what is observed of the vertices, the updates under way,
and what the processors counted. -/
structure Alike (c : Configuration) (A : SgAlgorithm σ υ δ γ W) (view : σ → O) (fresh : Nat → O → Prop)
    (good : υ → Prop) (count : δ → Nat) (obs : O → Q) (reported : γ → τ) (st st' : SgState σ υ δ γ) : Prop where
  ready : Ready c A view fresh good st
  ready' : Ready c A view fresh good st'
  bspPhase : st.bspPhase = st'.bspPhase
  state : ∀ v, obs (view (st.state v)) = obs (view (st'.state v))
  updatesIn : st.updatesIn.Perm st'.updatesIn
  counted : counted c count st = counted c count st'
  total : reported st.total = reported st'.total

/-- The reduction looks only at what the processors counted together. -/
structure ReducesAlike (c : Configuration) (A : SgAlgorithm σ υ δ γ W) (count : δ → Nat) (reported : γ → τ)
    (g g' : γ) (algo algo' : Nat → δ) : Prop where
  total : reported (A.reduce g algo c.processors).1 = reported (A.reduce g' algo' c.processors).1
  counts : ∑ p ∈ Finset.range c.processors, count ((A.reduce g algo c.processors).2.1 p) =
    ∑ p ∈ Finset.range c.processors, count ((A.reduce g' algo' c.processors).2.1 p)
  globalStop : (A.reduce g algo c.processors).2.2 = (A.reduce g' algo' c.processors).2.2

section

variable (follows : Follows A c.vertices R link view fresh good)
  (counts : Counts A view good count weight) {obs : O → Q} {reported : γ → τ}
  {scan scan' : Scan σ υ δ γ E}

include follows counts in
/-- A superstep of both drivers. -/
theorem Alike.superstep (free : Bsp.OrderFree R good obs)
    (weighs : ∀ o o', obs o = obs o' → weight o = weight o')
    (reduces : ∀ g g' algo algo', reported g = reported g' →
      ∑ p ∈ Finset.range c.processors, count (algo p) = ∑ p ∈ Finset.range c.processors, count (algo' p) →
      ReducesAlike c A count reported g g' algo algo')
    (stays : ∀ k o, fresh k o → fresh (k + 1) o)
    (complete : Complete c R link view F edges scan) (complete' : Complete c R link view F edges scan')
    (targets : ∀ e ∈ edges, (F.dst e).toNat < c.vertices) {s s' t t' : SgState σ υ δ γ}
    (alike : Alike c A view fresh good count obs reported s t)
    (step : Superstep c A F scan s s') (step' : Superstep c A F scan' t t') :
    Alike c A view fresh good count obs reported s' t' ∧ (Stops c A s' ↔ Stops c A t') := by
  obtain ⟨ready, mail, algo, advances⟩ :=
    advances_of_superstep follows counts complete targets (stays _) alike.ready step
  obtain ⟨ready', mail', algo', advances'⟩ :=
    advances_of_superstep follows counts complete' targets (stays _) alike.ready' step'
  have phase : s'.bspPhase = t'.bspPhase := by
    rw [advances.bspPhase, advances'.bspPhase, alike.bspPhase]
  have superstep' := advances'.superstep
  rw [← alike.bspPhase] at superstep'
  obtain ⟨states, updates, votes⟩ := free.superstep advances.superstep superstep' alike.state
    alike.updatesIn fun u member => (alike.ready.inside u member).1
  have begun : ∑ v ∈ Finset.range c.vertices, weight (R.start s.bspPhase v (view (s.state v))) =
      ∑ v ∈ Finset.range c.vertices, weight (R.start t.bspPhase v (view (t.state v))) := by
    refine Finset.sum_congr rfl fun v _ => weighs _ _ ?_
    rw [← alike.bspPhase]
    exact free.start _ _ _ _ (alike.state v)
  have ended : ∑ v ∈ Finset.range c.vertices, weight (view (s'.state v)) =
      ∑ v ∈ Finset.range c.vertices, weight (view (t'.state v)) :=
    Finset.sum_congr rfl fun v _ => weighs _ _ (states v)
  have sums : ∑ p ∈ Finset.range c.processors, count (algo p) =
      ∑ p ∈ Finset.range c.processors, count (algo' p) := by
    have sum := advances.counts
    have sum' := advances'.counts
    have before := alike.counted
    omega
  have reduced := reduces s.total t.total algo algo' alike.total sums
  have result := advances.reduced
  have result' := advances'.reduced
  have total : s'.total = (A.reduce s.total algo c.processors).1 := congrArg Prod.fst result
  have total' : t'.total = (A.reduce t.total algo' c.processors).1 := congrArg Prod.fst result'
  have data : s'.algoPcpu = (A.reduce s.total algo c.processors).2.1 := congrArg (fun r => r.2.1) result
  have data' : t'.algoPcpu = (A.reduce t.total algo' c.processors).2.1 := congrArg (fun r => r.2.1) result'
  have stop : s'.globalStop = (A.reduce s.total algo c.processors).2.2 := congrArg (fun r => r.2.2) result
  have stop' : t'.globalStop = (A.reduce t.total algo' c.processors).2.2 :=
    congrArg (fun r => r.2.2) result'
  constructor
  · exact {
      ready := ready
      ready' := ready'
      bspPhase := phase
      state := states
      updatesIn := updates
      counted := by
        unfold ScatterGather.counted
        rw [data, data']
        exact reduced.counts
      total := by
        rw [total, total']
        exact reduced.total }
  · unfold Stops
    rw [phase, stop, stop', reduced.globalStop]
    exact and_congr_right fun _ => or_congr_right votes

variable (reported) in
include follows counts in
/-- Drivers with complete scans run in lock step. -/
theorem lockStep (free : Bsp.OrderFree R good obs) (weighs : ∀ o o', obs o = obs o' → weight o = weight o')
    (reduces : ∀ g g' algo algo', reported g = reported g' →
      ∑ p ∈ Finset.range c.processors, count (algo p) = ∑ p ∈ Finset.range c.processors, count (algo' p) →
      ReducesAlike c A count reported g g' algo algo')
    (stays : ∀ k o, fresh k o → fresh (k + 1) o)
    (complete : Complete c R link view F edges scan) (complete' : Complete c R link view F edges scan')
    (targets : ∀ e ∈ edges, (F.dst e).toNat < c.vertices) :
    LockStep (Superstep c A F scan) (Stops c A) (Superstep c A F scan') (Stops c A)
      (Alike c A view fresh good count obs reported) where
  keeps alike step step' :=
    alike.superstep follows counts free weighs reduces stays complete complete' targets step step'
  forth _ step := exists_superstep complete'.reads_some (fits_of_superstep step) _
  back _ step := exists_superstep complete.reads_some (fits_of_superstep step) _

end

end

/-! ## Whole runs -/

section

variable (c : Configuration) (A : SgAlgorithm σ υ δ γ W) (F : FormatUtils E W)

/-- Two scans make no difference: runs have the same number of supersteps and the same results, and one of them
comes to its end if and only if the other does. -/
structure SameRuns (scan scan' : Scan σ υ δ γ E) (result : SgState σ υ δ γ → τ) (st : SgState σ υ δ γ) :
    Prop where
  result : ∀ {n m : Nat} {after after' : SgState σ υ δ γ},
    EndsAfter (Superstep c A F scan) (Stops c A) st n after →
    EndsAfter (Superstep c A F scan') (Stops c A) st m after' → n = m ∧ result after = result after'
  ends : ∀ n : Nat, (∃ after, EndsAfter (Superstep c A F scan) (Stops c A) st n after) ↔
    ∃ after, EndsAfter (Superstep c A F scan') (Stops c A) st n after

variable {c A F}

theorem sameRuns_of_lockStep {scan scan' : Scan σ υ δ γ E} {alike : SgState σ υ δ γ → SgState σ υ δ γ → Prop}
    {result : SgState σ υ δ γ → τ} {st : SgState σ υ δ γ}
    (both : LockStep (Superstep c A F scan) (Stops c A) (Superstep c A F scan') (Stops c A) alike)
    (same : ∀ st st', alike st st' → result st = result st') (refl : alike st st) :
    SameRuns c A F scan scan' result st where
  result ends ends' := by
    obtain ⟨passes, related⟩ := both.endsAfter_eq refl ends ends'
    exact ⟨passes, same _ _ related⟩
  ends n :=
    ⟨fun ⟨_, ends⟩ => both.exists_endsAfter refl ends, fun ⟨_, ends⟩ => both.symm.exists_endsAfter refl ends⟩

end

end ScatterGather

end MBFGraph
