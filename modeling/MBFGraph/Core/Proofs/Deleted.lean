import MBFGraph.Core.Proofs.Filtered

/-!
# Deleted edges

The scatter phase passes over a deleted edge (`sg_driver.hpp:1094-1097`). A scan that delivers none of them has the
same supersteps. Behind the filters, edges may be deleted from a file whose filters were made before: as long as
every other record is where it was, all updates are sent.
-/

namespace MBFGraph

open ByteBits

namespace ScatterGather

section

variable {σ υ δ γ E W : Type} {c : Configuration} {A : SgAlgorithm σ υ δ γ W} {F : FormatUtils E W}

/-- The edge is not deleted. -/
def live (F : FormatUtils E W) (e : E) : Bool := F.splitKey e 0 ≠ tombstone

theorem live_iff {e : E} : live F e = true ↔ F.splitKey e 0 ≠ tombstone := decide_eq_true_iff

/-- The scan without deleted edges. -/
def Scan.live (F : FormatUtils E W) (scan : Scan σ υ δ γ E) : Scan σ υ δ γ E where
  reads st superp records := ∃ all, scan.reads st superp all ∧ records = all.filter (ScatterGather.live F)
  visits := scan.visits

/-- The visit without deleted edges. -/
def Visit.withoutDeleted (F : FormatUtils E W) (v : Visit E) : Visit E :=
  { v with records := v.records.filter (live F) }

theorem scatterRecord_of_deleted {superp processor partition : Nat} {st : SgState σ υ δ γ} {e : E}
    (deleted : live F e = false) : scatterRecord c A F superp processor partition st e = st :=
  if_pos (by_contra fun mark => Bool.noConfusion (deleted.symm.trans (live_iff.mpr mark)))

theorem scatterVisit_withoutDeleted (superp : Nat) (st : SgState σ υ δ γ) (v : Visit E) :
    scatterVisit c A F superp st (Visit.withoutDeleted F v) = scatterVisit c A F superp st v := by
  unfold scatterVisit Visit.withoutDeleted
  rw [List.foldl_filter]
  refine List.foldl_ext _ _ _ fun st e _ => ?_
  split
  · rfl
  · rename_i deleted
    exact (scatterRecord_of_deleted (Bool.not_eq_true _ ▸ deleted)).symm

theorem scatterVisit_of_deleted {superp : Nat} {st : SgState σ υ δ γ} {v : Visit E}
    (deleted : ∀ e ∈ v.records, live F e = false) : scatterVisit c A F superp st v = st := by
  have none_ : v.records.filter (live F) = [] :=
    List.filter_eq_nil_iff.mpr fun e member => Bool.not_eq_true _ ▸ deleted e member
  rw [← scatterVisit_withoutDeleted]
  unfold scatterVisit Visit.withoutDeleted
  rw [none_]
  rfl

variable {key : E → Nat} {visited : Nat → Bool} {records : List E} {visits : List (Visit E)}

theorem delivers_withoutDeleted (delivers : Delivers c (fun e => F.splitKey e 0) visited records visits) :
    Delivers c (fun e => F.splitKey e 0) visited (records.filter (live F))
      (visits.map (Visit.withoutDeleted F)) where
  processor_lt v member := by
    obtain ⟨v', member', rfl⟩ := List.mem_map.mp member
    exact delivers.processor_lt v' member'
  partition_eq v member e delivered := by
    obtain ⟨v', member', rfl⟩ := List.mem_map.mp member
    exact delivers.partition_eq v' member' e (List.mem_of_mem_filter delivered)
  perm := by
    have kept := delivers.perm.filter (live F)
    rw [List.filter_flatMap] at kept
    rw [List.flatMap_map, List.filter_comm]
    exact kept

/-- The deleted edges are put into a visit of their own: they all have the same key. -/
theorem delivers_withDeleted
    (delivers : Delivers c (fun e => F.splitKey e 0) visited (records.filter (live F)) visits) :
    Delivers c (fun e => F.splitKey e 0) visited records (visits ++
      [⟨0, c.mapCachedPartition tombstone, (records.filter fun e => !live F e).filter fun e =>
        visited (c.mapCachedPartition (F.splitKey e 0))⟩]) where
  processor_lt v member := by
    rcases List.mem_append.mp member with among | last
    · exact delivers.processor_lt v among
    · rw [List.mem_singleton.mp last]
      exact c.processors_pos
  partition_eq v member e delivered := by
    rcases List.mem_append.mp member with among | last
    · exact delivers.partition_eq v among e delivered
    · rw [List.mem_singleton.mp last] at delivered ⊢
      have deleted := (List.mem_filter.mp (List.mem_of_mem_filter delivered)).2
      have mark : F.splitKey e 0 = tombstone := by
        by_contra other
        rw [live_iff.mpr other] at deleted
        contradiction
      change c.mapCachedPartition (F.splitKey e 0) = _
      rw [mark]
  perm := by
    rw [List.flatMap_append, List.flatMap_singleton]
    refine (delivers.perm.append_right _).trans ?_
    rw [← List.filter_append]
    exact (List.filter_append_perm _ records).filter _

/-- It makes no difference whether deleted edges are delivered. -/
theorem superstep_live (scan : Scan σ υ δ γ E) :
    Superstep c A F (scan.live F) = Superstep c A F scan := by
  refine superstep_eq_of_scatters (superps_of_scatters ?_ (Nat.le_refl _))
    (superps_of_scatters ?_ (Nat.le_refl _))
  · intro st superp records visits hs read delivers
    obtain ⟨all, readAll, rfl⟩ := read
    refine ⟨all, _, readAll, delivers_withDeleted delivers, ?_⟩
    unfold scatterPhase
    rw [List.foldl_append, List.foldl_cons, List.foldl_nil, scatterVisit_of_deleted]
    intro e delivered
    have deleted := (List.mem_filter.mp (List.mem_of_mem_filter delivered)).2
    exact (Bool.not_eq_true' _).mp deleted
  · intro st superp records visits hs read delivers
    refine ⟨_, _, ⟨records, read, rfl⟩, delivers_withoutDeleted delivers, ?_⟩
    unfold scatterPhase
    rw [List.foldl_map]
    simp only [scatterVisit_withoutDeleted]

end

/-! ## Deletions behind the filters -/

section

variable {σ υ δ γ O E X : Type} [Inhabited E] [DecidableEq E] {c : Configuration} {A : SgAlgorithm σ υ δ γ}
  {F : FormatUtils E} {opts : FilterOptions} {bufbytes : Nat} {efile left : List E} {bufs : Nat → SuperBuf E}
  {files : Nat → List E} {R : Bsp.Rules Nat O υ X} {link : Nat → Unit → X} {view : σ → O}
  {fresh : Nat → O → Prop} {good : υ → Prop}

/-- Every record that is not deleted is where it was when the filters were made. -/
def StaysInPlace (c : Configuration) (F : FormatUtils E) (efile : List E) (files : Nat → List E) : Prop :=
  ∀ superp < c.superPartitions, ∀ (i : Nat) (e : E), (files superp)[i]? = some e → F.splitKey e 0 ≠ tombstone →
    (edgesOf c F efile superp)[i]? = some e

/-- The edges that are left are the records that are not deleted. -/
def LeftOf (c : Configuration) (F : FormatUtils E) (files : Nat → List E) (left : List E) : Prop :=
  ∀ superp < c.superPartitions, edgesOf c F left superp = (files superp).filter (live F)

/-- With filters for the edges as they were, everything is sent along the edges that are left. -/
theorem complete_scanDeleted (follows : Follows A c.vertices R link view fresh good)
    (setup : FilterSetup c F opts bufbytes efile bufs) (stays : StaysInPlace c F efile files)
    (isLeft : LeftOf c F files left) :
    Complete c R link view F left (Scan.within c (Scan.live F (scanFiltered c A opts bufbytes efile.length
      files fun superp => (bufs superp).bfFp.content)) : Scan σ υ δ γ E) := by
  have known : ∀ superp < c.superPartitions, ∀ e ∈ files superp, F.splitKey e 0 ≠ tombstone →
      (F.src e).toNat < c.vertices ∧ c.mapSuperPartition (F.splitKey e 0) = superp := by
    intro superp hs e member mark
    obtain ⟨i, found⟩ := List.mem_iff_getElem?.mp member
    have original := List.mem_of_getElem? (stays superp hs i e found mark)
    exact ⟨(setup.inside e (List.mem_of_mem_filter original)).1,
      of_decide_eq_true (List.mem_filter.mp original).2⟩
  constructor
  · intro st superp
    by_cases hs : superp < c.superPartitions
    · obtain ⟨records, reads⟩ := exists_readsFiltered setup hs st (files superp)
      exact ⟨_, (if_pos hs).mpr ⟨records, reads, rfl⟩⟩
    · exact ⟨[], (if_neg hs).mpr rfl⟩
  · intro st superp records reads e member
    by_cases hs : superp < c.superPartitions
    · obtain ⟨all, readsAll, rfl⟩ := (if_pos hs).mp reads
      obtain ⟨pages, _, rfl⟩ := pages_of_readsFiltered setup hs readsAll
      obtain ⟨isRead, isLive⟩ := List.mem_filter.mp member
      exact (known superp hs e (mem_of_mem_readPages isRead) (live_iff.mp isLive)).2
    · rw [(if_neg hs).mp reads] at member
      exact absurd member List.not_mem_nil
  · intro st superp records reads queued
    by_cases hs : superp < c.superPartitions
    · obtain ⟨all, readsAll, rfl⟩ := (if_pos hs).mp reads
      obtain ⟨pages, hasActive, rfl⟩ := pages_of_readsFiltered setup hs readsAll
      have visited : sentAlong R link F st.bspPhase (fun v => view (st.state v))
          (((readPages opts.bloom.bfsPerPage pages (files superp)).filter (live F)).filter fun e =>
            decide (c.mapCachedPartition (F.splitKey e 0) ∈ st.scatterFilter)) =
          sentAlong R link F st.bspPhase (fun v => view (st.state v))
            ((readPages opts.bloom.bfsPerPage pages (files superp)).filter (live F)) := by
        refine sentAlong_filter fun e member unqueued => ?_
        obtain ⟨isRead, isLive⟩ := List.mem_filter.mp member
        have there := known superp hs e (mem_of_mem_readPages isRead) (live_iff.mp isLive)
        exact send_eq_none_of_unqueued follows there.1 there.2 queued (of_decide_eq_false unqueued)
      have paged : (sentAlong R link F st.bspPhase (fun v => view (st.state v))
          (readPages opts.bloom.bfsPerPage pages (files superp))).Perm
          (sentAlong R link F st.bspPhase (fun v => view (st.state v)) (files superp)) := by
        refine sentAlong_readPages fun i e position mark unread => ?_
        apply follows.send_active
        rw [← follows.check_view, ← Bool.not_eq_true]
        intro active
        rw [hasActive i e (stays superp hs i e position mark) active] at unread
        exact Bool.noConfusion unread
      rw [isLeft superp hs]
      refine (List.Perm.of_eq visited).trans ?_
      exact ((List.Perm.of_eq (sentAlong_live _ _ _)).trans paged).trans
        (List.Perm.of_eq (sentAlong_live _ _ _).symm)
    · have none_ : edgesOf c F left superp = [] := superEdges_of_ge (Nat.le_of_not_lt hs) left
      rw [(if_neg hs).mp reads, none_]
      exact List.Perm.refl _

end

end ScatterGather

end MBFGraph
