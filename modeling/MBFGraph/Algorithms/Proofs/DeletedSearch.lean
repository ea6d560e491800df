import MBFGraph.Algorithms.Proofs.FilteredSearch
import MBFGraph.Core.Proofs.Deleted
import MBFGraph.UpdateUtility.Proofs.PurgeDelete

/-!
# A search in a graph with deletions

A graph is distributed in mode `create`. Then `delete_page` is run on the edge files, any number of times, and bfs in
mode `use`: the filters are those of the graph as it was. The result is that of the graph that `purge_delete` leaves.
With one super partition the edge file is the graph itself.
-/

namespace MBFGraph

open ByteBits NondetLoop ScatterGather Walks

/-- The part of a list of lists that belongs to `k`. -/
theorem filter_flatMap_range {α : Type} {n k : Nat} {f : Nat → List α} {key : α → Nat}
    (ofKey : ∀ i < n, ∀ x ∈ f i, key x = i) (below : k < n) :
    ((List.range n).flatMap f).filter (fun x => decide (key x = k)) = f k := by
  have upTo (m : Nat) (le : m ≤ n) : ((List.range m).flatMap f).filter (fun x => decide (key x = k)) =
      if k < m then f k else [] := by
    induction m with
    | zero => rfl
    | succ m ih =>
      rw [List.range_succ, List.flatMap_append, List.filter_append, ih (Nat.le_of_succ_le le),
        List.flatMap_singleton]
      by_cases here : k = m
      · subst here
        rw [if_neg (Nat.lt_irrefl k), if_pos (Nat.lt_succ_self k), List.nil_append]
        exact List.filter_eq_self.mpr fun x member => decide_eq_true (ofKey k le x member)
      · have none_ : (f m).filter (fun x => decide (key x = k)) = [] :=
          List.filter_eq_nil_iff.mpr fun x member => by
            rw [ofKey m le x member, decide_eq_true_iff]
            exact fun same => here same.symm
        rw [none_, List.append_nil]
        by_cases before : k < m
        · rw [if_pos before, if_pos (Nat.lt_succ_of_lt before)]
        · rw [if_neg before, if_neg (by omega)]
  rw [upTo n (Nat.le_refl n), if_pos below]

section

variable {c : Configuration} {opts : FilterOptions} {bufbytes : Nat} {efile : List SimpleEdge}
  {bufs : Nat → SuperBuf SimpleEdge} {files purged : Nat → List Byte}

/-- The edge files behind runs of `delete_page`. -/
def DeletesFiles (c : Configuration) (efile : List SimpleEdge) (bufs : Nat → SuperBuf SimpleEdge)
    (files : Nat → List Byte) : Prop :=
  ∀ superp < c.superPartitions,
    Deletes ((edgeFile c.toMapping efile bufs superp).flatMap Type2.edgeBytes) (files superp)

/-- The edges in the purged files. -/
def purgedEdges (c : Configuration) (purged : Nat → List Byte) : List SimpleEdge :=
  (List.range c.superPartitions).flatMap fun superp => Type2.fileEdges (purged superp)

/-- A record of a file with deletions is a tombstone, or it is where it was. -/
theorem DeletesFiles.record (setup : FilterSetup c type2 opts bufbytes efile bufs)
    (deletes : DeletesFiles c efile bufs files) {superp : Nat} (hs : superp < c.superPartitions) {i : Nat}
    {e : SimpleEdge} (found : (Type2.fileEdges (files superp))[i]? = some e) :
    (edgesOf c type2 efile superp)[i]? = some e ∨ e = tombstoneEdge := by
  have either := (deletes superp hs).spec.2 i e found
  rwa [Type2.fileEdges_flatMap, setup.edgeFile_eq hs] at either

theorem DeletesFiles.staysInPlace (setup : FilterSetup c type2 opts bufbytes efile bufs)
    (deletes : DeletesFiles c efile bufs files) :
    StaysInPlace c type2 efile fun superp => Type2.fileEdges (files superp) := by
  intro superp hs i e found mark
  refine (deletes.record setup hs found).resolve_right fun deleted => mark ?_
  rw [deleted]
  rfl

/-- The purge keeps what is not a tombstone. -/
theorem DeletesFiles.keepsEdge_eq (setup : FilterSetup c type2 opts bufbytes efile bufs)
    (deletes : DeletesFiles c efile bufs files) {superp : Nat} (hs : superp < c.superPartitions) {e : SimpleEdge}
    (member : e ∈ Type2.fileEdges (files superp)) : keepsEdge e = live type2 e := by
  obtain ⟨i, found⟩ := List.mem_iff_getElem?.mp member
  rcases deletes.record setup hs found with original | deleted
  · have source := (setup.inside e (List.mem_of_mem_filter (List.mem_of_getElem? original))).1
    have low := setup.low
    have mark : tombstone = 2 ^ 32 - 1 := rfl
    have isLive : live type2 e = true := by
      rw [live_iff, type2.splitKey_zero]
      omega
    have kept : e.src ≠ 0xFFFFFFFF := by
      intro same
      have value : (type2.src e).toNat = 2 ^ 32 - 1 := congrArg BitVec.toNat same
      omega
    rw [isLive]
    exact Bool.or_eq_true_iff.mpr (Or.inl (decide_eq_true kept))
  · rw [deleted]
    rfl

variable (setup : FilterSetup c type2 opts bufbytes efile bufs) (deletes : DeletesFiles c efile bufs files)
  (purges : ∀ superp < c.superPartitions,
    Type2.fileEdges (purged superp) = (Type2.fileEdges (files superp)).filter keepsEdge)

include setup deletes purges in
theorem fileEdges_purged {superp : Nat} (hs : superp < c.superPartitions) :
    Type2.fileEdges (purged superp) = (Type2.fileEdges (files superp)).filter (live type2) := by
  rw [purges superp hs]
  exact List.filter_congr fun e member => deletes.keepsEdge_eq setup hs member

include setup deletes purges in
/-- An edge that is left is an edge of its super partition. -/
theorem mem_edgesOf_of_purged {superp : Nat} (hs : superp < c.superPartitions) {e : SimpleEdge}
    (member : e ∈ Type2.fileEdges (purged superp)) : e ∈ edgesOf c type2 efile superp := by
  rw [fileEdges_purged setup deletes purges hs] at member
  obtain ⟨isRecord, isLive⟩ := List.mem_filter.mp member
  obtain ⟨i, found⟩ := List.mem_iff_getElem?.mp isRecord
  exact List.mem_of_getElem? (deletes.staysInPlace setup superp hs i e found (live_iff.mp isLive))

include setup deletes purges in
theorem leftOf_purged :
    LeftOf c type2 (fun superp => Type2.fileEdges (files superp)) (purgedEdges c purged) := by
  intro superp hs
  rw [← fileEdges_purged setup deletes purges hs]
  refine filter_flatMap_range (fun i below e member => ?_) hs
  exact of_decide_eq_true (List.mem_filter.mp (mem_edgesOf_of_purged setup deletes purges below member)).2

include setup deletes purges in
theorem endsInside_purged : EndsInside type2 (purgedEdges c purged) c.vertices := by
  intro e member
  obtain ⟨superp, isSuperp, isRecord⟩ := List.mem_flatMap.mp member
  have original := mem_edgesOf_of_purged setup deletes purges (List.mem_range.mp isSuperp) isRecord
  exact setup.inside e (List.mem_of_mem_filter original)

end

/-- The file of 0 → 1 → 2 with the second edge deleted. -/
theorem deletes_path : Deletes ([⟨0, 1⟩, ⟨1, 2⟩].flatMap Type2.edgeBytes)
    ([⟨0, 1⟩, tombstoneEdge].flatMap Type2.edgeBytes) :=
  .next (fun _ => 1) 0 2 1 .none (by decide +kernel)

end MBFGraph
