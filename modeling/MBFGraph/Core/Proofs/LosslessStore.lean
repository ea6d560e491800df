import MBFGraph.Core.Proofs.WriteBack
import MBFGraph.Algorithms.HyperAnf

/-!
# Stores of the vertex state

A store loses nothing in runs whose reported records have two sectors at most. A `hyperanf`
record of 1056 bytes has three, and the one in the middle is never written.
-/

namespace MBFGraph

open ByteBits Overwrite

/-- In every run whose visits report the records they change, report every record where the file
holds nothing yet, and report records of two sectors at most, no store loses anything, as long as
sector numbers fit in 32 bits. -/
theorem writeBack_lossless (A : VertexProgram) (c : Configuration) (fuse : Bool)
    (st : WriteBackState)
    (fit : ∀ s < c.superPartitions, c.records s * A.vertexStateBytes ≤ stateBufsize A c)
    (small : stateBufsize A c < 2 ^ 41)
    (run : WriteBackRun A c fuse
      (fun st changes => ReportsChanges A c st changes ∧ WritesBackAll A c fuse st changes) st) :
    Lossless A c st :=
  (writeBackInv_of_run fit small run).lossless fit

/-- Two vertices, each in a super partition of its own. -/
def pairConfiguration : Configuration where
  superPartitions := 2
  cachedPartitions := 1
  superPartitions_pow := Mapping.isPow_two
  cachedPartitions_pow := Mapping.isPow_one
  processors := 1
  vertices := 2
  processors_pow := Mapping.isPow_one
  vertices_pos := Nat.two_pos

theorem pairConfiguration_stateIter :
    (List.range pairConfiguration.processors).flatMap (pairConfiguration.stateIter 0) =
      [(0, 0)] := by
  simp [pairConfiguration, Configuration.stateIter, Configuration.stateIterPartitions,
    Configuration.stateCount, Mapping.partitionShift, Mapping.superPartitionShift, halvings]

theorem pairConfiguration_isVertex_iff (v : Nat × Nat) :
    IsVertex pairConfiguration 0 v ↔ v = (0, 0) := by
  rw [← mem_vertices_iff, pairConfiguration_stateIter, List.mem_singleton]

theorem pairConfiguration_records {s : Nat} (below : s < 2) :
    pairConfiguration.records s = 1 := by
  have cases : s = 0 ∨ s = 1 := by omega
  rcases cases with rfl | rfl <;>
    simp [pairConfiguration, Configuration.records, Configuration.firstRecord,
      Configuration.stateCount, Mapping.partitionShift, Mapping.superPartitionShift, halvings]

theorem pairConfiguration_recordOf : recordOf pairConfiguration 0 (0, 0) = 0 := rfl

/-- The driver before the first superstep. -/
def pairStart (log2M : Nat) : WriteBackState :=
  ⟨0, 0, List.replicate (stateBufsize (hyperanf log2M) pairConfiguration) 0, fun _ => [],
    fun _ => none⟩

/-- `init` of vertex 0. -/
def pairChanges (log2M : Nat) : Changes :=
  [(0, HyperAnf.init log2M 0 (List.replicate (hyperanf log2M).vertexStateBytes 0))]

theorem pairChanges_fit (log2M : Nat) :
    ChangesFit (hyperanf log2M) pairConfiguration (pairStart log2M) (pairChanges log2M) := by
  intro change member
  obtain rfl := List.mem_singleton.mp member
  refine ⟨?_, HyperAnf.length_init _ 0 List.length_replicate⟩
  change 0 < pairConfiguration.records 0
  rw [pairConfiguration_records (by decide)]
  decide

/-- `hyperanf` reports every record. -/
theorem hyperanf_reportsChanges (log2M : Nat) (c : Configuration) (st : WriteBackState)
    (changes : Changes) : ReportsChanges (hyperanf log2M) c st changes := by
  intro v _
  refine ⟨fun _ => rfl, ?_⟩
  intro unreported
  contradiction

/-- The first visit of the run in which `init` sets up vertex 0. -/
def pairVisit (log2M : Nat) : WriteBackState :=
  visit (hyperanf log2M) pairConfiguration false (pairStart log2M) (pairChanges log2M)
    (storeWrites (hyperanf log2M) pairConfiguration (pairStart log2M) (pairChanges log2M))

theorem pairVisit_run {log2M : Nat} {ok : WriteBackState → Changes → Prop}
    (good : ok (pairStart log2M) (pairChanges log2M)) :
    WriteBackRun (hyperanf log2M) pairConfiguration false ok (pairVisit log2M) :=
  .visit (.start List.length_replicate) (pairChanges_fit log2M) good (List.Perm.refl _)

theorem pairConfiguration_fit (log2M : Nat) (s : Nat) (below : s < pairConfiguration.superPartitions) :
    pairConfiguration.records s * (hyperanf log2M).vertexStateBytes ≤
      stateBufsize (hyperanf log2M) pairConfiguration := by
  rw [pairConfiguration_records below]
  change 1 * (hyperanf log2M).vertexStateBytes ≤
    (2 / 2 * (hyperanf log2M).vertexStateBytes + 8192 - 1) / 8192 * 8192
  omega

/-- With 32 registers a record is 64 bytes long, and a store loses nothing. -/
theorem writeBack_lossless_hyperanf_32 :
    Lossless (hyperanf 5) pairConfiguration (pairVisit 5) := by
  refine writeBack_lossless (hyperanf 5) pairConfiguration false (pairVisit 5)
    (pairConfiguration_fit 5) (by decide) ?_
  refine pairVisit_run ⟨hyperanf_reportsChanges 5 _ _ _, ?_, fun _ v _ => rfl⟩
  intro v isVertex _
  obtain rfl := (pairConfiguration_isVertex_iff v).mp isVertex
  rw [show recordOf pairConfiguration (pairStart 5).superp (0, 0) = 0 from rfl]
  unfold TwoSectors
  decide

section LostSector

variable {log2M : Nat}

theorem length_scattered_pair :
    (scattered (hyperanf log2M) pairConfiguration (pairStart log2M) (pairChanges log2M)).length =
      stateBufsize (hyperanf log2M) pairConfiguration := by
  have start : (stateLoad (hyperanf log2M) pairConfiguration (pairStart log2M)).length =
      stateBufsize (hyperanf log2M) pairConfiguration := List.length_replicate
  have fit := pairConfiguration_fit log2M 0 (by decide)
  rw [(scattered_spec (pairChanges_fit log2M) (by rw [start]; exact fit)).1, start]

theorem length_marked_pair
    (small : stateBufsize (hyperanf log2M) pairConfiguration < 2 ^ 41) :
    (marked (hyperanf log2M) pairConfiguration (pairStart log2M) (pairChanges log2M)).buffer.length =
      stateBufsize (hyperanf log2M) pairConfiguration := by
  have fit := pairConfiguration_fit log2M 0 (by decide)
  have marks := marks_markChanged 0 0 length_scattered_pair fit small
  exact marks.length.trans length_scattered_pair

theorem covered_storeWrites_pair_iff
    (small : stateBufsize (hyperanf log2M) pairConfiguration < 2 ^ 41) {x : Nat}
    (below : x < stateBufsize (hyperanf log2M) pairConfiguration) :
    (∃ w ∈ storeWrites (hyperanf log2M) pairConfiguration (pairStart log2M) (pairChanges log2M),
        Covers w x) ↔
      bitAt (marked (hyperanf log2M) pairConfiguration (pairStart log2M)
        (pairChanges log2M)).verBufChg (x / 512) = true :=
  covered_randomWrites_iff (length_marked_pair small) below

/-- The buffer that is stored holds the record that `init` made. -/
theorem block_marked_pair
    (small : stateBufsize (hyperanf log2M) pairConfiguration < 2 ^ 41) :
    block (hyperanf log2M).vertexStateBytes
        (marked (hyperanf log2M) pairConfiguration (pairStart log2M) (pairChanges log2M)).buffer 0 =
      HyperAnf.init log2M 0 (List.replicate (hyperanf log2M).vertexStateBytes 0) := by
  have fit := pairConfiguration_fit log2M 0 (by decide)
  have marks := marks_markChanged 0 0 length_scattered_pair fit small
  rw [pairConfiguration_stateIter] at marks
  have visited := marks.visited (0, 0) (List.mem_singleton_self _)
  have start : (stateLoad (hyperanf log2M) pairConfiguration (pairStart log2M)).length =
      stateBufsize (hyperanf log2M) pairConfiguration := List.length_replicate
  have inside : (0 + 1) * (hyperanf log2M).vertexStateBytes ≤
      (stateLoad (hyperanf log2M) pairConfiguration (pairStart log2M)).length := by
    rw [pairConfiguration_records (by decide)] at fit
    rw [start]
    simpa using fit
  have size := HyperAnf.length_init log2M 0 (List.length_replicate (a := (0 : Byte)))
  have stored := block_overwrite size inside 0
  rw [if_pos rfl] at stored
  exact visited.trans stored

/-- Sectors 0 and 2 are marked, sector 1 is not. -/
theorem bitAt_marked_pair :
    bitAt (marked (hyperanf 10) pairConfiguration (pairStart 10) (pairChanges 10)).verBufChg 1 =
      false := by
  have iter : pairConfiguration.stateIter 0 0 = [(0, 0)] := by
    have all := pairConfiguration_stateIter
    simpa [pairConfiguration] using all
  unfold marked markChanged
  rw [show List.range pairConfiguration.processors = [0] from rfl, List.foldl_cons, List.foldl_nil]
  unfold stateIterProcessor
  rw [show (pairStart 10).superp = 0 from rfl, iter, List.foldl_cons, List.foldl_nil]
  unfold stateIterCallback
  have first : recordOf pairConfiguration 0 (0, 0) * (hyperanf 10).vertexStateBytes / 512 % 2 ^ 32 =
      0 := by decide
  have last : (recordOf pairConfiguration 0 (0, 0) * (hyperanf 10).vertexStateBytes +
      (hyperanf 10).vertexStateBytes - 1) / 512 % 2 ^ 32 = 2 := by decide
  have reported : ∀ record index phase,
      ((hyperanf 10).checkResetChanged record index phase).1 = true := fun _ _ _ => rfl
  simp only [first, last, reported, if_true]
  rw [if_pos (Or.inl (by simp))]
  simp only [bitAt_setBit, clearedVerBufChg, bitAt_replicate_zero]
  simp

/-- The visit is not lossless: the register of vertex 0 is in sector 1. -/
theorem not_lossless_pairVisit : ¬ Lossless (hyperanf 10) pairConfiguration (pairVisit 10) := by
  intro lossless
  have small : stateBufsize (hyperanf 10) pairConfiguration < 2 ^ 41 := by decide
  have last : (pairVisit 10).stored 0 = some (marked (hyperanf 10) pairConfiguration (pairStart 10)
      (pairChanges 10)).buffer := rfl
  obtain ⟨kept, -⟩ := lossless 0 _ last
  have size : pairConfiguration.records 0 * (hyperanf 10).vertexStateBytes = 1056 := by
    rw [pairConfiguration_records (by decide)]
    decide
  rw [size] at kept
  have register : (marked (hyperanf 10) pairConfiguration (pairStart 10)
      (pairChanges 10)).buffer[949]? = some 3 := by
    have hash : HyperAnf.jenkins (BitVec.ofNat 64 0) 0xdeadbeef#64 = 0x5e9ab5e58da57395#64 := by
      decide +kernel
    have initial := HyperAnf.getElem?_init 10 0
      (List.replicate (hyperanf 10).vertexStateBytes 0) List.length_replicate hash
    have index : HyperAnf.sizeofHyperanfVertex + (0x5e9ab5e58da57395#64).toNat % 2 ^ 10 = 949 := by
      decide +kernel
    have value : (BitVec.ofNat 8 (HyperAnf.ffs
        ((0x5e9ab5e58da57395#64 >>> 10).setWidth 32)) : Byte) = 3 := by decide +kernel
    rw [← block_marked_pair small, index, value, getElem?_block _ _ (by decide)] at initial
    simpa using initial
  have lost : (applyWrites (storeWrites (hyperanf 10) pairConfiguration (pairStart 10)
      (pairChanges 10)) []).getD 949 default = default := by
    rw [getD_applyWrites_of_not_covered]
    · rfl
    · intro w member covers
      have below : 949 < stateBufsize (hyperanf 10) pairConfiguration := by decide
      have set := (covered_storeWrites_pair_iff small below).mp ⟨w, member, covers⟩
      rw [show 949 / 512 = 1 from rfl, bitAt_marked_pair] at set
      exact Bool.false_ne_true set
  have stored : ((pairVisit 10).files 0)[949]? = some 3 := by
    have same := congrArg (fun bytes => bytes[949]?) kept
    simp only [List.getElem?_take_of_lt (show 949 < 1056 by decide), register] at same
    exact same
  change (applyWrites (storeWrites (hyperanf 10) pairConfiguration (pairStart 10)
    (pairChanges 10)) [])[949]? = some 3 at stored
  rw [List.getD_eq_getElem?_getD, stored] at lost
  exact absurd lost (by decide)

/-- Reporting what was changed is not enough: `hyperanf` with 1024 registers reports every record
and still loses the middle sector of the first record that it stores. -/
theorem writeBack_loses_middle_sector :
    ¬ ∀ (A : VertexProgram) (c : Configuration) (st : WriteBackState), 1 < c.superPartitions →
      (∀ s < c.superPartitions, c.records s * A.vertexStateBytes ≤ stateBufsize A c) →
      WriteBackRun A c false (ReportsChanges A c) st → Lossless A c st := by
  intro all
  exact not_lossless_pairVisit (all (hyperanf 10) pairConfiguration (pairVisit 10) (by decide)
    (pairConfiguration_fit 10) (pairVisit_run (hyperanf_reportsChanges 10 _ _ _)))

end LostSector

end MBFGraph
