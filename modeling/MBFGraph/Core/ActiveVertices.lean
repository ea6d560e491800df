import MBFGraph.Algorithms.Benchmarks

/-!
# The list of active vertices

In `phase_BF_checking_2` (`sg_driver.hpp:797-852`) the driver collects the active vertices of the cached
partitions in `all_BF_vertex`, which the constructor has sized (`sg_driver.hpp:656-658`), and pads them; the
kernel `CPU` reads four at a time (`sg_driver.hpp:1023-1043`). `none` is an access outside of the array.
-/

namespace MBFGraph

/-- `CHIP_V_ONCE`, an `int`. -/
def chipVOnce (option : Nat) : Int := (BitVec.ofNat 32 option).toInt

/-- The assertions on the options. -/
def AcceptsCheck (maxCheckVOption chipVOnceOption superPartitions : Nat) : Prop :=
  0 < superPartitions ∧ maxCheckV maxCheckVOption superPartitions < 100000000 ∧
    0 < chipVOnce chipVOnceOption

instance (maxCheckVOption chipVOnceOption superPartitions : Nat) :
    Decidable (AcceptsCheck maxCheckVOption chipVOnceOption superPartitions) :=
  inferInstanceAs (Decidable (_ ∧ _ ∧ _))

/-- `all_BF_cnt` behind `phase_BF_checking_1`, an `unsigned int`. -/
def countActive (bfVertex : List (List VertexT)) : Nat :=
  bfVertex.foldl (fun allBFCnt active => (allBFCnt + active.length) % 2 ^ 32) 0

/-- The test in front of `phase_BF_checking_2`. -/
def EntersCheck (maxCheckVOption superPartitions : Nat) (bfVertex : List (List VertexT)) : Prop :=
  countActive bfVertex < maxCheckV maxCheckVOption superPartitions ∧
    maxCheckV maxCheckVOption superPartitions ≠ 1

instance (maxCheckVOption superPartitions : Nat) (bfVertex : List (List VertexT)) :
    Decidable (EntersCheck maxCheckVOption superPartitions bfVertex) :=
  inferInstanceAs (Decidable (_ ∧ _))

/-- `all_BF_vertex[i] = v`. -/
def storeVertex (allBFVertex : List VertexT) (i : Nat) (v : VertexT) : Option (List VertexT) :=
  if i < allBFVertex.length then some (allBFVertex.set i v) else none

/-- The loop over `k`, from `k` on. -/
def collectPartition (allBFCnt : Nat) : List VertexT → Nat → List VertexT → Option (List VertexT)
  | allBFVertex, _, [] => some allBFVertex
  | allBFVertex, k, v :: active =>
    (storeVertex allBFVertex ((allBFCnt + k) % 2 ^ 32) v).bind fun allBFVertex =>
      collectPartition allBFCnt allBFVertex (k + 1) active

/-- The loop over the cached partitions, with the vertices of each. -/
def collectActive : List VertexT → Nat → List (List VertexT) → Option (List VertexT × Nat)
  | allBFVertex, allBFCnt, [] => some (allBFVertex, allBFCnt)
  | allBFVertex, allBFCnt, active :: bfVertex =>
    (collectPartition allBFCnt allBFVertex 0 active).bind fun allBFVertex =>
      collectActive allBFVertex ((allBFCnt + active.length) % 2 ^ 32) bfVertex

/-- The loop that repeats the last vertex, with so many turns left. -/
def padActive (allBFCnt : Nat) : List VertexT → Nat → Nat → Option (List VertexT)
  | allBFVertex, _, 0 => some allBFVertex
  | allBFVertex, i, turns + 1 =>
    (allBFVertex[allBFCnt - 1]?).bind fun last =>
      (storeVertex allBFVertex i last).bind fun allBFVertex => padActive allBFCnt allBFVertex (i + 1) turns

/-- `all_BF_vertex` and `all_BF_cnt` in front of `do_meta_stream`. -/
def listActive (chipVOnce : Nat) (allBFVertex : List VertexT) (bfVertex : List (List VertexT)) :
    Option (List VertexT × Nat) :=
  (collectActive allBFVertex 0 bfVertex).bind fun (allBFVertex, allBFCnt) =>
    if allBFCnt % chipVOnce ≠ 0 then
      let newAllBFCnt := (allBFCnt / chipVOnce + 1) * chipVOnce % 2 ^ 32
      (padActive allBFCnt allBFVertex allBFCnt (newAllBFCnt - allBFCnt)).map fun allBFVertex =>
        (allBFVertex, newAllBFCnt)
    else some (allBFVertex, allBFCnt)

/-- The indices that the kernel reads for a filter group. -/
def kernelReads (allBFCnt : Nat) : List Nat :=
  (List.range ((allBFCnt + 3) / 4)).flatMap fun turn => (List.range 4).map fun j => 4 * turn + j

/-- For every content that `all_BF_vertex` may have had: no access is outside of the array, the kernel only
reads vertices that were put there, and these are the active vertices. -/
def StaysInside (maxCheckVOption chipVOnceOption : Nat) (bfVertex : List (List VertexT)) : Prop :=
  ∀ old : List VertexT, old.length = maxCheckVOption % 2 ^ 32 →
    ∃ allBFVertex allBFCnt,
      listActive (chipVOnce chipVOnceOption).toNat old bfVertex = some (allBFVertex, allBFCnt) ∧
        (∀ i ∈ kernelReads allBFCnt, i < allBFCnt) ∧
        ∀ v, v ∈ allBFVertex.take allBFCnt ↔ v ∈ bfVertex.flatten

end MBFGraph
