import MBFGraph.Core.ActiveVertices
import MBFGraph.Core.BloomQuery
import MBFGraph.Core.Selective

/-!
# The scatter phase behind the filters

What `scatter_gather::operator()` does for a super partition between its gather and its scatter phase
(`sg_driver.hpp:780-872`): it counts and collects the active vertices, queries the filter file for them, and hands
`BF_bitset` to the edge stream, which then delivers the selected pages. Which buffers the filter file comes in, and
in which order the processors store their results, is left open.
-/

namespace MBFGraph

open ByteBits Stores

/-- The options `bits_per_BF`, `bfs_per_page`, `max_check_v` and `chip_v_once`. -/
structure FilterOptions where
  bloom : BloomOptions
  maxCheckV : Nat
  chipVOnce : Nat

/-- The stream of a super partition's filter file: buffers of whole groups. -/
structure Buffered (o : BloomOptions) (bufbytes : Nat) (file : List Byte) (buffers : List (List Byte)) : Prop where
  flatten : buffers.flatten = file
  nonempty : ∀ buffer ∈ buffers, buffer ≠ []
  groups : ∀ buffer ∈ buffers, simdLen * (o.bitsPerBF / 8) ∣ buffer.length
  room : ∀ buffer ∈ buffers, buffer.length ≤ bufbytes

namespace ScatterGather

variable {σ υ δ γ E W : Type} (c : Configuration) (A : SgAlgorithm σ υ δ γ W) (F : FormatUtils E W)

/-- `state_iter_callback` in `phase_BF_checking_2`. -/
def checkVertex (superp : Nat) (st : SgState σ υ δ γ) (bfVertex : Nat → List VertexT) (at_ : Nat × Nat) :
    Nat → List VertexT :=
  let globalIndex := c.mapInverse superp at_.1 at_.2
  if A.checkBsp (st.state globalIndex) st.bspPhase then
    Function.update bfVertex at_.1 (bfVertex at_.1 ++ [BitVec.ofNat 32 globalIndex])
  else bfVertex

/-- `BF_vertex` behind `do_state_iter`. `phase_BF_checking_1` counts the same vertices. -/
def bfVertex (superp : Nat) (st : SgState σ υ δ γ) : List (List VertexT) :=
  (List.range c.cachedPartitions).map
    (((List.range c.processors).flatMap (c.stateIter superp)).foldl (checkVertex c A superp st) fun _ => [])

variable (opts : FilterOptions)

/-- The test in front of `phase_BF_checking_2`. `A::min_super_phases() - 1` is unsigned. -/
def QueriesFilters (superp : Nat) (st : SgState σ υ δ γ) : Prop :=
  (0 < A.minSuperPhases ∧ A.minSuperPhases - 1 ≤ st.bspPhase) ∧
    EntersCheck opts.maxCheckV c.superPartitions (bfVertex c A superp st)

instance (superp : Nat) (st : SgState σ υ δ γ) : Decidable (QueriesFilters c A opts superp st) :=
  inferInstanceAs (Decidable ((_ ∧ _) ∧ _))

/-- `BF_bitset` behind `do_meta_stream` and `BF_bitset[0] |= 1`, for a filter file and `all_BF_vertex`. -/
inductive Queried (bufbytes edges : Nat) (file : List Byte) (allBFVertex : List VertexT) (allBFCnt : Nat) :
    List Byte → Prop
  | query {buffers : List (List Byte)} {calls : List MetaCall} {stores order : List (Store 256)}
      (buffered : Buffered opts.bloom bufbytes file buffers)
      (streamed : doMetaStream opts.bloom c.processors buffers 0 = some calls)
      (stored : queryStores opts.bloom allBFVertex allBFCnt calls = some stores) (perm : order.Perm stores) :
      Queried bufbytes edges file allBFVertex allBFCnt
        (setBit (applyStores order (clearedBitset opts.bloom edges)) 0)

/-- The records that the edge stream delivers. The second test of the driver is about the padded number. -/
inductive ReadsFiltered (bufbytes edges : Nat) (edgeFile : List E) (bfFile : List Byte) (superp : Nat)
    (st : SgState σ υ δ γ) : List E → Prop
  | whole (skips : ¬ QueriesFilters c A opts superp st) :
      ReadsFiltered bufbytes edges edgeFile bfFile superp st edgeFile
  | filtered {old allBFVertex : List VertexT} {allBFCnt : Nat} {bitset : List Byte}
      (queries : QueriesFilters c A opts superp st) (array : old.length = opts.maxCheckV % 2 ^ 32)
      (listed : listActive (chipVOnce opts.chipVOnce).toNat old (bfVertex c A superp st) =
        some (allBFVertex, allBFCnt))
      (queried : Queried c opts bufbytes edges bfFile allBFVertex allBFCnt bitset) :
      ReadsFiltered bufbytes edges edgeFile bfFile superp st
        (if allBFCnt < maxCheckV opts.maxCheckV c.superPartitions then
          readPages opts.bloom.bfsPerPage (bitAt bitset) edgeFile
        else edgeFile)

/-- The scan of a graph whose edges and filters are in files, one of each for every super partition. -/
def scanFiltered (bufbytes edges : Nat) (edgeFile : Nat → List E) (bfFile : Nat → List Byte) :
    Scan σ υ δ γ E where
  reads st superp records :=
    ReadsFiltered c A opts bufbytes edges (edgeFile superp) (bfFile superp) superp st records
  visits st partition := decide (partition ∈ st.scatterFilter)

/-- Whenever the driver queries a filter file, no access is outside of `all_BF_vertex`, no assertion fails, and no
product is out of range. -/
def FiltersSafe (bufbytes : Nat) (bfFile : Nat → List Byte) : Prop :=
  ∀ (st : SgState σ υ δ γ) (superp : Nat), superp < c.superPartitions → QueriesFilters c A opts superp st →
    ∀ old : List VertexT, old.length = opts.maxCheckV % 2 ^ 32 →
    ∃ allBFVertex allBFCnt,
      listActive (chipVOnce opts.chipVOnce).toNat old (bfVertex c A superp st) = some (allBFVertex, allBFCnt) ∧
      (∀ i ∈ kernelReads allBFCnt, i < allBFCnt) ∧
      ∀ buffers, Buffered opts.bloom bufbytes (bfFile superp) buffers →
        ∃ calls stores, doMetaStream opts.bloom c.processors buffers 0 = some calls ∧
          queryStores opts.bloom allBFVertex allBFCnt calls = some stores

end ScatterGather

end MBFGraph
