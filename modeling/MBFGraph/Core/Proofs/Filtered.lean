import MBFGraph.Core.Filtered
import MBFGraph.Core.Proofs.ActiveVertices
import MBFGraph.Core.Proofs.MetaStream
import MBFGraph.Core.Proofs.NeverHide
import MBFGraph.Core.Proofs.Selective

/-!
# What is read behind the filters

The list that the kernel gets consists of the active vertices. A page with an edge of an active vertex has its bit
set, so that the filtered driver is one of those that read all pages with active sources.
-/

namespace MBFGraph

open ByteBits Groups Stdio Stores

/-- What the filters need: files written in mode `create`, `int` products in range, ids below `2 ^ 31`, room for
the padded list, and buffers that the 32-bit addresses of the kernel reach. -/
structure FilterSetup {E : Type} [Inhabited E] [DecidableEq E] (c : Configuration) (F : FormatUtils E)
    (opts : FilterOptions) (bufbytes : Nat) (efile : List E) (bufs : Nat → SuperBuf E) : Prop where
  written : edgeDistribution c.toMapping F opts.bloom efile (fun _ => 0) 0 freshBufs false = some bufs
  inside : EndsInside F efile c.vertices
  low : c.vertices ≤ 2 ^ 31
  accepts : AcceptsCheck opts.maxCheckV opts.chipVOnce c.superPartitions
  fours : 4 ∣ (chipVOnce opts.chipVOnce).toNat
  array : opts.maxCheckV < 2 ^ 32
  padding : (chipVOnce opts.chipVOnce).toNat ∣ opts.maxCheckV
  products : opts.bloom.IntProducts
  room : groupBytes opts.bloom ≤ bufbytes
  reach : bufbytes ≤ 2 ^ 32

namespace ScatterGather

variable {σ υ δ γ E W : Type} {c : Configuration} {A : SgAlgorithm σ υ δ γ W} {F : FormatUtils E W}

/-! ## The list of active vertices -/

section

variable {superp : Nat} {st : SgState σ υ δ γ}

theorem foldl_checkVertex (visits : List (Nat × Nat)) (bfVertex : Nat → List VertexT) (partition : Nat) :
    visits.foldl (checkVertex c A superp st) bfVertex partition =
      bfVertex partition ++ ((((visits.filter fun at_ => decide (at_.1 = partition)).map
        fun at_ => c.mapInverse superp at_.1 at_.2).filter
          fun g => A.checkBsp (st.state g) st.bspPhase).map (BitVec.ofNat 32)) := by
  induction visits generalizing bfVertex with
  | nil => exact (List.append_nil _).symm
  | cons at_ visits ih =>
    rw [List.foldl_cons, ih, List.filter_cons]
    unfold checkVertex
    by_cases active : A.checkBsp (st.state (c.mapInverse superp at_.1 at_.2)) st.bspPhase = true
    · by_cases here : at_.1 = partition
      · subst here
        simp [active]
      · have other : partition ≠ at_.1 := fun same => here same.symm
        simp [active, here, Function.update_of_ne other]
    · rw [if_neg active]
      by_cases here : at_.1 = partition
      · subst here
        simp [active]
      · simp [here]

/-- The vertices of a partition, among those of the first partitions. -/
theorem filter_partition (count : Nat → Nat) (n partition : Nat) :
    ((List.range n).flatMap fun i => (List.range (count i)).map fun k => (i, k)).filter
        (fun at_ => decide (at_.1 = partition)) =
      if partition < n then (List.range (count partition)).map fun k => (partition, k) else [] := by
  induction n with
  | zero => rfl
  | succ n ih =>
    rw [List.range_succ, List.flatMap_append, List.filter_append, ih, List.flatMap_singleton, List.filter_map]
    by_cases here : n = partition
    · subst here
      have all : ((fun at_ : Nat × Nat => decide (at_.1 = n)) ∘ fun k => (n, k)) = fun _ => true := by
        funext k
        exact decide_eq_true rfl
      rw [all, List.filter_true, if_neg (Nat.lt_irrefl n), if_pos (Nat.lt_succ_self n)]
      rfl
    · have none_ : ((fun at_ : Nat × Nat => decide (at_.1 = partition)) ∘ fun k => (n, k)) = fun _ => false := by
        funext k
        simp [here]
      rw [none_, List.filter_false]
      by_cases before : partition < n
      · rw [if_pos before, if_pos (Nat.lt_succ_of_lt before)]
        exact List.append_nil _
      · rw [if_neg before, if_neg (by omega)]
        rfl

/-- The active vertices of a super partition, in record order. -/
theorem flatten_bfVertex : (bfVertex c A superp st).flatten =
    ((c.vertexIds superp).filter fun g => A.checkBsp (st.state g) st.bspPhase).map (BitVec.ofNat 32) := by
  unfold bfVertex Configuration.vertexIds
  rw [c.flatMap_stateIter]
  generalize c.stateCount superp = count
  have each : ∀ partition ∈ List.range c.cachedPartitions,
      ((List.range c.cachedPartitions).flatMap fun i => (List.range (count i)).map fun k => (i, k)).foldl
        (checkVertex c A superp st) (fun _ => []) partition =
      ((((List.range (count partition)).map fun k => (partition, k)).map
        fun at_ => c.mapInverse superp at_.1 at_.2).filter
          fun g => A.checkBsp (st.state g) st.bspPhase).map (BitVec.ofNat 32) := by
    intro partition member
    rw [foldl_checkVertex, filter_partition, if_pos (List.mem_range.mp member), List.nil_append]
  rw [List.map_congr_left each, ← List.flatMap_def, List.map_flatMap, List.filter_flatMap, List.map_flatMap]

theorem mem_flatten_bfVertex (hs : superp < c.superPartitions) {v : VertexT} :
    v ∈ (bfVertex c A superp st).flatten ↔ ∃ g < c.vertices, c.mapSuperPartition g = superp ∧
      A.checkBsp (st.state g) st.bspPhase = true ∧ BitVec.ofNat 32 g = v := by
  rw [flatten_bfVertex, List.mem_map]
  constructor
  · rintro ⟨g, member, same⟩
    obtain ⟨isVertex, active⟩ := List.mem_filter.mp member
    obtain ⟨known, ofSuperp⟩ := (Configuration.mem_vertexIds_iff hs).mp isVertex
    exact ⟨g, known, ofSuperp, active, same⟩
  · rintro ⟨g, known, ofSuperp, active, same⟩
    exact ⟨g, List.mem_filter.mpr ⟨(Configuration.mem_vertexIds_iff hs).mpr ⟨known, ofSuperp⟩, active⟩, same⟩

theorem length_flatten_bfVertex_le (hs : superp < c.superPartitions) :
    (bfVertex c A superp st).flatten.length ≤ c.vertices := by
  rw [flatten_bfVertex, List.length_map]
  have subset : c.vertexIds superp ⊆ List.range c.vertices := fun v member =>
    List.mem_range.mpr ((Configuration.mem_vertexIds_iff hs).mp member).1
  calc ((c.vertexIds superp).filter fun g => A.checkBsp (st.state g) st.bspPhase).length
      ≤ (c.vertexIds superp).length := List.length_filter_le _ _
    _ ≤ (List.range c.vertices).length :=
        ((Configuration.nodup_vertexIds hs).subperm subset).length_le
    _ = c.vertices := List.length_range

end

end ScatterGather

/-- A number of vertices that fits is padded to one that fits, if the room is a multiple. -/
theorem paddedCount_le_of_dvd {chipVOnce count room : Nat} (positive : 0 < chipVOnce) (divides : chipVOnce ∣ room)
    (fits : count ≤ room) : paddedCount chipVOnce count ≤ room := by
  obtain ⟨q, rfl⟩ := divides
  unfold paddedCount
  rw [Nat.mul_comm chipVOnce q]
  refine Nat.mul_le_mul_right _ (Nat.lt_succ_iff.mp ((Nat.div_lt_iff_lt_mul positive).mpr ?_))
  rw [Nat.succ_mul, Nat.mul_comm q]
  omega

theorem length_storeVertex {allBFVertex after : List VertexT} {i : Nat} {v : VertexT}
    (stored : storeVertex allBFVertex i v = some after) : after.length = allBFVertex.length := by
  unfold storeVertex at stored
  split at stored
  · rw [← Option.some.inj stored, List.length_set]
  · contradiction

theorem length_collectPartition {allBFCnt : Nat} (active : List VertexT) {allBFVertex after : List VertexT}
    {k : Nat} (collected : collectPartition allBFCnt allBFVertex k active = some after) :
    after.length = allBFVertex.length := by
  induction active generalizing allBFVertex k with
  | nil => rw [← Option.some.inj collected]
  | cons v active ih =>
    obtain ⟨between, stored, rest⟩ := Option.bind_eq_some_iff.mp collected
    rw [ih rest, length_storeVertex stored]

theorem length_collectActive (bfVertex : List (List VertexT)) {allBFVertex after : List VertexT}
    {allBFCnt count : Nat} (collected : collectActive allBFVertex allBFCnt bfVertex = some (after, count)) :
    after.length = allBFVertex.length := by
  induction bfVertex generalizing allBFVertex allBFCnt with
  | nil =>
    obtain ⟨rfl, _⟩ := Prod.mk.inj (Option.some.inj collected)
    rfl
  | cons active bfVertex ih =>
    obtain ⟨between, stored, rest⟩ := Option.bind_eq_some_iff.mp collected
    rw [ih rest, length_collectPartition active stored]

theorem length_padActive {allBFCnt : Nat} (turns : Nat) {allBFVertex after : List VertexT} {i : Nat}
    (padded : padActive allBFCnt allBFVertex i turns = some after) : after.length = allBFVertex.length := by
  induction turns generalizing allBFVertex i with
  | zero => rw [← Option.some.inj padded]
  | succ turns ih =>
    obtain ⟨last, _, rest⟩ := Option.bind_eq_some_iff.mp padded
    obtain ⟨between, stored, rest'⟩ := Option.bind_eq_some_iff.mp rest
    rw [ih rest', length_storeVertex stored]

/-- The array keeps its length. -/
theorem length_listActive {chipVOnce : Nat} {bfVertex : List (List VertexT)} {old after : List VertexT}
    {count : Nat} (listed : listActive chipVOnce old bfVertex = some (after, count)) :
    after.length = old.length := by
  obtain ⟨⟨between, count'⟩, collected, rest⟩ := Option.bind_eq_some_iff.mp listed
  have sameLength := length_collectActive bfVertex collected
  simp only at rest
  split at rest
  · obtain ⟨padded, isPadded, same⟩ := Option.map_eq_some_iff.mp rest
    obtain ⟨rfl, _⟩ := Prod.mk.inj same
    exact (length_padActive _ isPadded).trans sameLength
  · obtain ⟨rfl, _⟩ := Prod.mk.inj (Option.some.inj rest)
    exact sameLength

/-! ## The query -/

section

variable {o : BloomOptions} {bufbytes : Nat} {file : List Byte} {buffers : List (List Byte)}

/-- The buffers of the filter stream, in groups. -/
def bufferGroups (o : BloomOptions) (buffers : List (List Byte)) : List Nat :=
  buffers.map fun buffer => buffer.length / groupBytes o

theorem Buffered.dvd (buffered : Buffered o bufbytes file buffers) {buffer : List Byte}
    (member : buffer ∈ buffers) : groupBytes o ∣ buffer.length := by
  have := buffered.groups buffer member
  rwa [Nat.mul_comm] at this

theorem Buffered.lengths (buffered : Buffered o bufbytes file buffers) :
    buffers.map List.length = (bufferGroups o buffers).map (· * groupBytes o) := by
  unfold bufferGroups
  rw [List.map_map]
  exact List.map_congr_left fun buffer member => (Nat.div_mul_cancel (buffered.dvd member)).symm

/-- Every call has a group, and few enough of them for 32-bit addresses. -/
theorem Buffered.calls (buffered : Buffered o bufbytes file buffers) (reach : bufbytes ≤ 2 ^ 32)
    {processors : Nat} (positive : 0 < processors) :
    ∀ k ∈ (bufferGroups o buffers).flatMap (callSizes processors), 0 < k ∧ (k - 1) * groupBytes o < 2 ^ 32 := by
  intro k member
  obtain ⟨n, isGroups, isCall⟩ := List.mem_flatMap.mp member
  obtain ⟨buffer, isBuffer, rfl⟩ := List.mem_map.mp isGroups
  have bytesPos := groupBytes_pos (o := o)
  have some_ : 0 < buffer.length / groupBytes o :=
    Nat.div_pos (Nat.le_of_dvd (List.length_pos_iff.mpr (buffered.nonempty buffer isBuffer))
      (buffered.dvd isBuffer)) bytesPos
  have room := buffered.room buffer isBuffer
  have whole := Nat.div_mul_cancel (buffered.dvd isBuffer)
  generalize buffer.length / groupBytes o = n at some_ whole isCall
  have bounds : 0 < k ∧ k ≤ n := by
    unfold callSizes at isCall
    split at isCall
    · rw [List.mem_singleton.mp isCall]
      exact ⟨some_, Nat.le_refl n⟩
    · rename_i many
      have share : n / processors * (processors - 1) < n := by
        have le := Nat.div_mul_le_self n processors
        have pos : 0 < n / processors := Nat.div_pos (by omega) positive
        obtain ⟨last, rfl⟩ : ∃ last, processors = last + 1 := ⟨processors - 1, by omega⟩
        rw [Nat.mul_succ] at le
        rw [Nat.add_sub_cancel]
        omega
      rcases List.mem_append.mp isCall with isShare | isRest
      · rw [List.eq_of_mem_replicate isShare]
        exact ⟨Nat.div_pos (by omega) positive, Nat.div_le_self _ _⟩
      · rw [List.mem_singleton.mp isRest]
        omega
  refine ⟨bounds.1, ?_⟩
  have less : (k - 1) * groupBytes o < n * groupBytes o :=
    Nat.mul_lt_mul_of_pos_right (by omega) bytesPos
  omega

/-- A filter file of whole groups can be read. -/
theorem exists_buffered (room : groupBytes o ≤ bufbytes) {groups : Nat}
    (length : file.length = groups * groupBytes o) : ∃ buffers, Buffered o bufbytes file buffers := by
  have bytesPos := groupBytes_pos (o := o)
  have sizes : file.length = (List.replicate groups 1).sum * groupBytes o := by
    rw [List.sum_replicate, smul_eq_mul, Nat.mul_one]
    exact length
  obtain ⟨buffers, lengths, whole⟩ := exists_buffers sizes
  have each : ∀ buffer ∈ buffers, buffer.length = groupBytes o := by
    intro buffer member
    have isLength := List.mem_map_of_mem (f := List.length) member
    rw [lengths, List.map_replicate] at isLength
    rw [List.eq_of_mem_replicate isLength, Nat.one_mul]
  refine ⟨buffers, whole, fun buffer member empty => ?_, fun buffer member => ?_, fun buffer member => ?_⟩
  · have := each buffer member
    rw [empty, List.length_nil] at this
    omega
  · rw [each buffer member]
    exact dvd_of_eq (Nat.mul_comm simdLen _)
  · rw [each buffer member]
    exact room

end

namespace FilterSetup

variable {E : Type} [Inhabited E] [DecidableEq E] {c : Configuration} {F : FormatUtils E} {opts : FilterOptions}
  {bufbytes : Nat} {efile : List E} {bufs : Nat → SuperBuf E} {superp : Nat}

theorem bits (setup : FilterSetup c F opts bufbytes efile bufs) : opts.bloom.bitsPerBF * 256 < 2 ^ 31 := by
  rw [Nat.mul_comm]
  exact setup.products.1

/-- Each super partition has its filter file, of whole groups. -/
theorem length_bfFile (setup : FilterSetup c F opts bufbytes efile bufs) (hs : superp < c.superPartitions) :
    (bufs superp).bfFp.content.length =
      (groups opts.bloom.edgesPerBuf (superEdges c.toMapping F superp efile)).length *
        groupBytes opts.bloom := by
  rw [(created_spec hs setup.written).2.2]
  exact length_flatMap_const length_bloomOut_groupBytes _

/-- The edge file of a super partition has its edges. -/
theorem edgeFile_eq (setup : FilterSetup c F opts bufbytes efile bufs) (hs : superp < c.superPartitions) :
    edgeFile c.toMapping efile bufs superp = ScatterGather.edgesOf c F efile superp :=
  (created_spec hs setup.written).2.1

/-- However the filter file is read, no edge is hidden. -/
theorem neverHides (setup : FilterSetup c F opts bufbytes efile bufs) (hs : superp < c.superPartitions)
    {buffers : List (List Byte)} (buffered : Buffered opts.bloom bufbytes (bufs superp).bfFp.content buffers) :
    NeverHides F opts.bloom ((bufferGroups opts.bloom buffers).flatMap (callSizes c.processors)) efile.length
      (edgeFile c.toMapping efile bufs superp) (bufs superp).bfFp.content := by
  have calls := buffered.calls setup.reach c.processors_pos
  have length := length_flatten_of_lengths buffered.lengths
  rw [buffered.flatten] at length
  have sums := sum_flatMap_callSizes c.processors (bufferGroups opts.bloom buffers)
  refine (neverHides_created_iff hs setup.written (fun k member => (calls k member).1)
    (by rw [sums]; exact length)).mpr fun i edge found => ?_
  have products := setup.products
  unfold BloomOptions.IntProducts simdLen at products
  refine covered_of_low (by omega) (fun k member => (calls k member).2) ?_ found ?_
  · rw [sums]
    refine Nat.eq_of_mul_eq_mul_right (groupBytes_pos (o := opts.bloom)) ?_
    rw [← length, setup.length_bfFile hs, (created_spec hs setup.written).2.1]
  · rw [setup.edgeFile_eq hs] at found
    have source := (setup.inside edge (List.mem_of_mem_filter (List.mem_of_getElem? found))).1
    have low := setup.low
    rw [BitVec.msb_eq_decide]
    exact decide_eq_false (by omega)

end FilterSetup

/-! ## The pages -/

namespace ScatterGather

/-- All pages. -/
theorem readPages_true {E : Type} (edgesPerPage : Nat) (records : List E) :
    readPages edgesPerPage (fun _ => true) records = records := by
  unfold readPages
  rw [List.filter_true, List.zipIdx_map_fst]

variable {σ υ δ γ E : Type} [Inhabited E] [DecidableEq E] {c : Configuration} {A : SgAlgorithm σ υ δ γ}
  {F : FormatUtils E} {opts : FilterOptions} {bufbytes : Nat} {efile : List E} {bufs : Nat → SuperBuf E}
  {superp : Nat} {st : SgState σ υ δ γ}

/-- The list is never too long for its array, and the kernel takes it four by four. -/
theorem listActive_of_setup (setup : FilterSetup c F opts bufbytes efile bufs) (hs : superp < c.superPartitions)
    (queries : QueriesFilters c A opts superp st) {old : List VertexT}
    (array : old.length = opts.maxCheckV % 2 ^ 32) :
    ∃ allBFVertex allBFCnt,
      listActive (chipVOnce opts.chipVOnce).toNat old (bfVertex c A superp st) = some (allBFVertex, allBFCnt) ∧
      (∀ i ∈ kernelReads allBFCnt, i < allBFCnt) ∧ allBFCnt ≤ allBFVertex.length ∧ allBFCnt % 4 = 0 ∧
      ∀ v, v ∈ allBFVertex.take allBFCnt ↔ v ∈ (bfVertex c A superp st).flatten := by
  obtain ⟨_, _, chip⟩ := setup.accepts
  have below : chipVOnce opts.chipVOnce < 2 ^ 31 := BitVec.toInt_lt
  have positive : 0 < (chipVOnce opts.chipVOnce).toNat := by omega
  have few := queries.2.1
  have known : (bfVertex c A superp st).flatten.length ≤ c.vertices := length_flatten_bfVertex_le hs
  have low := setup.low
  rw [countActive_eq, Nat.mod_eq_of_lt (by omega)] at few
  have share : maxCheckV opts.maxCheckV c.superPartitions ≤ max 1 opts.maxCheckV := by
    unfold maxCheckV
    have le := Nat.div_le_self opts.maxCheckV c.superPartitions
    have mod := Nat.mod_le (opts.maxCheckV / c.superPartitions) (2 ^ 32)
    change (if _ < 1 then 1 else _) ≤ _
    split <;> omega
  have room := Nat.mod_eq_of_lt setup.array
  rw [room] at array
  have fits : paddedCount (chipVOnce opts.chipVOnce).toNat (bfVertex c A superp st).flatten.length ≤
      opts.maxCheckV := by
    refine paddedCount_le_of_dvd positive setup.padding ?_
    omega
  obtain ⟨after, listed, same⟩ := (listActive_spec setup.array positive array
    fun _ => Nat.lt_of_le_of_lt fits setup.array).2 fits
  have whole : 4 ∣ paddedCount (chipVOnce opts.chipVOnce).toNat (bfVertex c A superp st).flatten.length :=
    Nat.dvd_trans setup.fours (Nat.dvd_mul_left _ _)
  refine ⟨after, _, listed, forall_kernelReads_iff.mpr whole, ?_, Nat.mod_eq_zero_of_dvd whole, same⟩
  rw [length_listActive listed, array]
  exact fits

/-- The driver never fails in front of the scatter phase. -/
theorem filtersSafe (setup : FilterSetup c F opts bufbytes efile bufs) :
    FiltersSafe c A opts bufbytes fun superp => (bufs superp).bfFp.content := by
  intro st superp hs queries old array
  obtain ⟨allBFVertex, allBFCnt, listed, reads, room, fours, _⟩ := listActive_of_setup setup hs queries array
  refine ⟨allBFVertex, allBFCnt, listed, reads, fun buffers buffered => ?_⟩
  have length := List.length_take_of_le room
  obtain ⟨stores, stored, _⟩ := setup.neverHides hs buffered (allBFVertex.take allBFCnt)
    (allBFVertex.drop allBFCnt) (by rw [length]; exact fours)
  rw [List.take_append_drop, length] at stored
  have streamed := doMetaStream_eq c.processors_pos setup.bits _ buffers 0 buffered.lengths
  rw [Nat.zero_mul, buffered.flatten] at streamed
  exact ⟨_, stores, streamed, stored⟩

/-- The calls of a query whose list the driver has made. -/
theorem Queried.bitset_eq (setup : FilterSetup c F opts bufbytes efile bufs) (hs : superp < c.superPartitions)
    {allBFVertex : List VertexT} {allBFCnt : Nat} {bitset : List Byte} (room : allBFCnt ≤ allBFVertex.length)
    (fours : allBFCnt % 4 = 0)
    (queried : Queried c opts bufbytes efile.length (bufs superp).bfFp.content allBFVertex allBFCnt bitset) :
    ∀ i e, (edgesOf c F efile superp)[i]? = some e → F.src e ∈ allBFVertex.take allBFCnt →
      bitAt bitset (i / opts.bloom.bfsPerPage) = true := by
  intro i e found member
  cases queried with
  | @query buffers calls stores order buffered streamed stored perm =>
    have length := List.length_take_of_le room
    obtain ⟨stores', stored', visible⟩ := setup.neverHides hs buffered (allBFVertex.take allBFCnt)
      (allBFVertex.drop allBFCnt) (by rw [length]; exact fours)
    rw [List.take_append_drop, length] at stored'
    have streamed' := doMetaStream_eq c.processors_pos setup.bits _ buffers 0 buffered.lengths
    rw [Nat.zero_mul, buffered.flatten] at streamed'
    obtain rfl := Option.some.inj (streamed.symm.trans streamed')
    obtain rfl := Option.some.inj (stored.symm.trans stored')
    rw [setup.edgeFile_eq hs] at visible
    rw [bitAt_setBit, visible order perm i e found member]
    rfl

/-- The records of a file that is read behind the filters. It need not be the one that the filters were made
for. -/
theorem pages_of_readsFiltered (setup : FilterSetup c F opts bufbytes efile bufs)
    (hs : superp < c.superPartitions) {edgeFile records : List E}
    (reads : ReadsFiltered c A opts bufbytes efile.length edgeFile (bufs superp).bfFp.content superp st records) :
    ∃ pages : Nat → Bool,
      (∀ i e, (edgesOf c F efile superp)[i]? = some e →
        A.checkBsp (st.state (F.src e).toNat) st.bspPhase = true → pages (i / opts.bloom.bfsPerPage) = true) ∧
      records = readPages opts.bloom.bfsPerPage pages edgeFile := by
  cases reads with
  | whole skips => exact ⟨fun _ => true, fun _ _ _ _ => rfl, (readPages_true _ _).symm⟩
  | @filtered old allBFVertex allBFCnt bitset queries array listed queried =>
    split
    · obtain ⟨allBFVertex', allBFCnt', listed', _, room, fours, same⟩ :=
        listActive_of_setup setup hs queries array
      obtain ⟨rfl, rfl⟩ := Prod.mk.inj (Option.some.inj (listed.symm.trans listed'))
      refine ⟨bitAt bitset, fun i e found active => ?_, rfl⟩
      refine queried.bitset_eq setup hs room fours i e found ((same _).mpr ((mem_flatten_bfVertex hs).mpr ?_))
      obtain ⟨isEdge, ofSuperp⟩ := List.mem_filter.mp (List.mem_of_getElem? found)
      have source := (setup.inside e isEdge).1
      rw [decide_eq_true_eq, F.splitKey_zero] at ofSuperp
      exact ⟨_, source, ofSuperp, active, by rw [BitVec.ofNat_toNat, BitVec.setWidth_eq]⟩
    · exact ⟨fun _ => true, fun _ _ _ _ => rfl, (readPages_true _ _).symm⟩

/-- All pages with active sources are read. -/
theorem readsPages_of_filtered (setup : FilterSetup c F opts bufbytes efile bufs)
    (hs : superp < c.superPartitions) {records : List E}
    (reads : (scanFiltered c A opts bufbytes efile.length (edgeFile c.toMapping efile bufs)
      fun superp => (bufs superp).bfFp.content).reads st superp records) :
    (scanPages c A F opts.bloom.bfsPerPage efile).reads st superp records := by
  obtain ⟨pages, hasActive, same⟩ := pages_of_readsFiltered setup hs reads
  rw [setup.edgeFile_eq hs] at same
  exact ⟨pages, hasActive, same⟩

/-- There is always something to read. -/
theorem exists_readsFiltered (setup : FilterSetup c F opts bufbytes efile bufs) (hs : superp < c.superPartitions)
    (st : SgState σ υ δ γ) (edgeFile : List E) :
    ∃ records,
      ReadsFiltered c A opts bufbytes efile.length edgeFile (bufs superp).bfFp.content superp st records := by
  by_cases queries : QueriesFilters c A opts superp st
  · have array := List.length_replicate (n := opts.maxCheckV % 2 ^ 32) (a := (0 : VertexT))
    obtain ⟨allBFVertex, allBFCnt, listed, _, runs⟩ := filtersSafe setup st superp hs queries _ array
    obtain ⟨buffers, buffered⟩ := exists_buffered setup.room (setup.length_bfFile hs)
    obtain ⟨calls, stores, streamed, stored⟩ := runs buffers buffered
    exact ⟨_, .filtered queries array listed (.query buffered streamed stored (List.Perm.refl _))⟩
  · exact ⟨_, .whole queries⟩

end ScatterGather

/-! ## Scans that differ where there is no super partition -/

namespace ScatterGather

section

variable {σ υ δ γ E W : Type} {c : Configuration} {A : SgAlgorithm σ υ δ γ W} {F : FormatUtils E W}

/-- A scan that reads nothing for a number that is no super partition. -/
def Scan.within (c : Configuration) (scan : Scan σ υ δ γ E) : Scan σ υ δ γ E where
  reads st superp records := if superp < c.superPartitions then scan.reads st superp records else records = []
  visits := scan.visits

/-- What one scan reads for a super partition and delivers, another one can also, to the same effect. -/
theorem superps_of_scatters {scan scan' : Scan σ υ δ γ E}
    (scatters : ∀ (st : SgState σ υ δ γ) superp records visits, superp < c.superPartitions →
      scan.reads st superp records → Delivers c (fun e => F.splitKey e 0) (scan.visits st) records visits →
      ∃ records' visits', scan'.reads st superp records' ∧
        Delivers c (fun e => F.splitKey e 0) (scan'.visits st) records' visits' ∧
        scatterPhase c A F superp visits' st = scatterPhase c A F superp visits st)
    {st after : SgState σ υ δ γ} {superps : Nat} (le : superps ≤ c.superPartitions)
    (run : Superps c A F scan st superps after) : Superps c A F scan' st superps after := by
  induction run with
  | none => exact .none
  | @next superp before after others step ih =>
    refine .next (ih (Nat.le_of_succ_le le)) ?_
    cases step with
    | visit fits gathered read scattered =>
      obtain ⟨records', visits', read', scattered', same⟩ := scatters _ _ _ _ le read scattered
      rw [← same]
      exact .visit fits gathered read' scattered'

/-- Two scans with the same effects. -/
theorem superstep_eq_of_scatters {scan scan' : Scan σ υ δ γ E}
    (forth : ∀ {st after : SgState σ υ δ γ}, Superps c A F scan st c.superPartitions after →
      Superps c A F scan' st c.superPartitions after)
    (back : ∀ {st after : SgState σ υ δ γ}, Superps c A F scan' st c.superPartitions after →
      Superps c A F scan st c.superPartitions after) : Superstep c A F scan = Superstep c A F scan' := by
  funext st st'
  refine propext ⟨fun step => ?_, fun step => ?_⟩
  · cases step with
    | done all => exact .done (forth all)
  · cases step with
    | done all => exact .done (back all)

theorem reads_within (scan : Scan σ υ δ γ E) {st : SgState σ υ δ γ} {superp : Nat} {records : List E}
    (hs : superp < c.superPartitions) :
    (scan.within c).reads st superp records ↔ scan.reads st superp records := by
  unfold Scan.within
  simp only [if_pos hs]

/-- The driver asks for super partitions only. -/
theorem superstep_within (scan : Scan σ υ δ γ E) :
    Superstep c A F (scan.within c) = Superstep c A F scan :=
  superstep_eq_of_scatters
    (superps_of_scatters (fun _ _ records visits hs read delivers =>
      ⟨records, visits, (reads_within scan hs).mp read, delivers, rfl⟩) (Nat.le_refl _))
    (superps_of_scatters (fun _ _ records visits hs read delivers =>
      ⟨records, visits, (reads_within scan hs).mpr read, delivers, rfl⟩) (Nat.le_refl _))

end

/-! ## The filtered driver -/

section

variable {σ υ δ γ O E X : Type} [Inhabited E] [DecidableEq E] {c : Configuration} {A : SgAlgorithm σ υ δ γ}
  {F : FormatUtils E} {opts : FilterOptions} {bufbytes : Nat} {efile : List E} {bufs : Nat → SuperBuf E}
  {R : Bsp.Rules Nat O υ X} {link : Nat → Unit → X} {view : σ → O} {fresh : Nat → O → Prop} {good : υ → Prop}

/-- The filtered scan sends everything. -/
theorem complete_scanFiltered (follows : Follows A c.vertices R link view fresh good)
    (setup : FilterSetup c F opts bufbytes efile bufs) :
    Complete c R link view F efile (Scan.within c (scanFiltered c A opts bufbytes efile.length
      (edgeFile c.toMapping efile bufs) fun superp => (bufs superp).bfFp.content) : Scan σ υ δ γ E) := by
  have pages := complete_scanPages (A := A) follows opts.bloom.bfsPerPage
    fun e member => (setup.inside e member).1
  constructor
  · intro st superp
    by_cases hs : superp < c.superPartitions
    · obtain ⟨records, reads⟩ :=
        exists_readsFiltered setup hs st (edgeFile c.toMapping efile bufs superp)
      exact ⟨records, (if_pos hs).mpr reads⟩
    · exact ⟨[], (if_neg hs).mpr rfl⟩
  · intro st superp records reads
    by_cases hs : superp < c.superPartitions
    · exact pages.ofSuperp st superp records (readsPages_of_filtered setup hs ((if_pos hs).mp reads))
    · rw [(if_neg hs).mp reads]
      exact fun e none_ => absurd none_ List.not_mem_nil
  · intro st superp records reads queued
    by_cases hs : superp < c.superPartitions
    · exact pages.sends_all st superp records (readsPages_of_filtered setup hs ((if_pos hs).mp reads)) queued
    · have none_ : edgesOf c F efile superp = [] := superEdges_of_ge (Nat.le_of_not_lt hs) efile
      rw [(if_neg hs).mp reads, none_]
      exact List.Perm.refl _

end

end ScatterGather

end MBFGraph
