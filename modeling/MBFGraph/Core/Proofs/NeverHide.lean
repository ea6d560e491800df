import MBFGraph.Core.Proofs.CreateFilters
import MBFGraph.Core.Proofs.QueryKernel

/-!
# Filters and the edges behind them

A query hides no edge exactly if every file bit that the kernel tests for the edge was set by the
builder, for this edge or another one. The two sides compute the bit number separately:
`builderBit` from a group size and a filter number, the kernel from its `visits`. They agree for
ids below `2 ^ 31` as long as neither side's 32-bit arithmetic wraps.
-/

namespace MBFGraph

open ByteBits Groups Stdio Stores

section Builder

variable {E : Type} (m : Mapping) (F : FormatUtils E) (o : BloomOptions)

/-- The bit of the filter file that the builder sets for row `row` of edge number `k`. -/
def builderBit (k row : Nat) : Nat :=
  8 * (k / o.edgesPerBuf * groupBytes o) + (256 * row + k % o.edgesPerBuf / o.bfsPerPage)

variable {m F o}

theorem length_bloomOut_groupBytes (edgeBuf : List E) :
    (bloomOut F o edgeBuf).1.length = groupBytes o := by
  rw [length_bloomOut]
  unfold groupBytes simdLen
  omega

theorem edgesPerBuf_le : o.edgesPerBuf ≤ simdLen * o.bfsPerPage := by
  unfold BloomOptions.edgesPerBuf
  rw [Nat.mul_comm simdLen]
  exact Nat.mod_le _ _

/-- The bits of a filter file. -/
theorem bitAt_filterBytes (fits : GroupFits o) (progress : 0 < o.edgesPerBuf) (edges : List E)
    (b : Nat) :
    bitAt (filterBytes F o (groups o.edgesPerBuf edges)) b = true ↔
      ∃ k edge, edges[k]? = some edge ∧ ∃ row ∈ edgeRows F o edge, b = builderBit o k row := by
  have positive := groupBytes_pos (o := o)
  have bits := groupBytes_bits (o := o)
  have atMost : ∀ g, (group o.edgesPerBuf g edges).length ≤ simdLen * o.bfsPerPage := by
    intro g
    have := edgesPerBuf_le (o := o)
    rw [length_group]
    omega
  constructor
  · intro set
    -- the group, the row and the column of the bit
    have split := Nat.div_add_mod b (8 * groupBytes o)
    have within := Nat.mod_lt b (show 0 < 8 * groupBytes o by omega)
    have splitGroup := Nat.div_add_mod (b % (8 * groupBytes o)) 256
    generalize b / (8 * groupBytes o) = g at split
    generalize b % (8 * groupBytes o) = inner at split within splitGroup
    have address : b = 8 * (g * groupBytes o) + inner := by rw [← split]; ring
    by_cases inside : g * o.edgesPerBuf < edges.length
    · have found := getElem?_groups edges progress inside
      rw [address, show filterBytes F o (groups o.edgesPerBuf edges) =
        (groups o.edgesPerBuf edges).flatMap (fun x => (bloomOut F o x).1) from rfl,
        bitAt_flatMap length_bloomOut_groupBytes _ found within] at set
      have order : inner = inner / 256 * simdLen + inner % 256 := by
        unfold simdLen; omega
      have rowInside : inner / 256 < o.bitsPerBF := by omega
      have columnInside : inner % 256 < simdLen := Nat.mod_lt _ (by decide)
      rw [order, bitAt_bloomOut F o fits (atMost g) rowInside columnInside] at set
      obtain ⟨k, edge, foundEdge, column, rowMember⟩ := set
      have below : k < o.edgesPerBuf := by
        have := (List.getElem?_eq_some_iff.mp foundEdge).1
        rw [length_group] at this
        omega
      rw [getElem?_group edges below] at foundEdge
      refine ⟨g * o.edgesPerBuf + k, edge, foundEdge, inner / 256, rowMember, ?_⟩
      unfold builderBit
      rw [Nat.mul_comm g, Nat.mul_add_div progress, Nat.div_eq_of_lt below, Nat.add_zero,
        Nat.mul_add_mod, Nat.mod_eq_of_lt below, column, address]
      omega
    · -- behind the last group there are no bits
      have behind : (groups o.edgesPerBuf edges).length ≤ g := by
        rw [length_groups]
        have count := Nat.div_mul_le_self edges.length o.edgesPerBuf
        have splitEdges := Nat.div_add_mod edges.length o.edgesPerBuf
        rw [Nat.mul_comm] at splitEdges
        have full : edges.length / o.edgesPerBuf ≤ g := by
          rw [← Nat.mul_div_cancel g progress]
          exact Nat.div_le_div_right (Nat.le_of_not_lt inside)
        split
        · omega
        · rename_i notAligned
          rcases Nat.lt_or_eq_of_le full with less | equal
          · omega
          · rw [equal] at splitEdges
            omega
      have length : (filterBytes F o (groups o.edgesPerBuf edges)).length =
          (groups o.edgesPerBuf edges).length * groupBytes o :=
        length_flatMap_const length_bloomOut_groupBytes _
      have outside := Nat.mul_le_mul_right (groupBytes o) behind
      rw [bitAt_of_length_le (by rw [length, address]; omega)] at set
      contradiction
  · rintro ⟨k, edge, foundEdge, row, rowMember, rfl⟩
    have rowInside := edgeRows_lt F o edge row rowMember
    have inList := (List.getElem?_eq_some_iff.mp foundEdge).1
    have below := Nat.mod_lt k progress
    have split := Nat.div_add_mod k o.edgesPerBuf
    have split' : k / o.edgesPerBuf * o.edgesPerBuf + k % o.edgesPerBuf = k := by
      rw [Nat.mul_comm]; exact split
    have found := getElem?_groups edges progress
      (show k / o.edgesPerBuf * o.edgesPerBuf < edges.length by omega)
    have column : k % o.edgesPerBuf / o.bfsPerPage < simdLen :=
      (Nat.div_lt_iff_lt_mul o.bfsPerPage_pos).mpr
        (Nat.lt_of_lt_of_le below edgesPerBuf_le)
    unfold builderBit
    rw [show filterBytes F o (groups o.edgesPerBuf edges) =
      (groups o.edgesPerBuf edges).flatMap (fun x => (bloomOut F o x).1) from rfl,
      bitAt_flatMap length_bloomOut_groupBytes _ found (by
        unfold simdLen at column; omega),
      Nat.mul_comm 256 row]
    refine (bitAt_bloomOut F o fits (atMost _) rowInside column).mpr
      ⟨k % o.edgesPerBuf, edge, ?_, rfl, rowMember⟩
    rw [getElem?_group edges below, split']
    exact foundEdge

end Builder

section Query

variable {E : Type} (m : Mapping) (F : FormatUtils E) (o : BloomOptions)

/-- The edge file that the driver streams for a super partition: the input itself unless there
are several of them (`sg_driver.hpp:691-700`). -/
def edgeFile (efile : List E) (bufs : Nat → SuperBuf E) (superp : Nat) : List E :=
  if 1 < m.superPartitions then (bufs superp).edgeFp.content else efile

/-- The kernel, called for `ks` groups at a time in any order, sets the bit of every edge in `own`
whose source is queried. -/
def NeverHides (ks : List Nat) (edges : Nat) (own : List E) (file : List Byte) : Prop :=
  ∀ vs junk : List VertexT, vs.length % 4 = 0 →
    ∃ stores, queryStores o (vs ++ junk) vs.length (cutCalls o ks 0 file) = some stores ∧
      ∀ order, order.Perm stores → ∀ i edge, own[i]? = some edge → F.src edge ∈ vs →
        bitAt (applyStores order (clearedBitset o edges)) (i / o.bfsPerPage) = true

/-- The bits that the kernel tests for edge `i` are bits that the builder sets. -/
def Covered (ks : List Nat) (own : List E) (i : Nat) (edge : E) : Prop :=
  (∃ base, (i / o.bfsPerPage / 256, base) ∈ visits o ks 0) ∧
    ∀ base, (i / o.bfsPerPage / 256, base) ∈ visits o ks 0 →
      ∀ row ∈ kernelHash o.bitsPerBF (F.src edge), ∃ k other, own[k]? = some other ∧
        ∃ row' ∈ builderHash o.bitsPerBF (F.splitKey other 0),
          8 * (base + 32 * row) + i / o.bfsPerPage % 256 = builderBit o k row'

variable {m F o}

theorem groupBytes_small (fits : GroupFits o) : groupBytes o < 2 ^ 31 := by
  have bits := (groupFits_iff o).mp fits
  rw [groupBytes_eq]
  omega

/-- The query of a filter file that was built for `own`. -/
theorem neverHides_filterBytes_iff (fits : GroupFits o) (progress : 0 < o.edgesPerBuf)
    {ks : List Nat} {own : List E}
    (size : (filterBytes F o (groups o.edgesPerBuf own)).length = ks.sum * groupBytes o)
    (edges : Nat) :
    NeverHides F o ks edges own (filterBytes F o (groups o.edgesPerBuf own)) ↔
      ∀ i edge, own[i]? = some edge → Covered F o ks own i edge := by
  have small := groupBytes_small fits
  have run : ∀ vs junk : List VertexT, vs.length % 4 = 0 → ∃ stores,
      queryStores o (vs ++ junk) vs.length
        (cutCalls o ks 0 (filterBytes F o (groups o.edgesPerBuf own))) = some stores := by
    intro vs junk fours
    have whole := queryStores_cutCalls junk fours small
      (filterBytes F o (groups o.edgesPerBuf own)) ks 0
      (by rw [Nat.zero_mul, List.drop_zero]; exact size)
    rw [Nat.zero_mul, List.drop_zero] at whole
    exact ⟨_, whole⟩
  constructor
  · intro visible i edge found
    -- the source of the edge alone, four times
    have fours : [F.src edge, F.src edge, F.src edge, F.src edge].length % 4 = 0 := by simp
    obtain ⟨stores, ran, set⟩ := visible _ [] fours
    obtain ⟨visited, all⟩ := (forall_order_bitAt_iff fours small size ran
      (bitAt_clearedBitset edges _)).mp fun order perm => set order perm i edge found (by simp)
    refine ⟨visited, fun base member row rowMember => ?_⟩
    obtain ⟨v, vMember, rows⟩ := all base member
    have same : v = F.src edge := by simpa using vMember
    subst same
    exact (bitAt_filterBytes fits progress own _).mp (rows row rowMember)
  · intro covered vs junk fours
    obtain ⟨stores, ran⟩ := run vs junk fours
    refine ⟨stores, ran, ?_⟩
    intro order perm i edge found member
    obtain ⟨visited, rows⟩ := covered i edge found
    refine (forall_order_bitAt_iff fours small size ran (bitAt_clearedBitset edges _)).mpr
      ⟨visited, ?_⟩ order perm
    intro base baseMember
    refine ⟨F.src edge, member, fun row rowMember => ?_⟩
    exact (bitAt_filterBytes fits progress own _).mpr (rows base baseMember row rowMember)

/-- Ids below `2 ^ 31` are covered by their own edge as long as nothing wraps. -/
theorem covered_of_low (pages : o.bfsPerPage < 2 ^ 24) {ks : List Nat}
    (noWrap : ∀ k ∈ ks, (k - 1) * groupBytes o < 2 ^ 32) {own : List E}
    (size : ks.sum = (groups o.edgesPerBuf own).length) {i : Nat} {edge : E}
    (found : own[i]? = some edge) (low : (F.src edge).msb = false) :
    Covered F o ks own i edge := by
  have positive := o.bfsPerPage_pos
  have perBuf : o.edgesPerBuf = o.bfsPerPage * 256 := by
    unfold BloomOptions.edgesPerBuf simdLen
    exact Nat.mod_eq_of_lt (by omega)
  have inList := (List.getElem?_eq_some_iff.mp found).1
  have group : i / o.bfsPerPage / 256 = i / o.edgesPerBuf := by
    rw [Nat.div_div_eq_div_mul, perBuf]
  have column : i / o.bfsPerPage % 256 = i % o.edgesPerBuf / o.bfsPerPage := by
    rw [perBuf, Nat.mod_mul_right_div_self]
  have inFile : i / o.edgesPerBuf < ks.sum := by
    rw [size, length_groups]
    have splitEdges := Nat.div_add_mod own.length o.edgesPerBuf
    have splitIndex := Nat.div_add_mod i o.edgesPerBuf
    have le : i / o.edgesPerBuf ≤ own.length / o.edgesPerBuf :=
      Nat.div_le_div_right (Nat.le_of_lt inList)
    split
    · rename_i aligned
      rcases Nat.lt_or_eq_of_le le with less | equal
      · omega
      · rw [equal] at splitIndex
        omega
    · omega
  have visited : ∀ base, (i / o.edgesPerBuf, base) ∈ visits o ks 0 ↔
      base = i / o.edgesPerBuf * groupBytes o := by
    intro base
    rw [mem_visits_iff noWrap]
    constructor
    · exact fun h => h.2
    · exact fun h => ⟨⟨Nat.zero_le _, by rw [Nat.zero_add]; exact inFile⟩, h⟩
  unfold Covered
  rw [group]
  refine ⟨⟨_, (visited _).mpr rfl⟩, ?_⟩
  intro base member row rowMember
  rw [(visited base).mp member, column]
  refine ⟨i, edge, found, row, ?_, ?_⟩
  · rw [F.splitKey_zero, builderHash_eq_kernelHash _ low]
    exact rowMember
  · unfold builderBit
    ring

end Query

section Created

variable {E : Type} [Inhabited E] [DecidableEq E] {m : Mapping} {F : FormatUtils E}
  {o : BloomOptions}

/-- The buffers of a fresh run of `edge_distribution`. -/
def freshBufs : Nat → SuperBuf E := fun _ => ⟨File.opened [], File.opened [], []⟩

/-- What mode `create` leaves for a super partition: the edges that are streamed, and their
filters. -/
theorem created_spec {efile : List E} {bufs : Nat → SuperBuf E} {superp : Nat}
    (inside : superp < m.superPartitions)
    (written : edgeDistribution m F o efile (fun _ => 0) 0 freshBufs false = some bufs) :
    Distributable F o efile ∧ edgeFile m efile bufs superp = superEdges m F superp efile ∧
      (bufs superp).bfFp.content =
        filterBytes F o (groups o.edgesPerBuf (superEdges m F superp efile)) := by
  unfold freshBufs at written
  rw [edgeDistribution_create,
    distributeEdges_eq_some_iff (ready_opened ⟨fun _ => [], fun _ => []⟩)] at written
  obtain ⟨ok, rfl⟩ := written
  refine ⟨ok, ?_, by simp [flushed, shippedState]⟩
  unfold edgeFile
  by_cases several : 1 < m.superPartitions
  · simp [several, flushed, shippedState]
  · have one : m.superPartitions = 1 := by omega
    have zero : superp = 0 := by omega
    rw [if_neg several, zero, superEdges_of_one one]

/-- A fresh run on edges that can be distributed. -/
theorem created_of_distributable {efile : List E} (ok : Distributable F o efile) :
    edgeDistribution m F o efile (fun _ => 0) 0 freshBufs false =
      some (flushed m F o freshBufs efile) := by
  unfold freshBufs
  rw [edgeDistribution_create]
  exact distributeEdges_of_distributable (ready_opened ⟨fun _ => [], fun _ => []⟩) ok

/-- Filters and edges that mode `create` wrote: a query hides no edge exactly if each edge is
covered. -/
theorem neverHides_created_iff {efile : List E} {bufs : Nat → SuperBuf E} {superp : Nat}
    (inside : superp < m.superPartitions)
    (written : edgeDistribution m F o efile (fun _ => 0) 0 freshBufs false = some bufs)
    {ks : List Nat} (positive : ∀ k ∈ ks, 0 < k)
    (size : (bufs superp).bfFp.content.length = ks.sum * groupBytes o) :
    NeverHides F o ks efile.length (edgeFile m efile bufs superp) (bufs superp).bfFp.content ↔
      ∀ i edge, (edgeFile m efile bufs superp)[i]? = some edge →
        Covered F o ks (edgeFile m efile bufs superp) i edge := by
  obtain ⟨ok, sameEdges, sameFilters⟩ := created_spec inside written
  rw [sameFilters] at size
  rw [sameEdges, sameFilters]
  by_cases nonempty : efile = []
  · -- no edge, no group, no call
    have noEdge : superEdges m F superp efile = [] := by simp [nonempty, superEdges]
    rw [noEdge, groups_nil, filterBytes_nil, List.length_nil] at size
    have noGroup : ks.sum = 0 := by
      rcases Nat.mul_eq_zero.mp size.symm with zero | zero
      · exact zero
      · exact absurd zero (Nat.ne_of_gt groupBytes_pos)
    have noCall : ks = [] := by
      rw [List.eq_nil_iff_forall_not_mem]
      intro k member
      have := positive k member
      have := List.le_sum_of_mem member
      omega
    subst noCall
    simp [NeverHides, noEdge, queryStores, cutCalls]
  · exact neverHides_filterBytes_iff (ok.fits nonempty) (ok.progress nonempty) size _

/-- Bloom filters never hide an edge, under the exact condition. Sources are arbitrary, the
kernel may be called for any number of groups at a time. -/
theorem filters_never_hide_iff {efile : List E} {bufs : Nat → SuperBuf E} {superp : Nat}
    (inside : superp < m.superPartitions)
    (written : edgeDistribution m F o efile (fun _ => 0) 0 freshBufs false = some bufs)
    {ks : List Nat} (positive : ∀ k ∈ ks, 0 < k)
    (size : (bufs superp).bfFp.content.length = ks.sum * groupBytes o) :
    NeverHides F o ks efile.length (edgeFile m efile bufs superp) (bufs superp).bfFp.content ↔
      ∀ i edge, (edgeFile m efile bufs superp)[i]? = some edge →
        Covered F o ks (edgeFile m efile bufs superp) i edge :=
  neverHides_created_iff inside written positive size

end Created

section Instances

/-- One super partition, one cached partition. -/
def oneMapping : Mapping := ⟨1, 1, Mapping.isPow_one, Mapping.isPow_one⟩

/-- An edge whose source id is too large for an `int`. -/
def highEdge : SimpleEdge := ⟨0x80000000#32, 0#32⟩

private theorem distributable_small (edge : SimpleEdge)
    (noTombstone : type2.splitKey edge 0 ≠ tombstone) :
    Distributable type2 smallOptions [edge] where
  noTombstone e member := by rw [List.mem_singleton.mp member]; exact noTombstone
  fits _ := by decide
  progress _ := by decide
  inBuffer := by
    rw [List.length_singleton]
    decide

private theorem created_small (edge : SimpleEdge)
    (noTombstone : type2.splitKey edge 0 ≠ tombstone) :
    edgeDistribution oneMapping type2 smallOptions [edge] (fun _ => 0) 0 freshBufs false =
      some (flushed oneMapping type2 smallOptions freshBufs [edge]) :=
  created_of_distributable (distributable_small edge noTombstone)

theorem filters_never_hide_iff_low_edge :
    NeverHides type2 smallOptions [1] 1 [⟨5#32, 7#32⟩]
      (flushed oneMapping type2 smallOptions freshBufs [⟨5#32, 7#32⟩] 0).bfFp.content := by
  have inside : 0 < oneMapping.superPartitions := by decide
  have written := created_small ⟨5#32, 7#32⟩ (by decide)
  obtain ⟨-, sameEdges, sameFilters⟩ := created_spec inside written
  have own : edgeFile oneMapping [⟨5#32, 7#32⟩] (flushed oneMapping type2 smallOptions freshBufs
      [⟨5#32, 7#32⟩]) 0 = [⟨5#32, 7#32⟩] := by rw [sameEdges]; rfl
  have size : (flushed oneMapping type2 smallOptions freshBufs
      [⟨5#32, 7#32⟩] 0).bfFp.content.length = [1].sum * groupBytes smallOptions := by
    rw [sameFilters]
    exact length_flatMap_const length_bloomOut_groupBytes _
  have visible := filters_never_hide_iff inside written (by decide) size
  rw [own] at visible
  refine visible.mpr ?_
  intro i edge found
  refine covered_of_low (by decide) (by decide) (by decide) found ?_
  have low := List.mem_of_getElem? found
  rw [List.mem_singleton.mp low]
  decide

/-- The filter of the edge `2147483648 → 0` hides it: the builder sets rows 4, 26, 30 and 29, the
kernel tests rows 28, 2, 4 and 26. -/
theorem filter_hides_high_edge :
    ∃ bufs, edgeDistribution oneMapping type2 smallOptions [highEdge] (fun _ => 0) 0 freshBufs
        false = some bufs ∧ edgeFile oneMapping [highEdge] bufs 0 = [highEdge] ∧
      (bufs 0).bfFp.content.length = [1].sum * groupBytes smallOptions ∧
      ¬ NeverHides type2 smallOptions [1] 1 [highEdge] (bufs 0).bfFp.content := by
  have inside : 0 < oneMapping.superPartitions := by decide
  have written := created_small highEdge (by decide)
  obtain ⟨-, sameEdges, sameFilters⟩ := created_spec inside written
  have own : edgeFile oneMapping [highEdge] (flushed oneMapping type2 smallOptions freshBufs
      [highEdge]) 0 = [highEdge] := by rw [sameEdges]; rfl
  have size : (flushed oneMapping type2 smallOptions freshBufs
      [highEdge] 0).bfFp.content.length = [1].sum * groupBytes smallOptions := by
    rw [sameFilters]
    exact length_flatMap_const length_bloomOut_groupBytes _
  refine ⟨_, written, own, size, ?_⟩
  have exact_ := neverHides_created_iff inside written (by decide) size
  rw [own] at exact_
  intro visible
  have covered := exact_.mp visible 0 highEdge rfl
  have hidden : ∀ row ∈ builderHash 32 (type2.splitKey highEdge 0), row ≠ 28 := by
    decide +kernel
  obtain ⟨k, other, found, row, member, same⟩ := covered.2 0 (by decide) 28 (by decide +kernel)
  have zero : k = 0 := by
    have := (List.getElem?_eq_some_iff.mp found).1
    rw [List.length_singleton] at this
    omega
  subst zero
  obtain rfl : highEdge = other := by simpa using found
  have tested : 8 * (0 + 32 * 28) + 0 / smallOptions.bfsPerPage % 256 = 256 * 28 := by decide
  have set : builderBit smallOptions 0 row = 256 * row := by simp [builderBit]
  rw [tested, set] at same
  exact hidden row member (by omega)

end Instances

end MBFGraph
