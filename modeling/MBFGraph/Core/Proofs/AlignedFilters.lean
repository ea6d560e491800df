import MBFGraph.Core.Proofs.UpdateFilters

/-!
# Filters and pages describe the same edges

With several super partitions mode `create` writes every super partition's edges in their order,
and filter `q` of its filter file is made of the edges that page `q` of its edge file holds.
-/

namespace MBFGraph

open ByteBits Groups Stdio

section Aligned

variable {E : Type} (F : FormatUtils E) (o : BloomOptions)

/-- Row `row` of filter `q` in a file of bit-shuffled groups. -/
def filterBitIndex (q row : Nat) : Nat := 8 * (q / 256 * groupBytes o) + (256 * row + q % 256)

/-- Filter `q` is the union of the hash bits of the edges of page `q`, and there are as many groups
of 256 filters as the edges need. -/
structure AlignedWith (own : List E) (bf : List Byte) : Prop where
  groups : bf.length =
    (own.length + 256 * o.bfsPerPage - 1) / (256 * o.bfsPerPage) * groupBytes o
  filters : ∀ q, ∀ row < o.bitsPerBF, bitAt bf (filterBitIndex o q row) = true ↔
    ∃ i edge, q * o.bfsPerPage ≤ i ∧ i < (q + 1) * o.bfsPerPage ∧ own[i]? = some edge ∧
      row ∈ builderHash o.bitsPerBF (F.splitKey edge 0)

variable {F o}

/-- A bit of the file has one filter and one row. -/
theorem filterBitIndex_inj {q q' row row' : Nat} (inside : row < o.bitsPerBF)
    (inside' : row' < o.bitsPerBF) :
    filterBitIndex o q row = filterBitIndex o q' row' ↔ q = q' ∧ row = row' := by
  have address : ∀ q row, filterBitIndex o q row = 256 * (o.bitsPerBF * (q / 256) + row) + q % 256 := by
    intro q row
    have bits := groupBytes_bits (o := o)
    unfold filterBitIndex
    calc 8 * (q / 256 * groupBytes o) + (256 * row + q % 256)
        = q / 256 * (8 * groupBytes o) + (256 * row + q % 256) := by ring
      _ = 256 * (o.bitsPerBF * (q / 256) + row) + q % 256 := by rw [bits]; ring
  constructor
  · intro same
    rw [address, address] at same
    have column : q % 256 = q' % 256 := by omega
    have rows : o.bitsPerBF * (q / 256) + row = o.bitsPerBF * (q' / 256) + row' := by omega
    have group : q / 256 = q' / 256 := by
      have quotient := congrArg (· / o.bitsPerBF) rows
      simpa only [Nat.mul_add_div o.bitsPerBF_pos, Nat.div_eq_of_lt inside,
        Nat.div_eq_of_lt inside', Nat.add_zero] using quotient
    rw [group] at rows
    omega
  · rintro ⟨rfl, rfl⟩
    rfl

/-- The filter that the builder puts an edge into. -/
theorem builderBit_eq_filterBitIndex (products : o.IntProducts) (k row : Nat) :
    builderBit o k row = filterBitIndex o (k / o.bfsPerPage) row := by
  unfold builderBit filterBitIndex
  rw [edgesPerBuf_eq products, Nat.div_div_eq_div_mul, Nat.mod_mul_right_div_self]

theorem alignedWith_filterBytes (products : o.IntProducts) (own : List E) :
    AlignedWith F o own (filterBytes F o (groups o.edgesPerBuf own)) where
  groups := by
    have positive := edgesPerBuf_pos products
    have split := Nat.div_add_mod own.length o.edgesPerBuf
    have below := Nat.mod_lt own.length positive
    rw [length_filterBytes, length_groups, Nat.mul_comm 256, ← edgesPerBuf_eq products]
    congr 1
    by_cases whole : own.length % o.edgesPerBuf = 0
    · rw [if_pos whole, Nat.add_zero]
      refine (Nat.div_eq_of_lt_le ?_ ?_).symm
      · rw [Nat.mul_comm]
        omega
      · rw [Nat.mul_comm, Nat.mul_succ]
        omega
    · rw [if_neg whole]
      refine (Nat.div_eq_of_lt_le ?_ ?_).symm
      · rw [Nat.mul_comm, Nat.mul_succ]
        omega
      · rw [Nat.mul_comm, Nat.mul_succ, Nat.mul_succ]
        omega
  filters q row inside := by
    have positive := o.bfsPerPage_pos
    have fits : GroupFits o := by
      have := products.1
      unfold simdLen at this
      exact (groupFits_iff o).mpr (by omega)
    rw [bitAt_filterBytes fits (edgesPerBuf_pos products)]
    constructor
    · rintro ⟨i, edge, found, row', member, same⟩
      rw [builderBit_eq_filterBitIndex products,
        filterBitIndex_inj inside (edgeRows_lt F o edge row' member)] at same
      obtain ⟨rfl, rfl⟩ := same
      refine ⟨i, edge, Nat.div_mul_le_self i _, ?_, found, member⟩
      exact (Nat.div_lt_iff_lt_mul positive).mp (Nat.lt_succ_self _)
    · rintro ⟨i, edge, low, high, found, member⟩
      have page : i / o.bfsPerPage = q := by
        have := (Nat.le_div_iff_mul_le positive).mpr low
        have := (Nat.div_lt_iff_lt_mul positive).mpr high
        omega
      exact ⟨i, edge, found, row, member, by rw [builderBit_eq_filterBitIndex products, page]⟩

/-- Mode `create` with several super partitions: the edges of each, in input order, and filters that
are aligned with them. -/
theorem created_aligned [Inhabited E] [DecidableEq E] {m : Mapping} {efile : List E}
    {old created : BloomFiles E} (several : 1 < m.superPartitions)
    (written : partitionSuperPartition m F o .create efile old = some created) :
    ∀ s < m.superPartitions,
      created.edges s = efile.filter (fun e => decide (F.splitKey e 0 % m.superPartitions = s)) ∧
        AlignedWith F o (created.edges s) (created.bf s) := by
  intro s _
  obtain ⟨products, -, rfl⟩ := partitionSuperPartition_create_iff.mp written
  have own : (createdFiles m F o efile).edges s = superEdges m F s efile := if_pos several
  rw [own]
  constructor
  · unfold superEdges
    simp only [m.mapSuperPartition_eq_mod]
  · exact alignedWith_filterBytes products _

theorem created_aligned_two :
    ∃ created, partitionSuperPartition twoMapping type2 smallOptions .create
        [⟨5#32, 7#32⟩, ⟨6#32, 7#32⟩] ⟨fun _ => [], fun _ => []⟩ = some created ∧
      ∀ s < twoMapping.superPartitions,
        created.edges s = [(⟨5#32, 7#32⟩ : SimpleEdge), ⟨6#32, 7#32⟩].filter
            (fun e => decide (type2.splitKey e 0 % twoMapping.superPartitions = s)) ∧
          AlignedWith type2 smallOptions (created.edges s) (created.bf s) :=
  ⟨_, created_instance twoMapping distributable_instances.2.2,
    created_aligned (by decide) (created_instance twoMapping distributable_instances.2.2)⟩

end Aligned

end MBFGraph
