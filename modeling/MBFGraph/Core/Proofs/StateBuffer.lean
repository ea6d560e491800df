import MBFGraph.Core.StatePrepare

/-!
# The state buffer

The records of a super partition lie one behind the other in the state buffer, each vertex has its
own, and `do_state_iter` comes to each of them once (`addressesVertices`). This needs addresses of 64
bits. Whether the buffer is large enough for them is a question of divisibility
(`holdsSuperPartitions_iff`).
-/

namespace MBFGraph

namespace Configuration

variable {c : Configuration}

/-! ## Counting in 64 bits -/

/-- The bits from `shift` on. -/
theorem toNat_and_not_mask {shift : Nat} (small : shift < 64) (x : BitVec 64) :
    (x &&& ~~~((1#64 <<< shift) - 1)).toNat = (x.toNat >>> shift) <<< shift := by
  have pow : 2 ^ shift < 2 ^ 64 := Nat.pow_lt_pow_right (by decide) small
  have positive := Nat.two_pow_pos shift
  have mask : ((1#64 <<< shift) - 1).toNat = 2 ^ shift - 1 := by
    have one : (1#64 <<< shift).toNat = 2 ^ shift := by
      rw [BitVec.toNat_shiftLeft, BitVec.toNat_ofNat, Nat.one_mod_two_pow (by decide),
        Nat.one_shiftLeft, Nat.mod_eq_of_lt pow]
    rw [BitVec.toNat_sub_of_le (by rw [BitVec.le_def, one]; exact positive), one]
    rfl
  apply Nat.eq_of_testBit_eq
  intro i
  rw [BitVec.testBit_toNat, BitVec.getLsbD_and, BitVec.getLsbD_not, ← BitVec.testBit_toNat,
    ← BitVec.testBit_toNat, mask, Nat.testBit_two_pow_sub_one, Nat.testBit_shiftLeft,
    Nat.testBit_shiftRight]
  by_cases low : i < shift
  · simp [low]
  · have back : shift + (i - shift) = i := by omega
    by_cases inside : i < 64
    · simp [low, inside, back, Nat.le_of_not_lt low]
    · have none_ : x.toNat.testBit i = false :=
        Nat.testBit_lt_two_pow (Nat.lt_of_lt_of_le x.isLt
          (Nat.pow_le_pow_right (by decide) (Nat.le_of_not_lt inside)))
      simp [none_, back]

/-- The base of a partition lies below the bits that count. -/
theorem base_lt {superp partition : Nat} (hs : superp < c.superPartitions)
    (hp : partition < c.cachedPartitions) :
    (partition <<< c.superPartitionShift) ||| superp <
      2 ^ (c.partitionShift + c.superPartitionShift) := by
  rw [c.superPartitions_eq] at hs
  rw [c.cachedPartitions_eq] at hp
  rw [← Nat.shiftLeft_add_eq_or_of_lt hs, Nat.shiftLeft_eq, Nat.pow_add]
  calc partition * 2 ^ c.superPartitionShift + superp
      < (partition + 1) * 2 ^ c.superPartitionShift := by rw [Nat.succ_mul]; omega
    _ ≤ 2 ^ c.partitionShift * 2 ^ c.superPartitionShift := Nat.mul_le_mul_right _ hp

theorem shift_lt (partitions : c.superPartitions * c.cachedPartitions < 2 ^ 64) :
    c.partitionShift + c.superPartitionShift < 64 := by
  rw [c.superPartitions_eq, c.cachedPartitions_eq, ← Nat.pow_add, Nat.add_comm] at partitions
  exact (Nat.pow_lt_pow_iff_right (by decide)).mp partitions

/-- In `unsigned long` arithmetic the assertion holds, and nothing is lost. -/
theorem stateCount64_eq (bounded : c.vertices < 2 ^ 64)
    (partitions : c.superPartitions * c.cachedPartitions < 2 ^ 64) {superp partition : Nat}
    (hs : superp < c.superPartitions) (hp : partition < c.cachedPartitions) :
    c.stateCount64 (BitVec.ofNat 64 superp) (BitVec.ofNat 64 partition) =
      some (BitVec.ofNat 64 (c.stateCount superp partition)) := by
  have small := shift_lt partitions
  have baseLt := base_lt hs hp
  have positive := c.vertices_pos
  unfold stateCount64 stateCount
  simp only
  generalize c.partitionShift + c.superPartitionShift = shift at small baseLt
  have pow : 2 ^ shift < 2 ^ 64 := Nat.pow_lt_pow_right (by decide) small
  have superpLt : superp < 2 ^ 64 := Nat.lt_of_le_of_lt Nat.right_le_or (baseLt.trans pow)
  have shiftedLt : partition <<< c.superPartitionShift < 2 ^ 64 :=
    Nat.lt_of_le_of_lt Nat.left_le_or (baseLt.trans pow)
  have partitionLt : partition < 2 ^ 64 :=
    Nat.lt_of_le_of_lt (by rw [Nat.shiftLeft_eq]; exact Nat.le_mul_of_pos_right _ (Nat.two_pow_pos _))
      shiftedLt
  have base : ((BitVec.ofNat 64 partition <<< c.superPartitionShift) |||
      BitVec.ofNat 64 superp).toNat = (partition <<< c.superPartitionShift) ||| superp := by
    rw [BitVec.toNat_or, BitVec.toNat_shiftLeft, BitVec.toNat_ofNat, BitVec.toNat_ofNat,
      Nat.mod_eq_of_lt partitionLt, Nat.mod_eq_of_lt superpLt, Nat.mod_eq_of_lt shiftedLt]
  have vertices : (BitVec.ofNat 64 c.vertices).toNat = c.vertices := by
    rw [BitVec.toNat_ofNat, Nat.mod_eq_of_lt bounded]
  have below : (BitVec.ofNat 64 c.vertices - 1).toNat = c.vertices - 1 := by
    rw [BitVec.toNat_sub_of_le (by rw [BitVec.le_def, vertices]; exact positive), vertices]
    rfl
  have count : ((BitVec.ofNat 64 c.vertices - 1) &&& ~~~((1#64 <<< shift) - 1)).toNat =
      ((c.vertices - 1) >>> shift) <<< shift := by
    rw [toNat_and_not_mask small, below]
  generalize (BitVec.ofNat 64 partition <<< c.superPartitionShift) ||| BitVec.ofNat 64 superp = b
    at base
  generalize (BitVec.ofNat 64 c.vertices - 1) &&& ~~~((1#64 <<< shift) - 1) = m at count
  have disjoint : b &&& m = 0 := by
    apply BitVec.eq_of_toNat_eq
    rw [BitVec.toNat_and, base, count]
    apply Nat.eq_of_testBit_eq
    intro i
    rw [Nat.testBit_and, Nat.testBit_shiftLeft]
    by_cases low : i < shift
    · simp [low]
    · rw [Nat.testBit_lt_two_pow (Nat.lt_of_lt_of_le baseLt
        (Nat.pow_le_pow_right (by decide) (Nat.le_of_not_lt low)))]
      simp
  have turns : (m >>> shift).toNat = (c.vertices - 1) >>> shift := by
    rw [BitVec.toNat_ushiftRight, count, Nat.shiftLeft_shiftRight]
  have fewTurns : (c.vertices - 1) >>> shift + 1 < 2 ^ 64 := by
    have := Nat.shiftRight_le (c.vertices - 1) shift
    omega
  rw [if_neg (by omega), if_neg (by simp [disjoint])]
  have test : m ||| b < BitVec.ofNat 64 c.vertices ↔
      ((c.vertices - 1) >>> shift) <<< shift ||| (partition <<< c.superPartitionShift ||| superp) <
        c.vertices := by
    rw [BitVec.lt_def, BitVec.toNat_or, base, count, vertices]
  simp only [test, Nat.shiftLeft_shiftRight]
  split
  · refine congrArg some (BitVec.eq_of_toNat_eq ?_)
    rw [BitVec.toNat_add, turns, BitVec.toNat_ofNat]
    rfl
  · rw [BitVec.sub_add_cancel]
    refine congrArg some (BitVec.eq_of_toNat_eq ?_)
    rw [turns, BitVec.toNat_ofNat, Nat.mod_eq_of_lt (by omega)]

/-! ## Where the records lie -/

theorem firstRecord_succ (superp partition : Nat) :
    c.firstRecord superp (partition + 1) =
      c.firstRecord superp partition + c.stateCount superp partition := by
  simp [firstRecord, List.range_succ]

/-- `state_prepare` counts the records of the partitions in front. -/
theorem stateIndex_eq (bounded : c.vertices < 2 ^ 64)
    (partitions : c.superPartitions * c.cachedPartitions < 2 ^ 64) (vertexSize : BitVec 64)
    {superp partition : Nat} (hs : superp < c.superPartitions)
    (hp : partition ≤ c.cachedPartitions) :
    c.stateIndex vertexSize (BitVec.ofNat 64 superp) partition =
      some (BitVec.ofNat 64 (c.firstRecord superp partition) * vertexSize) := by
  induction partition with
  | zero => simp [stateIndex, firstRecord]
  | succ partition ih =>
    rw [stateIndex, ih (by omega), Option.bind_some, stateCount64_eq bounded partitions hs hp,
      Option.map_some, firstRecord_succ, BitVec.ofNat_add, BitVec.add_mul, BitVec.mul_comm vertexSize]

/-- The records are numbered through, and each has `vertex_size` bytes. -/
theorem recordAddress_eq (bounded : c.vertices < 2 ^ 64)
    (partitions : c.superPartitions * c.cachedPartitions < 2 ^ 64) (vertexSize : BitVec 64)
    {superp partition : Nat} (hs : superp < c.superPartitions) (hp : partition < c.cachedPartitions)
    (k : Nat) :
    c.recordAddress vertexSize (BitVec.ofNat 64 superp) partition k =
      some (BitVec.ofNat 64 (c.firstRecord superp partition + k) * vertexSize) := by
  unfold recordAddress
  rw [stateIndex_eq bounded partitions vertexSize hs hp.le, Option.map_some, BitVec.ofNat_add,
    BitVec.add_mul]

theorem firstRecord_mono (superp : Nat) {partition partition' : Nat} (le : partition ≤ partition') :
    c.firstRecord superp partition ≤ c.firstRecord superp partition' := by
  induction partition', le using Nat.le_induction with
  | base => exact Nat.le_refl _
  | succ partition' _ ih => rw [firstRecord_succ]; exact ih.trans (Nat.le_add_right _ _)

/-- A record lies in front of the records of later partitions. -/
theorem firstRecord_add_lt {superp partition partition' k : Nat} (less : partition < partition')
    (inside : k < c.stateCount superp partition) :
    c.firstRecord superp partition + k < c.firstRecord superp partition' := by
  have next := firstRecord_mono (c := c) superp (Nat.succ_le_of_lt less)
  rw [Nat.succ_eq_add_one, firstRecord_succ] at next
  omega

/-- `k < state_count(superp, partition)`, as the code counts. -/
def Counted (c : Configuration) (superp partition k : Nat) : Prop :=
  ∃ count, c.stateCount64 (BitVec.ofNat 64 superp) (BitVec.ofNat 64 partition) = some count ∧
    k < count.toNat

theorem counted_iff (bounded : c.vertices < 2 ^ 64)
    (partitions : c.superPartitions * c.cachedPartitions < 2 ^ 64) {superp partition k : Nat}
    (hs : superp < c.superPartitions) (hp : partition < c.cachedPartitions) :
    c.Counted superp partition k ↔ c.mapInverse superp partition k < c.vertices := by
  have small : c.stateCount superp partition ≤ c.vertices := by
    by_contra more
    have last := (lt_stateCount_iff hs hp).mp (Nat.lt_of_not_le more)
    rw [c.mapInverse_eq hs hp] at last
    have positive := Nat.mul_pos c.cachedPartitions_pos c.superPartitions_pos
    have := Nat.le_mul_of_pos_right c.vertices positive
    rw [← Nat.mul_assoc] at this
    rw [Nat.add_mul] at last
    omega
  unfold Counted
  rw [stateCount64_eq bounded partitions hs hp, ← lt_stateCount_iff hs hp]
  simp only [Option.some.injEq, exists_eq_left']
  rw [BitVec.toNat_ofNat, Nat.mod_eq_of_lt (Nat.lt_of_le_of_lt small bounded)]

/-- Two records of a super partition do not overlap. -/
theorem firstRecord_add_ne {superp partition partition' k k' : Nat}
    (inside : k < c.stateCount superp partition) (inside' : k' < c.stateCount superp partition')
    (other : (partition, k) ≠ (partition', k')) :
    c.firstRecord superp partition + k ≠ c.firstRecord superp partition' + k' := by
  rcases Nat.lt_trichotomy partition partition' with less | same | more
  · have := firstRecord_add_lt less inside
    omega
  · subst same
    intro equal
    exact other (by rw [Nat.add_left_cancel equal])
  · have := firstRecord_add_lt more inside'
    omega

end Configuration

/-- Vertices are found in the state buffer: triples name them one to one, the assertion of
`state_count` holds, the records lie one behind the other from the begin of the buffer and do not
overlap, and an iteration comes to each vertex of the super partition once. -/
structure AddressesVertices (c : Configuration) (vertexSize : BitVec 64) : Prop where
  bijective : Set.BijOn
    (fun v => (c.mapSuperPartition v, c.mapCachedPartition v, c.mapOffset v))
    {v | v < c.vertices}
    {t | t.1 < c.superPartitions ∧ t.2.1 < c.cachedPartitions ∧ c.Counted t.1 t.2.1 t.2.2}
  inverse : ∀ v < c.vertices,
    c.mapInverse (c.mapSuperPartition v) (c.mapCachedPartition v) (c.mapOffset v) = v
  asserted : ∀ superp < c.superPartitions, ∀ partition < c.cachedPartitions,
    (c.stateCount64 (BitVec.ofNat 64 superp) (BitVec.ofNat 64 partition)).isSome
  contiguous : ∀ superp < c.superPartitions,
    (c.stateIterWork 1 superp 0).map (fun at_ =>
      (c.recordAddress vertexSize (BitVec.ofNat 64 superp) at_.1 at_.2).map BitVec.toNat) =
    (List.range (c.stateIterWork 1 superp 0).length).map fun i => some (i * vertexSize.toNat)
  disjoint : ∀ superp < c.superPartitions, ∀ partition < c.cachedPartitions,
    ∀ partition' < c.cachedPartitions, ∀ k k', c.Counted superp partition k →
    c.Counted superp partition' k' → (partition, k) ≠ (partition', k') →
    ∃ a a', c.recordAddress vertexSize (BitVec.ofNat 64 superp) partition k = some a ∧
      c.recordAddress vertexSize (BitVec.ofNat 64 superp) partition' k' = some a' ∧
      (a.toNat + vertexSize.toNat ≤ a'.toNat ∨ a'.toNat + vertexSize.toNat ≤ a.toNat)
  visits : ∀ superp < c.superPartitions, ∀ processors > 0,
    (((List.range processors).flatMap (c.stateIterWork processors superp)).map
      fun at_ => c.mapInverse superp at_.1 at_.2).Perm
      ((List.range c.vertices).filter fun v => c.mapSuperPartition v = superp)

/-- Vertex addressing works in 64 bits, as long as the records of a super partition do. -/
theorem addressesVertices (c : Configuration) (vertexSize : BitVec 64)
    (bounded : c.vertices < 2 ^ 64)
    (partitions : c.superPartitions * c.cachedPartitions < 2 ^ 64)
    (addressable : ∀ superp < c.superPartitions, vertexSize.toNat *
      ((List.range c.vertices).filter fun v => c.mapSuperPartition v = superp).length ≤ 2 ^ 64) :
    AddressesVertices c vertexSize := by
  have visits : ∀ superp < c.superPartitions, ∀ processors > 0,
      (((List.range processors).flatMap (c.stateIterWork processors superp)).map
        fun at_ => c.mapInverse superp at_.1 at_.2).Perm
        ((List.range c.vertices).filter fun v => c.mapSuperPartition v = superp) := by
    intro superp hs processors positive
    rw [Configuration.flatMap_stateIterWork positive]
    refine (List.perm_ext_iff_of_nodup (c.nodup_vertexIds hs)
      (List.nodup_range.filter _)).mpr fun v => ?_
    rw [Configuration.mem_vertexIds_iff hs, List.mem_filter, List.mem_range, decide_eq_true_eq]
  have one : ∀ superp, c.stateIterWork 1 superp 0 =
      (List.range c.processors).flatMap (c.stateIter superp) := fun superp => by
    simpa using Configuration.flatMap_stateIterWork (c := c) Nat.one_pos superp
  have numbered : ∀ superp, (c.stateIterWork 1 superp 0).map
      (fun v => c.firstRecord superp v.1 + v.2) = List.range (c.records superp) := fun superp => by
    rw [one, Configuration.map_record_stateIter]
  have length : ∀ superp, (c.stateIterWork 1 superp 0).length = c.records superp := fun superp => by
    rw [← List.length_range (n := c.records superp), ← numbered, List.length_map]
  have recordsEq : ∀ superp < c.superPartitions, c.records superp =
      ((List.range c.vertices).filter fun v => c.mapSuperPartition v = superp).length := by
    intro superp hs
    rw [← (visits superp hs 1 Nat.one_pos).length_eq, List.length_map, ← length]
    simp
  have address : ∀ superp < c.superPartitions, ∀ partition < c.cachedPartitions,
      ∀ k < c.stateCount superp partition, ∃ a,
        c.recordAddress vertexSize (BitVec.ofNat 64 superp) partition k = some a ∧
        a.toNat = (c.firstRecord superp partition + k) * vertexSize.toNat := by
    intro superp hs partition hp k inside
    refine ⟨_, Configuration.recordAddress_eq bounded partitions vertexSize hs hp k, ?_⟩
    have below := Configuration.firstRecord_add_lt hp inside
    change _ < c.records superp at below
    generalize c.firstRecord superp partition + k = i at below
    have few : c.records superp ≤ c.vertices := by
      rw [recordsEq superp hs]
      exact (List.length_filter_le _ _).trans_eq List.length_range
    have fits := addressable superp hs
    rw [← recordsEq superp hs, Nat.mul_comm] at fits
    rw [BitVec.toNat_mul, BitVec.toNat_ofNat, Nat.mod_eq_of_lt (by omega : i < 2 ^ 64)]
    apply Nat.mod_eq_of_lt
    by_cases empty : vertexSize.toNat = 0
    · rw [empty, Nat.mul_zero]
      exact Nat.two_pow_pos 64
    · exact Nat.lt_of_lt_of_le (Nat.mul_lt_mul_of_pos_right below (Nat.pos_of_ne_zero empty)) fits
  have counted : ∀ superp < c.superPartitions, ∀ partition < c.cachedPartitions, ∀ k,
      c.Counted superp partition k ↔ k < c.stateCount superp partition :=
    fun superp hs partition hp k => (Configuration.counted_iff bounded partitions hs hp).trans
      (Configuration.lt_stateCount_iff hs hp).symm
  constructor
  · refine ⟨fun v inside => ?_, fun v _ v' _ same => ?_, ?_⟩
    · refine ⟨c.mapSuperPartition_lt v, c.mapCachedPartition_lt v, ?_⟩
      rw [Configuration.counted_iff bounded partitions (c.mapSuperPartition_lt v)
        (c.mapCachedPartition_lt v), c.mapInverse_map]
      exact inside
    · rw [Prod.mk.injEq, Prod.mk.injEq] at same
      rw [← c.mapInverse_map v, ← c.mapInverse_map v', same.1, same.2.1, same.2.2]
    · rintro ⟨superp, partition, k⟩ ⟨hs, hp, isCounted⟩
      refine ⟨c.mapInverse superp partition k, ?_, ?_⟩
      · exact (Configuration.counted_iff bounded partitions hs hp).mp isCounted
      · simp only [c.mapSuperPartition_mapInverse hs hp, c.mapCachedPartition_mapInverse hs hp,
          c.mapOffset_mapInverse hs hp]
  · exact fun v _ => c.mapInverse_map v
  · intro superp hs partition hp
    rw [Configuration.stateCount64_eq bounded partitions hs hp]
    rfl
  · intro superp hs
    rw [length, ← numbered, List.map_map]
    refine List.map_congr_left fun at_ visited => ?_
    rw [one, List.mem_flatMap] at visited
    simp only [List.mem_range] at visited
    obtain ⟨hp, inside⟩ := Configuration.mem_stateIter_iff.mp visited
    obtain ⟨a, isAddress, value⟩ := address superp hs at_.1 hp at_.2 inside
    rw [isAddress, Option.map_some, value]
    rfl
  · intro superp hs partition hp partition' hp' k k' inside inside' other
    rw [counted superp hs partition hp] at inside
    rw [counted superp hs partition' hp'] at inside'
    obtain ⟨a, isAddress, value⟩ := address superp hs partition hp k inside
    obtain ⟨a', isAddress', value'⟩ := address superp hs partition' hp' k' inside'
    refine ⟨a, a', isAddress, isAddress', ?_⟩
    have differ := Configuration.firstRecord_add_ne inside inside' other
    rw [value, value', ← Nat.succ_mul, ← Nat.succ_mul]
    rcases Nat.lt_or_gt_of_ne differ with less | more
    · exact .inl (Nat.mul_le_mul_right _ less)
    · exact .inr (Nat.mul_le_mul_right _ more)
  · exact visits

/-- So many vertices in `2 ^ superShift` super partitions of `2 ^ shift` cached partitions. -/
def Configuration.shifted (superShift shift vertices : Nat) (positive : 0 < vertices) :
    Configuration where
  superPartitions := 2 ^ superShift
  cachedPartitions := 2 ^ shift
  superPartitions_pow := Mapping.isPow_self superShift
  cachedPartitions_pow := Mapping.isPow_self shift
  processors := 1
  vertices := vertices
  processors_pow := Mapping.isPow_one
  vertices_pos := positive

/-- Vertices 0 to 4, of which 0 and 4 share a cached partition. -/
theorem addressesVertices_five :
    AddressesVertices (Configuration.shifted 1 1 5 (by decide)) 12 :=
  addressesVertices _ _ (by decide) (by decide) (by decide +kernel)

/-- With `2 ^ 63` records of 4 bytes, vertex `2 ^ 62` gets the address of vertex 0. -/
theorem not_addressesVertices_wrapped :
    ¬ AddressesVertices (Configuration.shifted 0 0 (2 ^ 63) (Nat.two_pow_pos 63)) 4 := by
  intro addresses
  generalize isConfiguration : Configuration.shifted 0 0 (2 ^ 63) (Nat.two_pow_pos 63) = c
    at addresses
  have vertices : c.vertices = 2 ^ 63 := by rw [← isConfiguration]; rfl
  have superps : c.superPartitions = 1 := by rw [← isConfiguration]; rfl
  have cached : c.cachedPartitions = 1 := by rw [← isConfiguration]; rfl
  have bounded : c.vertices < 2 ^ 64 := by rw [vertices]; norm_num
  have partitions : c.superPartitions * c.cachedPartitions < 2 ^ 64 := by
    rw [superps, cached]; norm_num
  have hs : 0 < c.superPartitions := by omega
  have hp : 0 < c.cachedPartitions := by omega
  have isCounted : ∀ k < 2 ^ 63, c.Counted 0 0 k := by
    intro k small
    rw [Configuration.counted_iff bounded partitions hs hp, c.mapInverse_eq hs hp, superps, cached,
      vertices]
    omega
  obtain ⟨a, a', isAddress, isAddress', apart⟩ := addresses.disjoint 0 hs 0 hp 0 hp 0 (2 ^ 62)
    (isCounted 0 (by norm_num)) (isCounted (2 ^ 62) (by norm_num)) (by simp)
  have first : c.firstRecord 0 0 = 0 := rfl
  rw [Configuration.recordAddress_eq bounded partitions 4 hs hp, first, Option.some.injEq]
    at isAddress isAddress'
  subst isAddress isAddress'
  revert apart
  decide

/-- With `2 ^ 32` partitions of both kinds the mask in `state_count` is shifted by 64. -/
theorem not_addressesVertices_shifted :
    ¬ AddressesVertices (Configuration.shifted 32 32 1 (by decide)) 4 := by
  intro addresses
  have counted := addresses.asserted 0 (Nat.two_pow_pos 32) 0 (Nat.two_pow_pos 32)
  have superShift : (Configuration.shifted 32 32 1 (by decide)).superPartitionShift = 32 :=
    halvings_two_pow_sub_one 32
  have shift : (Configuration.shifted 32 32 1 (by decide)).partitionShift = 32 :=
    halvings_two_pow_sub_one 32
  unfold Configuration.stateCount64 at counted
  simp [superShift, shift] at counted

/-- Vertex addressing goes wrong where the records of a super partition have more than `2 ^ 64` bytes,
and where there are `2 ^ 64` partitions. -/
theorem not_addressesVertices :
    ¬ AddressesVertices (Configuration.shifted 0 0 (2 ^ 63) (Nat.two_pow_pos 63)) 4 ∧
      ¬ AddressesVertices (Configuration.shifted 32 32 1 (by decide)) 4 :=
  ⟨not_addressesVertices_wrapped, not_addressesVertices_shifted⟩

/-! ## The size of the buffer -/

namespace Configuration

variable {c : Configuration}

/-- A super partition has the vertices of one residue class. -/
theorem records_eq {superp : Nat} (hs : superp < c.superPartitions) :
    c.records superp = c.vertices / c.superPartitions +
      if superp < c.vertices % c.superPartitions then 1 else 0 := by
  have numbered := map_record_stateIter (c := c) superp
  have length : c.records superp = (c.vertexIds superp).length := by
    unfold vertexIds
    rw [List.length_map, ← List.length_range (n := c.records superp), ← numbered, List.length_map]
  have perm : (c.vertexIds superp).Perm
      ((List.range c.vertices).filter fun v => v ≡ superp [MOD c.superPartitions]) := by
    refine (List.perm_ext_iff_of_nodup (c.nodup_vertexIds hs)
      (List.nodup_range.filter _)).mpr fun v => ?_
    rw [mem_vertexIds_iff hs, List.mem_filter, List.mem_range, decide_eq_true_eq,
      c.mapSuperPartition_eq_mod, Nat.ModEq, Nat.mod_eq_of_lt hs]
  have count := Nat.count_modEq_card c.vertices c.superPartitions_pos superp
  rw [Nat.count_eq_card_filter_range, Nat.mod_eq_of_lt hs] at count
  rw [length, perm.length_eq, ← count]
  rfl

end Configuration

/-- The state buffer that `calculate_ram_budget` plans has room for the records of every super
partition. -/
def HoldsSuperPartitions (m : Machine) (c : Configuration) (streamUnit : Nat) : Prop :=
  ∀ superp < c.superPartitions,
    m.vertexSize * ((List.range c.cachedPartitions).map (c.stateCount superp)).sum ≤
      (m.calculateRamBudget c.superPartitions c.cachedPartitions streamUnit).2.2

/-- The plan has room exactly if it fits in 64 bits, and the super partitions are of one size or the
last page of the smaller ones has room for one more record. -/
theorem holdsSuperPartitions_iff (m : Machine) (c : Configuration) (streamUnit : Nat)
    (same : m.vertices = c.vertices) (positive : 0 < m.vertexSize) :
    HoldsSuperPartitions m c streamUnit ↔
      c.vertices / c.superPartitions * m.vertexSize + 8192 ≤ 2 ^ 64 ∧
      (c.superPartitions ∣ c.vertices ∨
        0 < c.vertices / c.superPartitions * m.vertexSize % 8192 ∧
        c.vertices / c.superPartitions * m.vertexSize % 8192 + m.vertexSize ≤ 8192) := by
  have hs := c.superPartitions_pos
  have planned : (m.calculateRamBudget c.superPartitions c.cachedPartitions streamUnit).2.2 =
      (c.vertices / c.superPartitions * m.vertexSize + 8192 - 1) % 2 ^ 64 / 8192 * 8192 := by
    rw [← same]
    rfl
  have needed : ∀ superp < c.superPartitions,
      m.vertexSize * ((List.range c.cachedPartitions).map (c.stateCount superp)).sum =
        c.vertices / c.superPartitions * m.vertexSize +
          if superp < c.vertices % c.superPartitions then m.vertexSize else 0 := by
    intro superp below
    change m.vertexSize * c.records superp = _
    rw [Configuration.records_eq below, Nat.mul_comm, Nat.add_mul]
    split <;> simp
  have divides : c.superPartitions ∣ c.vertices ↔ ¬ 0 < c.vertices % c.superPartitions := by
    rw [Nat.dvd_iff_mod_eq_zero]
    omega
  unfold HoldsSuperPartitions
  rw [planned, divides]
  generalize c.vertices / c.superPartitions * m.vertexSize = x at *
  constructor
  · intro holds
    -- super partition 0 is one of the larger ones
    have first := holds 0 hs
    rw [needed 0 hs] at first
    split at first <;> omega
  · intro fits superp below
    rw [needed superp below]
    split <;> omega

/-- The machine of a run with so many vertices of so many bytes, with 4 GiB of memory. -/
def Machine.withVertices (vertices vertexSize : Nat) : Machine where
  processors := 1
  vertices := vertices
  vertexSize := vertexSize
  vertexFootprint := vertexSize + 8
  llcSize := 2 ^ 22
  llcLineSize := 64
  availableRam := 2 ^ 32
  maxStreams := 5
  maxBuffers := 4
  numIoqs := 1
  memoryBufferObjectSize := 128
  diskStreamObjectSize := 128
  ioqObjectSize := 128
  qsort := false

/-- Sixteen vertices of 12 bytes in two super partitions. -/
theorem holdsSuperPartitions_iff_sixteen :
    HoldsSuperPartitions (Machine.withVertices 16 12) (Configuration.shifted 1 0 16 (by decide)) 16384 ↔
      16 / 2 * 12 + 8192 ≤ 2 ^ 64 ∧
      (2 ∣ 16 ∨ 0 < 16 / 2 * 12 % 8192 ∧ 16 / 2 * 12 % 8192 + 12 ≤ 8192) :=
  holdsSuperPartitions_iff _ _ _ rfl (by decide)

/-- Two super partitions share 16385 vertices of one byte: the buffer is one page, but super
partition 0 has 8193 vertices. -/
theorem not_holdsSuperPartitions_odd :
    ¬ HoldsSuperPartitions (Machine.withVertices 16385 1)
      (Configuration.shifted 1 0 16385 (by decide)) 16384 := by
  intro holds
  have first := holds 0 (by decide)
  revert first
  decide +kernel

end MBFGraph
