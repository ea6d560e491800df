import MBFGraph.Algorithms.HllUnion

/-!
# The vectors find the larger registers

A loop of `hll_union` has merged the registers up to `index` (`Merged`); a round does the next `width` of
them, whatever instructions it uses, as long as no register looks negative.
-/

namespace MBFGraph

open ByteBits Overwrite

namespace HyperAnf

variable {log2M : Nat} {counterA counterB counterC : List Byte}

/-- The larger ones of the registers. -/
def registerMax (counterA counterB : List Byte) : List Byte :=
  List.zipWith (fun left right => (scalarLane left right).1) counterA counterB

/-- A register of the second counter is larger. -/
def someGreater (counterA counterB : List Byte) : Bool :=
  (List.zipWith (fun left right => (scalarLane left right).2) counterA counterB).any id

/-- A round over registers that all have their sign bit clear. -/
theorem lanes_eq {left right : List Byte} (smallLeft : Registers left) (smallRight : Registers right)
    (sameLength : left.length = right.length) :
    por (pand right (pcmpgtb right left)) (pandn (pcmpgtb right left) left) = registerMax left right ∧
      ptestz (pcmpgtb right left) (pcmpgtb right left) = !someGreater left right := by
  induction left generalizing right with
  | nil =>
    obtain rfl := List.eq_nil_of_length_eq_zero sameLength.symm
    exact ⟨rfl, rfl⟩
  | cons l left ih =>
    cases right with
    | nil => exact absurd sameLength (by simp)
    | cons r right =>
      obtain ⟨bytes, flag⟩ := ih (fun b member => smallLeft b (List.mem_cons_of_mem _ member))
        (fun b member => smallRight b (List.mem_cons_of_mem _ member)) (Nat.succ.inj sameLength)
      have lane := vectorLane_eq (smallLeft l List.mem_cons_self) (smallRight r List.mem_cons_self)
      constructor
      · have first := congrArg Prod.fst lane
        exact congrArg₂ List.cons first bytes
      · have second : (vectorLane l r).2 = (scalarLane l r).2 := congrArg Prod.snd lane
        have head : ((if l.slt r then (0xFF : Byte) else 0) &&& (if l.slt r then 0xFF else 0) == 0) =
            !(vectorLane l r).2 := by
          unfold vectorLane
          split <;> rfl
        simp only [ptestz, pand, pcmpgtb, List.zipWith_cons_cons, List.all_cons, head, second]
          at flag ⊢
        simp only [flag, someGreater, List.zipWith_cons_cons, List.any_cons, id_eq, Bool.not_or]

theorem registerMax_append {leftA rightA leftB rightB : List Byte}
    (sameLength : leftA.length = leftB.length) :
    registerMax (leftA ++ rightA) (leftB ++ rightB) =
      registerMax leftA leftB ++ registerMax rightA rightB :=
  List.zipWith_append sameLength

theorem someGreater_append {leftA rightA leftB rightB : List Byte}
    (sameLength : leftA.length = leftB.length) :
    someGreater (leftA ++ rightA) (leftB ++ rightB) =
      (someGreater leftA leftB || someGreater rightA rightB) := by
  unfold someGreater
  rw [List.zipWith_append sameLength, List.any_append]

theorem length_registerMax (sameLength : counterA.length = counterB.length) :
    (registerMax counterA counterB).length = counterA.length := by
  rw [registerMax, List.length_zipWith, ← sameLength, Nat.min_self]

/-- The registers up to `index` are merged. -/
structure Merged (counterA counterB : List Byte) (s : UnionState) : Prop where
  inside : s.index + s.bytes = counterA.length
  counter : s.counterA =
    registerMax (counterA.take s.index) (counterB.take s.index) ++ counterA.drop s.index
  noChange : s.noChange = !someGreater (counterA.take s.index) (counterB.take s.index)

section

variable {s : UnionState} (merged : Merged counterA counterB s)
  (sameLength : counterA.length = counterB.length)

include merged sameLength

theorem Merged.length_front :
    (registerMax (counterA.take s.index) (counterB.take s.index)).length = s.index := by
  have inside := merged.inside
  rw [length_registerMax (by rw [List.length_take, List.length_take, sameLength]), List.length_take]
  omega

/-- What is behind `index` is as it was. -/
theorem Merged.drop_eq : s.counterA.drop s.index = counterA.drop s.index := by
  have front := merged.length_front sameLength
  rw [merged.counter, List.drop_left' front]

/-- The next registers are merged. -/
theorem Merged.advance {width : Nat} (fits : width ≤ s.bytes) :
    Merged counterA counterB
      { counterA := overwrite s.counterA s.index
          (registerMax ((counterA.drop s.index).take width) ((counterB.drop s.index).take width))
        index := s.index + width
        bytes := s.bytes - width
        noChange := s.noChange &&
          !someGreater ((counterA.drop s.index).take width) ((counterB.drop s.index).take width) } := by
  have inside := merged.inside
  have front := merged.length_front sameLength
  have taken : (counterA.take s.index).length = (counterB.take s.index).length := by
    rw [List.length_take, List.length_take, sameLength]
  have next : (registerMax ((counterA.drop s.index).take width)
      ((counterB.drop s.index).take width)).length = width := by
    rw [length_registerMax (by simp [sameLength]), List.length_take, List.length_drop]
    omega
  refine ⟨by simp only; omega, ?_, ?_⟩
  · simp only
    rw [List.take_add, List.take_add, registerMax_append taken, overwrite_of_le, next,
      ← List.drop_drop, merged.drop_eq sameLength, List.drop_drop, merged.counter,
      List.take_left' front]
    rw [merged.counter, List.length_append, front]
    exact Nat.le_add_right _ _
  · simp only
    rw [List.take_add, List.take_add, someGreater_append taken, merged.noChange, Bool.not_or]

theorem Merged.vectorRound (smallA : Registers counterA) (smallB : Registers counterB) {width : Nat}
    (fits : width ≤ s.bytes) : Merged counterA counterB (vectorRound width counterB s) := by
  have smallLeft : Registers ((counterA.drop s.index).take width) := fun b member =>
    smallA b (List.mem_of_mem_drop (List.mem_of_mem_take member))
  have smallRight : Registers ((counterB.drop s.index).take width) := fun b member =>
    smallB b (List.mem_of_mem_drop (List.mem_of_mem_take member))
  obtain ⟨bytes, flag⟩ := lanes_eq smallLeft smallRight (by simp [sameLength])
  have next := merged.advance sameLength fits
  rw [← bytes, ← flag] at next
  unfold HyperAnf.vectorRound
  simp only [merged.drop_eq sameLength]
  exact next

end

theorem vectorLoop_merged {s : UnionState} {width : Nat} (positive : 0 < width)
    (smallA : Registers counterA) (smallB : Registers counterB)
    (sameLength : counterA.length = counterB.length) (merged : Merged counterA counterB s) :
    Merged counterA counterB (vectorLoop positive counterB s) := by
  fun_induction vectorLoop positive counterB s with
  | case1 s fits ih => exact ih (merged.vectorRound sameLength smallA smallB fits)
  | case2 s done => exact merged

/-- A single register. -/
theorem byteRound_eq {counterA counterB : List Byte} {i : Nat} (insideA : i < counterA.length)
    (insideB : i < counterB.length) (noChange : Bool) :
    byteRound counterB i counterA noChange =
      (overwrite counterA i (registerMax ((counterA.drop i).take 1) ((counterB.drop i).take 1)),
        noChange && !someGreater ((counterA.drop i).take 1) ((counterB.drop i).take 1)) := by
  have first {counter : List Byte} (inside : i < counter.length) :
      (counter.drop i).take 1 = [counter.getD i 0] := by
    rw [List.drop_eq_getElem_cons inside, List.getD_eq_getElem _ _ inside]
    rfl
  rw [first insideA, first insideB]
  simp only [registerMax, someGreater, List.zipWith_cons_cons, List.zipWith_nil_right, List.any_cons,
    List.any_nil, byteRound, scalarLane, id_eq]
  split
  · rw [overwrite_of_le insideA.le, List.set_eq_take_append_cons_drop, if_pos insideA]
    simp
  · rw [overwrite_self insideA.le]
    · simp
    · exact first insideA

theorem Merged.byteRound {s : UnionState} (merged : Merged counterA counterB s)
    (sameLength : counterA.length = counterB.length) (more : 0 < s.bytes) :
    Merged counterA counterB
      { counterA := (byteRound counterB s.index s.counterA s.noChange).1
        index := s.index + 1
        bytes := s.bytes - 1
        noChange := (byteRound counterB s.index s.counterA s.noChange).2 } := by
  have inside := merged.inside
  have next := merged.advance sameLength more
  have length : s.counterA.length = counterA.length := by
    rw [merged.counter, List.length_append, merged.length_front sameLength, List.length_drop]
    omega
  rw [byteRound_eq (by omega) (by omega), merged.drop_eq sameLength]
  exact next

theorem byteLoop_merged {s : UnionState} (sameLength : counterA.length = counterB.length)
    (merged : Merged counterA counterB s) :
    Merged counterA counterB (byteLoop counterB s) ∧ (byteLoop counterB s).bytes = 0 := by
  fun_induction byteLoop counterB s with
  | case1 s more counterA' noChange round ih =>
    have next := merged.byteRound sameLength more
    rw [round] at next
    exact ih next
  | case2 s done => exact ⟨merged, by omega⟩

/-- Counters of the right size before the first round. -/
theorem merged_start (size : counterA.length = 1 <<< log2M) (noChange : Bool) (fresh : noChange = true) :
    Merged counterA counterB ⟨counterA, 0, (1 <<< log2M) - 1 + 1, noChange⟩ := by
  have registers := Nat.two_pow_pos log2M
  rw [Nat.one_shiftLeft] at size
  refine ⟨?_, rfl, fresh⟩
  rw [Nat.one_shiftLeft]
  simp only
  omega

/-- Behind the last register both counters are merged. -/
theorem Merged.result {s : UnionState} (merged : Merged counterA counterB s)
    (sameLength : counterA.length = counterB.length) (done : s.bytes = 0) :
    (s.counterA, !s.noChange) = (registerMax counterA counterB, someGreater counterA counterB) := by
  have inside := merged.inside
  have all : s.index = counterA.length := by omega
  rw [merged.counter, merged.noChange, all, List.take_length, sameLength, List.take_length,
    ← sameLength, List.drop_length, List.append_nil, Bool.not_not]

theorem hllUnionAvx2_eq (smallA : Registers counterA) (smallB : Registers counterB)
    (size : counterA.length = 1 <<< log2M) (sameLength : counterA.length = counterB.length) :
    hllUnionAvx2 log2M counterA counterB =
      (registerMax counterA counterB, someGreater counterA counterB) := by
  have begins : Merged counterA counterB _ := merged_start size true rfl
  have first := vectorLoop_merged (show 0 < 32 by decide) smallA smallB sameLength begins
  have second := vectorLoop_merged (show 0 < 16 by decide) smallA smallB sameLength first
  obtain ⟨merged, done⟩ := byteLoop_merged sameLength second
  exact merged.result sameLength done

theorem hllUnionScalar_eq (size : counterA.length = 1 <<< log2M)
    (sameLength : counterA.length = counterB.length) :
    hllUnionScalar log2M counterA counterB =
      (registerMax counterA counterB, someGreater counterA counterB) := by
  have registers := Nat.two_pow_pos log2M
  have upTo (n : Nat) (inside : n ≤ counterA.length) :
      let s := (List.range n).foldl (fun s i => byteRound counterB i s.1 s.2) (counterA, true)
      Merged counterA counterB ⟨s.1, n, counterA.length - n, s.2⟩ := by
    induction n with
    | zero => exact ⟨by simp, rfl, rfl⟩
    | succ n ih =>
      have merged := (ih (by omega)).byteRound sameLength (by simp only; omega)
      simp only [List.range_succ, List.foldl_append, List.foldl_cons, List.foldl_nil]
      simpa only [Nat.sub_sub] using merged
  have all : (1 <<< log2M) - 1 + 1 = counterA.length := by
    rw [Nat.one_shiftLeft] at size ⊢
    omega
  unfold hllUnionScalar
  simp only [all]
  exact (upTo _ le_rfl).result sameLength (Nat.sub_self _)

theorem getD_registerMax (sameLength : counterA.length = counterB.length) (i : Nat) :
    (registerMax counterA counterB).getD i 0 =
      (scalarLane (counterA.getD i 0) (counterB.getD i 0)).1 := by
  unfold registerMax
  by_cases inside : i < counterA.length
  · rw [List.getD_eq_getElem _ _ (by rw [List.length_zipWith]; omega), List.getElem_zipWith,
      List.getD_eq_getElem _ _ inside, List.getD_eq_getElem _ _ (by omega)]
  · rw [List.getD_eq_default _ _ (by rw [List.length_zipWith]; omega),
      List.getD_eq_default _ _ (by omega), List.getD_eq_default _ _ (by omega)]
    rfl

theorem registers_registerMax (smallA : Registers counterA) (smallB : Registers counterB) :
    Registers (registerMax counterA counterB) := by
  intro b member
  unfold registerMax at member
  obtain ⟨i, inside, rfl⟩ := List.getElem_of_mem member
  rw [List.getElem_zipWith, (scalarLane_toNat _ _).1]
  exact max_le (smallA _ (List.getElem_mem _)) (smallB _ (List.getElem_mem _))

/-- `someGreater` says that a register grows. -/
theorem someGreater_iff (sameLength : counterA.length = counterB.length) :
    someGreater counterA counterB = true ↔
      ∃ i, counterA.getD i 0 < (registerMax counterA counterB).getD i 0 := by
  have grows (i : Nat) : counterA.getD i 0 < (registerMax counterA counterB).getD i 0 ↔
      (scalarLane (counterA.getD i 0) (counterB.getD i 0)).2 = true := by
    rw [getD_registerMax sameLength, BitVec.lt_def, (scalarLane_toNat _ _).1,
      (scalarLane_toNat _ _).2, lt_max_iff]
    simp
  simp only [grows]
  unfold someGreater
  rw [List.any_eq_true]
  constructor
  · rintro ⟨flag, member, isSet⟩
    obtain ⟨i, inside, rfl⟩ := List.getElem_of_mem member
    rw [List.length_zipWith] at inside
    refine ⟨i, ?_⟩
    rw [List.getD_eq_getElem _ _ (by omega), List.getD_eq_getElem _ _ (by omega)]
    simpa using isSet
  · rintro ⟨i, isSet⟩
    have inside : i < counterA.length := by
      by_contra outside
      rw [List.getD_eq_default _ _ (by omega), List.getD_eq_default _ _ (by omega)] at isSet
      exact absurd isSet (by decide)
    refine ⟨_, List.getElem_mem (n := i) (by rw [List.length_zipWith]; omega), ?_⟩
    rw [List.getD_eq_getElem _ _ inside, List.getD_eq_getElem _ _ (by omega)] at isSet
    simpa using isSet

theorem map_toNat_registerMax (counterA counterB : List Byte) :
    (registerMax counterA counterB).map BitVec.toNat =
      List.zipWith max (counterA.map BitVec.toNat) (counterB.map BitVec.toNat) := by
  rw [registerMax, List.map_zipWith, List.zipWith_map]
  simp only [(scalarLane_toNat _ _).1]

theorem toNat_map_injective : Function.Injective (List.map (BitVec.toNat (w := 8))) :=
  List.map_injective_iff.mpr fun _ _ => BitVec.eq_of_toNat_eq

theorem registerMax_self (counter : List Byte) : registerMax counter counter = counter := by
  apply toNat_map_injective
  rw [map_toNat_registerMax]
  simp

theorem registerMax_comm (counterA counterB : List Byte) :
    registerMax counterA counterB = registerMax counterB counterA := by
  apply toNat_map_injective
  rw [map_toNat_registerMax, map_toNat_registerMax, List.zipWith_comm]
  simp only [max_comm]

theorem registerMax_assoc (counterA counterB counterC : List Byte) :
    registerMax (registerMax counterA counterB) counterC =
      registerMax counterA (registerMax counterB counterC) := by
  apply toNat_map_injective
  simp only [map_toNat_registerMax]
  induction counterA generalizing counterB counterC with
  | nil => rfl
  | cons a counterA ih =>
    cases counterB with
    | nil => rfl
    | cons b counterB =>
      cases counterC with
      | nil => rfl
      | cons c counterC =>
        simp only [List.map_cons, List.zipWith_cons_cons, ih, max_assoc]

theorem registers_addHllCounter {counter : List Byte} (small : Registers counter) (hash : BitVec 64) :
    Registers (addHllCounter log2M counter hash) := by
  intro b member
  unfold addHllCounter at member
  simp only at member
  split at member
  · rcases List.mem_or_eq_of_mem_set member with old | rfl
    · exact small b old
    · rw [BitVec.toNat_ofNat]
      exact (Nat.mod_le _ _).trans (ffs_le _)
  · exact small b member

/-- A counter that comes about has all its registers, and they are small. -/
theorem ReachableCounter.registers {counter : List Byte} (reachable : ReachableCounter log2M counter) :
    counter.length = 1 <<< log2M ∧ Registers counter := by
  induction reachable with
  | init =>
    refine ⟨List.length_replicate, fun b member => ?_⟩
    rw [List.eq_of_mem_replicate member]
    decide
  | add hash _ ih => exact ⟨by rw [length_addHllCounter, ih.1], registers_addHllCounter ih.2 hash⟩
  | unionAvx2 _ _ ihA ihB =>
    have sameLength := ihA.1.trans ihB.1.symm
    rw [hllUnionAvx2_eq ihA.2 ihB.2 ihA.1 sameLength]
    exact ⟨(length_registerMax sameLength).trans ihA.1,
      registers_registerMax ihA.2 ihB.2⟩
  | unionScalar _ _ ihA ihB =>
    have sameLength := ihA.1.trans ihB.1.symm
    rw [hllUnionScalar_eq ihA.1 sameLength]
    exact ⟨(length_registerMax sameLength).trans ihA.1,
      registers_registerMax ihA.2 ihB.2⟩

/-- The counters of `hyperanf` are merged by these loops. -/
theorem hllUnion_eq_avx2 (vectorBytes : Nat) (counterA counterB : HllCounter log2M) :
    ((hllUnion vectorBytes counterA counterB).1.bytes, (hllUnion vectorBytes counterA counterB).2) =
      hllUnionAvx2 log2M counterA.bytes counterB.bytes := by
  have sameLength := counterA.length_eq.trans counterB.length_eq.symm
  obtain ⟨bytes, grew⟩ :=
    unionFrom_spec vectorBytes 0 counterA.registers counterB.registers sameLength
  rw [hllUnionAvx2_eq counterA.registers counterB.registers counterA.length_eq sameLength]
  refine Prod.ext bytes (Bool.eq_iff_iff.mpr (grew.trans ?_))
  unfold someGreater
  rw [← List.map_uncurry_zip_eq_zipWith, List.any_map, List.any_eq_true]
  simp only [Function.comp_apply, Function.uncurry, id_eq, (scalarLane_toNat _ _).2]

end HyperAnf

open HyperAnf

/-- On counters that come about, `hll_union` for AVX2 does what it does without vectors: each register
becomes the larger one, and it returns true exactly if a register grows. So it is idempotent, commutative
and associative. -/
theorem unionTakesMaxima {log2M : Nat} {counterA counterB : List Byte}
    (reachableA : ReachableCounter log2M counterA) (reachableB : ReachableCounter log2M counterB) :
    let union := hllUnionAvx2 log2M
    union counterA counterB = hllUnionScalar log2M counterA counterB ∧
      (union counterA counterB).1.map BitVec.toNat =
        List.zipWith max (counterA.map BitVec.toNat) (counterB.map BitVec.toNat) ∧
      ((union counterA counterB).2 = true ↔
        ∃ i, counterA.getD i 0 < (union counterA counterB).1.getD i 0) ∧
      (union counterA counterA).1 = counterA ∧
      (union counterA counterB).1 = (union counterB counterA).1 ∧
      ∀ counterC, ReachableCounter log2M counterC →
        (union (union counterA counterB).1 counterC).1 =
          (union counterA (union counterB counterC).1).1 := by
  have unions {a b : List Byte} (reachable : ReachableCounter log2M a)
      (reachable' : ReachableCounter log2M b) :
      hllUnionAvx2 log2M a b = (registerMax a b, someGreater a b) :=
    hllUnionAvx2_eq reachable.registers.2 reachable'.registers.2 reachable.registers.1
      (reachable.registers.1.trans reachable'.registers.1.symm)
  have sameLength := reachableA.registers.1.trans reachableB.registers.1.symm
  simp only
  refine ⟨?_, ?_, ?_, ?_, ?_, fun counterC reachableC => ?_⟩
  · rw [unions reachableA reachableB, hllUnionScalar_eq reachableA.registers.1 sameLength]
  · rw [unions reachableA reachableB, map_toNat_registerMax]
  · rw [unions reachableA reachableB, someGreater_iff sameLength]
  · rw [unions reachableA reachableA, registerMax_self]
  · rw [unions reachableA reachableB, unions reachableB reachableA, registerMax_comm]
  · rw [unions (.unionAvx2 reachableA reachableB) reachableC,
      unions reachableA (.unionAvx2 reachableB reachableC), unions reachableA reachableB,
      unions reachableB reachableC, registerMax_assoc]

/-- Two counters of 64 registers, each with a hash. -/
theorem unionTakesMaxima_64 :
    let union := hllUnionAvx2 6
    let counterA := addHllCounter 6 (hllInit 6) 0xfedcba9876543210
    let counterB := addHllCounter 6 (hllInit 6) 0x8000000000000010
    union counterA counterB = hllUnionScalar 6 counterA counterB ∧
      (union counterA counterB).1.map BitVec.toNat =
        List.zipWith max (counterA.map BitVec.toNat) (counterB.map BitVec.toNat) ∧
      ((union counterA counterB).2 = true ↔
        ∃ i, counterA.getD i 0 < (union counterA counterB).1.getD i 0) ∧
      (union counterA counterA).1 = counterA ∧
      (union counterA counterB).1 = (union counterB counterA).1 ∧
      ∀ counterC, ReachableCounter 6 counterC →
        (union (union counterA counterB).1 counterC).1 =
          (union counterA (union counterB counterC).1).1 :=
  unionTakesMaxima (.add _ .init) (.add _ .init)

end MBFGraph
