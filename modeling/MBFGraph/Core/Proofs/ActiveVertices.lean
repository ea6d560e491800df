import MBFGraph.Core.ActiveVertices

/-!
# When the list of active vertices stays inside its array

The vertices are stored one behind the other, so the accesses are inside as long as the padded number is no
larger than the array. The kernel reads beyond the padded number unless it is a multiple of four.
-/

namespace MBFGraph

variable {allBFVertex : List VertexT} {allBFCnt size : Nat}

theorem storeVertex_of_lt {i : Nat} (inside : i < allBFVertex.length) (v : VertexT) :
    storeVertex allBFVertex i v = some (allBFVertex.set i v) := if_pos inside

theorem storeVertex_of_le {i : Nat} (outside : allBFVertex.length ≤ i) (v : VertexT) :
    storeVertex allBFVertex i v = none := if_neg (not_lt.mpr outside)

/-- A vertex that is stored at the end of what has been collected. -/
theorem take_set_succ {i : Nat} (inside : i < allBFVertex.length) (v : VertexT) :
    (allBFVertex.set i v).take (i + 1) = allBFVertex.take i ++ [v] := by
  rw [List.take_succ_eq_append_getElem (by rwa [List.length_set]), List.getElem_set_self,
    List.take_set_of_le (Nat.le_refl i)]

/-- A partition is stored behind the vertices that are there, if there is room for it. -/
theorem collectPartition_spec (small : size < 2 ^ 32) (active : List VertexT) {k : Nat}
    {allBFVertex : List VertexT} (length : allBFVertex.length = size) (inside : allBFCnt + k ≤ size) :
    (size < allBFCnt + k + active.length →
      collectPartition allBFCnt allBFVertex k active = none) ∧
    (allBFCnt + k + active.length ≤ size →
      ∃ after, collectPartition allBFCnt allBFVertex k active = some after ∧ after.length = size ∧
        after.take (allBFCnt + k + active.length) = allBFVertex.take (allBFCnt + k) ++ active) := by
  induction active generalizing k allBFVertex with
  | nil => exact ⟨fun more => absurd more (by simpa using inside), fun _ => ⟨_, rfl, length, by simp⟩⟩
  | cons v active ih =>
    have index : (allBFCnt + k) % 2 ^ 32 = allBFCnt + k := Nat.mod_eq_of_lt (by omega)
    unfold collectPartition
    rw [index]
    rw [List.length_cons]
    by_cases room : allBFCnt + k < size
    · rw [storeVertex_of_lt (by omega), Option.bind_some]
      obtain ⟨fails, stores⟩ := ih (k := k + 1)
        (show (allBFVertex.set (allBFCnt + k) v).length = size by simpa using length) (by omega)
      refine ⟨fun more => fails (by omega), fun fits => ?_⟩
      obtain ⟨after, result, length', front⟩ := stores (by omega)
      refine ⟨after, result, length', ?_⟩
      rw [← Nat.add_assoc allBFCnt k 1, take_set_succ (by omega)] at front
      rw [← List.append_cons] at front
      rw [← front]
      congr 1
      omega
    · rw [storeVertex_of_le (by omega), Option.bind_none]
      exact ⟨fun _ => rfl, fun fits => by omega⟩

theorem collectActive_spec (small : size < 2 ^ 32) (bfVertex : List (List VertexT))
    {allBFVertex : List VertexT} {allBFCnt : Nat} (length : allBFVertex.length = size)
    (inside : allBFCnt ≤ size) :
    (size < allBFCnt + bfVertex.flatten.length →
      collectActive allBFVertex allBFCnt bfVertex = none) ∧
    (allBFCnt + bfVertex.flatten.length ≤ size →
      ∃ after, collectActive allBFVertex allBFCnt bfVertex =
          some (after, allBFCnt + bfVertex.flatten.length) ∧ after.length = size ∧
        after.take (allBFCnt + bfVertex.flatten.length) =
          allBFVertex.take allBFCnt ++ bfVertex.flatten) := by
  induction bfVertex generalizing allBFVertex allBFCnt with
  | nil => exact ⟨fun more => absurd more (by simpa using inside), fun _ => ⟨_, rfl, length, by simp⟩⟩
  | cons active bfVertex ih =>
    obtain ⟨fails, stores⟩ := collectPartition_spec small active (k := 0) length inside
    rw [Nat.add_zero] at fails stores
    unfold collectActive
    rw [List.flatten_cons, List.length_append]
    by_cases room : allBFCnt + active.length ≤ size
    · obtain ⟨between, result, length', front⟩ := stores room
      have count : (allBFCnt + active.length) % 2 ^ 32 = allBFCnt + active.length :=
        Nat.mod_eq_of_lt (by omega)
      rw [result, Option.bind_some, count]
      obtain ⟨fails', stores'⟩ := ih length' room
      rw [← Nat.add_assoc]
      refine ⟨fails', fun fits => ?_⟩
      obtain ⟨after, result', length'', front'⟩ := stores' fits
      exact ⟨after, result', length'', by rw [front', front, List.append_assoc]⟩
    · rw [fails (by omega), Option.bind_none]
      exact ⟨fun _ => rfl, fun fits => by omega⟩

/-- The last vertex is repeated, if there is room for it. -/
theorem padActive_spec {last : VertexT} (some_ : 0 < allBFCnt) (turns : Nat)
    {allBFVertex : List VertexT} {i : Nat} (length : allBFVertex.length = size) (behind : allBFCnt ≤ i)
    (inside : i ≤ size) (isLast : allBFVertex[allBFCnt - 1]? = some last) :
    (size < i + turns → padActive allBFCnt allBFVertex i turns = none) ∧
    (i + turns ≤ size → ∃ after, padActive allBFCnt allBFVertex i turns = some after ∧
      after.take (i + turns) = allBFVertex.take i ++ List.replicate turns last) := by
  induction turns generalizing allBFVertex i with
  | zero => exact ⟨fun more => absurd more (by simpa using inside), fun _ => ⟨_, rfl, by simp⟩⟩
  | succ turns ih =>
    unfold padActive
    rw [isLast, Option.bind_some]
    by_cases room : i < size
    · rw [storeVertex_of_lt (by omega), Option.bind_some]
      have kept : (allBFVertex.set i last)[allBFCnt - 1]? = some last := by
        rw [List.getElem?_set_ne (by omega), isLast]
      obtain ⟨fails, stores⟩ := ih (by simpa using length) (by omega) room kept
      refine ⟨fun more => fails (by omega), fun fits => ?_⟩
      obtain ⟨after, result, front⟩ := stores (by omega)
      refine ⟨after, result, ?_⟩
      rw [take_set_succ (by omega), ← List.append_cons, ← List.replicate_succ] at front
      rw [← front]
      congr 1
      omega
    · rw [storeVertex_of_le (by omega), Option.bind_none]
      exact ⟨fun _ => rfl, fun fits => by omega⟩

/-- The number of vertices, rounded up. -/
def paddedCount (chipVOnce count : Nat) : Nat := (count + chipVOnce - 1) / chipVOnce * chipVOnce

theorem paddedCount_of_mod_eq_zero {chipVOnce count : Nat} (positive : 0 < chipVOnce)
    (whole : count % chipVOnce = 0) : paddedCount chipVOnce count = count := by
  obtain ⟨q, rfl⟩ := Nat.dvd_of_mod_eq_zero whole
  unfold paddedCount
  rw [Nat.add_sub_assoc positive, Nat.mul_add_div positive, Nat.div_eq_of_lt (by omega), Nat.add_zero,
    Nat.mul_comm]

theorem paddedCount_of_mod_ne_zero {chipVOnce count : Nat} (positive : 0 < chipVOnce)
    (more : count % chipVOnce ≠ 0) :
    paddedCount chipVOnce count = (count / chipVOnce + 1) * chipVOnce := by
  have below := Nat.mod_lt count positive
  have split : count + chipVOnce - 1 =
      chipVOnce * (count / chipVOnce + 1) + (count % chipVOnce - 1) := by
    have := Nat.div_add_mod count chipVOnce
    have : chipVOnce * (count / chipVOnce + 1) = chipVOnce * (count / chipVOnce) + chipVOnce :=
      Nat.mul_succ _ _
    omega
  have rest : (count % chipVOnce - 1) / chipVOnce = 0 := Nat.div_eq_of_lt (by omega)
  unfold paddedCount
  rw [split, Nat.mul_add_div positive, rest, Nat.add_zero]

theorem le_paddedCount {chipVOnce : Nat} (positive : 0 < chipVOnce) (count : Nat) :
    count ≤ paddedCount chipVOnce count := by
  by_cases whole : count % chipVOnce = 0
  · rw [paddedCount_of_mod_eq_zero positive whole]
  · rw [paddedCount_of_mod_ne_zero positive whole]
    have := Nat.div_add_mod' count chipVOnce
    have := Nat.mod_lt count positive
    rw [Nat.add_mul, Nat.one_mul]
    omega

theorem paddedCount_le {chipVOnce : Nat} (positive : 0 < chipVOnce) (count : Nat) :
    paddedCount chipVOnce count ≤ count + chipVOnce := by
  have := Nat.div_mul_le_self (count + chipVOnce - 1) chipVOnce
  unfold paddedCount
  omega

/-- The list that is handed to the kernel. -/
theorem listActive_spec {chipVOnce : Nat} {bfVertex : List (List VertexT)} (small : size < 2 ^ 32)
    (positive : 0 < chipVOnce) (length : allBFVertex.length = size)
    (noWrap : bfVertex.flatten.length ≤ size →
      paddedCount chipVOnce bfVertex.flatten.length < 2 ^ 32) :
    (size < paddedCount chipVOnce bfVertex.flatten.length →
      listActive chipVOnce allBFVertex bfVertex = none) ∧
    (paddedCount chipVOnce bfVertex.flatten.length ≤ size →
      ∃ after, listActive chipVOnce allBFVertex bfVertex =
          some (after, paddedCount chipVOnce bfVertex.flatten.length) ∧
        ∀ v, v ∈ after.take (paddedCount chipVOnce bfVertex.flatten.length) ↔
          v ∈ bfVertex.flatten) := by
  have collected := collectActive_spec small bfVertex length (Nat.zero_le _)
  rw [Nat.zero_add, List.take_zero, List.nil_append] at collected
  obtain ⟨fails, stores⟩ := collected
  have le := le_paddedCount positive bfVertex.flatten.length
  generalize isFlat : bfVertex.flatten = vertices at *
  unfold listActive
  by_cases room : vertices.length ≤ size
  · obtain ⟨between, result, length', front⟩ := stores room
    rw [result, Option.bind_some]
    simp only
    by_cases whole : vertices.length % chipVOnce = 0
    · rw [if_neg (not_not.mpr whole), paddedCount_of_mod_eq_zero positive whole]
      exact ⟨fun more => by omega, fun _ => ⟨between, rfl, fun v => by rw [front]⟩⟩
    · have padded := paddedCount_of_mod_ne_zero positive whole
      have some_ : 0 < vertices.length := by
        by_contra none_
        exact whole (by rw [Nat.le_zero.mp (not_lt.mp none_), Nat.zero_mod])
      obtain ⟨last, isLast⟩ : ∃ last, between[vertices.length - 1]? = some last :=
        ⟨_, List.getElem?_eq_getElem (by omega)⟩
      have member : last ∈ vertices := by
        have inFront : (between.take vertices.length)[vertices.length - 1]? = some last := by
          rw [List.getElem?_take_of_lt (by omega), isLast]
        rw [front] at inFront
        exact List.mem_of_getElem? inFront
      have turns : vertices.length + (paddedCount chipVOnce vertices.length - vertices.length) =
          paddedCount chipVOnce vertices.length := by omega
      obtain ⟨padFails, pads⟩ := padActive_spec some_
        (paddedCount chipVOnce vertices.length - vertices.length) length' (Nat.le_refl _) room isLast
      rw [turns] at padFails pads
      rw [if_pos whole, ← padded, Nat.mod_eq_of_lt (noWrap room)]
      refine ⟨fun more => by rw [padFails more]; rfl, fun fits => ?_⟩
      obtain ⟨after, result', front'⟩ := pads fits
      refine ⟨after, by rw [result']; rfl, fun v => ?_⟩
      rw [front', front, List.mem_append]
      exact ⟨fun either => either.elim (fun inside => inside)
        fun padding => List.eq_of_mem_replicate padding ▸ member, Or.inl⟩
  · rw [fails (by omega), Option.bind_none]
    exact ⟨fun _ => rfl, fun fits => by omega⟩

/-- The count of `phase_BF_checking_1` wraps around. -/
theorem countActive_eq (bfVertex : List (List VertexT)) :
    countActive bfVertex = bfVertex.flatten.length % 2 ^ 32 := by
  have from_ (count : Nat) : bfVertex.foldl (fun allBFCnt active =>
      (allBFCnt + active.length) % 2 ^ 32) (count % 2 ^ 32) =
        (count + bfVertex.flatten.length) % 2 ^ 32 := by
    induction bfVertex generalizing count with
    | nil => simp
    | cons active bfVertex ih =>
      rw [List.foldl_cons, Nat.mod_add_mod, ih, List.flatten_cons, List.length_append, Nat.add_assoc]
  have all := from_ 0
  rwa [Nat.zero_mod, Nat.zero_add] at all

theorem mem_kernelReads {i : Nat} : i ∈ kernelReads allBFCnt ↔ i < (allBFCnt + 3) / 4 * 4 := by
  simp only [kernelReads, List.mem_flatMap, List.mem_range, List.mem_map]
  constructor
  · rintro ⟨turn, below, j, small, rfl⟩
    omega
  · intro below
    exact ⟨i / 4, by omega, i % 4, by omega, by omega⟩

theorem forall_kernelReads_iff : (∀ i ∈ kernelReads allBFCnt, i < allBFCnt) ↔ 4 ∣ allBFCnt := by
  simp only [mem_kernelReads]
  constructor
  · intro below
    have := below ((allBFCnt + 3) / 4 * 4 - 1)
    omega
  · intro whole i below
    omega

/-- With options that the driver accepts, whenever it enters `phase_BF_checking_2`: the list stays inside
exactly if the padded number is no larger than the array and a multiple of four. -/
theorem staysInside_iff {maxCheckVOption chipVOnceOption superPartitions : Nat}
    {bfVertex : List (List VertexT)}
    (accepts : AcceptsCheck maxCheckVOption chipVOnceOption superPartitions)
    (enters : EntersCheck maxCheckVOption superPartitions bfVertex) :
    StaysInside maxCheckVOption chipVOnceOption bfVertex ↔
      paddedCount (chipVOnce chipVOnceOption).toNat bfVertex.flatten.length ≤
          maxCheckVOption % 2 ^ 32 ∧
        4 ∣ paddedCount (chipVOnce chipVOnceOption).toNat bfVertex.flatten.length := by
  obtain ⟨-, limit, chip⟩ := accepts
  have below : chipVOnce chipVOnceOption < 2 ^ 31 := BitVec.toInt_lt
  have positive : 0 < (chipVOnce chipVOnceOption).toNat := by omega
  have small : maxCheckVOption % 2 ^ 32 < 2 ^ 32 := Nat.mod_lt _ (by decide)
  unfold StaysInside
  have count := enters.1
  rw [countActive_eq] at count
  generalize maxCheckVOption % 2 ^ 32 = size at small ⊢
  generalize isChip : (chipVOnce chipVOnceOption).toNat = chip' at positive ⊢
  have noWrap (room : bfVertex.flatten.length ≤ size) :
      paddedCount chip' bfVertex.flatten.length < 2 ^ 32 := by
    have := paddedCount_le positive bfVertex.flatten.length
    rw [Nat.mod_eq_of_lt (by omega)] at count
    omega
  constructor
  · intro stays
    obtain ⟨after, cnt, result, reads, -⟩ := stays (List.replicate size 0) List.length_replicate
    obtain ⟨fails, stores⟩ := listActive_spec small positive
      (List.length_replicate (n := size) (a := (0 : VertexT))) noWrap
    have fits : paddedCount chip' bfVertex.flatten.length ≤ size := by
      by_contra more
      rw [fails (by omega)] at result
      exact nomatch result
    obtain ⟨after', result', -⟩ := stores fits
    rw [result] at result'
    obtain ⟨-, rfl⟩ := Prod.mk.inj (Option.some.inj result')
    exact ⟨fits, forall_kernelReads_iff.mp reads⟩
  · rintro ⟨fits, whole⟩ old length
    obtain ⟨after, result, same⟩ := (listActive_spec small positive length noWrap).2 fits
    exact ⟨after, _, result, forall_kernelReads_iff.mpr whole, same⟩

/-- An array of eight entries, of which three are in use. -/
theorem staysInside_iff_three :
    AcceptsCheck 8 4 1 ∧ EntersCheck 8 1 [[3, 5], [9]] ∧ StaysInside 8 4 [[3, 5], [9]] := by
  have accepts : AcceptsCheck 8 4 1 := by decide
  have enters : EntersCheck 8 1 [[3, 5], [9]] := by decide
  exact ⟨accepts, enters, (staysInside_iff accepts enters).mpr (by decide)⟩

/-- Five vertices are few enough for an array of six, but they are padded to eight. -/
theorem not_staysInside : AcceptsCheck 6 4 1 ∧ EntersCheck 6 1 [[1, 2, 3, 4, 5]] ∧
    ¬StaysInside 6 4 [[1, 2, 3, 4, 5]] := by
  refine ⟨by decide, by decide, fun stays => ?_⟩
  obtain ⟨after, cnt, result, -⟩ := stays (List.replicate 6 0) (by decide)
  have fails : listActive (chipVOnce 4).toNat (List.replicate 6 0) [[1, 2, 3, 4, 5]] = none := by decide
  rw [fails] at result
  exact nomatch result

end MBFGraph
