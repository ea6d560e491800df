import MBFGraph.Lib.Lexicographic
import MBFGraph.UpdateUtility.MBFSort

/-!
# MBFSort sorts by a key

`operator<` compares keys lexicographically: all the sorted truncated hashes one behind the other, then the
source, then the destination.
-/

namespace MBFGraph

open Crc32c Lexicographic

variable {hashA hashB : List (BitVec 16)} {bloomSetBits : Nat}

/-- The sorted truncated hashes for a list of numbers of bits. -/
def hashKey (hash : List (BitVec 16)) (bits : List Nat) : List Nat :=
  bits.flatMap fun i => (comHash i hash).map BitVec.toNat

/-- The key of an edge. -/
def SimpleEdge.key (bloomSetBits : Nat) (A : SimpleEdge) : List Nat :=
  hashKey (bfCompute A.src bloomSetBits) (List.range' 1 bloomSetBits) ++ [A.src.toNat, A.dst.toNat]

@[simp] theorem length_comHash (i : Nat) (hash : List (BitVec 16)) :
    (comHash i hash).length = hash.length := by
  simp [comHash]

theorem length_hashKey (sameLength : hashA.length = hashB.length) (bits : List Nat) :
    (hashKey hashA bits).length = (hashKey hashB bits).length := by
  simp [hashKey, sameLength]

/-- There are always four hashes. -/
theorem length_bfCompute (A B : VertexT) :
    (bfCompute A bloomSetBits).length = (bfCompute B bloomSetBits).length := by
  simp [bfCompute]

section

variable {xs ys : List Nat} {less : Bool} (behind : less = true ↔ xs < ys)

include behind

/-- Where the loop over the hashes does not return, what follows decides. -/
theorem compareHashes_getD (sameLength : hashA.length = hashB.length) :
    (compareHashes hashA hashB).getD less = true ↔
      hashA.map BitVec.toNat ++ xs < hashB.map BitVec.toNat ++ ys := by
  induction hashA generalizing hashB with
  | nil =>
    obtain rfl := List.eq_nil_of_length_eq_zero sameLength.symm
    exact behind
  | cons a hashA ih =>
    cases hashB with
    | nil => exact absurd sameLength (by simp)
    | cons b hashB =>
      simp only [compareHashes, List.map_cons, List.cons_append, List.cons_lt_cons_iff,
        ← BitVec.lt_def, BitVec.toNat_inj]
      by_cases first : a < b
      · simp [first]
      · by_cases second : b < a
        · have ne : a ≠ b := fun same => BitVec.lt_irrefl b (same ▸ second)
          simp [first, second, ne]
        · have same : a = b := BitVec.le_antisymm (BitVec.not_lt.mp second) (BitVec.not_lt.mp first)
          rw [if_neg first, if_neg second, ih (Nat.succ.inj sameLength)]
          simp [same]

theorem compareBits_getD (sameLength : hashA.length = hashB.length) (bits : List Nat) :
    (compareBits hashA hashB bits).getD less = true ↔
      hashKey hashA bits ++ xs < hashKey hashB bits ++ ys := by
  induction bits with
  | nil => exact behind
  | cons i bits ih =>
    have same : (comHash i hashA).length = (comHash i hashB).length := by simp [sameLength]
    have here := compareHashes_getD ih same
    simp only [hashKey, List.flatMap_cons, List.append_assoc] at here ⊢
    rw [← here, compareBits]
    cases compareHashes (comHash i hashA) (comHash i hashB) <;> rfl

end

/-- `operator<` compares the keys. -/
theorem SimpleEdge.less_iff (A B : SimpleEdge) :
    A.less bloomSetBits B = true ↔ A.key bloomSetBits < B.key bloomSetBits := by
  have ends : (if A.src < B.src then true else if B.src < A.src then false
      else if A.dst < B.dst then true else false) = true ↔
      [A.src.toNat, A.dst.toNat] < [B.src.toNat, B.dst.toNat] := by
    simp only [List.cons_lt_cons_iff, List.lt_irrefl, and_false, or_false]
    simp only [BitVec.lt_def]
    split <;> rename_i first
    · simp [first]
    · split <;> rename_i second
      · simp
        omega
      · split <;> simp <;> omega
  unfold SimpleEdge.key
  rw [← compareBits_getD ends (length_bfCompute _ _)]
  unfold SimpleEdge.less
  cases compareBits (bfCompute A.src bloomSetBits) (bfCompute B.src bloomSetBits)
    (List.range' 1 bloomSetBits) <;> exact Iff.rfl

theorem SimpleEdge.key_injective : Function.Injective (SimpleEdge.key bloomSetBits) := by
  intro A B same
  have ends := List.append_inj_right' same rfl
  simp only [List.cons.injEq, BitVec.toNat_inj, and_true] at ends
  obtain ⟨src, dst⟩ := A
  obtain ⟨rfl, rfl⟩ := ends
  rfl

theorem hashKey_eq_iff (sameLength : hashA.length = hashB.length) (bits : List Nat) :
    hashKey hashA bits = hashKey hashB bits ↔ ∀ j ∈ bits, comHash j hashA = comHash j hashB := by
  induction bits with
  | nil => simp [hashKey]
  | cons i bits ih =>
    have split : hashKey hashA (i :: bits) = hashKey hashB (i :: bits) ↔
        (comHash i hashA).map BitVec.toNat = (comHash i hashB).map BitVec.toNat ∧
          hashKey hashA bits = hashKey hashB bits :=
      ⟨fun same => List.append_inj same (by simp [sameLength]),
        fun ⟨first, second⟩ => congrArg₂ (· ++ ·) first second⟩
    rw [split, ih, List.forall_mem_cons,
      (List.map_injective_iff.mpr fun _ _ => BitVec.eq_of_toNat_eq).eq_iff]

/-- The mask has no bit from `bloom_set_bits` on, in either half. -/
theorem mask_getLsbD : ∀ s < 16, ∀ j < 16, s ≤ j →
    (((((1 <<< s) - 1 : BitVec 32) <<< 16) + ((1 <<< s) - 1)).signExtend 64).getLsbD j = false ∧
    (((((1 <<< s) - 1 : BitVec 32) <<< 16) + ((1 <<< s) - 1)).signExtend 64).getLsbD (16 + j) =
      false := by
  decide +kernel

/-- The hashes have no more than `bloom_set_bits` bits. -/
theorem and_of_mem_bfCompute (few : bloomSetBits ≤ 15) {i : Nat} (all : bloomSetBits ≤ i)
    {src : VertexT} {h : BitVec 16} (member : h ∈ bfCompute src bloomSetBits) :
    h &&& BitVec.ofNat 16 ((1 <<< i) - 1) = h := by
  have high (j : Nat) (inside : j < 16) (above : bloomSetBits ≤ j) : h.getLsbD j = false := by
    obtain ⟨low, high⟩ := mask_getLsbD bloomSetBits (by omega) j inside above
    simp only [bfCompute, List.mem_cons, List.not_mem_nil, or_false] at member
    obtain rfl | rfl | rfl | rfl := member <;>
      simp only [BitVec.getLsbD_setWidth, BitVec.getLsbD_and, BitVec.getLsbD_ushiftRight, low, high,
        Bool.and_false, Bool.false_and]
  apply BitVec.eq_of_getLsbD_eq
  intro j inside
  rw [BitVec.getLsbD_and, BitVec.getLsbD_ofNat, Nat.one_shiftLeft, Nat.testBit_two_pow_sub_one]
  by_cases above : bloomSetBits ≤ j
  · rw [high j inside above, Bool.false_and]
  · simp [inside, show j < i by omega]

theorem comHash_of_le (few : bloomSetBits ≤ 15) {i : Nat} (all : bloomSetBits ≤ i) (src : VertexT) :
    comHash i (bfCompute src bloomSetBits) =
      comHash bloomSetBits (bfCompute src bloomSetBits) := by
  unfold comHash
  congr 1
  exact List.map_congr_left fun h member =>
    (and_of_mem_bfCompute few all member).trans (and_of_mem_bfCompute few le_rfl member).symm

/-- The sorted hashes agree in their lowest 1, ..., `i` bits. -/
def AgreeUpTo (bloomSetBits i : Nat) (A B : SimpleEdge) : Prop :=
  ∀ j, 1 ≤ j → j ≤ i → comHash j (bfCompute A.src bloomSetBits) =
    comHash j (bfCompute B.src bloomSetBits)

/-- Edges whose hashes agree have keys that agree in front. -/
theorem agreeUpTo_iff (few : bloomSetBits ≤ 15) (i : Nat) (A B : SimpleEdge) :
    AgreeUpTo bloomSetBits i A B ↔
      hashKey (bfCompute A.src bloomSetBits) (List.range' 1 (min i bloomSetBits)) =
        hashKey (bfCompute B.src bloomSetBits) (List.range' 1 (min i bloomSetBits)) := by
  rw [hashKey_eq_iff (length_bfCompute _ _)]
  simp only [List.mem_range'_1]
  constructor
  · rintro agree j ⟨above, below⟩
    exact agree j above (by omega)
  · intro agree j above below
    by_cases more : bloomSetBits ≤ j
    · -- there are no more bits
      rw [comHash_of_le few more, comHash_of_le few more]
      obtain rfl | positive := Nat.eq_zero_or_pos bloomSetBits
      · simp [comHash, bfCompute]
      · exact agree bloomSetBits ⟨positive, by omega⟩
    · exact agree j ⟨above, by omega⟩

/-- The key behind the first `i` rounds. -/
def SimpleEdge.keyRest (bloomSetBits i : Nat) (A : SimpleEdge) : List Nat :=
  hashKey (bfCompute A.src bloomSetBits) (List.range' (1 + i) (bloomSetBits - i)) ++
    [A.src.toNat, A.dst.toNat]

theorem SimpleEdge.key_split {i : Nat} (within : i ≤ bloomSetBits) (A : SimpleEdge) :
    A.key bloomSetBits =
      hashKey (bfCompute A.src bloomSetBits) (List.range' 1 i) ++ A.keyRest bloomSetBits i := by
  have rounds : List.range' 1 bloomSetBits =
      List.range' 1 i ++ List.range' (1 + i) (bloomSetBits - i) := by
    rw [List.range'_append_1]
    congr 1
    omega
  unfold SimpleEdge.key SimpleEdge.keyRest hashKey
  rw [rounds, List.flatMap_append, List.append_assoc]

/-- `operator<` is a strict total order. In a list sorted by it the edges of each source are contiguous, and
so are, for every `i`, the edges whose sorted hashes agree in their lowest 1, ..., `i` bits. -/
theorem ordersEdges {bloomSetBits : Nat} (few : bloomSetBits ≤ 15) :
    let less := SimpleEdge.less bloomSetBits
    (∀ A, less A A = false) ∧
      (∀ A B C, less A B = true → less B C = true → less A C = true) ∧
      (∀ A B, A ≠ B → less A B = true ∨ less B A = true) ∧
      ∀ l : List SimpleEdge, l.Pairwise (fun A B => less B A = false) →
        InOneBlock (fun A B => A.src = B.src) l ∧
          ∀ i, InOneBlock (AgreeUpTo bloomSetBits i) l := by
  simp only [← Bool.not_eq_true, SimpleEdge.less_iff, not_lt]
  refine ⟨fun A => le_rfl, fun A B C => lt_trans, fun A B ne => ?_, fun l sorted => ⟨?_, fun i => ?_⟩⟩
  · exact lt_or_gt_of_ne fun same => ne (SimpleEdge.key_injective same)
  · -- the source stands behind all hashes
    have front (A : SimpleEdge) : A.key bloomSetBits =
        (hashKey (bfCompute A.src bloomSetBits) (List.range' 1 bloomSetBits) ++ [A.src.toNat]) ++
          [A.dst.toNat] := by
      rw [List.append_assoc]
      rfl
    simp only [front] at sorted
    have blocks := inOneBlock_of_sorted
      (fun A B => by simp [length_hashKey (length_bfCompute A.src B.src)]) sorted
    intro A B C three same
    have fronts := blocks A B C three (by simp only [same])
    have ends := List.append_inj_right' fronts rfl
    simpa [BitVec.toNat_inj] using ends
  · simp only [SimpleEdge.key_split (Nat.min_le_right i bloomSetBits)] at sorted
    have blocks := inOneBlock_of_sorted
      (fun A B => length_hashKey (length_bfCompute A.src B.src) _) sorted
    simpa only [InOneBlock, agreeUpTo_iff few] using blocks

/-- Filters of 256 bits. -/
theorem ordersEdges_256 :
    let less := SimpleEdge.less 8
    (∀ A, less A A = false) ∧
      (∀ A B C, less A B = true → less B C = true → less A C = true) ∧
      (∀ A B, A ≠ B → less A B = true ∨ less B A = true) ∧
      ∀ l : List SimpleEdge, l.Pairwise (fun A B => less B A = false) →
        InOneBlock (fun A B => A.src = B.src) l ∧ ∀ i, InOneBlock (AgreeUpTo 8 i) l :=
  ordersEdges (by decide)

end MBFGraph
