import MBFGraph.Algorithms.HyperAnf
import MBFGraph.Core.ScatterGather

/-!
# HyperLogLog counters, and hyperanf

A counter (`hyperloglog.h`) has `1 << log2_m` registers of a byte. `__builtin_ffs` is at most 32, so
it makes no difference that `hll_union` compares registers as signed bytes where it uses vector
instructions. Then the vertex program `hyperanf` (`hyper-anf.hpp:97-226`). The estimates are `float`s
and stay open, as does `reduce`, which looks at them to find out when to stop.
-/

namespace MBFGraph

open ByteBits

namespace HyperAnf

theorem ffs_le (word : BitVec 32) : ffs word ≤ 32 := by
  unfold ffs
  split
  · rename_i j found
    have := List.mem_range.mp (List.mem_of_find?_eq_some found)
    omega
  · exact Nat.zero_le _

/-- A lane of a vector: `cmpgt` makes a mask, and the mask chooses. The flag is whether `ptestz` sees
the mask. -/
def vectorLane (left right : Byte) : Byte × Bool :=
  let mask : Byte := if left.slt right then 0xFF else 0
  ((right &&& mask) ||| (~~~mask &&& left), mask != 0)

/-- The loop over the last bytes. -/
def scalarLane (left right : Byte) : Byte × Bool :=
  if left < right then (right, true) else (left, false)

/-- `hll_union` from a register on. The first `vectorBytes` registers are compared in vectors: with
AVX2 or SSE4.1 all up to a multiple of 16, and otherwise none. The flag is `!no_change`. -/
def unionFrom (vectorBytes : Nat) : Nat → List Byte → List Byte → List Byte × Bool
  | index, left :: counterA, right :: counterB =>
    let here := if index < vectorBytes then vectorLane left right else scalarLane left right
    let rest := unionFrom vectorBytes (index + 1) counterA counterB
    (here.1 :: rest.1, here.2 || rest.2)
  | _, counterA, _ => (counterA, false)

/-- On registers both kinds of lanes take the larger one. -/
theorem vectorLane_eq {left right : Byte} (smallLeft : left.toNat ≤ 32)
    (smallRight : right.toNat ≤ 32) : vectorLane left right = scalarLane left right := by
  have signed : left.slt right = decide (left < right) := by
    rw [Bool.eq_iff_iff, BitVec.slt_iff_toInt_lt, decide_eq_true_eq, BitVec.lt_def,
      BitVec.toInt_eq_toNat_of_lt (by omega), BitVec.toInt_eq_toNat_of_lt (by omega)]
    omega
  unfold vectorLane scalarLane
  rw [signed]
  have ones : (0xFF : Byte) = BitVec.allOnes 8 := by decide
  by_cases less : left < right
  · simp only [less, decide_true, if_true, ones, BitVec.and_allOnes, BitVec.not_allOnes,
      BitVec.zero_and, BitVec.or_zero]
    rfl
  · have keeps : 255#8 &&& left = left := BitVec.allOnes_and
    simp [less, keeps]

theorem scalarLane_toNat (left right : Byte) :
    (scalarLane left right).1.toNat = max left.toNat right.toNat ∧
      ((scalarLane left right).2 = true ↔ left.toNat < right.toNat) := by
  unfold scalarLane
  split
  · rename_i less
    rw [BitVec.lt_def] at less
    exact ⟨(max_eq_right less.le).symm, iff_of_true rfl less⟩
  · rename_i notLess
    rw [BitVec.lt_def] at notLess
    exact ⟨(max_eq_left (not_lt.mp notLess)).symm, iff_of_false Bool.false_ne_true notLess⟩

/-- Registers hold what `__builtin_ffs` gives. -/
def Registers (counter : List Byte) : Prop := ∀ b ∈ counter, b.toNat ≤ 32

/-- `hll_union` takes the larger one of two registers, and tells whether a register grew. -/
theorem unionFrom_spec (vectorBytes index : Nat) {counterA counterB : List Byte}
    (smallA : Registers counterA) (smallB : Registers counterB)
    (sameLength : counterA.length = counterB.length) :
    (unionFrom vectorBytes index counterA counterB).1 =
        List.zipWith (fun left right => (scalarLane left right).1) counterA counterB ∧
      ((unionFrom vectorBytes index counterA counterB).2 = true ↔
        ∃ pair ∈ counterA.zip counterB, pair.1.toNat < pair.2.toNat) := by
  induction counterA generalizing index counterB with
  | nil => simp [unionFrom]
  | cons left counterA ih =>
    cases counterB with
    | nil => exact absurd sameLength (by simp)
    | cons right counterB =>
      obtain ⟨bytes, grew⟩ := ih (index + 1) (fun b member => smallA b (List.mem_cons_of_mem _ member))
        (fun b member => smallB b (List.mem_cons_of_mem _ member)) (Nat.succ.inj sameLength)
      have lane : (if index < vectorBytes then vectorLane left right else scalarLane left right) =
          scalarLane left right := by
        rw [vectorLane_eq (smallA left List.mem_cons_self) (smallB right List.mem_cons_self), ite_self]
      unfold unionFrom
      simp only [lane, bytes, List.zipWith_cons_cons, List.zip_cons_cons, Bool.or_eq_true,
        List.mem_cons, exists_eq_or_imp, grew, (scalarLane_toNat left right).2, true_and]

/-- A counter. -/
structure HllCounter (log2M : Nat) where
  bytes : List Byte
  length_eq : bytes.length = sizeofHllCounter log2M
  registers : Registers bytes
  deriving DecidableEq

/-- `hll_union`. -/
def hllUnion {log2M : Nat} (vectorBytes : Nat) (counterA counterB : HllCounter log2M) :
    HllCounter log2M × Bool :=
  (⟨(unionFrom vectorBytes 0 counterA.bytes counterB.bytes).1, by
      rw [(unionFrom_spec vectorBytes 0 counterA.registers counterB.registers
        (counterA.length_eq.trans counterB.length_eq.symm)).1, List.length_zipWith,
        counterA.length_eq, counterB.length_eq, Nat.min_self], by
      rw [(unionFrom_spec vectorBytes 0 counterA.registers counterB.registers
        (counterA.length_eq.trans counterB.length_eq.symm)).1]
      intro b member
      obtain ⟨i, inside, rfl⟩ := List.getElem_of_mem member
      rw [List.getElem_zipWith, (scalarLane_toNat _ _).1]
      exact max_le (counterA.registers _ (List.getElem_mem _))
        (counterB.registers _ (List.getElem_mem _))⟩,
    (unionFrom vectorBytes 0 counterA.bytes counterB.bytes).2)

/-- `hll_init` and `add_hll_counter`: the counter of a vertex in superstep 0. -/
def initialCounter (log2M vertexIndex : Nat) : HllCounter log2M :=
  ⟨addHllCounter log2M (List.replicate (sizeofHllCounter log2M) 0)
      (jenkins (BitVec.ofNat 64 vertexIndex) 0xdeadbeef#64), by simp, by
    intro b member
    unfold addHllCounter at member
    simp only at member
    have zero : ∀ b ∈ List.replicate (sizeofHllCounter log2M) (0 : Byte), b.toNat ≤ 32 := by
      intro b member
      rw [List.eq_of_mem_replicate member]
      decide
    split at member
    · rcases List.mem_or_eq_of_mem_set member with old | rfl
      · exact zero b old
      · rw [BitVec.toNat_ofNat]
        exact (Nat.mod_le _ _).trans (ffs_le _)
    · exact zero b member⟩

/-- `hyperanf_vertex`. -/
structure HyperanfVertex (φ : Type) (log2M : Nat) where
  changed : Bool
  count : φ
  hllCtr : HllCounter log2M

/-- `hyperanf_update`. -/
structure HyperanfUpdate (log2M : Nat) where
  dst : VertexT
  hllCtr : HllCounter log2M
  deriving DecidableEq

variable {φ : Type} {log2M : Nat}

/-- `init`: superstep 0 makes a new counter, a later superstep rolls up. -/
def initVertex (countHllCounter : HllCounter log2M → φ) (v : HyperanfVertex φ log2M)
    (vertexIndex bspPhase : Nat) : HyperanfVertex φ log2M × Bool :=
  if bspPhase = 0 then
    ({ v with hllCtr := initialCounter log2M vertexIndex, changed := true }, true)
  else if v.changed then
    ({ v with count := countHllCounter v.hllCtr, changed := false }, false)
  else (v, false)

def applyOneUpdate (vectorBytes : Nat) (v : HyperanfVertex φ log2M) (u : HyperanfUpdate log2M) :
    HyperanfVertex φ log2M × Bool :=
  let union := hllUnion vectorBytes v.hllCtr u.hllCtr
  ({ v with hllCtr := union.1, changed := v.changed || union.2 }, union.2)

def generateUpdate (v : HyperanfVertex φ log2M) (dst : VertexT) : Option (HyperanfUpdate log2M) :=
  if v.changed then some ⟨dst, v.hllCtr⟩ else none

def checkBsp (v : HyperanfVertex φ log2M) : Bool := v.changed

end HyperAnf

open HyperAnf in
/-- `hyperanf`, for any estimates, data of the processors and test of convergence. -/
def hyperanfProgram {φ δ γ : Type} {log2M : Nat} (vectorBytes : Nat)
    (countHllCounter : HllCounter log2M → φ)
    (reduce : γ → (Nat → δ) → Nat → γ × (Nat → δ) × Bool) :
    SgAlgorithm (HyperanfVertex φ log2M) (HyperanfUpdate log2M) δ γ where
  vertexStateBytes := sizeofHyperanfVertex + sizeofHllCounter log2M
  splitKey u := u.dst.toNat
  init := initVertex countHllCounter
  needInit _ := true
  checkBsp v _ := HyperAnf.checkBsp v
  checkResetChanged v := (v, true)
  applyOneUpdate v u data _ :=
    ((applyOneUpdate vectorBytes v u).1, data, (applyOneUpdate vectorBytes v u).2)
  generateUpdate v _ dst _ data _ := (generateUpdate v dst, data)
  reduce := reduce
  minSuperPhases := 1

/-- `sizeof(hyperanf_update)`: the counter is aligned to 32 bytes. -/
def sizeofHyperanfUpdate : Nat := 32

/-- `hyperanf::split_size_bytes`. -/
def hyperanfSplitSizeBytes (log2M : Nat) : Nat :=
  sizeofHyperanfUpdate + HyperAnf.sizeofHllCounter log2M

end MBFGraph
