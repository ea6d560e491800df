import MBFGraph.Core.WriteBack

/-!
# hyperanf

The vertex record of `hyperanf` (`hyper-anf.hpp:104-121`) and its first initialisation
(`hyper-anf.hpp:166-188`, `hyperloglog.h:84-143`), as a build with AVX2 lays it out: `changed`,
`count` and, from byte 32 on, a HyperLogLog counter of `1 << log2_m` registers.
-/

namespace MBFGraph

open ByteBits Overwrite

namespace HyperAnf

/-- `sizeof(hyperanf_vertex)`: the counter is aligned to 32 bytes. -/
def sizeofHyperanfVertex : Nat := 32

/-- `sizeof_hll_counter`. -/
def sizeofHllCounter (log2M : Nat) : Nat := 1 <<< log2M

/-- `jenkins` (`hyperloglog.h:89-111`). -/
def jenkins (x seed : BitVec 64) : BitVec 64 :=
  let round := fun (abc : BitVec 64 × BitVec 64 × BitVec 64) (s : Nat × Nat × Nat) =>
    let a := (abc.1 - abc.2.1 - abc.2.2) ^^^ (abc.2.2 >>> s.1)
    let b := (abc.2.1 - abc.2.2 - a) ^^^ (a <<< s.2.1)
    let c := (abc.2.2 - a - b) ^^^ (b >>> s.2.2)
    (a, b, c)
  ([(43, 9, 8), (38, 23, 5), (35, 49, 11), (12, 18, 22)].foldl round
    (seed + x, seed, 0x9e3779b97f4a7c13#64)).2.2

/-- `__builtin_ffs` of an `int`. -/
def ffs (word : BitVec 32) : Nat :=
  match (List.range 32).find? fun j => word.getLsbD j with
  | some j => j + 1
  | none => 0

/-- `add_hll_counter`. -/
def addHllCounter (log2M : Nat) (counter : List Byte) (hash : BitVec 64) : List Byte :=
  let index := hash.toNat &&& ((1 <<< log2M) - 1)
  let value := counter.getD index 0
  let newValue : Byte := BitVec.ofNat 8 (ffs ((hash >>> log2M).setWidth 32))
  if value < newValue then counter.set index newValue else counter

/-- `init` in superstep 0: a new counter that holds the vertex itself, and `changed = true`. -/
def init (log2M vertexIndex : Nat) (record : List Byte) : List Byte :=
  let hash := jenkins (BitVec.ofNat 64 vertexIndex) 0xdeadbeef#64
  let counter := addHllCounter log2M (List.replicate (sizeofHllCounter log2M) 0) hash
  overwrite (overwrite record sizeofHyperanfVertex counter) 0 [1]

end HyperAnf

/-- `hyperanf`: `check_reset_changed` returns true for every vertex. -/
def hyperanf (log2M : Nat) : VertexProgram where
  vertexStateBytes := HyperAnf.sizeofHyperanfVertex + HyperAnf.sizeofHllCounter log2M
  checkResetChanged vertex _ _ := (true, vertex)
  vertexStateBytes_pos := Nat.lt_of_lt_of_le (by decide) (Nat.le_add_right _ _)
  length_checkResetChanged _ _ _ := rfl

namespace HyperAnf

@[simp] theorem length_addHllCounter (log2M : Nat) (counter : List Byte) (hash : BitVec 64) :
    (addHllCounter log2M counter hash).length = counter.length := by
  unfold addHllCounter
  simp only
  split
  · exact List.length_set
  · rfl

/-- `init` leaves a record of the same size. -/
theorem length_init (log2M : Nat) (vertexIndex : Nat) {record : List Byte}
    (whole : record.length = (hyperanf log2M).vertexStateBytes) :
    (init log2M vertexIndex record).length = (hyperanf log2M).vertexStateBytes := by
  have size : (hyperanf log2M).vertexStateBytes =
      sizeofHyperanfVertex + sizeofHllCounter log2M := rfl
  have header : 0 < sizeofHyperanfVertex := by decide
  have first : ∀ counter : List Byte, counter.length = sizeofHllCounter log2M →
      (overwrite record sizeofHyperanfVertex counter).length = record.length := fun counter full =>
    length_overwrite_inside (by omega)
  unfold init
  simp only
  rw [length_overwrite_inside, first _ (by simp), whole]
  rw [first _ (by simp), List.length_singleton]
  omega

/-- A new counter holds the vertex in the register that its hash selects. -/
theorem getElem?_init (log2M : Nat) (vertexIndex : Nat) (record : List Byte)
    (whole : record.length = (hyperanf log2M).vertexStateBytes) {hash : BitVec 64}
    (isHash : jenkins (BitVec.ofNat 64 vertexIndex) 0xdeadbeef#64 = hash) :
    (init log2M vertexIndex record)[sizeofHyperanfVertex + hash.toNat % 2 ^ log2M]? =
      some (BitVec.ofNat 8 (ffs ((hash >>> log2M).setWidth 32))) := by
  have size : (hyperanf log2M).vertexStateBytes =
      sizeofHyperanfVertex + sizeofHllCounter log2M := rfl
  have registers : sizeofHllCounter log2M = 2 ^ log2M := Nat.one_shiftLeft log2M
  have below : hash.toNat % 2 ^ log2M < 2 ^ log2M := Nat.mod_lt _ (Nat.two_pow_pos log2M)
  have header : 0 < sizeofHyperanfVertex := by decide
  unfold init
  simp only [isHash]
  rw [getElem?_overwrite (Nat.zero_le _), if_neg (by simp only [List.length_singleton]; omega),
    getElem?_overwrite (by omega), length_addHllCounter, List.length_replicate,
    if_pos ⟨by omega, by omega⟩, Nat.add_sub_cancel_left]
  unfold addHllCounter
  simp only [Nat.one_shiftLeft, Nat.and_two_pow_sub_one_eq_mod, registers]
  rw [List.getD_eq_getElem?_getD, List.getElem?_replicate_of_lt below]
  split
  · rw [List.getElem?_set_self (by rw [List.length_replicate]; exact below)]
  · -- a hash without a set bit leaves the register at zero
    rename_i notGreater
    rw [List.getElem?_replicate_of_lt below]
    congr 1
    rw [Option.getD_some] at notGreater
    exact (BitVec.le_zero_iff.mp (BitVec.not_lt.mp notGreater)).symm

end HyperAnf

end MBFGraph
