import MBFGraph.Algorithms.HyperLogLog

/-!
# The loops of hll_union

The version of `hll_union` for AVX2 (`hyperloglog.h:127-177`) goes through the registers in vectors of 32
bytes, then of 16 bytes, and takes the rest one by one; the version for other processors
(`hyperloglog.h:218-230`) takes all of them one by one. A vector is the list of its bytes. `bytes` and
`index` are `unsigned int`s: `1 << log2_m` is less than `2^32`.
-/

namespace MBFGraph

open ByteBits Overwrite

namespace HyperAnf

/-- `__builtin_ia32_pcmpgtb`: a byte of ones where the first vector is greater, as signed bytes. -/
def pcmpgtb (a b : List Byte) : List Byte := List.zipWith (fun x y => if y.slt x then 0xFF else 0) a b

/-- `__builtin_ia32_pand`. -/
def pand (a b : List Byte) : List Byte := List.zipWith (· &&& ·) a b

/-- `__builtin_ia32_pandn`: the first vector is complemented. -/
def pandn (a b : List Byte) : List Byte := List.zipWith (fun x y => ~~~x &&& y) a b

/-- `__builtin_ia32_por`. -/
def por (a b : List Byte) : List Byte := List.zipWith (· ||| ·) a b

/-- `__builtin_ia32_ptestz`: no common bit is set. -/
def ptestz (a b : List Byte) : Bool := (pand a b).all (· == 0)

/-- `counterA` and the variables of the loops. -/
structure UnionState where
  counterA : List Byte
  index : Nat
  bytes : Nat
  noChange : Bool

/-- A round of a loop over vectors. -/
def vectorRound (width : Nat) (counterB : List Byte) (s : UnionState) : UnionState :=
  let left := (s.counterA.drop s.index).take width
  let right := (counterB.drop s.index).take width
  let maskRight := pcmpgtb right left
  let noChange := s.noChange && ptestz maskRight maskRight
  let right := pand right maskRight
  let maskRight := pandn maskRight left
  let left := por right maskRight
  { counterA := overwrite s.counterA s.index left
    index := s.index + width
    bytes := s.bytes - width
    noChange }

def vectorLoop {width : Nat} (positive : 0 < width) (counterB : List Byte) (s : UnionState) :
    UnionState :=
  if width ≤ s.bytes then vectorLoop positive counterB (vectorRound width counterB s) else s
termination_by s.bytes
decreasing_by
  simp only [vectorRound]
  omega

/-- The comparison of one register. -/
def byteRound (counterB : List Byte) (i : Nat) (counterA : List Byte) (noChange : Bool) :
    List Byte × Bool :=
  if counterA.getD i 0 < counterB.getD i 0 then (counterA.set i (counterB.getD i 0), false)
  else (counterA, noChange)

def byteLoop (counterB : List Byte) (s : UnionState) : UnionState :=
  if 0 < s.bytes then
    let (counterA, noChange) := byteRound counterB s.index s.counterA s.noChange
    byteLoop counterB { counterA, index := s.index + 1, bytes := s.bytes - 1, noChange }
  else s
termination_by s.bytes

/-- `hll_union` for AVX2. -/
def hllUnionAvx2 (log2M : Nat) (counterA counterB : List Byte) : List Byte × Bool :=
  let mMinus1 := (1 <<< log2M) - 1
  let s : UnionState := { counterA, index := 0, bytes := mMinus1 + 1, noChange := true }
  let s := vectorLoop (show 0 < 32 by decide) counterB s
  let s := vectorLoop (show 0 < 16 by decide) counterB s
  let s := byteLoop counterB s
  (s.counterA, !s.noChange)

/-- `hll_union` without vector instructions. -/
def hllUnionScalar (log2M : Nat) (counterA counterB : List Byte) : List Byte × Bool :=
  let mMinus1 := (1 <<< log2M) - 1
  let s := (List.range (mMinus1 + 1)).foldl
    (fun s i => byteRound counterB i s.1 s.2) (counterA, true)
  (s.1, !s.2)

/-- `hll_init`. -/
def hllInit (log2M : Nat) : List Byte := List.replicate (sizeofHllCounter log2M) 0

/-- The counters that come about. -/
inductive ReachableCounter (log2M : Nat) : List Byte → Prop
  | init : ReachableCounter log2M (hllInit log2M)
  | add {counter : List Byte} (hash : BitVec 64) (reachable : ReachableCounter log2M counter) :
    ReachableCounter log2M (addHllCounter log2M counter hash)
  | unionAvx2 {counterA counterB : List Byte} (reachableA : ReachableCounter log2M counterA)
    (reachableB : ReachableCounter log2M counterB) :
    ReachableCounter log2M (hllUnionAvx2 log2M counterA counterB).1
  | unionScalar {counterA counterB : List Byte} (reachableA : ReachableCounter log2M counterA)
    (reachableB : ReachableCounter log2M counterB) :
    ReachableCounter log2M (hllUnionScalar log2M counterA counterB).1

end HyperAnf

end MBFGraph
