import MBFGraph.Lib.BitPasses
import MBFGraph.Core.MurmurQuery
import MBFGraph.Core.Proofs.NeverHide

/-!
# The two kernels on one file

A call covers consecutive groups of the file, a piece. Both kernels set result bits from what they read of the
file, so that after all calls each result bit is told by the file bits that the kernel tested for it; and these
are known, because they are those of the edges.
-/

namespace MBFGraph

open ByteBits Groups Stdio Stores BitPasses

section Specification

variable {E : Type} (F : FormatUtils E) (o : BloomOptions)

/-- The first group and the number of groups of each call. -/
def pieces : List Nat → Nat → List (Nat × Nat)
  | [], _ => []
  | k :: ks, start => (start, k) :: pieces ks (start + k)

/-- The group at `base` is the one that the kernel `CPU` reads last for the result bits of group `g`. The loop
variable, the address in the buffer and the address in `BF_bitset` are `unsigned int`. -/
def ReadsLast (piece : Nat × Nat) (g base : Nat) : Prop :=
  ∃ i < piece.2 % 2 ^ 32, piece.1 + i % 2 ^ 27 = g ∧
    base = piece.1 * groupBytes o + i * groupBytes o % 2 ^ 32 ∧
    ∀ j, i < j → j < piece.2 % 2 ^ 32 → piece.1 + j % 2 ^ 27 ≠ g

/-- The bytes at `addr` are taken by the kernel `CPUF` for a filter with the result bit `p`. -/
def TakesFilter (piece : Nat × Nat) (p addr : Nat) : Prop :=
  ∃ j < 256 * piece.2, p = (256 * piece.1 + j) % 2 ^ 32 ∧
    addr = piece.1 * groupBytes o + j * (o.bitsPerBF / 8) % 2 ^ 32

/-- No store of the kernel `CPU` is outside of a bitset of `size` bytes. -/
def StoresInside (size : Nat) (piece : Nat × Nat) : Prop :=
  ∀ i < piece.2 % 2 ^ 32, 32 * (piece.1 + i % 2 ^ 27) + 32 ≤ size

/-- The inner loop of the kernel `CPUF` ends, and stays inside a bitset of `size` bytes. -/
def MarksInside (size : Nat) (piece : Nat × Nat) : Prop :=
  256 * piece.2 < 2 ^ 32 ∧ ∀ j < 256 * piece.2, (256 * piece.1 + j) % 2 ^ 32 / 8 < size

/-- Some edge has set bit `b` of the filter file. -/
def SetByEdge (own : List E) (b : Nat) : Prop :=
  ∃ k edge, own[k]? = some edge ∧ ∃ row ∈ builderHash o.bitsPerBF (F.splitKey edge 0), b = builderBit o k row

/-- Result bit `p` of the kernel `CPU`, from the edges: the four rows of a vertex. -/
def CpuPicks (ks : List Nat) (queried : List VertexT) (own : List E) (p : Nat) : Prop :=
  ∃ piece ∈ pieces ks 0, ∃ base, ReadsLast o piece (p / 256) base ∧
    ∃ v ∈ queried, ∀ row ∈ kernelHash o.bitsPerBF v, SetByEdge F o own (8 * (base + 32 * row) + p % 256)

/-- Result bit `p` of the kernel `CPUF`, from the edges: four bits of the bytes that it takes for a filter. -/
def CpufPicks (ks : List Nat) (vs : List VertexT) (own : List E) (p : Nat) : Prop :=
  ∃ piece ∈ pieces ks 0, ∃ addr, TakesFilter o piece p addr ∧
    ∃ v ∈ vs, ∀ hash ∈ cpufHash o.bitsPerBF v, SetByEdge F o own (8 * addr + hash)

/-- The kernels, called for `ks` groups at a time in any order, leave the same bitset, and it has a bit for
every page with an edge whose source is listed. `junk` is what `all_BF_vertex` holds behind the list. -/
def KernelsAgree (ks : List Nat) (edges : Nat) (own : List E) (file : List Byte) (vs junk : List VertexT) :
    Prop :=
  ∀ order, order.Perm (cutCalls o ks 0 file) → ∀ order', order'.Perm (cutCalls o ks 0 file) →
    ∃ bitset, runKernel (cpuKernel o (vs ++ junk) vs.length) order (clearedBitset o edges) = some bitset ∧
      runKernel (cpufKernel o (vs ++ junk) vs.length) order' (clearedBitset o edges) = some bitset ∧
      ∀ i edge, own[i]? = some edge → F.src edge ∈ vs → bitAt bitset (i / o.bfsPerPage) = true

/-- The kernels test bits that edges have set to the same end, and find every page with an edge whose source is
listed. -/
structure Coincide (ks : List Nat) (edges : Nat) (own : List E) (vs junk : List VertexT) : Prop where
  storesInside : ∀ piece ∈ pieces ks 0, StoresInside (clearedBitset o edges).length piece
  marksInside : ∀ piece ∈ pieces ks 0, ∀ _v ∈ vs, MarksInside (clearedBitset o edges).length piece
  same : ∀ p, CpuPicks F o ks ((vs ++ junk).take ((vs.length + 3) / 4 * 4)) own p ↔ CpufPicks F o ks vs own p
  covers : ∀ i edge, own[i]? = some edge → F.src edge ∈ vs → CpufPicks F o ks vs own (i / o.bfsPerPage)

end Specification

section Pieces

variable {o : BloomOptions}

/-- The call for a piece of the file. -/
def pieceCall (o : BloomOptions) (file : List Byte) (piece : Nat × Nat) : MetaCall :=
  ⟨(file.drop (piece.1 * groupBytes o)).take (piece.2 * groupBytes o), piece.1 * groupBytes o⟩

theorem cutCalls_eq_map (file : List Byte) (ks : List Nat) (start : Nat) :
    cutCalls o ks start (file.drop (start * groupBytes o)) =
      (pieces ks start).map (pieceCall o file) := by
  induction ks generalizing start with
  | nil => rfl
  | cons k ks ih =>
    rw [cutCalls_cons, List.drop_drop, ← Nat.add_mul, ih]
    rfl

theorem mem_pieces {ks : List Nat} {start : Nat} {piece : Nat × Nat} (member : piece ∈ pieces ks start) :
    start ≤ piece.1 ∧ piece.1 + piece.2 ≤ start + ks.sum := by
  induction ks generalizing start with
  | nil => exact absurd member List.not_mem_nil
  | cons k ks ih =>
    rw [List.sum_cons]
    rcases List.mem_cons.mp member with rfl | later
    · exact ⟨Nat.le_refl _, by simp only; omega⟩
    · have := ih later
      omega

theorem pairwise_pieces (ks : List Nat) (start : Nat) :
    (pieces ks start).Pairwise fun piece later => piece.1 + piece.2 ≤ later.1 := by
  induction ks generalizing start with
  | nil => exact List.Pairwise.nil
  | cons k ks ih => exact List.pairwise_cons.mpr ⟨fun later member => (mem_pieces member).1, ih _⟩

/-- A bit of a call is a bit of the file. -/
theorem bitAt_pieceCall (file : List Byte) (piece : Nat × Nat) {b : Nat}
    (inside : b < 8 * (piece.2 * groupBytes o)) :
    bitAt (pieceCall o file piece).bufin b = bitAt file (8 * (piece.1 * groupBytes o) + b) := by
  unfold pieceCall
  rw [bitAt_take, bitAt_drop, decide_eq_true inside, Bool.true_and]

end Pieces

section Cpu

variable {o : BloomOptions}

private theorem exists_last {P : Nat → Prop} {n : Nat} (some_ : ∃ i < n, P i) :
    ∃ i < n, P i ∧ ∀ j, i < j → j < n → ¬ P j := by
  induction n with
  | zero => exact absurd some_ (by simp)
  | succ n ih =>
    by_cases atEnd : P n
    · exact ⟨n, Nat.lt_succ_self n, atEnd, fun j after below => by omega⟩
    · obtain ⟨i, below, holds⟩ := some_
      have before : i < n := by
        rcases Nat.lt_succ_iff_lt_or_eq.mp below with less | rfl
        · exact less
        · exact absurd holds atEnd
      obtain ⟨i, below, holds, last⟩ := ih ⟨i, before, holds⟩
      refine ⟨i, Nat.lt_succ_of_lt below, holds, fun j after inside => ?_⟩
      rcases Nat.lt_succ_iff_lt_or_eq.mp inside with less | rfl
      · exact last j after less
      · exact atEnd

/-- The kernel `CPU` on a piece of the file. -/
theorem rewrites_cpuKernel (small : groupBytes o < 2 ^ 31) {file : List Byte} {piece : Nat × Nat}
    (length : (pieceCall o file piece).bufin.length = piece.2 * groupBytes o) (allBFVertex : List VertexT)
    (allBFCnt size : Nat) :
    Rewrites size (StoresInside size piece) (fun p => ∃ i < piece.2 % 2 ^ 32, piece.1 + i % 2 ^ 27 = p / 256)
      (fun p => ∃ base, ReadsLast o piece (p / 256) base ∧
        ∃ v ∈ allBFVertex.take ((allBFCnt + 3) / 4 * 4), ∀ row ∈ kernelHash o.bitsPerBF v,
          bitAt file (8 * (base + 32 * row) + p % 256) = true)
      (cpuKernel o allBFVertex allBFCnt (pieceCall o file piece)) := by
  -- the store of turn `i`
  let store (i : Nat) : Store 256 :=
    { addr := 32 * (piece.1 + i % 2 ^ 27)
      word := queryGroup o allBFVertex allBFCnt (pieceCall o file piece).bufin (i * groupBytes o % 2 ^ 32) }
  have stores : kernelStores o allBFVertex allBFCnt (pieceCall o file piece) =
      some ((List.range (piece.2 % 2 ^ 32)).map store) :=
    kernelStores_eq allBFVertex allBFCnt small piece.2 piece.1 _ length
  have covers (i p : Nat) : (store i).Covers p ↔ piece.1 + i % 2 ^ 27 = p / 256 := covers_iff _ _ _
  have inside_iff : StoresInside size piece ↔
      ∀ s ∈ (List.range (piece.2 % 2 ^ 32)).map store, s.addr + 256 / 8 ≤ size := by
    simp only [List.forall_mem_map, List.mem_range]
    exact Iff.rfl
  have word {i p : Nat} (below : i < piece.2 % 2 ^ 32) (place : piece.1 + i % 2 ^ 27 = p / 256) :
      (store i).word.getLsbD (p - 8 * (store i).addr) = true ↔
        ∃ v ∈ allBFVertex.take ((allBFCnt + 3) / 4 * 4), ∀ row ∈ kernelHash o.bitsPerBF v,
          bitAt file (8 * (piece.1 * groupBytes o + i * groupBytes o % 2 ^ 32 + 32 * row) + p % 256) =
            true := by
    have column : p % 256 < 256 := Nat.mod_lt _ (by decide)
    have bitNumber : p - 8 * (32 * (piece.1 + i % 2 ^ 27)) = p % 256 := by omega
    have room : i * groupBytes o % 2 ^ 32 + groupBytes o ≤ piece.2 * groupBytes o := by
      have le := Nat.mod_le (i * groupBytes o) (2 ^ 32)
      have below' : i < piece.2 := Nat.lt_of_lt_of_le below (Nat.mod_le _ _)
      have := Nat.mul_le_mul_right (groupBytes o) (Nat.succ_le_of_lt below')
      rw [Nat.succ_mul] at this
      omega
    have read (v : VertexT) {row : Nat} (member : row ∈ kernelHash o.bitsPerBF v) :
        bitAt (pieceCall o file piece).bufin (8 * (i * groupBytes o % 2 ^ 32 + 32 * row) + p % 256) =
          bitAt file
            (8 * (piece.1 * groupBytes o + i * groupBytes o % 2 ^ 32 + 32 * row) + p % 256) := by
      have bound := kernelHash_lt v row member
      have bytes := groupBytes_eq (o := o)
      rw [bitAt_pieceCall file piece (by omega)]
      congr 1
      omega
    simp only [store, bitNumber]
    rw [getLsbD_queryGroup_take _ _ _ _ column]
    exact exists_congr fun v => and_congr_right fun _ =>
      forall₂_congr fun row member => by rw [read v member]
  constructor
  · intro outside bitset length
    unfold cpuKernel
    rw [stores, Option.bind_some]
    refine foldlM_storeInside_none fun inside => outside (inside_iff.mpr ?_)
    rwa [length] at inside
  · intro inside bitset length
    have inside' := inside_iff.mp inside
    rw [← length] at inside'
    unfold cpuKernel
    rw [stores, Option.bind_some]
    refine ⟨_, foldlM_storeInside inside', by rw [length_applyStores_inside inside', length], fun p => ?_⟩
    by_cases covered : ∃ i < piece.2 % 2 ^ 32, piece.1 + i % 2 ^ 27 = p / 256
    · obtain ⟨i, below, place, last⟩ := exists_last covered
      rw [bitAt_applyStores_last (by decide) store below ((covers i p).mpr place)
        (fun j after inside covers' => last j after inside ((covers j p).mp covers')), word below place]
      simp only [covered, true_and, not_true_eq_false, false_and, or_false]
      constructor
      · exact fun found => ⟨_, ⟨i, below, place, rfl, last⟩, found⟩
      · rintro ⟨base, ⟨i', below', place', rfl, last'⟩, found⟩
        have same : i' = i := by
          rcases Nat.lt_trichotomy i i' with less | same | more
          · exact absurd place' (last i' less below')
          · exact same.symm
          · exact absurd place (last' i more below)
        rwa [same] at found
    · have none_ : ∀ s ∈ (List.range (piece.2 % 2 ^ 32)).map store, ¬ s.Covers p := by
        simp only [List.forall_mem_map, List.mem_range]
        exact fun i below covers' => covered ⟨i, below, (covers i p).mp covers'⟩
      rw [bitAt_applyStores_of_not_covered (by decide) none_]
      exact ⟨fun old => Or.inr ⟨covered, old⟩,
        fun either => either.elim (fun found => absurd found.1 covered) fun old => old.2⟩

end Cpu

section Cpuf

variable {o : BloomOptions}

theorem marks_orBit (size bitIndex : Nat) (result : Bool) :
    Marks size (bitIndex / 8 < size) (fun p => p = bitIndex ∧ result = true) (orBit bitIndex result) := by
  constructor
  · intro outside bitset length
    exact if_neg (by rwa [length])
  · intro inside bitset length
    refine ⟨_, if_pos (by rwa [length]), ?_, fun p => ?_⟩
    · split
      · rw [length_setBit, length]
      · exact length
    · cases result with
      | false => simp
      | true =>
        rw [if_pos rfl, bitAt_setBit, Bool.or_eq_true, Bool.and_eq_true, decide_eq_true_iff,
          decide_eq_true_iff]
        refine or_congr_right ⟨fun set => ⟨set.1.symm, rfl⟩, fun set => ⟨set.1.symm, ?_⟩⟩
        obtain ⟨rfl, -⟩ := set
        omega

/-- The bits of the hash lie inside the filter. -/
theorem cpufHash_lt (tmpV : VertexT) : ∀ hash ∈ cpufHash o.bitsPerBF tmpV, hash < o.bitsPerBF := by
  have positive := o.bitsPerBF_pos
  have small := o.bitsPerBF_int
  intro hash member
  obtain ⟨seed, -, rfl⟩ := List.mem_map.mp member
  have le : (murmurHash3X8632 tmpV seed &&& BitVec.ofNat 32 (o.bitsPerBF - 1)).toNat ≤
      o.bitsPerBF - 1 := by
    rw [BitVec.toNat_and, BitVec.toNat_ofNat, Nat.mod_eq_of_lt (by omega)]
    exact Nat.and_le_right
  omega

/-- The kernel `CPUF` on a piece of the file. -/
theorem marks_cpufKernel {file : List Byte} {piece : Nat × Nat}
    (length : (pieceCall o file piece).bufin.length = piece.2 * groupBytes o) (allBFVertex : List VertexT)
    (allBFCnt size : Nat) :
    Marks size (∀ _v ∈ allBFVertex.take allBFCnt, MarksInside size piece)
      (fun p => ∃ v ∈ allBFVertex.take allBFCnt, ∃ addr, TakesFilter o piece p addr ∧
        ∀ hash ∈ cpufHash o.bitsPerBF v, bitAt file (8 * addr + hash) = true)
      (cpufKernel o allBFVertex allBFCnt (pieceCall o file piece)) := by
  have eight := o.bytes_mul_eight
  have bytesPos : 0 < o.bitsPerBF / 8 := by
    have := o.bitsPerBF_pos
    omega
  have bytes : groupBytes o = 256 * (o.bitsPerBF / 8) := Nat.mul_comm _ _
  have offset : (pieceCall o file piece).bfOffset = 256 * piece.1 * (o.bitsPerBF / 8) := by
    simp only [pieceCall, bytes]
    ring
  have filters : piece.2 * groupBytes o = 256 * piece.2 * (o.bitsPerBF / 8) := by
    rw [bytes]
    ring
  have count : (pieceCall o file piece).bufin.length / (o.bitsPerBF / 8) = 256 * piece.2 := by
    rw [length, filters, Nat.mul_div_cancel _ bytesPos]
  have accepts : ¬((pieceCall o file piece).bfOffset % (o.bitsPerBF / 8) ≠ 0 ∨
      (pieceCall o file piece).bufin.length % (o.bitsPerBF / 8) ≠ 0) := by
    rw [offset, length, filters]
    simp
  have first : (pieceCall o file piece).bfOffset / (o.bitsPerBF / 8) = 256 * piece.1 := by
    rw [offset, Nat.mul_div_cancel _ bytesPos]
  -- what is read for filter `j` of the call
  have result (v : VertexT) {j : Nat} (below : j < 256 * piece.2) :
      cpufResult o (pieceCall o file piece).bufin (j * (o.bitsPerBF / 8) % 2 ^ 32) v = true ↔
        ∀ hash ∈ cpufHash o.bitsPerBF v, bitAt file
          (8 * (piece.1 * groupBytes o + j * (o.bitsPerBF / 8) % 2 ^ 32) + hash) = true := by
    have room : j * (o.bitsPerBF / 8) % 2 ^ 32 + o.bitsPerBF / 8 ≤ piece.2 * groupBytes o := by
      have le := Nat.mod_le (j * (o.bitsPerBF / 8)) (2 ^ 32)
      have := Nat.mul_le_mul_right (o.bitsPerBF / 8) (Nat.succ_le_of_lt below)
      rw [Nat.succ_mul] at this
      omega
    unfold cpufResult
    rw [List.all_eq_true]
    refine forall₂_congr fun hash member => ?_
    have bound := cpufHash_lt v hash member
    rw [bitAt_pieceCall file piece (by omega)]
    rw [← Nat.add_assoc, ← Nat.mul_add]
  unfold cpufKernel
  simp only [if_neg accepts, count]
  refine Marks.foldlM fun v _ => ?_
  have inner := Marks.foldlM fun j (_ : j ∈ List.range (256 * piece.2)) =>
    marks_orBit size ((256 * piece.1 + j) % 2 ^ 32)
      (cpufResult o (pieceCall o file piece).bufin (j * (o.bitsPerBF / 8) % 2 ^ 32) v)
  unfold cpufFilter
  simp only [first]
  constructor
  · intro outside bitset length'
    by_cases ends : 256 * piece.2 < 2 ^ 32
    · rw [if_neg (by omega)]
      exact inner.fails (fun inside => outside ⟨ends, fun j below => inside j (List.mem_range.mpr below)⟩)
        bitset length'
    · rw [if_pos (by omega)]
  · rintro ⟨ends, inside⟩ bitset length'
    rw [if_neg (by omega)]
    obtain ⟨after, ran, length'', bits⟩ :=
      inner.marked (fun j member => inside j (List.mem_range.mp member)) bitset length'
    refine ⟨after, ran, length'', fun p => ?_⟩
    rw [bits]
    refine or_congr_right ?_
    constructor
    · rintro ⟨j, member, rfl, found⟩
      have below := List.mem_range.mp member
      exact ⟨_, ⟨j, below, rfl, rfl⟩, (result v below).mp found⟩
    · rintro ⟨addr, ⟨j, below, rfl, rfl⟩, found⟩
      exact ⟨j, List.mem_range.mpr below, rfl, (result v below).mpr found⟩

end Cpuf

section Runs

variable {o : BloomOptions} {file : List Byte} {ks : List Nat} {order : List MetaCall}

/-- Calls in some order are pieces in some order. -/
private theorem runKernel_perm (perm : order.Perm (cutCalls o ks 0 file)) :
    ∃ sequence : List (Nat × Nat), sequence.Perm (pieces ks 0) ∧ ∀ kernel bitset, runKernel kernel order bitset =
      sequence.foldlM (fun bitset piece => kernel (pieceCall o file piece) bitset) bitset := by
  have cut := cutCalls_eq_map (o := o) file ks 0
  rw [Nat.zero_mul, List.drop_zero] at cut
  have related : Relation.Comp (· = List.map (pieceCall o file) ·) (List.Perm · ·) order (pieces ks 0) := by
    rw [List.eq_map_comp_perm]
    change order.Perm (List.map (pieceCall o file) (pieces ks 0))
    rwa [← cut]
  obtain ⟨sequence, rfl, samePieces⟩ := related
  refine ⟨sequence, samePieces, fun kernel bitset => ?_⟩
  unfold runKernel
  rw [List.foldlM_map]

private theorem length_pieceCall (length : file.length = ks.sum * groupBytes o) {piece : Nat × Nat}
    (member : piece ∈ pieces ks 0) : (pieceCall o file piece).bufin.length = piece.2 * groupBytes o := by
  have below := Nat.mul_le_mul_right (groupBytes o) (mem_pieces member).2
  rw [Nat.zero_add, ← length, Nat.add_mul] at below
  unfold pieceCall
  rw [List.length_take, List.length_drop]
  omega

/-- All calls of the kernel `CPU`, in any order. -/
theorem rewrites_runKernel (small : groupBytes o < 2 ^ 31) (length : file.length = ks.sum * groupBytes o)
    (perm : order.Perm (cutCalls o ks 0 file)) (allBFVertex : List VertexT) (allBFCnt size : Nat) :
    Rewrites size (∀ piece ∈ pieces ks 0, StoresInside size piece)
      (fun p => ∃ piece ∈ pieces ks 0, ∃ i < piece.2 % 2 ^ 32, piece.1 + i % 2 ^ 27 = p / 256)
      (fun p => ∃ piece ∈ pieces ks 0, (∃ i < piece.2 % 2 ^ 32, piece.1 + i % 2 ^ 27 = p / 256) ∧
        ∃ base, ReadsLast o piece (p / 256) base ∧
          ∃ v ∈ allBFVertex.take ((allBFCnt + 3) / 4 * 4), ∀ row ∈ kernelHash o.bitsPerBF v,
            bitAt file (8 * (base + 32 * row) + p % 256) = true)
      (runKernel (cpuKernel o allBFVertex allBFCnt) order) := by
  obtain ⟨sequence, samePieces, run⟩ := runKernel_perm perm
  have apart : sequence.Pairwise fun piece later => ∀ p,
      (∃ i < piece.2 % 2 ^ 32, piece.1 + i % 2 ^ 27 = p / 256) →
        ¬ ∃ i < later.2 % 2 ^ 32, later.1 + i % 2 ^ 27 = p / 256 := by
    have symmetric : ∀ {piece later : Nat × Nat},
        (piece.1 + piece.2 ≤ later.1 ∨ later.1 + later.2 ≤ piece.1) →
          later.1 + later.2 ≤ piece.1 ∨ piece.1 + piece.2 ≤ later.1 := Or.symm
    have disjoint := (samePieces.pairwise_iff symmetric).mpr
      ((pairwise_pieces ks 0).imp fun before => Or.inl before)
    refine disjoint.imp fun {piece later} sides p => ?_
    rintro ⟨i, below, place⟩ ⟨j, below', place'⟩
    have := Nat.mod_le piece.2 (2 ^ 32)
    have := Nat.mod_le later.2 (2 ^ 32)
    have := Nat.mod_le i (2 ^ 27)
    have := Nat.mod_le j (2 ^ 27)
    omega
  have all := Rewrites.foldlM (fun piece (member : piece ∈ sequence) => rewrites_cpuKernel small
    (length_pieceCall length (samePieces.mem_iff.mp member)) allBFVertex allBFCnt size) apart
  simp only [samePieces.mem_iff] at all
  rwa [← funext (run (cpuKernel o allBFVertex allBFCnt))] at all

/-- All calls of the kernel `CPUF`, in any order. -/
theorem marks_runKernel (length : file.length = ks.sum * groupBytes o)
    (perm : order.Perm (cutCalls o ks 0 file)) (allBFVertex : List VertexT) (allBFCnt size : Nat) :
    Marks size (∀ piece ∈ pieces ks 0, ∀ _v ∈ allBFVertex.take allBFCnt, MarksInside size piece)
      (fun p => ∃ piece ∈ pieces ks 0, ∃ v ∈ allBFVertex.take allBFCnt, ∃ addr, TakesFilter o piece p addr ∧
        ∀ hash ∈ cpufHash o.bitsPerBF v, bitAt file (8 * addr + hash) = true)
      (runKernel (cpufKernel o allBFVertex allBFCnt) order) := by
  obtain ⟨sequence, samePieces, run⟩ := runKernel_perm perm
  have all := Marks.foldlM fun piece (member : piece ∈ sequence) => marks_cpufKernel
    (length_pieceCall length (samePieces.mem_iff.mp member)) allBFVertex allBFCnt size
  simp only [samePieces.mem_iff] at all
  rwa [← funext (run (cpufKernel o allBFVertex allBFCnt))] at all

end Runs

section Agreement

variable {E : Type} {F : FormatUtils E} {o : BloomOptions}

private theorem bitset_eq_iff {size : Nat} {xs ys : List Byte} (lengthX : xs.length = size)
    (lengthY : ys.length = size) : xs = ys ↔ ∀ p, bitAt xs p = true ↔ bitAt ys p = true :=
  ⟨fun same p => by rw [same],
    fun bits => ext_bitAt (lengthX.trans lengthY.symm) fun p _ => Bool.eq_iff_iff.mpr (bits p)⟩

/-- The two kernels on the file that was built for `own`. -/
theorem kernelsAgree_filterBytes_iff (fits : GroupFits o) (progress : 0 < o.edgesPerBuf) {ks : List Nat}
    {own : List E} (length : (filterBytes F o (groups o.edgesPerBuf own)).length = ks.sum * groupBytes o)
    (edges : Nat) (vs junk : List VertexT) :
    KernelsAgree F o ks edges own (filterBytes F o (groups o.edgesPerBuf own)) vs junk ↔
      Coincide F o ks edges own vs junk := by
  have small := groupBytes_small fits
  generalize isFile : filterBytes F o (groups o.edgesPerBuf own) = file at length ⊢
  have bit (b : Nat) : bitAt file b = true ↔ SetByEdge F o own b := by
    rw [← isFile]
    exact bitAt_filterBytes fits progress own b
  have taken : (vs ++ junk).take vs.length = vs := List.take_left
  -- what each kernel leaves, whatever the order of the calls
  have cpu {order : List MetaCall} (perm : order.Perm (cutCalls o ks 0 file)) :=
    rewrites_runKernel small length perm (vs ++ junk) vs.length (clearedBitset o edges).length
  have cpuf {order : List MetaCall} (perm : order.Perm (cutCalls o ks 0 file)) :=
    marks_runKernel length perm (vs ++ junk) vs.length (clearedBitset o edges).length
  simp only [taken, bit] at cpu cpuf
  have cpuBits (p : Nat) :
      ((∃ piece ∈ pieces ks 0, ∃ i < piece.2 % 2 ^ 32, piece.1 + i % 2 ^ 27 = p / 256) ∧
          ∃ piece ∈ pieces ks 0, (∃ i < piece.2 % 2 ^ 32, piece.1 + i % 2 ^ 27 = p / 256) ∧
            ∃ base, ReadsLast o piece (p / 256) base ∧
              ∃ v ∈ (vs ++ junk).take ((vs.length + 3) / 4 * 4), ∀ row ∈ kernelHash o.bitsPerBF v,
                SetByEdge F o own (8 * (base + 32 * row) + p % 256)) ∨
          (¬∃ piece ∈ pieces ks 0, ∃ i < piece.2 % 2 ^ 32, piece.1 + i % 2 ^ 27 = p / 256) ∧
            bitAt (clearedBitset o edges) p = true ↔
        CpuPicks F o ks ((vs ++ junk).take ((vs.length + 3) / 4 * 4)) own p := by
    rw [bitAt_clearedBitset]
    constructor
    · rintro (⟨-, piece, member, -, picked⟩ | ⟨-, old⟩)
      · exact ⟨piece, member, picked⟩
      · exact nomatch old
    · rintro ⟨piece, member, base, reads, picked⟩
      have covered : ∃ i < piece.2 % 2 ^ 32, piece.1 + i % 2 ^ 27 = p / 256 := by
        obtain ⟨i, below, place, -⟩ := reads
        exact ⟨i, below, place⟩
      exact Or.inl ⟨⟨piece, member, covered⟩, piece, member, covered, base, reads, picked⟩
  have cpufBits (p : Nat) : (bitAt (clearedBitset o edges) p = true ∨
      ∃ piece ∈ pieces ks 0, ∃ v ∈ vs, ∃ addr, TakesFilter o piece p addr ∧
        ∀ hash ∈ cpufHash o.bitsPerBF v, SetByEdge F o own (8 * addr + hash)) ↔
        CpufPicks F o ks vs own p := by
    rw [bitAt_clearedBitset]
    constructor
    · rintro (old | ⟨piece, member, v, listed, addr, takes, set⟩)
      · exact nomatch old
      · exact ⟨piece, member, addr, takes, v, listed, set⟩
    · rintro ⟨piece, member, addr, takes, v, listed, set⟩
      exact Or.inr ⟨piece, member, v, listed, addr, takes, set⟩
  constructor
  · intro agree
    obtain ⟨bitset, ranCpu, ranCpuf, found⟩ := agree _ (List.Perm.refl _) _ (List.Perm.refl _)
    have storesInside : ∀ piece ∈ pieces ks 0, StoresInside (clearedBitset o edges).length piece := by
      by_contra outside
      rw [(cpu (List.Perm.refl _)).fails outside _ rfl] at ranCpu
      exact nomatch ranCpu
    have marksInside : ∀ piece ∈ pieces ks 0, ∀ _v ∈ vs, MarksInside (clearedBitset o edges).length piece := by
      by_contra outside
      rw [(cpuf (List.Perm.refl _)).fails outside _ rfl] at ranCpuf
      exact nomatch ranCpuf
    obtain ⟨afterCpu, result, -, bits⟩ := (cpu (List.Perm.refl _)).rewritten storesInside _ rfl
    obtain ⟨afterCpuf, result', -, bits'⟩ := (cpuf (List.Perm.refl _)).marked marksInside _ rfl
    obtain rfl : bitset = afterCpu := Option.some.inj (ranCpu.symm.trans result)
    obtain rfl : bitset = afterCpuf := Option.some.inj (ranCpuf.symm.trans result')
    have picks (p : Nat) : bitAt bitset p = true ↔ CpufPicks F o ks vs own p :=
      (bits' p).trans (cpufBits p)
    refine ⟨storesInside, marksInside, fun p => ?_, fun i edge isEdge listed => ?_⟩
    · rw [← picks, ← cpuBits, bits]
    · exact (picks _).mp (found i edge isEdge listed)
  · intro coincide order perm order' perm'
    obtain ⟨bitset, result, size, bits⟩ := (cpu perm).rewritten coincide.storesInside _ rfl
    obtain ⟨bitset', result', size', bits'⟩ := (cpuf perm').marked coincide.marksInside _ rfl
    have picks (p : Nat) : bitAt bitset' p = true ↔ CpufPicks F o ks vs own p :=
      (bits' p).trans (cpufBits p)
    have same : bitset = bitset' := (bitset_eq_iff size size').mpr fun p => by
      rw [bits, cpuBits, picks]
      exact coincide.same p
    refine ⟨bitset', same ▸ result, result', fun i edge isEdge listed => ?_⟩
    exact (picks _).mpr (coincide.covers i edge isEdge listed)

variable [Inhabited E] [DecidableEq E] {m : Mapping}

/-- The kernels agree on filters that mode `create` wrote, and find every page that they should, exactly if the
bits that they test coincide: for every division of the file into calls, every list and whatever is behind it. -/
theorem kernelsAgree_iff {efile : List E} {bufs : Nat → SuperBuf E} {superp : Nat}
    (inside : superp < m.superPartitions)
    (written : edgeDistribution m F o efile (fun _ => 0) 0 freshBufs false = some bufs)
    {ks : List Nat} (positive : ∀ k ∈ ks, 0 < k)
    (size : (bufs superp).bfFp.content.length = ks.sum * groupBytes o) (vs junk : List VertexT) :
    KernelsAgree F o ks efile.length (edgeFile m efile bufs superp) (bufs superp).bfFp.content vs junk ↔
      Coincide F o ks efile.length (edgeFile m efile bufs superp) vs junk := by
  obtain ⟨ok, sameEdges, sameFilters⟩ := created_spec inside written
  rw [sameFilters] at size
  rw [sameEdges, sameFilters]
  by_cases nonempty : efile = []
  · -- no edge, no group, no call
    have noEdge : superEdges m F superp efile = [] := by simp [nonempty, superEdges]
    rw [noEdge, groups_nil, filterBytes_nil, List.length_nil] at size
    have noCall : ks = [] := by
      rw [List.eq_nil_iff_forall_not_mem]
      intro k member
      have := positive k member
      have := List.le_sum_of_mem member
      have := groupBytes_pos (o := o)
      have := Nat.mul_pos (show 0 < ks.sum by omega) this
      omega
    subst noCall
    rw [noEdge]
    constructor
    · intro _
      exact ⟨by simp [pieces], by simp [pieces], by simp [pieces, CpuPicks, CpufPicks], by simp⟩
    · rintro - order perm order' perm'
      obtain rfl := List.perm_nil.mp perm
      obtain rfl := List.perm_nil.mp perm'
      exact ⟨_, rfl, rfl, by simp⟩
  · exact kernelsAgree_filterBytes_iff (ok.fits nonempty) (ok.progress nonempty) size _ vs junk

end Agreement

section Instances

private theorem created_page (own : List SimpleEdge)
    (noTombstone : ∀ edge ∈ own, type2.splitKey edge 0 ≠ tombstone)
    (fits : min smallOptions.edgesPerBuf own.length * type2.splitSizeBytes ≤
      edgeBufSize type2 smallOptions)
    (oneGroup : (groups smallOptions.edgesPerBuf own).length = 1) :
    ∃ bufs, edgeDistribution oneMapping type2 smallOptions own (fun _ => 0) 0 freshBufs false = some bufs ∧
      edgeFile oneMapping own bufs 0 = own ∧
      (bufs 0).bfFp.content.length = [1].sum * groupBytes smallOptions := by
  have inside : 0 < oneMapping.superPartitions := by decide
  have ok : Distributable type2 smallOptions own := ⟨noTombstone, fun _ => by decide, fun _ => by decide, fits⟩
  have written : edgeDistribution oneMapping type2 smallOptions own (fun _ => 0) 0 freshBufs false = _ :=
    created_of_distributable ok
  obtain ⟨-, sameEdges, sameFilters⟩ := created_spec inside written
  refine ⟨_, written, by rw [sameEdges, superEdges_of_one rfl], ?_⟩
  rw [sameFilters, superEdges_of_one rfl]
  exact (length_flatMap_const length_bloomOut_groupBytes _).trans (by rw [oneGroup]; rfl)

/-- The one edge sets four bits, in the column of its page. -/
private theorem setByEdge_five {b : Nat} (set : SetByEdge type2 smallOptions [⟨5#32, 7#32⟩] b) :
    ∃ row ∈ [10, 1, 31, 9], b = 256 * row := by
  obtain ⟨k, edge, found, row, member, rfl⟩ := set
  have first : k = 0 := by
    have := (List.getElem?_eq_some_iff.mp found).1
    rw [List.length_singleton] at this
    omega
  subst first
  obtain rfl : ⟨5#32, 7#32⟩ = edge := by simpa using found
  have rows : builderHash smallOptions.bitsPerBF (type2.splitKey ⟨5#32, 7#32⟩ 0) = [10, 1, 31, 9] := by
    decide +kernel
  rw [rows] at member
  exact ⟨row, member, by simp [builderBit]⟩

/-- Both kernels find nothing for vertex 9 in the filters of an edge from vertex 5. -/
theorem kernelsAgree_iff_absent :
    ∃ bufs, edgeDistribution oneMapping type2 smallOptions [⟨5#32, 7#32⟩] (fun _ => 0) 0 freshBufs false =
        some bufs ∧
      KernelsAgree type2 smallOptions [1] 1 (edgeFile oneMapping [⟨5#32, 7#32⟩] bufs 0)
        (bufs 0).bfFp.content [9#32] [] := by
  obtain ⟨bufs, written, own, size⟩ :=
    created_page [⟨5#32, 7#32⟩] (by decide) (by decide) (by decide)
  refine ⟨bufs, written, ?_⟩
  have room : (clearedBitset smallOptions 1).length = 512 := List.length_replicate
  refine (kernelsAgree_iff (by decide) written (show ∀ k ∈ [1], 0 < k by decide) size [9#32] []).mpr ?_
  rw [own]
  refine ⟨?_, ?_, fun p => iff_of_false ?_ ?_, ?_⟩
  · intro piece member i below
    obtain rfl : piece = (0, 1) := by simpa [pieces] using member
    rw [List.length_singleton, room]
    simp only at below ⊢
    omega
  · intro piece member v _
    obtain rfl : piece = (0, 1) := by simpa [pieces] using member
    rw [List.length_singleton, room]
    exact ⟨by decide, fun j below => by simp only at below ⊢; omega⟩
  · rintro ⟨piece, member, base, ⟨i, below, -, rfl, -⟩, v, listed, rows⟩
    obtain rfl : piece = (0, 1) := by simpa [pieces] using member
    obtain rfl : v = 9#32 := by simpa using listed
    obtain ⟨row, rowMember, same⟩ := setByEdge_five (rows 29 (by decide +kernel))
    have first : i = 0 := by
      simp only at below
      omega
    subst first
    fin_cases rowMember <;> simp only at same <;> omega
  · rintro ⟨piece, member, addr, ⟨j, below, -, rfl⟩, v, listed, hashes⟩
    obtain rfl : piece = (0, 1) := by simpa [pieces] using member
    obtain rfl : v = 9#32 := by simpa using listed
    obtain ⟨row, -, same⟩ := setByEdge_five (hashes 6 (by decide +kernel))
    have bytes : smallOptions.bitsPerBF / 8 = 4 := rfl
    rw [bytes] at same
    simp only at below same
    omega
  · intro i edge found listed
    have isEdge := List.mem_of_getElem? found
    rw [List.mem_singleton.mp isEdge] at listed
    exact absurd listed (by decide)

/-- The kernel `CPUF` misses the second page for the vertex whose edge is on it. -/
theorem not_kernelsAgree :
    ∃ bufs, edgeDistribution oneMapping type2 smallOptions [⟨5#32, 7#32⟩, ⟨6#32, 7#32⟩] (fun _ => 0) 0
        freshBufs false = some bufs ∧ (bufs 0).bfFp.content.length = [1].sum * groupBytes smallOptions ∧
      ¬ KernelsAgree type2 smallOptions [1] 2
        (edgeFile oneMapping [⟨5#32, 7#32⟩, ⟨6#32, 7#32⟩] bufs 0) (bufs 0).bfFp.content
        [6#32, 6#32, 6#32, 6#32] [] := by
  obtain ⟨bufs, written, own, size⟩ :=
    created_page [⟨5#32, 7#32⟩, ⟨6#32, 7#32⟩] (by decide) (by decide) (by decide)
  refine ⟨bufs, written, size, fun agree => ?_⟩
  obtain ⟨-, sameEdges, sameFilters⟩ := created_spec (show 0 < oneMapping.superPartitions by decide) written
  rw [sameFilters] at size agree
  rw [sameEdges, superEdges_of_one rfl] at agree
  rw [superEdges_of_one rfl] at size
  have coincide := (kernelsAgree_filterBytes_iff (by decide) (by decide) size 2 _ []).mp agree
  obtain ⟨piece, member, addr, ⟨j, below, same, rfl⟩, v, listed, hashes⟩ :=
    coincide.covers 1 ⟨6#32, 7#32⟩ rfl (by decide)
  obtain rfl : piece = (0, 1) := by simpa [pieces] using member
  obtain rfl : v = 6#32 := by simpa using listed
  -- the four bits of vertex 6 are looked for in row 0, columns 32 to 63
  obtain ⟨k, edge, found, row, rowMember, same'⟩ := hashes 18 (by decide +kernel)
  have few := (List.getElem?_eq_some_iff.mp found).1
  have bytes : smallOptions.bitsPerBF / 8 = 4 := rfl
  have perPage : smallOptions.bfsPerPage = 1 := rfl
  have perBuf : smallOptions.edgesPerBuf = 256 := rfl
  rw [bytes] at same'
  unfold builderBit at same'
  rw [perPage, perBuf] at same'
  rw [perPage] at same
  simp only [List.length_cons, List.length_nil] at few same same' below
  omega

end Instances

end MBFGraph
