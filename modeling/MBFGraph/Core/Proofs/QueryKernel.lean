import MBFGraph.Core.BloomQuery
import MBFGraph.Core.Proofs.BloomGroup

/-!
# What the query kernel stores

A filter file is cut into calls of whole groups. `visits` lists, for all calls, the group that a
round of the kernel stores to and the file address that it reads from; both come from 32-bit
arithmetic. The result bits of a group are those read at its visits, in whatever order the calls
run.
-/

namespace MBFGraph

open ByteBits Stores

/-- The bytes of a group. -/
def groupBytes (o : BloomOptions) : Nat := o.bitsPerBF / 8 * 256

/-- Consecutive calls of `ks` groups each, from group `start` on. -/
def cutCalls (o : BloomOptions) : List Nat → Nat → List Byte → List MetaCall
  | [], _, _ => []
  | k :: ks, start, file =>
      ⟨file.take (k * groupBytes o), start * groupBytes o⟩ ::
        cutCalls o ks (start + k) (file.drop (k * groupBytes o))

/-- The rounds of the kernel in calls of `ks` groups each: the group whose place in `BF_bitset`
is stored to, and the file address of the group that is read. -/
def visits (o : BloomOptions) : List Nat → Nat → List (Nat × Nat)
  | [], _ => []
  | k :: ks, start =>
      ((List.range (k % 2 ^ 32)).map fun i =>
          (start + i % 2 ^ 27, start * groupBytes o + i * groupBytes o % 2 ^ 32)) ++
        visits o ks (start + k)

section Kernel

variable {o : BloomOptions}

theorem bitAt_clearedBitset (edges p : Nat) : bitAt (clearedBitset o edges) p = false :=
  bitAt_replicate_zero _ _

theorem cutCalls_cons (k : Nat) (ks : List Nat) (start : Nat) (file : List Byte) :
    cutCalls o (k :: ks) start file =
      ⟨file.take (k * groupBytes o), start * groupBytes o⟩ ::
        cutCalls o ks (start + k) (file.drop (k * groupBytes o)) := rfl

theorem groupBytes_bits : 8 * groupBytes o = 256 * o.bitsPerBF := by
  have := o.bytes_mul_eight
  unfold groupBytes
  omega

theorem groupBytes_eq : groupBytes o = 32 * o.bitsPerBF := by
  have := o.bytes_mul_eight
  unfold groupBytes
  omega

theorem groupBytes_pos : 0 < groupBytes o := by
  have := o.bitsPerBF_pos
  rw [groupBytes_eq]
  omega

/-- Every row that the kernel computes lies inside the filter. -/
theorem kernelHash_lt (tmpV : VertexT) : ∀ row ∈ kernelHash o.bitsPerBF tmpV, row < o.bitsPerBF := by
  rw [kernelHash_eq]
  exact hashRows_lt o.bitsPerBF_pos _

private theorem getLsbD_foldl_and {w : Nat} (words : List (BitVec w)) (init : BitVec w) (c : Nat) :
    (words.foldl (· &&& ·) init).getLsbD c = true ↔
      init.getLsbD c = true ∧ ∀ word ∈ words, word.getLsbD c = true := by
  induction words generalizing init with
  | nil => simp
  | cons word words ih =>
    rw [List.foldl_cons, ih, BitVec.getLsbD_and, Bool.and_eq_true]
    simp only [List.mem_cons, forall_eq_or_imp]
    exact and_assoc

private theorem getLsbD_foldl_or {α : Type} {w : Nat} (f : α → BitVec w) (xs : List α)
    (init : BitVec w) (c : Nat) :
    (xs.foldl (fun out x => out ||| f x) init).getLsbD c = true ↔
      init.getLsbD c = true ∨ ∃ x ∈ xs, (f x).getLsbD c = true := by
  induction xs generalizing init with
  | nil => simp
  | cons x xs ih =>
    rw [List.foldl_cons, ih, BitVec.getLsbD_or, Bool.or_eq_true]
    simp only [List.mem_cons, exists_eq_or_imp]
    exact or_assoc

/-- Column `c` of a vertex: all four rows have it set. -/
theorem getLsbD_queryVertex (bufin : List Byte) (baseAddr : Nat) (tmpV : VertexT) {c : Nat}
    (column : c < 256) :
    (queryVertex o bufin baseAddr tmpV).getLsbD c = true ↔
      ∀ row ∈ kernelHash o.bitsPerBF tmpV, bitAt bufin (8 * (baseAddr + 32 * row) + c) = true := by
  have shift : ∀ row : Nat, row <<< 5 = 32 * row := by
    intro row; rw [Nat.shiftLeft_eq, Nat.mul_comm]
  have ones : (BitVec.allOnes 256).getLsbD c = true := by
    rw [BitVec.getLsbD_allOnes]; exact decide_eq_true column
  unfold queryVertex
  rw [getLsbD_foldl_and]
  simp only [ones, true_and, List.mem_map, forall_exists_index, and_imp, forall_apply_eq_imp_iff₂,
    getLsbD_load, column, decide_true, Bool.true_and, shift]

/-- Column `c` of a group: some vertex that is taken has it set. -/
theorem getLsbD_queryGroup_take (allBFVertex : List VertexT) (allBFCnt : Nat) (bufin : List Byte)
    (baseAddr : Nat) {c : Nat} (column : c < 256) :
    (queryGroup o allBFVertex allBFCnt bufin baseAddr).getLsbD c = true ↔
      ∃ v ∈ allBFVertex.take ((allBFCnt + 3) / 4 * 4), ∀ row ∈ kernelHash o.bitsPerBF v,
        bitAt bufin (8 * (baseAddr + 32 * row) + c) = true := by
  unfold queryGroup
  rw [getLsbD_foldl_or]
  simp only [BitVec.ofNat_eq_ofNat, BitVec.getLsbD_zero, Bool.false_eq_true, false_or,
    getLsbD_queryVertex _ _ _ column]

/-- Column `c` of a group: some queried vertex has it set. -/
theorem getLsbD_queryGroup {vs junk : List VertexT} (fours : vs.length % 4 = 0)
    (bufin : List Byte) (baseAddr : Nat) {c : Nat} (column : c < 256) :
    (queryGroup o (vs ++ junk) vs.length bufin baseAddr).getLsbD c = true ↔
      ∃ v ∈ vs, ∀ row ∈ kernelHash o.bitsPerBF v,
        bitAt bufin (8 * (baseAddr + 32 * row) + c) = true := by
  have count : (vs.length + 3) / 4 * 4 = vs.length := by omega
  rw [getLsbD_queryGroup_take _ _ _ _ column, count, List.take_left]

/-- A read inside a slice of the file is a read of the file. -/
private theorem queryGroup_slice {vs junk : List VertexT} (fours : vs.length % 4 = 0)
    (file : List Byte) (start size baseAddr : Nat) (inside : baseAddr + groupBytes o ≤ size) :
    queryGroup o (vs ++ junk) vs.length ((file.drop start).take size) baseAddr =
      queryGroup o (vs ++ junk) vs.length file (start + baseAddr) := by
  apply BitVec.eq_of_getLsbD_eq
  intro c column
  rw [Bool.eq_iff_iff, getLsbD_queryGroup fours _ _ column, getLsbD_queryGroup fours _ _ column]
  have same : ∀ v, ∀ row ∈ kernelHash o.bitsPerBF v,
      bitAt ((file.drop start).take size) (8 * (baseAddr + 32 * row) + c) =
        bitAt file (8 * (start + baseAddr + 32 * row) + c) := by
    intro v row member
    have bound := kernelHash_lt v row member
    have bytes := groupBytes_eq (o := o)
    have below : 8 * (baseAddr + 32 * row) + c < 8 * size := by omega
    have shifted : 8 * start + (8 * (baseAddr + 32 * row) + c) =
        8 * (start + baseAddr + 32 * row) + c := by ring
    rw [bitAt_take, bitAt_drop, shifted]
    simp [below]
  constructor
  · rintro ⟨v, member, rows⟩
    exact ⟨v, member, fun row rowMember => by rw [← same v row rowMember]; exact rows row rowMember⟩
  · rintro ⟨v, member, rows⟩
    exact ⟨v, member, fun row rowMember => by rw [same v row rowMember]; exact rows row rowMember⟩

/-- The stores of one call. -/
theorem kernelStores_eq (vs : List VertexT) (cnt : Nat) (small : groupBytes o < 2 ^ 31)
    (k start : Nat) (bufin : List Byte) (size : bufin.length = k * groupBytes o) :
    kernelStores o vs cnt ⟨bufin, start * groupBytes o⟩ =
      some ((List.range (k % 2 ^ 32)).map fun i =>
        { addr := 32 * (start + i % 2 ^ 27)
          word := queryGroup o vs cnt bufin (i * groupBytes o % 2 ^ 32) }) := by
  have positive := groupBytes_pos (o := o)
  have bytes : o.bitsPerBF / 8 * 256 = groupBytes o := rfl
  have bytesPos : 0 < o.bitsPerBF / 8 := by
    rw [← bytes] at positive; omega
  have perFilter : start * groupBytes o = start * 256 * (o.bitsPerBF / 8) := by
    rw [← bytes]; ring
  have perEight : start * groupBytes o = start * 32 * (o.bitsPerBF / 8 * 8) := by
    rw [← bytes]; ring
  have offsetOk : ¬ (start * groupBytes o % (o.bitsPerBF / 8) ≠ 0 ∨
      bufin.length % (o.bitsPerBF / 8) ≠ 0) := by
    have sizeOk : bufin.length = k * 256 * (o.bitsPerBF / 8) := by rw [size, ← bytes]; ring
    rw [perFilter, sizeOk]
    simp
  have groupOk : ¬ bufin.length % groupBytes o ≠ 0 := by rw [size]; simp
  have byteOk : ¬ start * groupBytes o % (o.bitsPerBF / 8 * 8) ≠ 0 := by rw [perEight]; simp
  have count : bufin.length / groupBytes o = k := by rw [size, Nat.mul_div_cancel _ positive]
  have base : start * groupBytes o / (o.bitsPerBF / 8) / 8 = start * 32 := by
    rw [Nat.div_div_eq_div_mul, perEight, Nat.mul_div_cancel _ (by omega)]
  have place : ∀ i : Nat, start * 32 + (i <<< 5) % 2 ^ 32 = 32 * (start + i % 2 ^ 27) := by
    intro i
    rw [Nat.shiftLeft_eq]
    omega
  unfold kernelStores
  simp only [bytes, Nat.not_le.mpr small, offsetOk, groupOk, byteOk, if_false, count, base, place]

/-- The stores of consecutive calls: one for every visit. -/
theorem queryStores_cutCalls {vs : List VertexT} (junk : List VertexT) (fours : vs.length % 4 = 0)
    (small : groupBytes o < 2 ^ 31) (file : List Byte) (ks : List Nat) (start : Nat)
    (size : (file.drop (start * groupBytes o)).length = ks.sum * groupBytes o) :
    queryStores o (vs ++ junk) vs.length
        (cutCalls o ks start (file.drop (start * groupBytes o))) =
      some ((visits o ks start).map fun visit =>
        { addr := 32 * visit.1
          word := queryGroup o (vs ++ junk) vs.length file visit.2 }) := by
  induction ks generalizing start with
  | nil => rfl
  | cons k ks ih =>
    have total : (k + ks.sum) * groupBytes o = k * groupBytes o + ks.sum * groupBytes o :=
      Nat.add_mul _ _ _
    rw [List.sum_cons, total] at size
    have next : start * groupBytes o + k * groupBytes o = (start + k) * groupBytes o :=
      (Nat.add_mul _ _ _).symm
    have pieceSize : ((file.drop (start * groupBytes o)).take (k * groupBytes o)).length =
        k * groupBytes o := by
      rw [List.length_take]; omega
    have rest := ih (start + k) (by
      rw [← next, ← List.drop_drop, List.length_drop]; omega)
    rw [cutCalls_cons]
    unfold queryStores
    rw [kernelStores_eq _ _ small k start _ pieceSize, List.drop_drop, next, rest]
    simp only [visits, List.map_append, List.map_map, Option.some.injEq, List.append_cancel_right_eq]
    apply List.map_congr_left
    intro i member
    have below : i < k := Nat.lt_of_lt_of_le (List.mem_range.mp member) (Nat.mod_le _ _)
    have inside : i * groupBytes o % 2 ^ 32 + groupBytes o ≤ k * groupBytes o := by
      have le := Nat.mod_le (i * groupBytes o) (2 ^ 32)
      have := Nat.mul_le_mul_right (groupBytes o) (Nat.succ_le_of_lt below)
      rw [Nat.succ_mul] at this
      omega
    simp only [Function.comp_apply, queryGroup_slice fours file _ _ _ inside]

/-- Where no call reaches `2 ^ 32` bytes before its last group, every group is visited once, at
its own address. -/
theorem mem_visits_iff {ks : List Nat} (noWrap : ∀ k ∈ ks, (k - 1) * groupBytes o < 2 ^ 32)
    (start g base : Nat) :
    (g, base) ∈ visits o ks start ↔
      (start ≤ g ∧ g < start + ks.sum) ∧ base = g * groupBytes o := by
  induction ks generalizing start with
  | nil => simp only [visits, List.not_mem_nil, List.sum_nil, false_iff]; omega
  | cons k ks ih =>
    have later : ∀ j ∈ ks, (j - 1) * groupBytes o < 2 ^ 32 := fun j member =>
      noWrap j (List.mem_cons_of_mem _ member)
    have here := noWrap k List.mem_cons_self
    have bytes := groupBytes_eq (o := o)
    have minimal := o.bitsPerBF_min
    have few : k - 1 < 2 ^ 27 := by
      by_contra many
      have := Nat.mul_le_mul (Nat.le_of_not_lt many) (show 1024 ≤ groupBytes o by omega)
      omega
    unfold visits
    rw [List.mem_append, ih later, List.sum_cons, List.mem_map]
    simp only [List.mem_range, Prod.mk.injEq]
    have own : (∃ i < k % 2 ^ 32, start + i % 2 ^ 27 = g ∧
        start * groupBytes o + i * groupBytes o % 2 ^ 32 = base) ↔
        (start ≤ g ∧ g < start + k) ∧ base = g * groupBytes o := by
      have address : ∀ i < k, i * groupBytes o % 2 ^ 32 = i * groupBytes o := by
        intro i below
        have := Nat.mul_le_mul_right (groupBytes o) (show i ≤ k - 1 by omega)
        exact Nat.mod_eq_of_lt (by omega)
      have count : k % 2 ^ 32 = k := Nat.mod_eq_of_lt (by omega)
      rw [count]
      constructor
      · rintro ⟨i, below, rfl, rfl⟩
        rw [address i below, ← Nat.add_mul, Nat.mod_eq_of_lt (by omega)]
        exact ⟨by omega, rfl⟩
      · rintro ⟨⟨above, below⟩, rfl⟩
        refine ⟨g - start, by omega, ?_, ?_⟩
        · rw [Nat.mod_eq_of_lt (by omega)]
          omega
        · rw [address _ (by omega), ← Nat.add_mul]
          congr 1
          omega
    rw [own]
    constructor
    · rintro (⟨range, rfl⟩ | ⟨range, rfl⟩)
      · exact ⟨by omega, rfl⟩
      · exact ⟨by omega, rfl⟩
    · rintro ⟨range, rfl⟩
      by_cases first : g < start + k
      · exact Or.inl ⟨by omega, rfl⟩
      · exact Or.inr ⟨by omega, rfl⟩

/-- Which visits store bit `p` of `BF_bitset`. -/
theorem covers_iff (place p : Nat) (word : BitVec 256) :
    (⟨32 * place, word⟩ : Store 256).Covers p ↔ place = p / 256 := by
  unfold Store.Covers
  simp only
  omega

/-- Bit `p` is set in every order of the calls exactly if its group is visited and every visit
reads a matching column. -/
theorem forall_order_bitAt_iff {vs junk : List VertexT} (fours : vs.length % 4 = 0)
    (small : groupBytes o < 2 ^ 31) {file : List Byte} {ks : List Nat}
    (size : file.length = ks.sum * groupBytes o) {stores : List (Store 256)}
    (run : queryStores o (vs ++ junk) vs.length (cutCalls o ks 0 file) = some stores)
    {bitset : List Byte} {p : Nat} (clear : bitAt bitset p = false) :
    (∀ order, order.Perm stores → bitAt (applyStores order bitset) p = true) ↔
      (∃ base, (p / 256, base) ∈ visits o ks 0) ∧
        ∀ base, (p / 256, base) ∈ visits o ks 0 → ∃ v ∈ vs, ∀ row ∈ kernelHash o.bitsPerBF v,
          bitAt file (8 * (base + 32 * row) + p % 256) = true := by
  have whole := queryStores_cutCalls junk fours small file ks 0
    (by rw [Nat.zero_mul, List.drop_zero]; exact size)
  rw [Nat.zero_mul, List.drop_zero, run] at whole
  obtain rfl := Option.some.inj whole
  have column : p % 256 < 256 := Nat.mod_lt _ (by decide)
  have bitNumber : ∀ place, place = p / 256 → p - 8 * (32 * place) = p % 256 := by
    intro place same; omega
  rw [forall_perm_bitAt_iff (by decide) clear]
  simp only [List.mem_map, Prod.exists]
  constructor
  · rintro ⟨⟨_, ⟨place, base, member, rfl⟩, covers⟩, all⟩
    obtain rfl := (covers_iff _ _ _).mp covers
    refine ⟨⟨base, member⟩, fun base member => ?_⟩
    have set := all _ ⟨_, base, member, rfl⟩ ((covers_iff _ _ _).mpr rfl)
    rwa [bitNumber _ rfl, getLsbD_queryGroup fours _ _ column] at set
  · rintro ⟨⟨base, member⟩, all⟩
    refine ⟨⟨_, ⟨_, base, member, rfl⟩, (covers_iff _ _ _).mpr rfl⟩, ?_⟩
    rintro _ ⟨place, base, member, rfl⟩ covers
    obtain rfl := (covers_iff _ _ _).mp covers
    rw [bitNumber _ rfl, getLsbD_queryGroup fours _ _ column]
    exact all base member

/-- Where nothing wraps, every order of the calls leaves the membership bits. -/
theorem bitAt_order_iff {vs junk : List VertexT} (fours : vs.length % 4 = 0) {file : List Byte} {ks : List Nat}
    (noWrap : ∀ k ∈ ks, (k - 1) * groupBytes o < 2 ^ 32)
    {order : List (Store 256)}
    (perm : order.Perm ((visits o ks 0).map fun visit =>
      ⟨32 * visit.1, queryGroup o (vs ++ junk) vs.length file visit.2⟩))
    {bitset : List Byte} {p : Nat} (clear : bitAt bitset p = false) :
    bitAt (applyStores order bitset) p = true ↔
      p / 256 < ks.sum ∧ ∃ v ∈ vs, ∀ row ∈ kernelHash o.bitsPerBF v,
        bitAt file (8 * (p / 256 * groupBytes o + 32 * row) + p % 256) = true := by
  have column : p % 256 < 256 := Nat.mod_lt _ (by decide)
  rcases bitAt_applyStores_cases (by decide) order bitset p with
    ⟨s, member, covers, same⟩ | ⟨none_, same⟩
  · obtain ⟨⟨place, base⟩, visited, rfl⟩ := List.mem_map.mp (perm.mem_iff.mp member)
    obtain rfl := (covers_iff _ _ _).mp covers
    obtain ⟨range, rfl⟩ := (mem_visits_iff noWrap 0 _ _).mp visited
    have bitNumber : p - 8 * (32 * (p / 256)) = p % 256 := by omega
    rw [same]
    simp only [bitNumber, getLsbD_queryGroup fours _ _ column]
    constructor
    · exact fun found => ⟨by omega, found⟩
    · exact fun found => found.2
  · rw [same, clear]
    constructor
    · exact fun h => absurd h (by decide)
    · rintro ⟨inFile, -⟩
      have visited := (mem_visits_iff noWrap 0 (p / 256) _).mpr ⟨by omega, rfl⟩
      exact absurd ((covers_iff _ _ _).mpr rfl)
        (none_ _ (perm.mem_iff.mpr (List.mem_map.mpr ⟨_, visited, rfl⟩)))

theorem visits_append (ks ls : List Nat) (start : Nat) :
    visits o (ks ++ ls) start = visits o ks start ++ visits o ls (start + ks.sum) := by
  induction ks generalizing start with
  | nil => rfl
  | cons k ks ih =>
    simp only [List.cons_append, visits, ih, List.append_assoc, List.sum_cons, Nat.add_assoc]

/-- Calls store to the places of their own groups only. -/
theorem place_of_mem_visits {ks : List Nat} {start g base : Nat}
    (member : (g, base) ∈ visits o ks start) : start ≤ g ∧ g < start + ks.sum := by
  induction ks generalizing start with
  | nil => simp [visits] at member
  | cons k ks ih =>
    rw [List.sum_cons]
    unfold visits at member
    rcases List.mem_append.mp member with here | later
    · obtain ⟨i, below, same⟩ := List.mem_map.mp here
      have place : start + i % 2 ^ 27 = g := (Prod.mk.inj same).1
      have inCall := List.mem_range.mp below
      have := Nat.mod_le k (2 ^ 32)
      have := Nat.mod_le i (2 ^ 27)
      omega
    · have := ih later
      omega

end Kernel

end MBFGraph
