import MBFGraph.Core.BloomFile

/-!
# One group of a filter file

What the bits of a group written by `bloom_filter_calculation` are: bit `row * 256 + filter` is
set exactly if some edge of that filter hashes to `row`.
-/

namespace MBFGraph

open ByteBits

section Group

variable {E : Type} (F : FormatUtils E) (o : BloomOptions)

/-- The rows that the builder sets for an edge. -/
def edgeRows (edge : E) : List Nat := builderHash o.bitsPerBF (F.splitKey edge 0)

/-- The group size did not wrap, so that `bshuf_bitshuffle` returns what the caller expects. -/
def GroupFits : Prop := simdLen * (o.bitsPerBF / 8) = o.bfBufSize

instance : Decidable (GroupFits o) := inferInstanceAs (Decidable (_ = _))

theorem BloomOptions.bytes_mul_eight : 8 * (o.bitsPerBF / 8) = o.bitsPerBF := by
  have := o.bitsPerBF_bytes
  omega

theorem BloomOptions.bitsPerBF_pos : 0 < o.bitsPerBF := by
  have := o.bitsPerBF_min
  omega

/-- The group fits exactly if its size in bits is a 32-bit number. -/
theorem groupFits_iff : GroupFits o ↔ o.bitsPerBF < 2 ^ 24 := by
  unfold GroupFits BloomOptions.bfBufSize simdLen
  have bytes := o.bytes_mul_eight
  have := o.bitsPerBF_int
  omega

theorem groupFits_size {o : BloomOptions} (fits : GroupFits o) :
    8 * o.bfBufSize = simdLen * o.bitsPerBF := by
  have bytes := o.bytes_mul_eight
  rw [← fits]
  unfold simdLen
  omega

theorem edgeRows_lt (edge : E) : ∀ row ∈ edgeRows F o edge, row < o.bitsPerBF := by
  unfold edgeRows
  rw [builderHash_eq]
  exact hashRows_lt o.bitsPerBF_pos _

/-- The position that the word arithmetic of the source addresses. -/
private theorem wordBit (filter hash : Nat) :
    8 * (filter * o.bitsPerBF / 8) + (64 * (hash >>> 6) + (hash &&& 0x3F)) =
      filter * o.bitsPerBF + hash := by
  have bytes := o.bytes_mul_eight
  have filterBits : filter * o.bitsPerBF / 8 = filter * (o.bitsPerBF / 8) := by
    conv_lhs => rw [← bytes]
    rw [Nat.mul_left_comm, Nat.mul_div_cancel_left _ (by decide)]
  have low : hash &&& 0x3F = hash % 64 := Nat.and_two_pow_sub_one_eq_mod hash 6
  have high : hash >>> 6 = hash / 64 := Nat.shiftRight_eq_div_pow hash 6
  rw [filterBits, Nat.mul_left_comm, bytes, low, high]
  omega

@[simp] theorem length_fillFilter (filter : Nat) (bloomIn : List Byte) (edge : E) :
    (fillFilter F o filter bloomIn edge).length = bloomIn.length := by
  unfold fillFilter
  generalize builderHash o.bitsPerBF (F.splitKey edge 0) = rows
  induction rows generalizing bloomIn with
  | nil => rfl
  | cons row rows ih => rw [List.foldl_cons, ih, length_setBit]

private theorem bitAt_setBits (base : Nat) (rows : List Nat) (bytes : List Byte) (c : Nat)
    (inside : ∀ row ∈ rows, base + row < 8 * bytes.length) :
    bitAt (rows.foldl (fun bytes row => setBit bytes (base + row)) bytes) c = true ↔
      bitAt bytes c = true ∨ ∃ row ∈ rows, c = base + row := by
  induction rows generalizing bytes with
  | nil => simp
  | cons row rows ih =>
    have tailInside : ∀ row' ∈ rows, base + row' < 8 * (setBit bytes (base + row)).length := by
      intro row' member
      rw [length_setBit]
      exact inside row' (List.mem_cons_of_mem _ member)
    have headInside := inside row List.mem_cons_self
    rw [List.foldl_cons, ih _ tailInside, bitAt_setBit]
    simp only [Bool.or_eq_true, Bool.and_eq_true, decide_eq_true_eq, List.mem_cons,
      exists_eq_or_imp]
    constructor
    · rintro ((old | ⟨same, _⟩) | later)
      · exact Or.inl old
      · exact Or.inr (Or.inl same.symm)
      · exact Or.inr (Or.inr later)
    · rintro (old | same | later)
      · exact Or.inl (Or.inl old)
      · exact Or.inl (Or.inr ⟨same.symm, by omega⟩)
      · exact Or.inr later

/-- One edge sets its rows in its filter and nothing else. -/
theorem bitAt_fillFilter (filter : Nat) (bloomIn : List Byte) (edge : E) (c : Nat)
    (inside : (filter + 1) * o.bitsPerBF ≤ 8 * bloomIn.length) :
    bitAt (fillFilter F o filter bloomIn edge) c = true ↔
      bitAt bloomIn c = true ∨ ∃ row ∈ edgeRows F o edge, c = filter * o.bitsPerBF + row := by
  unfold fillFilter
  simp only [wordBit]
  apply bitAt_setBits
  intro row member
  have bound := edgeRows_lt F o edge row member
  rw [Nat.succ_mul] at inside
  omega

private theorem bitAt_foldl_fillFilter (filter : Nat) (edges : List E) (bloomIn : List Byte)
    (c : Nat) (inside : (filter + 1) * o.bitsPerBF ≤ 8 * bloomIn.length) :
    bitAt (edges.foldl (fillFilter F o filter) bloomIn) c = true ↔
      bitAt bloomIn c = true ∨
        ∃ edge ∈ edges, ∃ row ∈ edgeRows F o edge, c = filter * o.bitsPerBF + row := by
  induction edges generalizing bloomIn with
  | nil => simp
  | cons edge edges ih =>
    have kept : (filter + 1) * o.bitsPerBF ≤
        8 * (fillFilter F o filter bloomIn edge).length := by
      rw [length_fillFilter]; exact inside
    rw [List.foldl_cons, ih _ kept, bitAt_fillFilter F o _ _ _ _ inside]
    simp only [List.mem_cons, exists_eq_or_imp]
    exact or_assoc

private theorem length_foldl_fillFilter (filter : Nat) (edges : List E) (bloomIn : List Byte) :
    (edges.foldl (fillFilter F o filter) bloomIn).length = bloomIn.length := by
  induction edges generalizing bloomIn with
  | nil => rfl
  | cons edge edges ih => rw [List.foldl_cons, ih, length_fillFilter]

@[simp] theorem length_fillFilters (edgeBuf : List E) (fuel j filter : Nat)
    (bloomIn : List Byte) :
    (fillFilters F o edgeBuf fuel j filter bloomIn).length = bloomIn.length := by
  induction fuel generalizing j filter bloomIn with
  | zero => rfl
  | succ fuel ih =>
    unfold fillFilters
    split
    · rw [ih, length_foldl_fillFilter]
    · rfl

/-- The members of one page of the buffer. -/
private theorem mem_page {edgeBuf : List E} {page size : Nat} (positive : 0 < size) (edge : E) :
    edge ∈ (edgeBuf.drop (page * size)).take size ↔
      ∃ k, edgeBuf[k]? = some edge ∧ k / size = page := by
  rw [List.mem_iff_getElem?]
  constructor
  · rintro ⟨i, found⟩
    rw [List.getElem?_take] at found
    split at found
    · rename_i below
      rw [List.getElem?_drop] at found
      refine ⟨page * size + i, found, ?_⟩
      rw [Nat.mul_comm, Nat.mul_add_div positive, Nat.div_eq_of_lt below, Nat.add_zero]
    · simp at found
  · rintro ⟨k, found, onPage⟩
    have split := Nat.div_add_mod k size
    rw [onPage, Nat.mul_comm] at split
    refine ⟨k % size, ?_⟩
    rw [List.getElem?_take, if_pos (Nat.mod_lt k positive), List.getElem?_drop, split, found]

/-- The bits of `bloom_in` after the loop over `j`, from filter `filter` on. -/
private theorem bitAt_fillFilters {edgeBuf : List E} (fuel filter : Nat) (bloomIn : List Byte)
    (c : Nat) (enough : edgeBuf.length ≤ filter * o.bfsPerPage + fuel)
    (inside : ∀ k < edgeBuf.length, (k / o.bfsPerPage + 1) * o.bitsPerBF ≤ 8 * bloomIn.length) :
    bitAt (fillFilters F o edgeBuf fuel (filter * o.bfsPerPage) filter bloomIn) c = true ↔
      bitAt bloomIn c = true ∨
        ∃ k edge, edgeBuf[k]? = some edge ∧ filter ≤ k / o.bfsPerPage ∧
          ∃ row ∈ edgeRows F o edge, c = k / o.bfsPerPage * o.bitsPerBF + row := by
  have positive := o.bfsPerPage_pos
  induction fuel generalizing filter bloomIn with
  | zero =>
    have nothing : ¬ ∃ k edge, edgeBuf[k]? = some edge ∧ filter ≤ k / o.bfsPerPage ∧
        ∃ row ∈ edgeRows F o edge, c = k / o.bfsPerPage * o.bitsPerBF + row := by
      rintro ⟨k, edge, found, behind, -⟩
      have below := (List.getElem?_eq_some_iff.mp found).1
      have := (Nat.le_div_iff_mul_le positive).mp behind
      omega
    simp [fillFilters, nothing]
  | succ fuel ih =>
    unfold fillFilters
    by_cases more : filter * o.bfsPerPage < edgeBuf.length
    · have current := inside _ more
      rw [Nat.mul_div_cancel _ positive] at current
      have next : filter * o.bfsPerPage + o.bfsPerPage = (filter + 1) * o.bfsPerPage :=
        (Nat.succ_mul _ _).symm
      rw [if_pos more, next]
      refine (ih (filter + 1) _ (by rw [Nat.succ_mul]; omega)
        (by rw [length_foldl_fillFilter]; exact inside)).trans ?_
      rw [bitAt_foldl_fillFilter F o _ _ _ _ current]
      -- the page of filter `filter`, and the pages behind it
      constructor
      · rintro ((old | ⟨edge, member, row, rowMember, same⟩) | ⟨k, edge, found, behind, rest⟩)
        · exact Or.inl old
        · obtain ⟨k, found, onPage⟩ := (mem_page positive edge).mp member
          exact Or.inr ⟨k, edge, found, by omega, row, rowMember, by rw [onPage]; exact same⟩
        · exact Or.inr ⟨k, edge, found, by omega, rest⟩
      · rintro (old | ⟨k, edge, found, behind, row, rowMember, same⟩)
        · exact Or.inl (Or.inl old)
        · by_cases onPage : k / o.bfsPerPage = filter
          · exact Or.inl (Or.inr ⟨edge, (mem_page positive edge).mpr ⟨k, found, onPage⟩, row,
              rowMember, by rw [← onPage]; exact same⟩)
          · exact Or.inr ⟨k, edge, found, by omega, row, rowMember, same⟩
    · rw [if_neg more]
      have nothing : ¬ ∃ k edge, edgeBuf[k]? = some edge ∧ filter ≤ k / o.bfsPerPage ∧
          ∃ row ∈ edgeRows F o edge, c = k / o.bfsPerPage * o.bitsPerBF + row := by
        rintro ⟨k, edge, found, behind, -⟩
        have below := (List.getElem?_eq_some_iff.mp found).1
        have := (Nat.le_div_iff_mul_le positive).mp behind
        omega
      simp [nothing]

@[simp] theorem length_bloomOut (edgeBuf : List E) :
    (bloomOut F o edgeBuf).1.length = simdLen * (o.bitsPerBF / 8) := by
  simp [bloomOut, bshufBitshuffle]

@[simp] theorem bloomOut_snd (edgeBuf : List E) :
    (bloomOut F o edgeBuf).2 = simdLen * (o.bitsPerBF / 8) := rfl

/-- The group as the query kernel reads it: row `row`, column `filter`. -/
theorem bitAt_bloomOut {edgeBuf : List E} (fits : GroupFits o)
    (atMost : edgeBuf.length ≤ simdLen * o.bfsPerPage) {row filter : Nat}
    (rowInside : row < o.bitsPerBF) (filterInside : filter < simdLen) :
    bitAt (bloomOut F o edgeBuf).1 (row * simdLen + filter) = true ↔
      ∃ k edge, edgeBuf[k]? = some edge ∧ k / o.bfsPerPage = filter ∧
        row ∈ edgeRows F o edge := by
  have positive := o.bfsPerPage_pos
  have size := groupFits_size fits
  have bytes := o.bytes_mul_eight
  have quotient : (row * simdLen + filter) / simdLen = row := by
    rw [Nat.mul_comm, Nat.mul_add_div (by decide), Nat.div_eq_of_lt filterInside, Nat.add_zero]
  have remainder : (row * simdLen + filter) % simdLen = filter := by
    rw [Nat.mul_comm, Nat.mul_add_mod, Nat.mod_eq_of_lt filterInside]
  have inRange : row * simdLen + filter < 8 * (simdLen * (o.bitsPerBF / 8)) := by
    rw [Nat.mul_left_comm, bytes]
    unfold simdLen at filterInside ⊢
    omega
  have inside : ∀ k < edgeBuf.length, (k / o.bfsPerPage + 1) * o.bitsPerBF ≤
      8 * (List.replicate o.bfBufSize (0 : Byte)).length := by
    intro k below
    rw [List.length_replicate, size]
    apply Nat.mul_le_mul_right
    exact (Nat.div_lt_iff_lt_mul positive).mpr (by omega)
  unfold bloomOut bshufBitshuffle
  rw [bitAt_ofBits, quotient, remainder, bytes]
  simp only [inRange, decide_true, Bool.true_and]
  have loop := bitAt_fillFilters F o edgeBuf.length 0 (List.replicate o.bfBufSize 0)
    (filter * o.bitsPerBF + row) (by omega) inside
  rw [Nat.zero_mul] at loop
  rw [loop, bitAt_replicate_zero]
  simp only [Bool.false_eq_true, false_or, Nat.zero_le, true_and]
  -- the bit number determines the filter and the row
  constructor
  · rintro ⟨k, edge, found, row', member, same⟩
    have bound := edgeRows_lt F o edge row' member
    have quotients : k / o.bfsPerPage = filter := by
      have left : (filter * o.bitsPerBF + row) / o.bitsPerBF = filter := by
        rw [Nat.mul_comm, Nat.mul_add_div o.bitsPerBF_pos, Nat.div_eq_of_lt rowInside,
          Nat.add_zero]
      have right : (k / o.bfsPerPage * o.bitsPerBF + row') / o.bitsPerBF = k / o.bfsPerPage := by
        rw [Nat.mul_comm, Nat.mul_add_div o.bitsPerBF_pos, Nat.div_eq_of_lt bound, Nat.add_zero]
      rw [← left, same, right]
    refine ⟨k, edge, found, quotients, ?_⟩
    rw [quotients] at same
    have : row = row' := by omega
    rwa [this]
  · rintro ⟨k, edge, found, onPage, member⟩
    exact ⟨k, edge, found, row, member, by rw [onPage]⟩

end Group

end MBFGraph
