import MBFGraph.Core.Proofs.BitshuffleBits

/-!
# Un-shuffling

The rows of bits are transposed byte by byte, and then the bits of eight elements at a time. All builds do the
same as `bshufBitunshuffle`.
-/

namespace MBFGraph

open ByteBits Fills Lanes Overwrite

namespace Bshuf

variable {input out : List Byte} {size elemSize nb : Nat}

/-! ## Bytes of rows -/

theorem transByteBitrowScal_spec (wholeOut : out.length = 8 * elemSize * nb) :
    transByteBitrowScal input out (8 * nb) elemSize =
      (((8 * nb : Nat) : Int) * elemSize, filled (8 * elemSize * nb) (transposed input (8 * elemSize) nb 1)) := by
  unfold transByteBitrowScal
  have regroup (ii jj kk : Nat) : ii * 8 * elemSize + jj * 8 + kk = ii * (8 * elemSize) + (jj * 8 + kk) := by ring
  simp only [regroup]
  rw [if_neg (by omega), Nat.mul_div_cancel_left nb (by decide)]
  refine Prod.ext rfl (Fill.eq_filled ?_ wholeOut ?_)
  · intro w member
    obtain ⟨jj, isByte, inner⟩ := List.mem_flatMap.mp member
    obtain ⟨ii, isColumn, innermost⟩ := List.mem_flatMap.mp inner
    obtain ⟨kk, isBit, rfl⟩ := List.mem_map.mp innermost
    have byte := List.mem_range.mp isByte
    have bit := List.mem_range.mp isBit
    exact fill_byte (by omega) (List.mem_range.mp isColumn)
  · intro p below
    rw [Nat.mul_comm (8 * elemSize)] at below
    obtain ⟨ii, column, row, inside, rfl⟩ := exists_pair below
    left
    refine ⟨_, List.mem_flatMap.mpr ⟨row / 8, List.mem_range.mpr (by omega), List.mem_flatMap.mpr
      ⟨ii, List.mem_range.mpr column, List.mem_map.mpr ⟨row % 8, List.mem_range.mpr (by omega), rfl⟩⟩⟩, ?_⟩
    unfold Covers
    rw [Nat.div_add_mod' row 8]
    exact ⟨Nat.le_refl _, Nat.lt_succ_self _⟩

theorem moves_transBitrow : Moves 8 16 (fun q t => (t % 8, 2 * q + t / 8)) transBitrow where
  natural g r := by
    unfold transBitrow
    simp only [unpackLo_comp, unpackHi_comp, List.map_cons, List.map_nil]
  count := rfl
  numbers := by decide +kernel

theorem transByteBitrowSSE_spec (wholeOut : out.length = 8 * elemSize * nb) :
    transByteBitrowSSE input out (8 * nb) elemSize =
      (((8 * nb : Nat) : Int) * elemSize, filled (8 * elemSize * nb) (transposed input (8 * elemSize) nb 1)) := by
  unfold transByteBitrowSSE
  rw [if_neg (by omega)]
  simp only
  rw [Nat.mul_div_cancel_left nb (by decide)]
  have half {ii q t : Nat} (row : ii + 8 ≤ 8 * elemSize) (below : t < 8) (jj : Nat) :
      transposed input (8 * elemSize) nb 1 ((jj + q) * (8 * elemSize) + ii + t) =
        loadu input ((ii + t) * nb + jj) q := by
    rw [Nat.add_assoc, transposed_byte input nb _ (by omega)]
    unfold loadu
    rw [Nat.add_assoc]
  refine Prod.ext rfl (Fill.eq_filled ?_ wholeOut ?_)
  · intro w member
    obtain ⟨ii, isRow, inner⟩ := List.mem_flatMap.mp member
    obtain ⟨_, _, rowRoom⟩ := of_mem_steps isRow
    rcases List.mem_append.mp inner with isVector | isByte
    · obtain ⟨jj, isColumn, innermost⟩ := List.mem_flatMap.mp isVector
      obtain ⟨register, isRegister, isStore⟩ := List.mem_flatMap.mp innermost
      obtain ⟨_, _, columnRoom⟩ := of_mem_steps isColumn
      obtain ⟨few, value⟩ := moves_transBitrow.mem_zipIdx _ isRegister
      have inside {q : Nat} (below : q < 16) : (jj + q) * (8 * elemSize) + ii + 8 ≤ 8 * elemSize * nb := by
        have last := pair_lt (show jj + q < nb by omega) (show ii + 7 < 8 * elemSize by omega)
        rw [Nat.mul_comm nb] at last
        omega
      have stored (register' : Nat → Byte) : (storeu 8 register').length = 8 := length_filled 8 _
      rcases List.mem_cons.mp isStore with rfl | isHigh
      · simp only [stored]
        refine ⟨inside (by omega), fun t below => ?_⟩
        rw [getElem?_storeu _ below, value t (by omega), half rowRoom below, Nat.mod_eq_of_lt below,
          Nat.div_eq_of_lt below]
        rfl
      · obtain rfl := List.mem_singleton.mp isHigh
        simp only [stored]
        refine ⟨inside (by omega), fun t below => ?_⟩
        rw [getElem?_storeu _ below, value (8 + t) (by omega), half rowRoom below, Nat.add_mod_left,
          Nat.mod_eq_of_lt below, Nat.add_div_left t (by decide), Nat.div_eq_of_lt below]
    · obtain ⟨jj, isColumn, innermost⟩ := List.mem_flatMap.mp isByte
      obtain ⟨q, isBit, rfl⟩ := List.mem_map.mp innermost
      have bit := List.mem_range.mp isBit
      have position : jj * (8 * elemSize) + ii + q = jj * (8 * elemSize) + (ii + q) := Nat.add_assoc _ _ _
      simp only [position]
      exact fill_byte (by omega) (lt_of_mem_steps isColumn)
  · intro p below
    rw [Nat.mul_comm (8 * elemSize)] at below
    obtain ⟨column, isColumn, row, isRow, rfl⟩ := exists_pair below
    left
    obtain ⟨ii, rowStep, rowLe, rowLess⟩ := exists_mem_steps (show 0 < 8 by decide) (Nat.zero_le row)
      (show row < 8 * elemSize - (8 * elemSize - 0) % 8 by omega)
    by_cases early : column < nb - (nb - 0) % 16
    · obtain ⟨jj, columnStep, columnLe, columnLess⟩ :=
        exists_mem_steps (show 0 < 16 by decide) (Nat.zero_le column) early
      obtain ⟨stored, isRegister⟩ := moves_transBitrow.exists_zipIdx
        (fun q => loadu input ((ii + q) * nb + jj)) (show (column - jj) / 2 < 8 by omega)
      have length (register : Nat → Byte) : (storeu 8 register).length = 8 := length_filled 8 _
      rcases Nat.mod_two_eq_zero_or_one (column - jj) with even | odd
      · refine ⟨_, List.mem_flatMap.mpr ⟨ii, rowStep, List.mem_append_left _ (List.mem_flatMap.mpr
          ⟨jj, columnStep, List.mem_flatMap.mpr ⟨_, isRegister, List.mem_cons_self⟩⟩)⟩, ?_⟩
        have here : jj + 2 * ((column - jj) / 2) = column := by omega
        unfold Covers
        simp only [here, length]
        omega
      · refine ⟨_, List.mem_flatMap.mpr ⟨ii, rowStep, List.mem_append_left _ (List.mem_flatMap.mpr
          ⟨jj, columnStep, List.mem_flatMap.mpr ⟨_, isRegister,
            List.mem_cons_of_mem _ (List.mem_singleton_self _)⟩⟩)⟩, ?_⟩
        have here : jj + (2 * ((column - jj) / 2) + 1) = column := by omega
        unfold Covers
        simp only [here, length]
        omega
    · have last : column < nb - (nb - (nb - nb % 16)) % 1 := by
        rw [Nat.mod_one]
        exact isColumn
      obtain ⟨jj, columnStep, columnLe, columnLess⟩ := exists_mem_steps Nat.one_pos (by omega) last
      refine ⟨_, List.mem_flatMap.mpr ⟨ii, rowStep, List.mem_append_right _ (List.mem_flatMap.mpr
        ⟨jj, columnStep, List.mem_map.mpr ⟨row - ii, List.mem_range.mpr (by omega), rfl⟩⟩)⟩, ?_⟩
      obtain rfl : jj = column := by omega
      unfold Covers
      simp only [List.length_singleton]
      omega

theorem inHalves_comp {α β : Type} (g : α → β) {op : {α : Type} → (Nat → α) → (Nat → α) → Nat → α}
    (natural : ∀ {α β : Type} (g : α → β) (a b : Nat → α), op (g ∘ a) (g ∘ b) = g ∘ op a b) (a b : Nat → α) :
    inHalves op (g ∘ a) (g ∘ b) = g ∘ inHalves op a b := by
  funext t
  exact congrFun (natural g (fun i => a (t / 16 * 16 + i)) fun i => b (t / 16 * 16 + i)) (t % 16)

theorem lowHalves_comp {α β : Type} (g : α → β) (a b : Nat → α) :
    lowHalves (g ∘ a) (g ∘ b) = g ∘ lowHalves a b := by
  funext t
  unfold lowHalves
  exact (apply_ite g _ _ _).symm

theorem highHalves_comp {α β : Type} (g : α → β) (a b : Nat → α) :
    highHalves (g ∘ a) (g ∘ b) = g ∘ highHalves a b := by
  funext t
  unfold highHalves
  exact (apply_ite g _ _ _).symm

theorem avxStorage_comp {α β : Type} (g : α → β) (ymm0 : Nat → Nat → α) (kk : Nat) :
    avxStorage (fun kk => g ∘ ymm0 kk) kk = g ∘ avxStorage ymm0 kk := by
  unfold avxStorage
  simp only [inHalves_comp g (unpackLo_comp · 1), inHalves_comp g (unpackHi_comp · 1),
    inHalves_comp g (unpackLo_comp · 2), inHalves_comp g (unpackHi_comp · 2),
    inHalves_comp g (unpackLo_comp · 4), inHalves_comp g (unpackHi_comp · 4), ← apply_ite (g ∘ ·)]

theorem moves_transBitrowAVX {mm : Nat} (below : mm < 8) :
    Moves 4 32 (fun s t => (t, mm * 2 + s / 2 * 16 + s % 2)) (transBitrowAVX mm) where
  natural g r := by
    unfold transBitrowAVX
    simp only [avxStorage_comp, inHalves_comp g (unpackLo_comp · 8), inHalves_comp g (unpackHi_comp · 8),
      lowHalves_comp, highHalves_comp, List.map_cons, List.map_nil]
  count := rfl
  numbers := by
    interval_cases mm
    all_goals decide +kernel

theorem transByteBitrowAVX_spec (wholeOut : out.length = 8 * elemSize * nb) :
    transByteBitrowAVX input out (8 * nb) elemSize =
      (((8 * nb : Nat) : Int) * elemSize, filled (8 * elemSize * nb) (transposed input (8 * elemSize) nb 1)) := by
  unfold transByteBitrowAVX
  rw [if_neg (by omega)]
  split
  · exact transByteBitrowSSE_spec wholeOut
  rename_i units
  simp only
  rw [Nat.mul_div_cancel_left nb (by decide)]
  have fours : elemSize % 4 = 0 := by omega
  have length (register : Nat → Byte) : (storeu 32 register).length = 32 := length_filled 32 _
  have first : Fill ((steps 0 nb 32).flatMap fun jj => (steps 0 elemSize 4).flatMap fun ii =>
      (List.range 8).flatMap fun mm =>
        ((transBitrowAVX mm fun q => loadu input ((ii * 8 + q) * nb + jj)).zipIdx).map fun register =>
          ((jj + mm * 2 + register.2 / 2 * 16 + register.2 % 2) * (8 * elemSize) + ii * 8, storeu 32 register.1))
      (8 * elemSize * nb) (transposed input (8 * elemSize) nb 1) := by
    intro w member
    obtain ⟨jj, isColumn, inner⟩ := List.mem_flatMap.mp member
    obtain ⟨ii, isRow, innermost⟩ := List.mem_flatMap.mp inner
    obtain ⟨mm, isRound, stores⟩ := List.mem_flatMap.mp innermost
    obtain ⟨register, isRegister, rfl⟩ := List.mem_map.mp stores
    obtain ⟨_, _, columnRoom⟩ := of_mem_steps isColumn
    obtain ⟨_, _, rowRoom⟩ := of_mem_steps isRow
    have round := List.mem_range.mp isRound
    obtain ⟨few, value⟩ := (moves_transBitrowAVX round).mem_zipIdx _ isRegister
    simp only [length]
    constructor
    · have last := pair_lt (show jj + mm * 2 + register.2 / 2 * 16 + register.2 % 2 < nb by omega)
        (show ii * 8 + 31 < 8 * elemSize by omega)
      rw [Nat.mul_comm nb] at last
      omega
    · intro t below
      rw [getElem?_storeu _ below, value t below, Nat.add_assoc _ (ii * 8) t, transposed_byte input nb _ (by omega)]
      have position : (ii * 8 + t) * nb + jj + (mm * 2 + register.2 / 2 * 16 + register.2 % 2) =
          (ii * 8 + t) * nb + (jj + mm * 2 + register.2 / 2 * 16 + register.2 % 2) := by omega
      unfold loadu
      rw [position]
  have second : Fill ((List.range (8 * elemSize)).flatMap fun ii =>
      (steps (nb - nb % 32) nb 1).map fun jj => (jj * (8 * elemSize) + ii, [input.getD (ii * nb + jj) 0]))
      (8 * elemSize * nb) (transposed input (8 * elemSize) nb 1) := by
    intro w member
    obtain ⟨ii, isRow, inner⟩ := List.mem_flatMap.mp member
    obtain ⟨jj, isColumn, rfl⟩ := List.mem_map.mp inner
    exact fill_byte (List.mem_range.mp isRow) (lt_of_mem_steps isColumn)
  refine Prod.ext rfl (second.eq_filled (first.length_eq wholeOut) fun p below => ?_)
  rw [Nat.mul_comm (8 * elemSize)] at below
  obtain ⟨column, isColumn, row, isRow, rfl⟩ := exists_pair below
  by_cases early : column < nb - (nb - 0) % 32
  · right
    obtain ⟨jj, columnStep, columnLe, columnLess⟩ :=
      exists_mem_steps (show 0 < 32 by decide) (Nat.zero_le column) early
    obtain ⟨ii, rowStep, rowLe, rowLess⟩ := exists_mem_steps (show 0 < 4 by decide) (Nat.zero_le (row / 8))
      (show row / 8 < elemSize - (elemSize - 0) % 4 by omega)
    have round : (column - jj) % 16 / 2 < 8 := by omega
    obtain ⟨stored, isRegister⟩ := (moves_transBitrowAVX round).exists_zipIdx
      (fun q => loadu input ((ii * 8 + q) * nb + jj)) (show (column - jj) / 16 * 2 + (column - jj) % 2 < 4 by omega)
    refine first.getElem? (Or.inl ⟨_, List.mem_flatMap.mpr ⟨jj, columnStep, List.mem_flatMap.mpr
      ⟨ii, rowStep, List.mem_flatMap.mpr ⟨_, List.mem_range.mpr round, List.mem_map.mpr
        ⟨_, isRegister, rfl⟩⟩⟩⟩, ?_⟩)
    have here : jj + (column - jj) % 16 / 2 * 2 + ((column - jj) / 16 * 2 + (column - jj) % 2) / 2 * 16 +
        ((column - jj) / 16 * 2 + (column - jj) % 2) % 2 = column := by omega
    unfold Covers
    simp only [here, length]
    omega
  · left
    have last : column < nb - (nb - (nb - nb % 32)) % 1 := by
      rw [Nat.mod_one]
      exact isColumn
    obtain ⟨jj, columnStep, columnLe, columnLess⟩ := exists_mem_steps Nat.one_pos (by omega) last
    obtain rfl : jj = column := by omega
    exact ⟨_, List.mem_flatMap.mpr ⟨row, List.mem_range.mpr isRow, List.mem_map.mpr ⟨jj, columnStep, rfl⟩⟩,
      Nat.le_refl _, Nat.lt_succ_self _⟩

/-! ## Bits of eight elements -/

/-- Byte `j` of element `8 * g + k` gets the bits `k` of eight neighbouring bytes. -/
def eightelem (input : List Byte) (elemSize b : Nat) : Bool :=
  bitAt input (8 * (b / 8 / elemSize / 8 * (8 * elemSize) + 8 * (b / 8 % elemSize) + b % 8) + b / 8 / elemSize % 8)

/-- The byte that belongs there. -/
theorem byteOf_eightelem {g k j : Nat} (bit : k < 8) (inside : j < elemSize) {byte : Byte}
    (bits : ∀ t < 8, byte.getLsbD t = bitAt input (8 * (g * (8 * elemSize) + 8 * j + t) + k)) :
    byte = byteOf (eightelem input elemSize) ((8 * g + k) * elemSize + j) := by
  refine eq_byteOf fun t below => ?_
  unfold eightelem
  have eighth : (8 * ((8 * g + k) * elemSize + j) + t) / 8 = (8 * g + k) * elemSize + j := by omega
  have rest_ : (8 * ((8 * g + k) * elemSize + j) + t) % 8 = t := by omega
  have group_ : (8 * g + k) / 8 = g := by omega
  have bit' : (8 * g + k) % 8 = k := by omega
  rw [bits t below, eighth, rest_, pair_div inside, pair_mod inside, group_, bit']

/-- The groups of eight elements. -/
theorem of_mem_steps_groups {ii : Nat} (member : ii ∈ steps 0 (elemSize * (8 * nb)) (8 * elemSize)) :
    ∃ g < nb, ii = g * (8 * elemSize) := by
  obtain ⟨g, few, rfl⟩ := List.mem_range'.mp member
  refine ⟨g, Nat.lt_of_lt_of_le few (Nat.div_le_of_le_mul ?_), by rw [Nat.zero_add, Nat.mul_comm]⟩
  rw [Nat.sub_zero]
  exact Nat.le_of_eq (by ring)

theorem mem_steps_groups {g : Nat} (below : g < nb) (positive : 0 < elemSize) :
    g * (8 * elemSize) ∈ steps 0 (elemSize * (8 * nb)) (8 * elemSize) := by
  have count : (elemSize * (8 * nb) - 0) / (8 * elemSize) = nb := by
    rw [Nat.sub_zero, show elemSize * (8 * nb) = 8 * elemSize * nb by ring,
      Nat.mul_div_cancel_left nb (by omega)]
  exact List.mem_range'.mpr ⟨g, by rw [count]; exact below, by rw [Nat.zero_add, Nat.mul_comm]⟩

/-- A position is a byte of an element of a group. -/
theorem exists_eightelem {p : Nat} (below : p < elemSize * (8 * nb)) :
    ∃ g < nb, ∃ k < 8, ∃ j < elemSize, p = (8 * g + k) * elemSize + j := by
  rw [Nat.mul_comm elemSize] at below
  obtain ⟨e, isElement, j, inside, rfl⟩ := exists_pair below
  exact ⟨e / 8, by omega, e % 8, by omega, j, inside, by rw [Nat.div_add_mod]⟩

/-- The stores for eight bytes of a group, or more, in the order of the scalar loop. -/
theorem address_eightelem (g j k : Nat) :
    g * (8 * elemSize) + 8 * j / 8 + k * elemSize = (8 * g + k) * elemSize + j := by
  rw [Nat.mul_div_cancel_left j (by decide)]
  ring

theorem shuffleBitEightelemScal_spec (wholeOut : out.length = elemSize * (8 * nb)) :
    shuffleBitEightelemScal input out (8 * nb) elemSize =
      (((8 * nb : Nat) : Int) * elemSize, ofBits (elemSize * (8 * nb)) (eightelem input elemSize)) := by
  unfold shuffleBitEightelemScal
  rw [if_neg (by omega), ofBits_eq_filled]
  refine Prod.ext rfl (Fill.eq_filled ?_ wholeOut ?_)
  · intro w member
    obtain ⟨jj, isByte, inner⟩ := List.mem_flatMap.mp member
    obtain ⟨ii, isGroup, innermost⟩ := List.mem_flatMap.mp inner
    obtain ⟨k, isBit, rfl⟩ := List.mem_map.mp innermost
    obtain ⟨g, group_, rfl⟩ := of_mem_steps_groups isGroup
    obtain ⟨j, first, room⟩ := of_mem_steps isByte
    rw [Nat.zero_add] at first
    subst first
    have bit := List.mem_range.mp isBit
    simp only [address_eightelem]
    constructor
    · have last := pair_lt (show 8 * g + k < 8 * nb by omega) (show j < elemSize by omega)
      rw [Nat.mul_comm elemSize]
      exact last
    · intro t below
      obtain rfl := Nat.lt_one_iff.mp below
      exact congrArg some (byteOf_eightelem bit (by omega) fun t small => getLsbD_transposed_word input _ bit small)
  · intro p below
    obtain ⟨g, group_, k, bit, j, inside, rfl⟩ := exists_eightelem below
    have step : 8 * j ∈ steps 0 (8 * elemSize) 8 := by
      refine List.mem_range'.mpr ⟨j, ?_, (Nat.zero_add _).symm⟩
      rw [Nat.sub_zero, Nat.mul_div_cancel_left elemSize (by decide)]
      exact inside
    refine Or.inl ⟨_, List.mem_flatMap.mpr ⟨8 * j, step, List.mem_flatMap.mpr
      ⟨_, mem_steps_groups group_ (by omega), List.mem_map.mpr ⟨k, List.mem_range.mpr bit, rfl⟩⟩⟩, ?_⟩
    unfold Covers
    rw [address_eightelem]
    exact ⟨Nat.le_refl _, Nat.lt_succ_self _⟩

/-- A store of `m` bytes of bits `7 - kk`. -/
theorem fill_eightelem {m g kk j : Nat} (group_ : g < nb) (bit : kk < 8) (inside : j + m ≤ elemSize) :
    (8 * g + (7 - kk)) * elemSize + j + m ≤ elemSize * (8 * nb) ∧ ∀ s < m,
      (bytesOf m (movemask (8 * m) (shiftUnits^[kk] (loadu input (g * (8 * elemSize) + 8 * j)))))[s]? =
        some (byteOf (eightelem input elemSize) ((8 * g + (7 - kk)) * elemSize + j + s)) := by
  constructor
  · rcases Nat.eq_zero_or_pos m with rfl | positive
    · have le := Nat.mul_le_mul_right elemSize (show 8 * g + (7 - kk) + 1 ≤ 8 * nb by omega)
      rw [Nat.succ_mul, Nat.mul_comm (8 * nb)] at le
      omega
    · have last := pair_lt (show 8 * g + (7 - kk) < 8 * nb by omega) (show j + m - 1 < elemSize by omega)
      rw [Nat.mul_comm (8 * nb)] at last
      omega
  · intro s below
    rw [getElem?_bytesOf _ below, Nat.add_assoc]
    refine congrArg some (byteOf_eightelem (by omega) (by omega) fun t small => ?_)
    rw [getLsbD_byteOf _ _ small, getLsbD_mask input _ bit (by omega)]
    congr 1
    ring

/-- The bytes of a group, `m` bytes of bits at a time. -/
theorem of_mem_steps_bytes {m jj : Nat} (member : jj ∈ steps 0 (8 * elemSize) (8 * m)) :
    ∃ i, jj = 8 * i ∧ m ∣ i ∧ i + m ≤ elemSize := by
  obtain ⟨step, first, room⟩ := of_mem_steps member
  rw [Nat.zero_add, Nat.mul_assoc] at first
  exact ⟨m * step, first, Nat.dvd_mul_right m step, by omega⟩

theorem exists_mem_steps_bytes {m j : Nat} (units : m ∣ elemSize) (inside : j < elemSize) :
    ∃ i, 8 * i ∈ steps 0 (8 * elemSize) (8 * m) ∧ i ≤ j ∧ j < i + m := by
  have positive : 0 < m := Nat.pos_of_dvd_of_pos units (by omega)
  have whole : (8 * elemSize - 0) % (8 * m) = 0 := Nat.mod_eq_zero_of_dvd (Nat.mul_dvd_mul_left 8 units)
  obtain ⟨jj, isStep, le, less⟩ := exists_mem_steps (show 0 < 8 * m by omega) (Nat.zero_le (8 * j))
    (show 8 * j < 8 * elemSize - (8 * elemSize - 0) % (8 * m) by omega)
  obtain ⟨i, rfl, _, _⟩ := of_mem_steps_bytes isStep
  exact ⟨i, isStep, by omega, by omega⟩

theorem shuffleBitEightelemSSE_spec (wholeOut : out.length = elemSize * (8 * nb)) :
    shuffleBitEightelemSSE input out (8 * nb) elemSize =
      (((8 * nb : Nat) : Int) * elemSize, ofBits (elemSize * (8 * nb)) (eightelem input elemSize)) := by
  unfold shuffleBitEightelemSSE
  rw [if_neg (by omega)]
  split
  · rw [shuffleBitEightelemScal_spec wholeOut]
  rename_i units
  have even : 2 ∣ elemSize := by omega
  -- the address is even
  have address {g i k : Nat} (isEven : 2 ∣ i) :
      2 * ((g * (8 * elemSize) + 8 * i / 8 + k * elemSize) / 2) = (8 * g + k) * elemSize + i := by
    rw [address_eightelem]
    exact Nat.mul_div_cancel' (Nat.dvd_add (Nat.dvd_mul_left_of_dvd even _) isEven)
  simp only
  rw [ofBits_eq_filled]
  refine Prod.ext rfl (Fill.eq_filled ?_ wholeOut ?_)
  · intro w member
    obtain ⟨ii, isGroup, inner⟩ := List.mem_flatMap.mp member
    obtain ⟨jj, isByte, innermost⟩ := List.mem_flatMap.mp inner
    obtain ⟨kk, isBit, rfl⟩ := List.mem_map.mp innermost
    obtain ⟨g, group_, rfl⟩ := of_mem_steps_groups isGroup
    obtain ⟨i, rfl, isEven, room⟩ := of_mem_steps_bytes (m := 2) isByte
    simp only [address isEven, length_bytesOf]
    exact fill_eightelem group_ (List.mem_range.mp isBit) room
  · intro p below
    obtain ⟨g, group_, k, bit, j, inside, rfl⟩ := exists_eightelem below
    obtain ⟨i, isStep, le, less⟩ := exists_mem_steps_bytes even inside
    obtain ⟨_, same, isEven, _⟩ := of_mem_steps_bytes isStep
    obtain rfl := Nat.eq_of_mul_eq_mul_left (by decide) same
    refine Or.inl ⟨_, List.mem_flatMap.mpr ⟨_, mem_steps_groups group_ (by omega), List.mem_flatMap.mpr
      ⟨_, isStep, List.mem_map.mpr ⟨7 - k, List.mem_range.mpr (by omega), rfl⟩⟩⟩, ?_⟩
    unfold Covers
    simp only [address isEven, length_bytesOf, show 7 - (7 - k) = k by omega]
    omega

theorem shuffleBitEightelemAVX_spec (wholeOut : out.length = elemSize * (8 * nb)) :
    shuffleBitEightelemAVX input out (8 * nb) elemSize =
      (((8 * nb : Nat) : Int) * elemSize, ofBits (elemSize * (8 * nb)) (eightelem input elemSize)) := by
  unfold shuffleBitEightelemAVX
  rw [if_neg (by omega)]
  split
  · exact shuffleBitEightelemSSE_spec wholeOut
  rename_i units
  have fours : 4 ∣ elemSize := by omega
  simp only
  rw [ofBits_eq_filled]
  refine Prod.ext rfl (Fill.eq_filled ?_ wholeOut ?_)
  · intro w member
    obtain ⟨jj, isByte, inner⟩ := List.mem_flatMap.mp member
    obtain ⟨ii, isGroup, innermost⟩ := List.mem_flatMap.mp inner
    obtain ⟨kk, isBit, rfl⟩ := List.mem_map.mp innermost
    obtain ⟨g, group_, rfl⟩ := of_mem_steps_groups isGroup
    obtain ⟨i, rfl, _, room⟩ := of_mem_steps_bytes (m := 4) isByte
    simp only [address_eightelem, length_bytesOf]
    exact fill_eightelem group_ (List.mem_range.mp isBit) room
  · intro p below
    obtain ⟨g, group_, k, bit, j, inside, rfl⟩ := exists_eightelem below
    obtain ⟨i, isStep, le, less⟩ := exists_mem_steps_bytes fours inside
    refine Or.inl ⟨_, List.mem_flatMap.mpr ⟨_, isStep, List.mem_flatMap.mpr
      ⟨_, mem_steps_groups group_ (by omega), List.mem_map.mpr ⟨7 - k, List.mem_range.mpr (by omega), rfl⟩⟩⟩, ?_⟩
    unfold Covers
    simp only [address_eightelem, length_bytesOf, show 7 - (7 - k) = k by omega]
    omega

/-! ## Un-shuffling -/

/-- Transposed rows, and then the bits of eight elements: bit `8 * j + t` of an element is in row `8 * j + t`. -/
theorem unshuffled_bits (input : List Byte) (nb elemSize : Nat) :
    ofBits (elemSize * (8 * nb)) (eightelem (filled (8 * elemSize * nb) (transposed input (8 * elemSize) nb 1))
      elemSize) = bshufBitunshuffle input (8 * nb) elemSize := by
  unfold bshufBitunshuffle
  rw [Nat.mul_comm elemSize, ofBits_eq_filled, ofBits_eq_filled]
  refine filled_congr fun p below => ?_
  rw [Nat.mul_comm (8 * nb)] at below
  obtain ⟨g, group_, k, bit, j, inside, rfl⟩ := exists_eightelem below
  refine (byteOf_eightelem bit inside fun t small => ?_).symm
  have row : 8 * j + t < 8 * elemSize := by omega
  have source : g * (8 * elemSize) + (8 * j + t) < 8 * elemSize * nb := by
    rw [Nat.mul_comm (8 * elemSize)]
    exact pair_lt group_ row
  have position : 8 * ((8 * g + k) * elemSize + j) + t = (8 * g + k) * (8 * elemSize) + (8 * j + t) := by ring
  have position' : (8 * j + t) * (8 * nb) + (8 * g + k) = 8 * ((8 * j + t) * nb + g) + k := by ring
  rw [getLsbD_byteOf _ _ small, position, pair_mod row, pair_div row, Nat.add_assoc, bitAt_filled _ source bit,
    transposed_byte input nb g row, position', bitAt_eq _ _ _ bit]

variable (malloc : Malloc)

theorem untransBitElemBy_spec {transByteBitrow shuffleBitEightelem :
      List Byte → List Byte → Nat → Nat → Int × List Byte}
    (bytes : ∀ out' : List Byte, out'.length = 8 * elemSize * nb → transByteBitrow input out' (8 * nb) elemSize =
      (((8 * nb : Nat) : Int) * elemSize, filled (8 * elemSize * nb) (transposed input (8 * elemSize) nb 1)))
    (bits : ∀ input' : List Byte, shuffleBitEightelem input' out (8 * nb) elemSize =
      (((8 * nb : Nat) : Int) * elemSize, ofBits (elemSize * (8 * nb)) (eightelem input' elemSize))) :
    untransBitElemBy malloc transByteBitrow shuffleBitEightelem input out (8 * nb) elemSize =
      (((8 * nb : Nat) : Int) * elemSize, bshufBitunshuffle input (8 * nb) elemSize) := by
  have counted : ¬((8 * nb : Nat) : Int) * elemSize < 0 := not_lt.mpr (by positivity)
  have transposes := bytes (malloc.bytes (8 * nb * elemSize)) ((malloc.length _).trans (by ring))
  unfold untransBitElemBy
  rw [if_neg (by omega)]
  simp only [transposes]
  rw [if_neg counted, bits, unshuffled_bits]

/-- Every build un-shuffles the bits of a block. -/
theorem untransBitElem_spec (build : Build) (aligned : size % 8 = 0) (wholeOut : out.length = size * elemSize) :
    untransBitElem malloc build input out size elemSize =
      ((size : Int) * elemSize, bshufBitunshuffle input size elemSize) := by
  obtain ⟨nb, rfl⟩ := Nat.dvd_of_mod_eq_zero aligned
  rw [Nat.mul_comm] at wholeOut
  cases build with
  | scal =>
    exact untransBitElemBy_spec malloc (fun _ whole => transByteBitrowScal_spec whole)
      fun _ => shuffleBitEightelemScal_spec wholeOut
  | sse2 =>
    exact untransBitElemBy_spec malloc (fun _ whole => transByteBitrowSSE_spec whole)
      fun _ => shuffleBitEightelemSSE_spec wholeOut
  | avx2 =>
    exact untransBitElemBy_spec malloc (fun _ whole => transByteBitrowAVX_spec whole)
      fun _ => shuffleBitEightelemAVX_spec wholeOut

end Bshuf

end MBFGraph
