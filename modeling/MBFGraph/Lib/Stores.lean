import MBFGraph.Lib.ByteBits

/-!
# Word stores by several writers

A store is a byte address and a word. Writers that run side by side leave a list of stores in
some order; where all stores to a place agree, the order does not matter.
-/

namespace Stores

open ByteBits Overwrite

/-- A store of a `w`-bit word. -/
structure Store (w : Nat) where
  addr : Nat
  word : BitVec w

variable {w : Nat}

/-- Bit `b` of the memory is bit `b - 8 * addr` of the stored word. -/
def Store.Covers (s : Store w) (b : Nat) : Prop := 8 * s.addr ≤ b ∧ b < 8 * s.addr + w

/-- The stores, one after the other. -/
def applyStores (order : List (Store w)) (bytes : List Byte) : List Byte :=
  order.foldl (fun bytes s => overwrite bytes s.addr (bytesOf (w / 8) s.word)) bytes

@[simp] theorem applyStores_nil (bytes : List Byte) :
    applyStores ([] : List (Store w)) bytes = bytes := rfl

/-- The last store decides where it covers. -/
theorem bitAt_applyStores_snoc (wholeBytes : w % 8 = 0) (order : List (Store w)) (s : Store w)
    (bytes : List Byte) (b : Nat) [Decidable (s.Covers b)] :
    bitAt (applyStores (order ++ [s]) bytes) b =
      if s.Covers b then s.word.getLsbD (b - 8 * s.addr) else bitAt (applyStores order bytes) b := by
  unfold applyStores
  rw [List.foldl_append, List.foldl_cons, List.foldl_nil, bitAt_overwrite, length_bytesOf,
    bitAt_bytesOf]
  have size : 8 * (w / 8) = w := by omega
  rw [Nat.mul_add, size]
  by_cases covers : s.Covers b
  · have inWord : b - 8 * s.addr < w := by
      have := covers.1
      have := covers.2
      omega
    have within : 8 * s.addr ≤ b ∧ b < 8 * s.addr + w := covers
    simp [covers, within, inWord]
  · have outside : ¬(8 * s.addr ≤ b ∧ b < 8 * s.addr + w) := covers
    rw [if_neg outside, if_neg covers]

/-- A bit comes from a store that covers it, or nothing covers it and it is the old one. -/
theorem bitAt_applyStores_cases (wholeBytes : w % 8 = 0) (order : List (Store w))
    (bytes : List Byte) (b : Nat) :
    (∃ s ∈ order, s.Covers b ∧
        bitAt (applyStores order bytes) b = s.word.getLsbD (b - 8 * s.addr)) ∨
      (∀ s ∈ order, ¬ s.Covers b) ∧ bitAt (applyStores order bytes) b = bitAt bytes b := by
  classical
  induction order using List.reverseRecOn with
  | nil => exact Or.inr ⟨by simp, rfl⟩
  | append_singleton order s ih =>
    rw [bitAt_applyStores_snoc wholeBytes]
    by_cases covers : s.Covers b
    · exact Or.inl ⟨s, by simp, covers, by rw [if_pos covers]⟩
    · rw [if_neg covers]
      rcases ih with ⟨t, member, tCovers, same⟩ | ⟨none_, same⟩
      · exact Or.inl ⟨t, List.mem_append_left _ member, tCovers, same⟩
      · refine Or.inr ⟨?_, same⟩
        intro t member
        rcases List.mem_append.mp member with member | member
        · exact none_ t member
        · rw [List.mem_singleton.mp member]; exact covers

/-- Where all covering stores agree, the result is theirs in every order. -/
theorem bitAt_applyStores_of_agree (wholeBytes : w % 8 = 0) {order : List (Store w)}
    {bytes : List Byte} {b : Nat} {value : Bool} (some_ : ∃ s ∈ order, s.Covers b)
    (agree : ∀ s ∈ order, s.Covers b → s.word.getLsbD (b - 8 * s.addr) = value) :
    bitAt (applyStores order bytes) b = value := by
  rcases bitAt_applyStores_cases wholeBytes order bytes b with ⟨s, member, covers, same⟩ | ⟨none_, -⟩
  · rw [same, agree s member covers]
  · obtain ⟨s, member, covers⟩ := some_
    exact absurd covers (none_ s member)

theorem bitAt_applyStores_of_not_covered (wholeBytes : w % 8 = 0) {order : List (Store w)}
    {bytes : List Byte} {b : Nat} (none_ : ∀ s ∈ order, ¬ s.Covers b) :
    bitAt (applyStores order bytes) b = bitAt bytes b := by
  rcases bitAt_applyStores_cases wholeBytes order bytes b with ⟨s, member, covers, -⟩ | ⟨-, same⟩
  · exact absurd covers (none_ s member)
  · exact same

/-- Some order lets a given store have the last word. -/
theorem exists_order_last {stores : List (Store w)} {s : Store w} (member : s ∈ stores) :
    ∃ before, (before ++ [s]).Perm stores := by
  classical
  obtain ⟨left, right, rfl⟩ := List.append_of_mem member
  exact ⟨left ++ right, by
    have swapped : (right ++ [s]).Perm ([s] ++ right) := List.perm_append_comm
    rw [List.append_assoc]
    exact swapped.append_left left⟩

/-- A bit is set in every order exactly if something covers it and all that covers it sets it. -/
theorem forall_perm_bitAt_iff (wholeBytes : w % 8 = 0) {stores : List (Store w)}
    {bytes : List Byte} {b : Nat} (clear : bitAt bytes b = false) :
    (∀ order, order.Perm stores → bitAt (applyStores order bytes) b = true) ↔
      (∃ s ∈ stores, s.Covers b) ∧
        ∀ s ∈ stores, s.Covers b → s.word.getLsbD (b - 8 * s.addr) = true := by
  classical
  constructor
  · intro all
    refine ⟨?_, ?_⟩
    · by_contra none_
      have kept := all stores (List.Perm.refl _)
      rw [bitAt_applyStores_of_not_covered wholeBytes fun s member covers =>
        none_ ⟨s, member, covers⟩, clear] at kept
      contradiction
    · intro s member covers
      obtain ⟨before, perm⟩ := exists_order_last member
      have last := all _ perm
      rwa [bitAt_applyStores_snoc wholeBytes, if_pos covers] at last
  · rintro ⟨⟨s, member, covers⟩, agree⟩ order perm
    exact bitAt_applyStores_of_agree wholeBytes ⟨s, perm.mem_iff.mpr member, covers⟩
      fun t tMember => agree t (perm.mem_iff.mp tMember)

theorem length_applyStores_inside {order : List (Store w)} {bytes : List Byte}
    (inside : ∀ s ∈ order, s.addr + w / 8 ≤ bytes.length) :
    (applyStores order bytes).length = bytes.length := by
  induction order generalizing bytes with
  | nil => rfl
  | cons s order ih =>
    have first : (overwrite bytes s.addr (bytesOf (w / 8) s.word)).length = bytes.length :=
      length_overwrite_inside (by rw [length_bytesOf]; exact inside s List.mem_cons_self)
    change (applyStores order _).length = _
    rw [ih (by rw [first]; exact fun t member => inside t (List.mem_cons_of_mem _ member)), first]

/-- The last of numbered stores that covers a bit decides. -/
theorem bitAt_applyStores_last (wholeBytes : w % 8 = 0) (f : Nat → Store w) {n i b : Nat} (below : i < n)
    (covers : (f i).Covers b) (last : ∀ j, i < j → j < n → ¬ (f j).Covers b) (bytes : List Byte) :
    bitAt (applyStores ((List.range n).map f) bytes) b = (f i).word.getLsbD (b - 8 * (f i).addr) := by
  classical
  induction n with
  | zero => omega
  | succ n ih =>
    rw [List.range_succ, List.map_append, List.map_singleton, bitAt_applyStores_snoc wholeBytes]
    by_cases isLast : i = n
    · rw [if_pos (isLast ▸ covers), isLast]
    · rw [if_neg (last n (by omega) (by omega))]
      exact ih (by omega) fun j after inside => last j after (by omega)

/-- A store that must stay inside the memory. -/
def storeInside (bytes : List Byte) (s : Store w) : Option (List Byte) :=
  if s.addr + w / 8 ≤ bytes.length then some (overwrite bytes s.addr (bytesOf (w / 8) s.word)) else none

theorem foldlM_storeInside {order : List (Store w)} {bytes : List Byte}
    (inside : ∀ s ∈ order, s.addr + w / 8 ≤ bytes.length) :
    order.foldlM storeInside bytes = some (applyStores order bytes) := by
  induction order generalizing bytes with
  | nil => rfl
  | cons s order ih =>
    have first : (overwrite bytes s.addr (bytesOf (w / 8) s.word)).length = bytes.length :=
      length_overwrite_inside (by rw [length_bytesOf]; exact inside s List.mem_cons_self)
    rw [List.foldlM_cons, storeInside, if_pos (inside s List.mem_cons_self)]
    exact ih fun t member => by rw [first]; exact inside t (List.mem_cons_of_mem _ member)

theorem foldlM_storeInside_none {order : List (Store w)} {bytes : List Byte}
    (outside : ¬ ∀ s ∈ order, s.addr + w / 8 ≤ bytes.length) :
    order.foldlM storeInside bytes = none := by
  induction order generalizing bytes with
  | nil => exact absurd (by simp) outside
  | cons s order ih =>
    rw [List.foldlM_cons, storeInside]
    by_cases fits : s.addr + w / 8 ≤ bytes.length
    · have first : (overwrite bytes s.addr (bytesOf (w / 8) s.word)).length = bytes.length :=
        length_overwrite_inside (by rw [length_bytesOf]; exact fits)
      rw [if_pos fits]
      refine ih fun rest => outside fun t member => ?_
      rcases List.mem_cons.mp member with rfl | member
      · exact fits
      · rw [← first]
        exact rest t member
    · rw [if_neg fits]
      rfl

end Stores
