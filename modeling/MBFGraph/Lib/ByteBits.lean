import MBFGraph.Lib.Overwrite

/-!
# Byte lists addressed by bit

Bit `b` of a byte list is bit `b % 8` of byte `b / 8`, the numbering of a little-endian
machine. Buffers, files and bitsets share it, so that a word store of any width and a byte
store are the same operation on bits. Reads behind the end see zero.
-/

namespace ByteBits

open Overwrite

abbrev Byte := BitVec 8

/-- Bit `b` of a byte list. -/
def bitAt (bytes : List Byte) (b : Nat) : Bool := (bytes.getD (b / 8) 0).getLsbD (b % 8)

/-- The `n` bytes whose bit `b` is `f b`. -/
def ofBits (n : Nat) (f : Nat → Bool) : List Byte :=
  (List.range n).map fun a => BitVec.ofFnLE fun t : Fin 8 => f (8 * a + t)

/-- Set bit `b`: `bytes[b / 8] |= 1 << (b % 8)`. -/
def setBit (bytes : List Byte) (b : Nat) : List Byte :=
  bytes.modify (b / 8) fun byte => byte ||| BitVec.twoPow 8 (b % 8)

/-- The `w`-bit word at byte address `a`. -/
def load (w : Nat) (bytes : List Byte) (a : Nat) : BitVec w :=
  BitVec.ofFnLE fun t : Fin w => bitAt bytes (8 * a + t)

/-- The `n` bytes of a word. -/
def bytesOf {w : Nat} (n : Nat) (word : BitVec w) : List Byte := ofBits n word.getLsbD

theorem bitAt_eq (bytes : List Byte) (a : Nat) (t : Nat) (ht : t < 8) :
    bitAt bytes (8 * a + t) = (bytes.getD a 0).getLsbD t := by
  unfold bitAt
  have quotient : (8 * a + t) / 8 = a := by omega
  have remainder : (8 * a + t) % 8 = t := by omega
  rw [quotient, remainder]

theorem bitAt_of_length_le {bytes : List Byte} {b : Nat} (outside : 8 * bytes.length ≤ b) :
    bitAt bytes b = false := by
  unfold bitAt
  rw [List.getD_eq_default _ _ (by omega)]
  simp

/-- Two byte lists of one length with the same bits are equal. -/
theorem ext_bitAt {xs ys : List Byte} (sameLength : xs.length = ys.length)
    (sameBits : ∀ b < 8 * xs.length, bitAt xs b = bitAt ys b) : xs = ys := by
  apply List.ext_getElem sameLength
  intro a ha hb
  apply BitVec.eq_of_getLsbD_eq
  intro t ht
  have bits := sameBits (8 * a + t) (by omega)
  rw [bitAt_eq _ _ _ ht, bitAt_eq _ _ _ ht] at bits
  simpa [ha, hb] using bits

@[simp] theorem length_ofBits (n : Nat) (f : Nat → Bool) : (ofBits n f).length = n := by
  simp [ofBits]

@[simp] theorem bitAt_ofBits (n : Nat) (f : Nat → Bool) (b : Nat) :
    bitAt (ofBits n f) b = (decide (b < 8 * n) && f b) := by
  unfold bitAt ofBits
  by_cases inside : b < 8 * n
  · have index : b / 8 < n := by omega
    have split : 8 * (b / 8) + b % 8 = b := by omega
    have small : b % 8 < 8 := by omega
    simp [List.getD_eq_getElem?_getD, index, inside, small, split]
  · have index : n ≤ b / 8 := by omega
    simp [List.getD_eq_getElem?_getD, index, inside]

theorem bitAt_replicate_zero (n b : Nat) : bitAt (List.replicate n (0 : Byte)) b = false := by
  unfold bitAt
  rw [List.getD_eq_getElem?_getD, List.getElem?_replicate]
  split <;> simp

@[simp] theorem length_setBit (bytes : List Byte) (b : Nat) :
    (setBit bytes b).length = bytes.length := by
  simp [setBit]

/-- Setting a bit changes that bit and no other. -/
theorem bitAt_setBit (bytes : List Byte) (b c : Nat) :
    bitAt (setBit bytes b) c =
      (bitAt bytes c || (decide (b = c) && decide (c < 8 * bytes.length))) := by
  unfold bitAt setBit
  rw [List.getD_eq_getElem?_getD, List.getD_eq_getElem?_getD, List.getElem?_modify]
  by_cases inside : c / 8 < bytes.length
  · have bound : c < 8 * bytes.length := by omega
    rw [List.getElem?_eq_getElem inside]
    by_cases sameByte : b / 8 = c / 8
    · have sameBit : (b % 8 = c % 8) ↔ b = c := by omega
      have small : b % 8 < 8 := by omega
      simp [sameByte, bound, BitVec.getLsbD_or, BitVec.getLsbD_twoPow, sameBit, small]
    · have different : b ≠ c := fun h => sameByte (by rw [h])
      simp [sameByte, different]
  · have bound : ¬ c < 8 * bytes.length := by omega
    simp [List.getElem?_eq_none (Nat.le_of_not_lt inside), bound]

@[simp] theorem getLsbD_load (w : Nat) (bytes : List Byte) (a t : Nat) :
    (load w bytes a).getLsbD t = (decide (t < w) && bitAt bytes (8 * a + t)) := by
  unfold load
  rw [BitVec.getLsbD_ofFnLE]
  by_cases inside : t < w <;> simp [inside]

@[simp] theorem length_bytesOf {w : Nat} (n : Nat) (word : BitVec w) :
    (bytesOf n word).length = n := by
  simp [bytesOf]

@[simp] theorem bitAt_bytesOf {w : Nat} (n : Nat) (word : BitVec w) (b : Nat) :
    bitAt (bytesOf n word) b = (decide (b < 8 * n) && word.getLsbD b) := by
  simp [bytesOf]

/-- The bits after a region store: the stored run inside it, the old bits elsewhere. -/
theorem bitAt_overwrite (bytes run : List Byte) (a b : Nat) :
    bitAt (overwrite bytes a run) b =
      if 8 * a ≤ b ∧ b < 8 * (a + run.length) then bitAt run (b - 8 * a) else bitAt bytes b := by
  have zero : (0 : Byte) = default := rfl
  unfold bitAt
  rw [zero, getD_overwrite]
  by_cases within : a ≤ b / 8 ∧ b / 8 < a + run.length
  · have bits : 8 * a ≤ b ∧ b < 8 * (a + run.length) := by omega
    have quotient : (b - 8 * a) / 8 = b / 8 - a := by omega
    have remainder : (b - 8 * a) % 8 = b % 8 := by omega
    rw [if_pos within, if_pos bits, quotient, remainder]
  · have bits : ¬(8 * a ≤ b ∧ b < 8 * (a + run.length)) := by omega
    rw [if_neg within, if_neg bits]

theorem bitAt_append (xs ys : List Byte) (b : Nat) :
    bitAt (xs ++ ys) b =
      if b < 8 * xs.length then bitAt xs b else bitAt ys (b - 8 * xs.length) := by
  unfold bitAt
  rw [List.getD_eq_getElem?_getD, List.getElem?_append, List.getD_eq_getElem?_getD,
    List.getD_eq_getElem?_getD]
  by_cases first : b / 8 < xs.length
  · have bits : b < 8 * xs.length := by omega
    rw [if_pos first, if_pos bits]
  · have bits : ¬ b < 8 * xs.length := by omega
    have quotient : (b - 8 * xs.length) / 8 = b / 8 - xs.length := by omega
    have remainder : (b - 8 * xs.length) % 8 = b % 8 := by omega
    rw [if_neg first, if_neg bits, quotient, remainder]

/-- A bit of a sub-range is the bit of the whole at the shifted number. -/
theorem bitAt_drop (bytes : List Byte) (a b : Nat) :
    bitAt (bytes.drop a) b = bitAt bytes (8 * a + b) := by
  unfold bitAt
  have quotient : (8 * a + b) / 8 = a + b / 8 := by omega
  have remainder : (8 * a + b) % 8 = b % 8 := by omega
  rw [List.getD_eq_getElem?_getD, List.getElem?_drop, List.getD_eq_getElem?_getD, quotient,
    remainder]

theorem bitAt_take (bytes : List Byte) (a b : Nat) :
    bitAt (bytes.take a) b = (decide (b < 8 * a) && bitAt bytes b) := by
  unfold bitAt
  rw [List.getD_eq_getElem?_getD, List.getElem?_take, List.getD_eq_getElem?_getD]
  by_cases inside : b / 8 < a
  · have bits : b < 8 * a := by omega
    simp [inside, bits]
  · have bits : ¬ b < 8 * a := by omega
    simp [inside, bits]

/-- Blocks of one size, laid end to end: bit `b` of block `g`. -/
theorem bitAt_flatMap {β : Type} {block : β → List Byte} {size : Nat}
    (sizes : ∀ x, (block x).length = size) (xs : List β) {g b : Nat} {x : β}
    (found : xs[g]? = some x) (inside : b < 8 * size) :
    bitAt (xs.flatMap block) (8 * (g * size) + b) = bitAt (block x) b := by
  induction xs generalizing g with
  | nil => simp at found
  | cons y ys ih =>
    rw [List.flatMap_cons, bitAt_append, sizes]
    cases g with
    | zero =>
      have same : y = x := by simpa using found
      simp [inside, same]
    | succ g =>
      have later : ys[g]? = some x := by simpa using found
      have expand : (g + 1) * size = g * size + size := Nat.succ_mul g size
      have behind : ¬ 8 * ((g + 1) * size) + b < 8 * size := by omega
      have shifted : 8 * ((g + 1) * size) + b - 8 * size = 8 * (g * size) + b := by omega
      rw [if_neg behind, shifted, ih later]

theorem length_flatMap_const {β : Type} {block : β → List Byte} {size : Nat}
    (sizes : ∀ x, (block x).length = size) (xs : List β) :
    (xs.flatMap block).length = xs.length * size := by
  induction xs with
  | nil => simp
  | cons y ys ih => rw [List.flatMap_cons, List.length_append, sizes, ih, List.length_cons]; ring

end ByteBits
