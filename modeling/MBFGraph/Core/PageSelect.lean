import MBFGraph.Lib.ByteBits
import MBFGraph.Lib.BitScan

/-!
# Scanning a bitset

`find_first` (`split_stream.hpp:563-576`) and `find_next` (`disk_io.hpp:190-212`), with which a
stream goes through the bitset that `set_bitset` handed to it. `(unsigned int) -1` is `none`.
-/

namespace MBFGraph

open ByteBits BitScan

/-- The loop over whole bytes, from byte `i` on. -/
def scanBytes : List Byte → Nat → Option Nat
  | [], _ => none
  | byte :: bytes, i =>
      if byte ≠ 0 then
        match (List.range 8).find? fun j => byte.getLsbD j with
        | some j => some (i * 8 + j)
        | none => scanBytes bytes (i + 1)
      else scanBytes bytes (i + 1)

/-- `find_first`. -/
def findFirst (test : List Byte) : Option Nat := scanBytes test 0

/-- The `while (last % 8 != 0)` loop, of seven rounds at most, and the loop behind it. -/
def findNextFrom (test : List Byte) : Nat → Nat → Option Nat
  | 0, last => scanBytes (test.drop (last / 8)) (last / 8)
  | fuel + 1, last =>
      if last % 8 ≠ 0 then
        if bitAt test last then some last else findNextFrom test fuel (last + 1)
      else scanBytes (test.drop (last / 8)) (last / 8)

/-- `find_next` for a `last` that is not `-1`. -/
def findNext (test : List Byte) (last : Nat) : Option Nat := findNextFrom test 7 (last + 1)

private theorem exists_bit_of_ne_zero {byte : Byte} (nonzero : byte ≠ 0) :
    ∃ j < 8, byte.getLsbD j = true := by
  by_contra none_
  apply nonzero
  apply BitVec.eq_of_getLsbD_eq
  intro j below
  have clear := fun set => none_ ⟨j, below, set⟩
  simpa using clear

theorem scanBytes_drop (test : List Byte) (i : Nat) :
    scanBytes (test.drop i) i = nextBit (bitAt test) (8 * test.length) (8 * i) := by
  by_cases inside : i < test.length
  · have byteBits : ∀ j < 8, bitAt test (8 * i + j) = test[i].getLsbD j := by
      intro j below
      rw [bitAt_eq _ _ _ below, List.getD_eq_getElem _ _ inside]
    rw [List.drop_eq_getElem_cons inside]
    unfold scanBytes
    by_cases nonzero : test[i] ≠ 0
    · rw [if_pos nonzero]
      obtain ⟨j, below, set⟩ := exists_bit_of_ne_zero nonzero
      cases found : (List.range 8).find? fun j => test[i].getLsbD j with
      | none =>
        have clear := List.find?_eq_none.mp found j (List.mem_range.mpr below)
        exact absurd set clear
      | some k =>
        obtain ⟨kSet, kMember, kFirst⟩ := List.find?_range_eq_some.mp found
        have kBelow := List.mem_range.mp kMember
        refine (nextBit_eq_some_iff.mpr ⟨?_, by omega, by omega, ?_⟩).symm
        · rw [Nat.mul_comm, byteBits k kBelow]
          exact kSet
        · intro q above before
          have clear := kFirst (q - 8 * i) (by omega)
          have same := byteBits (q - 8 * i) (by omega)
          rw [Nat.add_sub_cancel' above] at same
          rw [same]
          simpa using clear
    · have zero : test[i] = 0 := not_not.mp nonzero
      rw [if_neg nonzero, scanBytes_drop test (i + 1)]
      refine (nextBit_skip (by omega) ?_).symm
      intro q above before
      have same := byteBits (q - 8 * i) (by omega)
      rw [Nat.add_sub_cancel' above, zero] at same
      simpa using same
  · rw [List.drop_eq_nil_of_le (Nat.le_of_not_lt inside)]
    refine (nextBit_eq_none_iff.mpr ?_).symm
    intro q above below
    omega
termination_by test.length - i

theorem findFirst_eq (test : List Byte) :
    findFirst test = nextBit (bitAt test) (8 * test.length) 0 := scanBytes_drop test 0

private theorem findNextFrom_eq (test : List Byte) (fuel last : Nat)
    (enough : last % 8 ≠ 0 → 8 ≤ last % 8 + fuel) :
    findNextFrom test fuel last = nextBit (bitAt test) (8 * test.length) last := by
  have aligned : last % 8 = 0 → scanBytes (test.drop (last / 8)) (last / 8) =
      nextBit (bitAt test) (8 * test.length) last := by
    intro zero
    have whole : 8 * (last / 8) = last := by omega
    rw [scanBytes_drop, whole]
  induction fuel generalizing last with
  | zero => exact aligned (by omega)
  | succ fuel ih =>
    unfold findNextFrom
    by_cases partial_ : last % 8 ≠ 0
    · rw [if_pos partial_]
      by_cases set : bitAt test last = true
      · rw [if_pos set]
        have inside : last < 8 * test.length := by
          by_contra outside
          rw [bitAt_of_length_le (Nat.le_of_not_lt outside)] at set
          contradiction
        exact (nextBit_self set inside).symm
      · rw [if_neg set, ih (last + 1) (by omega) ?_]
        · refine (nextBit_skip (by omega) ?_).symm
          intro q above below
          obtain rfl : q = last := by omega
          simpa using set
        · intro zero
          have whole : 8 * ((last + 1) / 8) = last + 1 := by omega
          rw [scanBytes_drop, whole]
    · rw [if_neg partial_]
      exact aligned (not_not.mp partial_)

/-- `find_next` finds the least set bit behind `last`. -/
theorem findNext_eq (test : List Byte) (last : Nat) :
    findNext test last = nextBit (bitAt test) (8 * test.length) (last + 1) :=
  findNextFrom_eq test 7 (last + 1) (by omega)

end MBFGraph
