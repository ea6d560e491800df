import MBFGraph.Algorithms.Proofs.ReverseWritten
import MBFGraph.UpdateUtility.Proofs.DeletePage
import MBFGraph.UpdateUtility.PurgeDelete

/-!
# What deletion leaves, and what the purge leaves of it

A record of a file with deletions is that of the file, or it is a tombstone. The purged file has the records that
are none.
-/

namespace MBFGraph

open ByteBits Overwrite Groups Records

variable {file after : List Byte}

/-! ## Deletion -/

/-- The record that marks a deleted edge. -/
def tombstoneEdge : SimpleEdge := ⟨0xFFFFFFFF, 0xFFFFFFFF⟩

theorem readEdge_deletedSimpleEdge : Type2.readEdge deletedSimpleEdge = tombstoneEdge := by decide +kernel

theorem fileEdges_eq_block (file : List Byte) :
    Type2.fileEdges file = (List.range (file.length / 8)).map fun i => Type2.readEdge (block 8 file i) := by
  unfold Type2.fileEdges recordsOf
  rw [List.map_map]
  rfl

theorem getElem?_fileEdges {i : Nat} {e : SimpleEdge} : (Type2.fileEdges file)[i]? = some e ↔
    i < file.length / 8 ∧ Type2.readEdge (block 8 file i) = e := by
  rw [fileEdges_eq_block, List.getElem?_map, Option.map_eq_some_iff]
  constructor
  · rintro ⟨j, found, same⟩
    obtain ⟨inside, rfl⟩ := List.getElem?_eq_some_iff.mp found
    rw [List.length_range] at inside
    rw [List.getElem_range] at same
    exact ⟨inside, same⟩
  · rintro ⟨inside, same⟩
    exact ⟨i, List.getElem?_range inside, same⟩

/-- Any number of runs: the file keeps its length, and each record stays or is a tombstone. -/
theorem Deletes.spec (deletes : Deletes file after) :
    after.length = file.length ∧ ∀ (i : Nat) (e : SimpleEdge), (Type2.fileEdges after)[i]? = some e →
      (Type2.fileEdges file)[i]? = some e ∨ e = tombstoneEdge := by
  induction deletes with
  | none => exact ⟨rfl, fun i e found => Or.inl found⟩
  | @next before after draw start argument percentage runs deleted ih =>
    obtain ⟨sameLength, kept⟩ := ih
    unfold deletePage at deleted
    simp only at deleted
    split at deleted
    · contradiction
    · split at deleted
      · contradiction
      · split at deleted
        · contradiction
        · obtain rfl := Option.some.inj deleted
          have marks := length_deletedEdges draw (before.length / 8) start
            (deletedEdge (before.length / 8) argument percentage)
          generalize deletedEdges draw (before.length / 8) start
            (deletedEdge (before.length / 8) argument percentage) = marks_ at marks
          have whole : marks_.length * 8 ≤ before.length := by
            rw [marks]
            exact Nat.div_mul_le_self _ _
          obtain ⟨length, blocks⟩ := writeDeleted_spec whole
          refine ⟨length.trans sameLength, fun i e found => ?_⟩
          obtain ⟨inside, same⟩ := getElem?_fileEdges.mp found
          rw [length] at inside
          rw [blocks i (by rw [marks]; exact inside)] at same
          split at same
          · rw [← same]
            exact Or.inr readEdge_deletedSimpleEdge
          · exact kept i e (getElem?_fileEdges.mpr ⟨inside, same⟩)

/-! ## The purge -/

/-- A loop that copies some of the blocks. -/
theorem foldl_append_if {α ι : Type} (p : List α → Bool) (f : ι → List α) (l : List ι) (out : List α) :
    l.foldl (fun out i => if p (f i) then out ++ f i else out) out = out ++ ((l.map f).filter p).flatten := by
  induction l generalizing out with
  | nil => exact (List.append_nil out).symm
  | cons i l ih =>
    rw [List.foldl_cons, ih, List.map_cons, List.filter_cons]
    by_cases copied : p (f i) = true
    · rw [if_pos copied, if_pos copied, List.flatten_cons, List.append_assoc]
    · rw [if_neg copied, if_neg copied]

/-- Blocks of one size, one behind the other, are the records. -/
theorem fileEdges_flatten_blocks {blocks : List (List Byte)} (size : ∀ b ∈ blocks, b.length = 8) :
    Type2.fileEdges blocks.flatten = blocks.map Type2.readEdge := by
  rw [Type2.fileEdges_flatten fun b member => by rw [size b member]; rfl]
  induction blocks with
  | nil => rfl
  | cons b blocks ih =>
    rw [List.flatMap_cons, List.map_cons, ih fun b' member => size b' (List.mem_cons_of_mem _ member)]
    have length : b.length = 8 := size b List.mem_cons_self
    have one : Type2.fileEdges b = [Type2.readEdge b] := by
      rw [fileEdges_eq_block, length]
      change [Type2.readEdge (block 8 b 0)] = _
      unfold block
      rw [Nat.zero_mul, List.drop_zero, List.take_of_length_le (Nat.le_of_eq length)]
    rw [one]
    rfl

/-- The purge never fails on a file of whole records, and it leaves the records that are not deleted. -/
theorem purgeDelete_spec (edges : file.length % 8 = 0) :
    ∃ purged, purgeDelete file = some purged ∧ purged.length % 8 = 0 ∧
      Type2.fileEdges purged = (Type2.fileEdges file).filter keepsEdge := by
  have copied := foldl_append_if (fun record => keepsEdge (Type2.readEdge record)) (block 8 file)
    (List.range (file.length / 8)) []
  rw [List.nil_append] at copied
  have size : ∀ b ∈ ((List.range (file.length / 8)).map (block 8 file)).filter
      (fun record => keepsEdge (Type2.readEdge record)), b.length = 8 := by
    intro b member
    obtain ⟨i, inside, rfl⟩ := List.mem_map.mp (List.mem_of_mem_filter member)
    refine length_block ?_
    have below := List.mem_range.mp inside
    omega
  refine ⟨_, if_neg (not_not.mpr edges), ?_, ?_⟩
  · rw [copied, List.length_flatten, List.map_congr_left size, List.map_const', List.sum_replicate, smul_eq_mul,
      Nat.mul_mod_left]
  · have records : Type2.fileEdges file =
        ((List.range (file.length / 8)).map (block 8 file)).map Type2.readEdge := by
      rw [fileEdges_eq_block, List.map_map]
      rfl
    rw [copied, fileEdges_flatten_blocks size, records]
    exact (List.filter_map (p := keepsEdge) (f := Type2.readEdge)).symm

end MBFGraph
