import MBFGraph.UpdateUtility.DeletePage

/-!
# Ranges of deletions

The deletion of a range leaves out the position at the range's start, and the range ends in front of its
count; so two ranges that follow each other do not meet.
-/

namespace MBFGraph

open ByteBits Overwrite

variable {draw : Nat → Nat} {numEdge start count : Nat} {file : List Byte}

@[simp] theorem length_deletedEdges (draw : Nat → Nat) (numEdge start count : Nat) :
    (deletedEdges draw numEdge start count).length = numEdge := by
  induction count with
  | zero => simp [deletedEdges]
  | succ count ih =>
    unfold deletedEdges at ih ⊢
    rw [List.range_succ, List.foldl_append, List.foldl_cons, List.foldl_nil]
    split
    · rwa [List.length_set]
    · exact ih

/-- The position is drawn in the range. -/
def Drawn (draw : Nat → Nat) (numEdge start count p : Nat) : Prop :=
  ∃ i, start < i ∧ i < count ∧ draw i % numEdge = p

theorem drawn_succ {p : Nat} : Drawn draw numEdge start (count + 1) p ↔
    Drawn draw numEdge start count p ∨ start < count ∧ draw count % numEdge = p := by
  unfold Drawn
  constructor
  · rintro ⟨i, above, below, same⟩
    obtain less | rfl := Nat.lt_succ_iff_lt_or_eq.mp below
    · exact Or.inl ⟨i, above, less, same⟩
    · exact Or.inr ⟨above, same⟩
  · rintro (⟨i, above, below, same⟩ | ⟨above, same⟩)
    · exact ⟨i, above, below.trans (Nat.lt_succ_self _), same⟩
    · exact ⟨count, above, Nat.lt_succ_self _, same⟩

theorem deletedEdges_iff {p : Nat} (inside : p < numEdge) :
    (deletedEdges draw numEdge start count).getD p false = true ↔
      Drawn draw numEdge start count p := by
  induction count with
  | zero => simp [deletedEdges, Drawn, inside]
  | succ count ih =>
    have length := length_deletedEdges draw numEdge start count
    rw [drawn_succ, ← ih]
    unfold deletedEdges at length ⊢
    rw [List.range_succ, List.foldl_append, List.foldl_cons, List.foldl_nil]
    split
    · rename_i above
      rw [List.getD_eq_getElem _ _ (by rw [List.length_set, length]; exact inside),
        List.getElem_set, List.getD_eq_getElem _ _ (by rw [length]; exact inside)]
      split
      · rename_i same
        exact iff_of_true rfl (Or.inr ⟨above, same⟩)
      · rename_i other
        exact ⟨Or.inl, fun old => old.resolve_right fun now => other now.2⟩
    · rename_i notAbove
      exact ⟨Or.inl, fun old => old.resolve_right fun now => notAbove now.1⟩

/-- The marked edges are tombstones, the others are as they were. -/
theorem writeDeleted_spec {marks : List Bool} (whole : marks.length * 8 ≤ file.length) :
    (writeDeleted marks file).length = file.length ∧ ∀ p < marks.length,
      block 8 (writeDeleted marks file) p =
        if marks.getD p false = true then deletedSimpleEdge else block 8 file p := by
  have upTo (n : Nat) (inside : n ≤ marks.length) :
      let now := (List.range n).foldl (fun file i => if marks.getD i false = true then
        overwrite file (i * 8) deletedSimpleEdge else file) file
      now.length = file.length ∧ ∀ p, block 8 now p =
        if p < n ∧ marks.getD p false = true then deletedSimpleEdge else block 8 file p := by
    induction n with
    | zero => exact ⟨rfl, fun p => by simp⟩
    | succ n ih =>
      obtain ⟨length, blocks⟩ := ih (by omega)
      rw [List.range_succ, List.foldl_append, List.foldl_cons, List.foldl_nil]
      have size : deletedSimpleEdge.length = 8 := rfl
      simp only
      split
      · rename_i marked
        refine ⟨(length_overwrite_inside (by rw [size]; omega)).trans length, fun p => ?_⟩
        rw [block_overwrite size (by omega), blocks p]
        by_cases here : p = n
        · simp only [here, Nat.lt_succ_self, marked, and_self, if_true]
        · have same : p < n ↔ p < n + 1 := by omega
          simp only [if_neg here, same]
      · rename_i unmarked
        refine ⟨length, fun p => ?_⟩
        rw [blocks p]
        by_cases here : p = n
        · rw [if_neg fun both => absurd both.1 (by omega),
            if_neg fun both => unmarked (here ▸ both.2)]
        · have same : p < n ↔ p < n + 1 := by omega
          simp only [same]
  obtain ⟨length, blocks⟩ := upTo marks.length le_rfl
  refine ⟨length, fun p inside => ?_⟩
  rw [writeDeleted, blocks p]
  simp only [inside, true_and]

variable {argument percentage : Nat}

/-- The run from `start` marks the edge `p`. -/
def MarksEdge (draw : Nat → Nat) (percentage numEdge start argument p : Nat) : Prop :=
  (deletedEdges draw numEdge start (deletedEdge numEdge argument percentage)).getD p false = true

/-- A run that does not divide by zero. -/
theorem deletePage_spec (draw : Nat → Nat) (start : Nat) (edges : file.length % 8 = 0)
    (percents : 0 < percentage ∧ percentage < 100)
    (divides : file.length / 8 = 0 → deletedEdge (file.length / 8) argument percentage = 0) :
    ∃ result, deletePage draw start argument percentage file = some result ∧
      result.length = file.length ∧ ∀ p < file.length / 8,
        (MarksEdge draw percentage (file.length / 8) start argument p →
          block 8 result p = deletedSimpleEdge) ∧
        (¬MarksEdge draw percentage (file.length / 8) start argument p →
          block 8 result p = block 8 file p) := by
  have runs : deletePage draw start argument percentage file =
      some (writeDeleted (deletedEdges draw (file.length / 8) start
        (deletedEdge (file.length / 8) argument percentage)) file) := by
    unfold deletePage
    simp only
    rw [if_neg (not_not.mpr edges), if_neg (not_not.mpr percents),
      if_neg fun zero => absurd (divides zero.1) zero.2.ne']
  have length := length_deletedEdges draw (file.length / 8) start
    (deletedEdge (file.length / 8) argument percentage)
  have whole : file.length / 8 * 8 ≤ file.length := Nat.div_mul_le_self _ _
  rw [← length] at whole
  obtain ⟨same, blocks⟩ := writeDeleted_spec whole
  rw [length] at blocks
  exact ⟨_, runs, same, fun p inside =>
    ⟨fun marked => (blocks p inside).trans (if_pos marked),
      fun unmarked => (blocks p inside).trans (if_neg unmarked)⟩⟩

/-- A run from `a` up to `b` and then one from `b` up to `c` tombstone the edges that one run from `a` up to
`c` tombstones, and no other edge changes. -/
def RangesMeet (draw : Nat → Nat) (percentage a b c : Nat) (file : List Byte) : Prop :=
  ∃ first second once, deletePage draw a b percentage file = some first ∧
    deletePage draw b c percentage first = some second ∧
    deletePage draw a c percentage file = some once ∧
    ∀ p < file.length / 8,
      let marks := MarksEdge draw percentage (file.length / 8)
      (marks a b p ∨ marks b c p ↔ marks a c p) ∧
        (marks a b p ∨ marks b c p → block 8 second p = deletedSimpleEdge) ∧
        (¬(marks a b p ∨ marks b c p) → block 8 second p = block 8 file p) ∧
        (marks a c p → block 8 once p = deletedSimpleEdge) ∧
        (¬marks a c p → block 8 once p = block 8 file p)

/-- A run that is asked for 0 edges deletes a percentage, and any other run the range that it is asked
for. -/
theorem marks_iff {p : Nat} (inside : p < numEdge) : MarksEdge draw percentage numEdge start argument p ↔
    Drawn draw numEdge start (deletedEdge numEdge argument percentage) p :=
  deletedEdges_iff inside

theorem deletedEdge_of_ne_zero (positive : argument ≠ 0) :
    deletedEdge numEdge argument percentage = argument := if_neg positive

/-- The position that is lost between two ranges is `draw b`. -/
theorem drawn_ranges_iff {a b c : Nat} (some_ : 0 < numEdge) (first : a ≤ b) (second : b ≤ c) :
    (∀ p < numEdge, Drawn draw numEdge a b p ∨ Drawn draw numEdge b c p ↔ Drawn draw numEdge a c p) ↔
      a = b ∨ b = c ∨ ∃ i, i ≠ b ∧ a < i ∧ i < c ∧ draw i % numEdge = draw b % numEdge := by
  constructor
  · intro meet
    by_cases inner : a < b ∧ b < c
    · right; right
      obtain ⟨i, above, below, same⟩ | ⟨i, above, below, same⟩ :=
        (meet _ (Nat.mod_lt (draw b) some_)).mpr ⟨b, inner.1, inner.2, rfl⟩
      · exact ⟨i, below.ne, above, below.trans inner.2, same⟩
      · exact ⟨i, above.ne', inner.1.trans above, below, same⟩
    · omega
  · intro condition p _
    constructor
    · rintro (⟨i, above, below, same⟩ | ⟨i, above, below, same⟩)
      · exact ⟨i, above, by omega, same⟩
      · exact ⟨i, by omega, below, same⟩
    · rintro ⟨i, above, below, same⟩
      obtain less | rfl | more := Nat.lt_trichotomy i b
      · exact Or.inl ⟨i, above, less, same⟩
      · -- the position is drawn again
        obtain ends | ends | ⟨j, other, above', below', again⟩ := condition
        · omega
        · omega
        · obtain less | more := Nat.lt_or_gt_of_ne other
          · exact Or.inl ⟨j, above', less, again.trans same⟩
          · exact Or.inr ⟨j, more, below', again.trans same⟩
      · exact Or.inr ⟨i, more, below, same⟩

/-- When two ranges meet: the file has edges (or nothing is asked for); one of the ranges is empty or the
position drawn at `b` is drawn again in one of them; and where `b` is 0, so that the first run deletes a
percentage, the second draws all of these. -/
def RangesMeetWhen (draw : Nat → Nat) (percentage a b c numEdge : Nat) : Prop :=
  (0 < numEdge ∨ c = 0) ∧
    (b ≠ 0 → a = b ∨ b = c ∨ ∃ i, i ≠ b ∧ a < i ∧ i < c ∧ draw i % numEdge = draw b % numEdge) ∧
    (b = 0 → c = 0 ∨ ∀ i, 0 < i → i < deletedEdge numEdge 0 percentage →
      ∃ j, 0 < j ∧ j < c ∧ draw j % numEdge = draw i % numEdge)

theorem marks_ranges_iff {a b c : Nat} (some_ : 0 < numEdge) (first : a ≤ b) (second : b ≤ c) :
    (∀ p < numEdge, MarksEdge draw percentage numEdge a b p ∨ MarksEdge draw percentage numEdge b c p ↔
        MarksEdge draw percentage numEdge a c p) ↔ RangesMeetWhen draw percentage a b c numEdge := by
  have drawn : (∀ p < numEdge,
      MarksEdge draw percentage numEdge a b p ∨ MarksEdge draw percentage numEdge b c p ↔
        MarksEdge draw percentage numEdge a c p) ↔ ∀ p < numEdge,
      Drawn draw numEdge a (deletedEdge numEdge b percentage) p ∨
        Drawn draw numEdge b (deletedEdge numEdge c percentage) p ↔
      Drawn draw numEdge a (deletedEdge numEdge c percentage) p :=
    forall₂_congr fun p inside => by rw [marks_iff inside, marks_iff inside, marks_iff inside]
  rw [drawn]
  unfold RangesMeetWhen
  obtain rfl | positive := Nat.eq_zero_or_pos b
  · obtain rfl := Nat.le_zero.mp first
    simp only [some_, true_or, ne_eq, not_true_eq_false, false_implies, true_and, forall_const]
    obtain rfl | more := Nat.eq_zero_or_pos c
    · simp
    · rw [deletedEdge_of_ne_zero more.ne']
      constructor
      · intro meet
        right
        intro i above below
        exact (meet _ (Nat.mod_lt _ some_)).mp (Or.inl ⟨i, above, below, rfl⟩)
      · rintro (zero | covered) p _
        · omega
        · refine ⟨?_, Or.inr⟩
          rintro (⟨i, above, below, rfl⟩ | drawn)
          · exact covered i above below
          · exact drawn
  · have positive' : c ≠ 0 := by omega
    rw [deletedEdge_of_ne_zero positive.ne', deletedEdge_of_ne_zero positive',
      drawn_ranges_iff some_ first second]
    simp [some_, positive.ne']

/-- Two ranges of deletions that follow each other delete what one range does exactly under
`RangesMeetWhen`. -/
theorem rangesMeet_iff {a b c : Nat} (edges : file.length % 8 = 0)
    (percents : 0 < percentage ∧ percentage < 100) (first : a ≤ b) (second : b ≤ c) :
    RangesMeet draw percentage a b c file ↔
      RangesMeetWhen draw percentage a b c (file.length / 8) := by
  by_cases crash : file.length / 8 = 0 ∧ c ≠ 0
  · -- the one run divides by zero
    have once : deletePage draw a c percentage file = none := by
      unfold deletePage
      simp only
      rw [if_neg (not_not.mpr edges), if_neg (not_not.mpr percents),
        if_pos ⟨crash.1, by rw [deletedEdge_of_ne_zero crash.2]; omega⟩]
    constructor
    · rintro ⟨_, _, _, _, _, finished, _⟩
      rw [once] at finished
      exact nomatch finished
    · rintro ⟨runs, -⟩
      omega
  · have divides (argument : Nat) (below : argument ≤ c) (zero : file.length / 8 = 0) :
        deletedEdge (file.length / 8) argument percentage = 0 := by
      have none_ : argument = 0 := by
        by_contra positive
        exact crash ⟨zero, by omega⟩
      rw [zero, none_]
      simp [deletedEdge]
    obtain ⟨firstFile, runsFirst, lengthFirst, blocksFirst⟩ :=
      deletePage_spec draw a edges percents (divides b second)
    obtain ⟨secondFile, runsSecond, -, blocksSecond⟩ :=
      deletePage_spec draw b (lengthFirst ▸ edges) percents
        (lengthFirst ▸ divides c le_rfl)
    obtain ⟨once, runsOnce, -, blocksOnce⟩ :=
      deletePage_spec draw a edges percents (divides c le_rfl)
    rw [lengthFirst] at blocksSecond
    constructor
    · rintro ⟨_, _, _, _, _, _, meet⟩
      obtain zero | some_ := Nat.eq_zero_or_pos (file.length / 8)
      · have none_ : c = 0 := by
          by_contra positive
          exact crash ⟨zero, positive⟩
        exact ⟨Or.inr none_, fun positive => absurd (Nat.le_zero.mp (none_ ▸ second)) positive,
          fun _ => Or.inl none_⟩
      · exact (marks_ranges_iff some_ first second).mp fun p inside => (meet p inside).1
    · intro condition
      refine ⟨firstFile, secondFile, once, runsFirst, runsSecond, runsOnce, fun p inside => ?_⟩
      have meet := (marks_ranges_iff (by omega) first second).mpr condition p inside
      obtain ⟨firstMarked, firstKept⟩ := blocksFirst p inside
      obtain ⟨secondMarked, secondKept⟩ := blocksSecond p inside
      refine ⟨meet, fun marked => ?_, fun unmarked => ?_, blocksOnce p inside⟩
      · by_cases again : MarksEdge draw percentage (file.length / 8) b c p
        · exact secondMarked again
        · exact (secondKept again).trans (firstMarked (marked.resolve_right again))
      · exact (secondKept fun marked => unmarked (Or.inr marked)).trans
          (firstKept fun marked => unmarked (Or.inl marked))

/-- Three edges, from 0 to 1 and then from 1 to 2. -/
theorem rangesMeet_iff_three :
    RangesMeet (fun i => i) 1 0 1 2 (List.replicate 24 0) ↔ RangesMeetWhen (fun i => i) 1 0 1 2 3 :=
  rangesMeet_iff (by decide) (by decide) (by decide) (by decide)

/-- The position drawn at 1 is left out. -/
theorem not_rangesMeet : ¬RangesMeet (fun i => i) 1 0 1 2 (List.replicate 24 0) := by
  rintro ⟨_, _, _, _, _, _, meet⟩
  have lost := (meet 1 (by decide)).1
  unfold MarksEdge at lost
  revert lost
  decide

end MBFGraph
