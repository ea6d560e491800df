import MBFGraph.Lib.CountingSort
import MBFGraph.Core.Proofs.SplitterEnds

/-!
# What the splitter leaves

A round of `x_split` refines the grouping: in front of it the records are grouped by the upper bits
of the partition number, behind it by `shift_delta` bits more. Every input is one counting sort,
and the last round has groups for the whole partition number.
-/

namespace MBFGraph

open Overwrite CountingSort

theorem mem_queue {workq : List Nat} {id j : Nat} : j ∈ queue workq id ↔ j = id ∨ j ∈ workq := by
  unfold queue
  split
  · rename_i queued
    constructor
    · exact Or.inr
    · rintro (rfl | member)
      · exact queued
      · exact member
  · exact List.mem_cons

theorem nodup_queue {workq : List Nat} (nodup : workq.Nodup) (id : Nat) :
    (queue workq id).Nodup := by
  unfold queue
  split
  · exact nodup
  · rename_i fresh
    exact List.nodup_cons.mpr ⟨fresh, nodup⟩

section Input

variable {α : Type} {f : α → Nat} {records : List α} {first : Nat}

/-- What the prefix sums over `n` outputs from `first` on leave. -/
structure Placed (f : α → Nat) (records : List α) (first n : Nat) (last : Bool)
    (counts : Nat → Nat) (base : Nat) (workq : List Nat)
    (placed : (Nat → Nat) × Nat × List Nat) : Prop where
  index : ∀ t < n, placed.1 (first + t) = base + place f records first t
  elsewhere : ∀ j, j < first ∨ first + n ≤ j → placed.1 j = counts j
  outputBase : placed.2.1 = base + place f records first n
  mem_workq : ∀ j, j ∈ placed.2.2 ↔
    j ∈ workq ∨ last = true ∧ ∃ t < n, j = first + t ∧ bucket f records j ≠ []
  nodup : workq.Nodup → placed.2.2.Nodup

/-- By induction on the outputs. -/
theorem placed_placeOutputs (last : Bool) {counts : Nat → Nat} (base : Nat) (workq : List Nat) (n : Nat)
    (counted : ∀ t < n, counts (first + t) = (bucket f records (first + t)).length) :
    Placed f records first n last counts base workq
      (placeOutputs last ((List.range n).map fun t => first + t) (counts, base, workq)) := by
  induction n with
  | zero =>
    refine ⟨fun t none_ => absurd none_ (Nat.not_lt_zero t), fun _ _ => rfl, rfl, fun j => ?_,
      fun nodup => nodup⟩
    change j ∈ workq ↔ _
    constructor
    · exact Or.inl
    · rintro (member | ⟨-, t, none_, -⟩)
      · exact member
      · exact absurd none_ (Nat.not_lt_zero t)
  | succ n ih =>
    have before := ih fun t below => counted t (by omega)
    rw [List.range_succ, List.map_append, List.map_singleton]
    unfold placeOutputs at before ⊢
    rw [List.foldl_append]
    generalize ((List.range n).map fun t => first + t).foldl _ _ = acc at before ⊢
    obtain ⟨index, outputBase, queued⟩ := acc
    have count : index (first + n) = (bucket f records (first + n)).length :=
      (before.elsewhere (first + n) (Or.inr (Nat.le_refl _))).trans (counted n (Nat.lt_succ_self n))
    have isBase : outputBase = base + place f records first n := before.outputBase
    have nonempty : index (first + n) ≠ 0 ↔ bucket f records (first + n) ≠ [] := by
      rw [count, Ne, List.length_eq_zero_iff]
    simp only [List.foldl_cons, List.foldl_nil]
    refine ⟨?_, ?_, ?_, ?_, ?_⟩
    · intro t below
      change Function.update index (first + n) outputBase (first + t) = _
      rcases Nat.lt_or_eq_of_le (Nat.le_of_lt_succ below) with earlier | rfl
      · rw [Function.update_of_ne (by omega)]
        exact before.index t earlier
      · rw [Function.update_self, isBase]
    · intro j outside
      change Function.update index (first + n) outputBase j = _
      rw [Function.update_of_ne (by omega)]
      exact before.elsewhere j (by omega)
    · change outputBase + index (first + n) = _
      rw [count, isBase, place_succ, Nat.add_assoc]
    · intro j
      change j ∈ (if last = true ∧ index (first + n) ≠ 0 then queue queued (first + n) else queued) ↔ _
      have known : j ∈ queued ↔ j ∈ workq ∨ last = true ∧ ∃ t < n, j = first + t ∧
        bucket f records j ≠ [] := before.mem_workq j
      split
      · rename_i queues
        rw [mem_queue, known]
        constructor
        · rintro (rfl | earlier | ⟨isLast, t, below, isOutput, some_⟩)
          · exact Or.inr ⟨queues.1, n, Nat.lt_succ_self n, rfl, nonempty.mp queues.2⟩
          · exact Or.inl earlier
          · exact Or.inr ⟨isLast, t, by omega, isOutput, some_⟩
        · rintro (earlier | ⟨isLast, t, below, isOutput, some_⟩)
          · exact Or.inr (Or.inl earlier)
          · rcases Nat.lt_or_eq_of_le (Nat.le_of_lt_succ below) with less | rfl
            · exact Or.inr (Or.inr ⟨isLast, t, less, isOutput, some_⟩)
            · exact Or.inl isOutput
      · rename_i notQueues
        rw [known]
        constructor
        · rintro (earlier | ⟨isLast, t, below, isOutput, some_⟩)
          · exact Or.inl earlier
          · exact Or.inr ⟨isLast, t, by omega, isOutput, some_⟩
        · rintro (earlier | ⟨isLast, t, below, isOutput, some_⟩)
          · exact Or.inl earlier
          · rcases Nat.lt_or_eq_of_le (Nat.le_of_lt_succ below) with less | rfl
            · exact Or.inr ⟨isLast, t, less, isOutput, some_⟩
            · exact absurd ⟨isLast, nonempty.mpr (isOutput ▸ some_)⟩ notQueues
    · intro nodup
      change (if last = true ∧ index (first + n) ≠ 0 then queue queued (first + n)
        else queued).Nodup
      split
      · exact nodup_queue (before.nodup nodup) _
      · exact before.nodup nodup

/-- Every output but the first gets the offset of the one before it. -/
theorem readjust_eq {a b saved : Nat} {index : Nat → Nat} (some_ : a < b) (j : Nat) :
    readjust a b saved index j =
      if j = a then saved else if a < j ∧ j < b then index (j - 1) else index j := by
  have shifted : ∀ n ≤ b - a - 1, ∀ j, (List.range n).foldl
      (fun index i => Function.update index (b - 1 - i) (index (b - 1 - i - 1))) index j =
        if b - n ≤ j ∧ j < b then index (j - 1) else index j := by
    intro n
    induction n with
    | zero =>
      intro _ j
      rw [if_neg (by omega)]
      rfl
    | succ n ih =>
      intro le j
      have before := ih (by omega)
      rw [List.range_succ, List.foldl_append, List.foldl_cons, List.foldl_nil]
      by_cases here : j = b - 1 - n
      · rw [here, Function.update_self, before, if_neg (by omega), if_pos (by omega)]
      · rw [Function.update_of_ne here, before]
        by_cases moved : b - n ≤ j ∧ j < b
        · rw [if_pos moved, if_pos (by omega)]
        · rw [if_neg moved, if_neg (by omega)]
  unfold readjust
  by_cases start : j = a
  · rw [if_pos start, start, Function.update_self]
  · rw [if_neg start, Function.update_of_ne start, shifted _ (Nat.le_refl _)]
    by_cases moved : a < j ∧ j < b
    · rw [if_pos moved, if_pos (by omega)]
    · rw [if_neg moved, if_neg (by omega)]

/-- Keys that do not fall are sorted, whatever bits of them are looked at. -/
theorem pairwise_of_keysSorted {key : α → Nat} (shift : Nat) {oldKey : Nat} {records : List α}
    (sorted : keysSorted key oldKey records = true) :
    records.Pairwise (fun x y => key x >>> shift ≤ key y >>> shift) ∧
      ∀ r ∈ records, oldKey ≤ key r := by
  induction records generalizing oldKey with
  | nil => exact ⟨List.Pairwise.nil, fun r none_ => absurd none_ List.not_mem_nil⟩
  | cons r records ih =>
    unfold keysSorted at sorted
    rw [Bool.and_eq_true, decide_eq_true_eq] at sorted
    obtain ⟨rest, least⟩ := ih sorted.2
    refine ⟨List.pairwise_cons.mpr ⟨fun s member => ?_, rest⟩, ?_⟩
    · rw [Nat.shiftRight_eq_div_pow, Nat.shiftRight_eq_div_pow]
      exact Nat.div_le_div_right (least s member)
    · intro s member
      rcases List.mem_cons.mp member with rfl | later
      · exact sorted.1
      · exact Nat.le_trans sorted.1 (least s later)

end Input

section Round

variable {α : Type} {key : α → Nat}

/-- What an input leaves: its records are spread over the `n` outputs from `first` on. -/
structure Spread (f : α → Nat) (records : List α) (first n : Nat) (last : Bool) (i : Nat)
    (st : SplitState α) (base : Nat) (done : SplitState α × Nat) : Prop where
  inBuffer : done.1.inBuffer = st.inBuffer
  inIndex : done.1.inIndex = Function.update st.inIndex i 0
  flipped : done.1.flipped = st.flipped
  outputBase : done.2 = base + records.length
  index : ∀ t < n, done.1.outIndex (first + t) = base + place f records first t
  elsewhere : ∀ j, j < first ∨ first + n ≤ j → done.1.outIndex j = st.outIndex j
  frame : SameOutside base (base + records.length) st.outBuffer done.1.outBuffer
  pieces : ∀ t < n, (done.1.outBuffer.drop (base + place f records first t)).take
    (bucket f records (first + t)).length = bucket f records (first + t)
  mem_workq : ∀ j, j ∈ done.1.workq ↔
    j ∈ st.workq ∨ last = true ∧ ∃ t < n, j = first + t ∧ bucket f records j ≠ []
  nodup : st.workq.Nodup → done.1.workq.Nodup

/-- The loop that sets the offsets of the outputs of an empty input. -/
theorem foldl_update_outputs (first base : Nat) (index : Nat → Nat) (n j : Nat) :
    ((List.range n).map fun t => first + t).foldl (fun index j => Function.update index j base)
      index j = if first ≤ j ∧ j < first + n then base else index j := by
  induction n with
  | zero =>
    rw [if_neg (by omega)]
    rfl
  | succ n ih =>
    rw [List.range_succ, List.map_append, List.map_singleton, List.foldl_append, List.foldl_cons,
      List.foldl_nil]
    by_cases here : j = first + n
    · rw [here, Function.update_self, if_pos (by omega)]
    · rw [Function.update_of_ne here, ih]
      by_cases inside : first ≤ j ∧ j < first + n
      · rw [if_pos inside, if_pos (by omega)]
      · rw [if_neg inside, if_neg (by omega)]

theorem scatterRecords_congr [Inhabited α] {f g : α → Nat} {records : List α} (same : ∀ r ∈ records, f r = g r)
    (acc : List α × (Nat → Nat)) : scatterRecords f records acc = scatterRecords g records acc :=
  List.foldl_ext _ _ _ fun acc r member => by rw [same r member]

/-- The three ways an input is processed: nothing to do, one copy of sorted records, one copy a
record. -/
theorem spread_splitInput [Inhabited α] {final : Nat} {c d : SplitControl} {base items i outputBase : Nat}
    {st : SplitState α} {done : SplitState α × Nat}
    (isDone : splitInput key final c d base items (st, outputBase) i = some done)
    (positive : 0 < d.fanout)
    (unmasked : ∀ r ∈ inputRecords c base items st i,
      (key r >>> d.shift) &&& (d.numIn - 1) = key r >>> d.shift)
    (inside : ∀ r ∈ inputRecords c base items st i,
      d.fanout * i ≤ key r >>> d.shift ∧ key r >>> d.shift < d.fanout * i + d.fanout)
    (zero : ∀ t < d.fanout, st.outIndex (d.fanout * i + t) = 0)
    (room : outputBase + (inputRecords c base items st i).length ≤ st.outBuffer.length) :
    Spread (fun r => key r >>> d.shift) (inputRecords c base items st i) (d.fanout * i) d.fanout
      (decide (d.numIn = final)) i st outputBase done := by
  unfold splitInput at isDone
  dsimp only at isDone
  generalize inputRecords c base items st i = records at *
  rw [show d.fanout * (i + 1) = d.fanout * i + d.fanout from Nat.mul_succ _ _] at isDone
  generalize d.fanout * i = first at *
  split at isDone
  · -- an empty input
    rename_i empty
    subst empty
    obtain rfl := Option.some.inj isDone
    have nothing : ∀ t, place (fun r => key r >>> d.shift) [] first t = 0 := fun t => by
      have := place_le_length (f := fun r => key r >>> d.shift) [] first t
      exact Nat.le_zero.mp this
    refine ⟨rfl, rfl, rfl, rfl, fun t below => ?_, fun j outside => ?_, SameOutside.refl _ _ _,
      fun t _ => by simp [bucket], fun j => ?_, fun nodup => nodup⟩
    · rw [nothing, Nat.add_zero]
      exact (foldl_update_outputs first outputBase st.outIndex d.fanout (first + t)).trans
        (if_pos (by omega))
    · exact (foldl_update_outputs first outputBase st.outIndex d.fanout j).trans
        (if_neg (by omega))
    · simp [bucket]
  · rename_i some_
    split at isDone
    · exact absurd isDone (Option.some_ne_none _).symm
    · have unmask : records.foldl (fun index record => Function.update index
          ((key record >>> d.shift) &&& (d.numIn - 1))
          (index ((key record >>> d.shift) &&& (d.numIn - 1)) + 1)) st.outIndex =
          records.foldl (fun index r => Function.update index (key r >>> d.shift)
            (index (key r >>> d.shift) + 1)) st.outIndex :=
        List.foldl_ext _ _ _ fun index r member => by rw [unmasked r member]
      rw [unmask] at isDone
      have counted := foldl_count (f := fun r => key r >>> d.shift) records st.outIndex
      generalize records.foldl (fun index r => Function.update index (key r >>> d.shift)
        (index (key r >>> d.shift) + 1)) st.outIndex = counts at counted isDone
      have placed := placed_placeOutputs (f := fun r => key r >>> d.shift)
        (decide (d.numIn = final)) outputBase st.workq d.fanout fun t below =>
          (counted (first + t)).trans (by rw [zero t below, Nat.zero_add])
      generalize placeOutputs _ _ _ = sums at placed isDone
      obtain ⟨index, nextBase, workq⟩ := sums
      have start : index first = outputBase := placed.index 0 positive
      have total : nextBase = outputBase + records.length := by
        rw [← place_eq_length (f := fun r => key r >>> d.shift) inside]
        exact placed.outputBase
      have other : ∀ j, j < first ∨ first + d.fanout ≤ j →
          (bucket (fun r => key r >>> d.shift) records j).length = 0 := by
        intro j outside
        refine List.length_eq_zero_iff.mpr (List.eq_nil_iff_forall_not_mem.mpr fun r member => ?_)
        obtain ⟨ofRecords, isOutput⟩ := mem_bucket.mp member
        have := inside r ofRecords
        omega
      have untouched : ∀ j, j < first ∨ first + d.fanout ≤ j → index j = st.outIndex j := by
        intro j outside
        refine (placed.elsewhere j outside).trans ((counted j).trans ?_)
        rw [other j outside, Nat.add_zero]
      split at isDone
      · -- sorted records
        rename_i sorted
        obtain rfl := Option.some.inj isDone
        refine ⟨rfl, rfl, rfl, total, placed.index, untouched, ?_, fun t below => ?_,
          placed.mem_workq, placed.nodup⟩
        · change SameOutside _ _ st.outBuffer (overwrite st.outBuffer (index first) records)
          rw [start]
          exact sameOutside_overwrite room
        · have ends := place_mono (f := fun r => key r >>> d.shift) records first
            (show t + 1 ≤ d.fanout by omega)
          have size := place_le_length (f := fun r => key r >>> d.shift) records first (t + 1)
          rw [place_succ] at size
          have pieceOf := piece_of_sorted (pairwise_of_keysSorted d.shift sorted).1
            (fun r member => (inside r member).1) t
          change ((overwrite st.outBuffer (index first) records).drop _).take _ = _
          rw [start, piece_overwrite room size]
          exact pieceOf
      · -- unsorted records
        obtain rfl := Option.some.inj isDone
        rw [scatterRecords_congr unmasked]
        have begins : Filled (fun r => key r >>> d.shift) records first d.fanout outputBase
            st.outBuffer [] (st.outBuffer, index) := by
          refine ⟨fun t below => ?_, SameOutside.refl _ _ _, fun t _ i none_ => ?_⟩
          · exact (placed.index t below).trans (Nat.add_zero _).symm
          · exact absurd none_ (Nat.not_lt_zero i)
        have filled := filled_foldl records begins (List.nil_append _).symm inside room
        have moved := foldl_scatter_index (f := fun r => key r >>> d.shift) records
          (st.outBuffer, index)
        change Filled _ _ _ _ _ _ _ (scatterRecords (fun r => key r >>> d.shift) records _) at filled
        change ∀ j, (scatterRecords (fun r => key r >>> d.shift) records _).2 j = _ at moved
        generalize scatterRecords _ records _ = acc at filled moved
        refine ⟨rfl, rfl, rfl, total, fun t below => ?_, fun j outside => ?_, filled.frame,
          fun t below => ?_, placed.mem_workq, placed.nodup⟩
        · change readjust first (first + d.fanout) (index first) acc.2 (first + t) = _
          rw [readjust_eq (by omega), start]
          cases t with
          | zero => rw [Nat.add_zero, if_pos rfl, place_zero, Nat.add_zero]
          | succ t =>
            rw [if_neg (by omega), if_pos (by omega), place_succ,
              show first + (t + 1) - 1 = first + t by omega, filled.index t (by omega)]
            omega
        · change readjust first (first + d.fanout) (index first) acc.2 j = _
          rw [readjust_eq (by omega), if_neg (by omega), if_neg (by omega), moved, other j outside,
            Nat.add_zero]
          exact untouched j outside
        · exact piece_eq_iff.mpr (filled.written t below)

/-- In front of a round the records are grouped by the bits that are not left. -/
structure Grouped (key : α → Nat) (base : Nat) (records : List α) (c : SplitControl)
    (st : SplitState α) : Prop where
  index : ∀ i < c.numIn, st.inIndex i = base + place (fun r => key r >>> c.shift) records 0 i
  beyond : ∀ i, c.numIn ≤ i → st.inIndex i = 0
  outIndex : ∀ i, st.outIndex i = 0
  pieces : ∀ i < c.numIn,
    (st.inBuffer.drop (base + place (fun r => key r >>> c.shift) records 0 i)).take
      (bucket (fun r => key r >>> c.shift) records i).length =
        bucket (fun r => key r >>> c.shift) records i
  room : base + records.length ≤ st.outBuffer.length

/-- In a round, after `m` inputs. -/
structure Regrouping (key : α → Nat) (base : Nat) (records : List α) (final : Nat)
    (c d : SplitControl) (st : SplitState α) (m : Nat) (acc : SplitState α × Nat) : Prop where
  inBuffer : acc.1.inBuffer = st.inBuffer
  inIndex : ∀ i, acc.1.inIndex i = if i < m then 0 else st.inIndex i
  flipped : acc.1.flipped = st.flipped
  outputBase : acc.2 = base + place (fun r => key r >>> c.shift) records 0 m
  index : ∀ j < d.fanout * m,
    acc.1.outIndex j = base + place (fun r => key r >>> d.shift) records 0 j
  beyond : ∀ j, d.fanout * m ≤ j → acc.1.outIndex j = 0
  frame : SameOutside base (base + records.length) st.outBuffer acc.1.outBuffer
  pieces : ∀ j < d.fanout * m,
    (acc.1.outBuffer.drop (base + place (fun r => key r >>> d.shift) records 0 j)).take
      (bucket (fun r => key r >>> d.shift) records j).length =
        bucket (fun r => key r >>> d.shift) records j
  mem_workq : ∀ j, j ∈ acc.1.workq ↔ j ∈ st.workq ∨
    d.numIn = final ∧ j < d.fanout * m ∧ bucket (fun r => key r >>> d.shift) records j ≠ []
  nodup : st.workq.Nodup → acc.1.workq.Nodup

/-- What the head of a round does to the keys. -/
structure Refines (key : α → Nat) (records : List α) (c d : SplitControl) : Prop where
  product : d.numIn = d.fanout * c.numIn
  positive : 0 < d.fanout
  quotient : ∀ r ∈ records, key r >>> d.shift / d.fanout = key r >>> c.shift
  unmasked : ∀ r ∈ records, (key r >>> d.shift) &&& (d.numIn - 1) = key r >>> d.shift
  below : ∀ r ∈ records, key r >>> c.shift < c.numIn

theorem Splitting.shiftRight_lt {k : Nat} {c : SplitControl} (splitting : Splitting k c) {n : Nat}
    (below : n < 2 ^ k) : n >>> c.shift < c.numIn := by
  rw [Nat.shiftRight_eq_div_pow]
  apply Nat.div_lt_of_lt_mul
  rw [Nat.mul_comm, splitting.product]
  exact below

theorem Splitting.refines {k : Nat} {c : SplitControl} (splitting : Splitting k c)
    (more : c.numIn < 2 ^ k) {records : List α} (keys : ∀ r ∈ records, key r < 2 ^ k) :
    Refines key records c c.next := by
  obtain ⟨splitting', -, -, product⟩ := splitting.next more
  have head := next_eq splitting.fanout
  have shift : c.shift = c.next.shift + min c.shift c.shiftDelta := by
    rw [head]
    change c.shift = c.shift - min c.shift c.shiftDelta + min c.shift c.shiftDelta
    omega
  have fanout : c.next.fanout = 2 ^ min c.shift c.shiftDelta := by rw [head]
  refine ⟨by rw [product, Nat.mul_comm], ?_, fun r _ => ?_, fun r member => ?_, fun r member => ?_⟩
  · rw [fanout]
    exact Nat.two_pow_pos _
  · rw [fanout, ← Nat.shiftRight_eq_div_pow, ← Nat.shiftRight_add, ← shift]
  · have divides : c.next.numIn ∣ 2 ^ k := ⟨_, splitting'.product.symm⟩
    obtain ⟨e, -, power⟩ := (Nat.dvd_prime_pow Nat.prime_two).mp divides
    have less := splitting'.shiftRight_lt (keys r member)
    rw [power] at less ⊢
    rw [Nat.and_two_pow_sub_one_eq_mod, Nat.mod_eq_of_lt less]
  · exact splitting.shiftRight_lt (keys r member)

variable {base final m : Nat} {records : List α} {c d : SplitControl} {st : SplitState α}

/-- The records of an input are a group. -/
theorem Regrouping.inputRecords {acc : SplitState α × Nat} (grouped : Grouped key base records c st)
    (refines : Refines key records c d)
    (regrouping : Regrouping key base records final c d st m acc) (below : m < c.numIn) :
    inputRecords c base records.length acc.1 m = bucket (fun r => key r >>> c.shift) records m := by
  have here : acc.1.inIndex m = base + place (fun r => key r >>> c.shift) records 0 m := by
    rw [regrouping.inIndex, if_neg (Nat.lt_irrefl m), grouped.index m below]
  have size : (if m = c.numIn - 1 then base + records.length - acc.1.inIndex m
      else acc.1.inIndex (m + 1) - acc.1.inIndex m) =
        (bucket (fun r => key r >>> c.shift) records m).length := by
    have next := place_succ (f := fun r => key r >>> c.shift) records 0 m
    rw [Nat.zero_add] at next
    split
    · rename_i last
      have all : place (fun r => key r >>> c.shift) records 0 (m + 1) = records.length :=
        place_eq_length fun r member => ⟨Nat.zero_le _, by have := refines.below r member; omega⟩
      rw [here]
      omega
    · rename_i notLast
      rw [here, regrouping.inIndex, if_neg (by omega), grouped.index (m + 1) (by omega)]
      omega
  unfold MBFGraph.inputRecords
  rw [size, here, regrouping.inBuffer]
  exact grouped.pieces m below

/-- Where an output of input `m` is. -/
theorem Refines.output (refines : Refines key records c d) {j : Nat} (low : d.fanout * m ≤ j)
    (high : j < d.fanout * (m + 1)) :
    ∃ t < d.fanout, j = d.fanout * m + t ∧
      bucket (fun r => key r >>> d.shift) (bucket (fun r => key r >>> c.shift) records m) j =
        bucket (fun r => key r >>> d.shift) records j ∧
      place (fun r => key r >>> d.shift) records 0 j =
        place (fun r => key r >>> c.shift) records 0 m +
          place (fun r => key r >>> d.shift) (bucket (fun r => key r >>> c.shift) records m)
            (d.fanout * m) t := by
  rw [Nat.mul_succ] at high
  obtain ⟨t, rfl⟩ := Nat.exists_eq_add_of_le low
  have below : t < d.fanout := by omega
  exact ⟨t, below, rfl, bucket_refine refines.quotient below,
    place_refine_add refines.quotient refines.positive (Nat.le_of_lt below)⟩

/-- The step: the next input. -/
theorem Regrouping.step [Inhabited α] {acc acc' : SplitState α × Nat}
    (grouped : Grouped key base records c st) (refines : Refines key records c d)
    (regrouping : Regrouping key base records final c d st m acc) (below : m < c.numIn)
    (isNext : splitInput key final c d base records.length acc m = some acc') :
    Regrouping key base records final c d st (m + 1) acc' := by
  have isInput := regrouping.inputRecords grouped refines below
  have next := place_succ (f := fun r => key r >>> c.shift) records 0 m
  rw [Nat.zero_add] at next
  have inside := place_le_length (f := fun r => key r >>> c.shift) records 0 (m + 1)
  have bounds := refine_bounds refines.quotient refines.positive (i := m)
  have spread := spread_splitInput (show splitInput key final c d base records.length
      (acc.1, acc.2) m = some acc' from isNext) refines.positive
    (by
      rw [isInput]
      exact fun r member => refines.unmasked r (mem_bucket.mp member).1)
    (by
      rw [isInput]
      exact bounds)
    (fun t _ => regrouping.beyond _ (Nat.le_add_right _ _))
    (by
      rw [isInput, regrouping.frame.length, regrouping.outputBase]
      have := grouped.room
      omega)
  rw [isInput] at spread
  have start := regrouping.outputBase
  refine ⟨spread.inBuffer.trans regrouping.inBuffer, fun i => ?_,
    spread.flipped.trans regrouping.flipped, ?_, fun j less => ?_, fun j beyond => ?_, ?_,
    fun j less => ?_, fun j => ?_, fun nodup => spread.nodup (regrouping.nodup nodup)⟩
  · rw [spread.inIndex]
    by_cases here : i = m
    · rw [here, Function.update_self, if_pos (Nat.lt_succ_self m)]
    · rw [Function.update_of_ne here, regrouping.inIndex]
      by_cases earlier : i < m
      · rw [if_pos earlier, if_pos (by omega)]
      · rw [if_neg earlier, if_neg (by omega)]
  · rw [spread.outputBase, start, next, Nat.add_assoc]
  · by_cases earlier : j < d.fanout * m
    · rw [spread.elsewhere j (Or.inl earlier)]
      exact regrouping.index j earlier
    · obtain ⟨t, isBelow, rfl, -, isPlace⟩ := refines.output (Nat.le_of_not_lt earlier) less
      rw [spread.index t isBelow, isPlace, start, Nat.add_assoc]
  · rw [Nat.mul_succ] at beyond
    rw [spread.elsewhere j (Or.inr beyond)]
    exact regrouping.beyond j (by omega)
  · refine regrouping.frame.trans (spread.frame.mono ?_ ?_)
    · omega
    · omega
  · by_cases earlier : j < d.fanout * m
    · have ends := place_mono (f := fun r => key r >>> d.shift) records 0
        (show j + 1 ≤ d.fanout * m by omega)
      rw [place_succ, Nat.zero_add, place_refine refines.quotient refines.positive] at ends
      rw [spread.frame.piece (Or.inl (by omega))]
      exact regrouping.pieces j earlier
    · obtain ⟨t, isBelow, rfl, isBucket, isPlace⟩ := refines.output (Nat.le_of_not_lt earlier) less
      have piece := spread.pieces t isBelow
      rw [isBucket] at piece
      rw [isPlace, ← Nat.add_assoc, ← start]
      exact piece
  · rw [spread.mem_workq, regrouping.mem_workq, decide_eq_true_eq]
    constructor
    · rintro ((queued | ⟨last, less, some_⟩) | ⟨last, t, isBelow, isOutput, some_⟩)
      · exact Or.inl queued
      · exact Or.inr ⟨last, by rw [Nat.mul_succ]; omega, some_⟩
      · have less : j < d.fanout * (m + 1) := by
          rw [Nat.mul_succ]
          omega
        obtain ⟨-, -, -, isBucket, -⟩ := refines.output (show d.fanout * m ≤ j by omega) less
        exact Or.inr ⟨last, less, isBucket ▸ some_⟩
    · rintro (queued | ⟨last, less, some_⟩)
      · exact Or.inl (Or.inl queued)
      · by_cases earlier : j < d.fanout * m
        · exact Or.inl (Or.inr ⟨last, earlier, some_⟩)
        · obtain ⟨t, isBelow, isOutput, isBucket, -⟩ :=
            refines.output (Nat.le_of_not_lt earlier) less
          exact Or.inr ⟨last, t, isBelow, isOutput, isBucket.symm ▸ some_⟩

/-- All inputs of a round. -/
theorem regrouping_splitInputs [Inhabited α] {acc : SplitState α × Nat}
    (grouped : Grouped key base records c st) (refines : Refines key records c d) {n : Nat}
    (le : n ≤ c.numIn)
    (isDone : splitInputs key final c d base records.length (List.range n) (st, base) = some acc) :
    Regrouping key base records final c d st n acc := by
  induction n generalizing acc with
  | zero =>
    obtain rfl := Option.some.inj isDone
    refine ⟨rfl, fun i => (if_neg (Nat.not_lt_zero i)).symm, rfl, (Nat.add_zero _).symm,
      fun j none_ => absurd none_ (Nat.not_lt_zero j), fun j _ => grouped.outIndex j,
      SameOutside.refl _ _ _, fun j none_ => absurd none_ (Nat.not_lt_zero j), fun j => ?_,
      fun nodup => nodup⟩
    simp
  | succ n ih =>
    unfold splitInputs at isDone ih
    rw [List.range_succ, List.foldlM_append, Option.bind_eq_bind, Option.bind_eq_some_iff] at isDone
    obtain ⟨before, isBefore, isNext⟩ := isDone
    simp only [List.foldlM_cons, List.foldlM_nil, bind_pure] at isNext
    exact (ih (by omega) isBefore).step grouped refines (by omega) isNext

/-- A whole round, with the exchange of the buffers. -/
theorem Regrouping.swap {acc : SplitState α × Nat}
    (regrouping : Regrouping key base records final c d st c.numIn acc)
    (grouped : Grouped key base records c st) (refines : Refines key records c d)
    (room : base + records.length ≤ st.inBuffer.length) :
    Grouped key base records d acc.1.swap where
  index i below := regrouping.index i (by rw [← refines.product]; exact below)
  beyond i outside := regrouping.beyond i (by rw [← refines.product]; exact outside)
  outIndex i := by
    refine (regrouping.inIndex i).trans ?_
    split
    · rfl
    · rename_i beyond
      exact grouped.beyond i (Nat.le_of_not_lt beyond)
  pieces i below := regrouping.pieces i (by rw [← refines.product]; exact below)
  room := by
    change _ ≤ acc.1.inBuffer.length
    rw [regrouping.inBuffer]
    exact room

/-- The stream's area and the auxiliary one, whichever of them is the input. -/
def SplitState.area (st : SplitState α) (aux : Bool) : List α :=
  if st.flipped = aux then st.inBuffer else st.outBuffer

theorem SplitState.area_swap (st : SplitState α) (aux : Bool) : st.swap.area aux = st.area aux := by
  unfold area swap
  cases st.flipped <;> cases aux <;> rfl

/-- What a split leaves. -/
structure SplitInto (key : α → Nat) (base : Nat) (records : List α) (final : Nat)
    (st st' : SplitState α) : Prop where
  index : ∀ i < final, st'.inIndex i = base + place key records 0 i
  outIndex : ∀ i, st'.outIndex i = 0
  pieces : ∀ i < final, (st'.inBuffer.drop (base + place key records 0 i)).take
    (bucket key records i).length = bucket key records i
  frame : ∀ aux, SameOutside base (base + records.length) (st.area aux) (st'.area aux)
  mem_workq : ∀ j, j ∈ st'.workq ↔ j ∈ st.workq ∨ j < final ∧ bucket key records j ≠ []
  nodup : st.workq.Nodup → st'.workq.Nodup

theorem Regrouping.area {acc : SplitState α × Nat}
    (regrouping : Regrouping key base records final c d st m acc) (aux : Bool) :
    SameOutside base (base + records.length) (st.area aux) (acc.1.area aux) := by
  unfold SplitState.area
  rw [regrouping.flipped, regrouping.inBuffer]
  split
  · exact SameOutside.refl _ _ _
  · exact regrouping.frame

/-- The rounds, by induction on the fuel: each round is one more grouping. -/
theorem splitInto_splitRounds [Inhabited α] {k fuel : Nat} {st st' : SplitState α}
    (splitting : Splitting k c) (more : c.numIn < 2 ^ k) (grouped : Grouped key base records c st)
    (keys : ∀ r ∈ records, key r < 2 ^ k) (room : base + records.length ≤ st.inBuffer.length)
    (isDone : splitRounds key (2 ^ k) records.length fuel c st = some st') :
    SplitInto key base records (2 ^ k) st st' := by
  induction fuel generalizing c st with
  | zero => exact absurd isDone (Option.some_ne_none _).symm
  | succ fuel ih =>
    have positive := splitting.numIn_pos
    have first : st.inIndex 0 = base := grouped.index 0 positive
    have refines := splitting.refines more keys
    unfold splitRounds at isDone
    rw [if_pos more] at isDone
    dsimp only at isDone
    split at isDone
    · rw [first, Option.bind_eq_some_iff] at isDone
      obtain ⟨acc, inputs, rest⟩ := isDone
      have regrouping := regrouping_splitInputs grouped refines (Nat.le_refl _) inputs
      have grouped' := regrouping.swap grouped refines room
      obtain ⟨splitting', -, -, -⟩ := splitting.next more
      rcases Nat.lt_or_eq_of_le splitting'.numIn_le with more' | all
      · have room' : base + records.length ≤ acc.1.swap.inBuffer.length := by
          change _ ≤ acc.1.outBuffer.length
          rw [regrouping.frame.length]
          exact grouped.room
        have into := ih splitting' more' grouped' room' rest
        have queue : acc.1.swap.workq = acc.1.workq := rfl
        refine { into with
          frame := fun aux => ?_
          mem_workq := fun j => ?_
          nodup := fun nodup => into.nodup (regrouping.nodup nodup) }
        · have step := into.frame aux
          rw [SplitState.area_swap] at step
          exact (regrouping.area aux).trans step
        · rw [into.mem_workq, queue, regrouping.mem_workq]
          have notLast : c.next.numIn ≠ 2 ^ k := Nat.ne_of_lt more'
          simp [notLast]
      · have shift : c.next.shift = 0 := by
          have := splitting'.numIn_lt_iff
          omega
        have whole : (fun r => key r >>> c.next.shift) = key := by
          funext r
          rw [shift, Nat.shiftRight_zero]
        have ends : acc.1.swap = st' := by
          cases fuel with
          | zero => exact absurd rest (Option.some_ne_none _).symm
          | succ fuel =>
            unfold splitRounds at rest
            rw [if_neg (by omega)] at rest
            exact Option.some.inj rest
        obtain ⟨index, -, outIndex, pieces, -⟩ := grouped'
        rw [all, whole] at index pieces
        subst ends
        refine ⟨index, outIndex, pieces, fun aux => ?_, fun j => ?_, regrouping.nodup⟩
        · rw [SplitState.area_swap]
          exact regrouping.area aux
        · refine (regrouping.mem_workq j).trans ?_
          rw [whole, ← refines.product, all]
          simp
    · exact absurd isDone (Option.some_ne_none _).symm

theorem flipped_splitInput [Inhabited α] {i : Nat} {acc acc' : SplitState α × Nat} {items : Nat}
    (isNext : splitInput key final c d base items acc i = some acc') :
    acc'.1.flipped = acc.1.flipped := by
  unfold splitInput at isNext
  dsimp only at isNext
  split at isNext
  · obtain rfl := Option.some.inj isNext
    rfl
  · split at isNext
    · exact absurd isNext (Option.some_ne_none _).symm
    · split at isNext
      all_goals
        obtain rfl := Option.some.inj isNext
        rfl

theorem flipped_splitInputs [Inhabited α] {inputs : List Nat} {acc acc' : SplitState α × Nat}
    {items : Nat} (isDone : splitInputs key final c d base items inputs acc = some acc') :
    acc'.1.flipped = acc.1.flipped := by
  unfold splitInputs at isDone
  induction inputs generalizing acc with
  | nil =>
    obtain rfl := Option.some.inj isDone
    rfl
  | cons i inputs ih =>
    rw [List.foldlM_cons, Option.bind_eq_bind, Option.bind_eq_some_iff] at isDone
    obtain ⟨next, isNext, rest⟩ := isDone
    exact (ih rest).trans (flipped_splitInput isNext)

/-- Where the result is depends on the rounds only. -/
theorem flipped_splitRounds [Inhabited α] {fuel items₁ items₂ : Nat} {st₁ st₁' st₂ st₂' : SplitState α}
    (same : st₁.flipped = st₂.flipped)
    (isDone₁ : splitRounds key final items₁ fuel c st₁ = some st₁')
    (isDone₂ : splitRounds key final items₂ fuel c st₂ = some st₂') :
    st₁'.flipped = st₂'.flipped := by
  induction fuel generalizing c st₁ st₂ with
  | zero => exact absurd isDone₁ (Option.some_ne_none _).symm
  | succ fuel ih =>
    unfold splitRounds at isDone₁ isDone₂
    split at isDone₁
    · rename_i more
      rw [if_pos more] at isDone₂
      dsimp only at isDone₁ isDone₂
      split at isDone₁
      · rename_i head
        rw [if_pos head, Option.bind_eq_some_iff] at isDone₂
        rw [Option.bind_eq_some_iff] at isDone₁
        obtain ⟨acc₁, inputs₁, rest₁⟩ := isDone₁
        obtain ⟨acc₂, inputs₂, rest₂⟩ := isDone₂
        refine ih ?_ rest₁ rest₂
        change (!acc₁.1.flipped) = !acc₂.1.flipped
        rw [flipped_splitInputs inputs₁, flipped_splitInputs inputs₂]
        exact congrArg not same
      · exact absurd isDone₁ (Option.some_ne_none _).symm
    · rename_i all
      rw [if_neg all] at isDone₂
      rw [← Option.some.inj isDone₁, ← Option.some.inj isDone₂, same]

/-- `x_split` on the records of a slice. -/
theorem splitInto_xSplit [Inhabited α] {k fanout fuel : Nat} {st st' : SplitState α}
    (power : 2 ^ k = 1 ∨ ∃ d, 0 < d ∧ fanout = 2 ^ d) (keys : ∀ r ∈ records, key r < 2 ^ k)
    (index : ∀ i, st.inIndex i = if i = 0 then base else 0) (outIndex : ∀ i, st.outIndex i = 0)
    (piece : (st.inBuffer.drop base).take records.length = records)
    (room : ∀ aux, base + records.length ≤ (st.area aux).length)
    (isDone : xSplit key fanout (2 ^ k) records.length fuel st = some st') :
    SplitInto key base records (2 ^ k) st st' := by
  have rooms : base + records.length ≤ st.inBuffer.length ∧
      base + records.length ≤ st.outBuffer.length := by
    have both := And.intro (room st.flipped) (room (!st.flipped))
    unfold SplitState.area at both
    simpa using both
  have all : ∀ {f : α → Nat}, (∀ r ∈ records, f r = 0) → bucket f records 0 = records :=
    fun zero => List.filter_eq_self.mpr fun r member => by simpa using zero r member
  unfold xSplit at isDone
  split at isDone
  · rename_i one
    obtain rfl := Option.some.inj isDone
    rw [one] at keys ⊢
    have isAll := all (f := key) fun r member => Nat.lt_one_iff.mp (keys r member)
    refine ⟨fun i below => ?_, outIndex, fun i below => ?_, fun aux => SameOutside.refl _ _ _,
      fun j => ?_, fun nodup => ?_⟩
    · obtain rfl : i = 0 := by omega
      exact index 0
    · obtain rfl : i = 0 := by omega
      rw [isAll]
      exact piece
    · dsimp only
      split
      · rename_i some_
        rw [mem_queue]
        constructor
        · rintro (rfl | queued)
          · exact Or.inr ⟨Nat.one_pos, by rw [isAll]; exact List.ne_nil_of_length_pos some_⟩
          · exact Or.inl queued
        · rintro (queued | ⟨below, -⟩)
          · exact Or.inr queued
          · exact Or.inl (by omega)
      · rename_i empty
        have nothing : records = [] := List.length_eq_zero_iff.mp (by omega)
        simp [nothing, bucket]
    · dsimp only
      split
      · exact nodup_queue nodup 0
      · exact nodup
  · rename_i several
    obtain ⟨d, bits, rfl⟩ := power.resolve_left several
    obtain ⟨c, start, splitting, shift, one⟩ := splitting_start (k := k) bits
    rw [start, Option.bind_some] at isDone
    have less : c.numIn < 2 ^ k := by
      have := Nat.two_pow_pos k
      omega
    have isAll := all (f := fun r => key r >>> c.shift) fun r member =>
      Nat.lt_one_iff.mp ((splitting.shiftRight_lt (keys r member)).trans_eq one)
    refine splitInto_splitRounds splitting less ⟨fun i below => ?_, fun i beyond => ?_, outIndex,
      fun i below => ?_, rooms.2⟩ keys rooms.1 isDone
    · obtain rfl : i = 0 := by omega
      exact index 0
    · rw [index, if_neg (by omega)]
    · obtain rfl : i = 0 := by omega
      rw [isAll]
      exact piece

/-- All processors find their results in the same area. -/
theorem flipped_xSplit [Inhabited α] {fanout fuel items₁ items₂ : Nat}
    {st₁ st₁' st₂ st₂' : SplitState α} (same : st₁.flipped = st₂.flipped)
    (isDone₁ : xSplit key fanout final items₁ fuel st₁ = some st₁')
    (isDone₂ : xSplit key fanout final items₂ fuel st₂ = some st₂') :
    st₁'.flipped = st₂'.flipped := by
  unfold xSplit at isDone₁ isDone₂
  split at isDone₁
  · rename_i one
    rw [if_pos one] at isDone₂
    rw [← Option.some.inj isDone₁, ← Option.some.inj isDone₂]
    exact same
  · rename_i several
    rw [if_neg several, Option.bind_eq_some_iff] at isDone₂
    rw [Option.bind_eq_some_iff] at isDone₁
    obtain ⟨c, start, rounds₁⟩ := isDone₁
    obtain ⟨c', start', rounds₂⟩ := isDone₂
    obtain rfl := Option.some.inj (start.symm.trans start')
    exact flipped_splitRounds same rounds₁ rounds₂

end Round

section MakeIndex

variable {α : Type} {key : α → Nat}

namespace SplitBuffers

/-- The stream's area or the auxiliary one. -/
def area (b : SplitBuffers α) (aux : Bool) : List α := if aux then b.auxBuffer else b.stream.buffer

def index (b : SplitBuffers α) (aux : Bool) : Nat → Nat → Nat :=
  if aux then b.auxIndex else b.stream.index

/-- Where the slice of a processor starts. -/
def sliceStart (processors : Nat) (b : SplitBuffers α) (p : Nat) : Nat :=
  (sliceProcessors processors b).stream.index p 0

/-- The records of a processor. -/
def slice (processors : Nat) (b : SplitBuffers α) (p : Nat) : List α :=
  (b.stream.buffer.drop (sliceStart processors b p)).take
    ((sliceProcessors processors b).stream.perCpuSizes p)

variable {processors : Nat} {b : SplitBuffers α} {p : Nat}

theorem length_slice (below : p < processors) :
    (slice processors b p).length = (sliceProcessors processors b).stream.perCpuSizes p := by
  have fit : b.stream.buffer.length / processors * processors ≤ b.stream.buffer.length :=
    Nat.div_mul_le_self _ _
  unfold slice sliceStart sliceProcessors
  dsimp only
  generalize b.stream.buffer.length / processors = q at fit
  have upto : q * (p + 1) ≤ q * processors := Nat.mul_le_mul_left q below
  rw [Nat.mul_succ] at upto
  rw [List.length_take, List.length_drop, if_pos rfl]
  by_cases last : p + 1 = processors
  · rw [if_pos (by omega)]
    rw [← last, Nat.mul_succ] at fit ⊢
    omega
  · rw [if_neg (by omega)]
    omega

/-- The slices follow each other, and the last one ends with the buffer. -/
theorem slices_follow (below : p < processors) :
    sliceStart processors b p + (slice processors b p).length =
      if p + 1 = processors then b.stream.buffer.length else sliceStart processors b (p + 1) := by
  have fit : b.stream.buffer.length / processors * processors ≤ b.stream.buffer.length :=
    Nat.div_mul_le_self _ _
  rw [length_slice below]
  unfold sliceStart sliceProcessors
  dsimp only
  generalize b.stream.buffer.length / processors = q at fit
  rw [if_pos rfl, if_pos rfl]
  by_cases last : p + 1 = processors
  · rw [if_pos last, if_pos (by omega)]
    rw [← last, Nat.mul_succ] at fit ⊢
    omega
  · rw [if_neg last, if_neg (by omega), Nat.mul_succ]

theorem sliceStart_zero : sliceStart processors b 0 = 0 := Nat.mul_zero _

theorem slice_end_le {q : Nat} (less : p < q) (below : q < processors) :
    sliceStart processors b p + (slice processors b p).length ≤ sliceStart processors b q := by
  induction q with
  | zero => exact absurd less (Nat.not_lt_zero p)
  | succ q ih =>
    rcases Nat.lt_or_eq_of_le (Nat.le_of_lt_succ less) with earlier | rfl
    · have follow := slices_follow (b := b) (show q < processors by omega)
      rw [if_neg (by omega)] at follow
      have := ih earlier (by omega)
      omega
    · have follow := slices_follow (b := b) (show p < processors by omega)
      rw [if_neg (by omega)] at follow
      exact Nat.le_of_eq follow

theorem slice_end_le_length (below : p < processors) :
    sliceStart processors b p + (slice processors b p).length ≤ b.stream.buffer.length := by
  have follow := slices_follow (b := b) below
  split at follow
  · exact Nat.le_of_eq follow
  · have next := slices_follow (b := b) (show processors - 1 < processors by omega)
    rw [if_pos (by omega)] at next
    rcases Nat.lt_or_eq_of_le (show p ≤ processors - 1 by omega) with less | rfl
    · have := slice_end_le (b := b) less (show processors - 1 < processors by omega)
      omega
    · omega

/-- Every position is in a slice. -/
theorem exists_slice {x : Nat} (positive : 0 < processors) (inside : x < b.stream.buffer.length) :
    ∃ p < processors, sliceStart processors b p ≤ x ∧
      x < sliceStart processors b p + (slice processors b p).length := by
  have search : ∀ n ≤ processors, 0 < n → (n < processors → x < sliceStart processors b n) →
      ∃ p < n, sliceStart processors b p ≤ x ∧
        x < sliceStart processors b p + (slice processors b p).length := by
    intro n le some_ before
    induction n with
    | zero => exact absurd some_ (Nat.lt_irrefl 0)
    | succ n ih =>
      have follow := slices_follow (b := b) (show n < processors by omega)
      rcases Nat.lt_or_ge x (sliceStart processors b n) with earlier | here
      · have isPositive : 0 < n := by
          apply Nat.pos_of_ne_zero
          rintro rfl
          rw [sliceStart_zero] at earlier
          exact absurd earlier (Nat.not_lt_zero x)
        obtain ⟨p, less, bounds⟩ := ih (by omega) isPositive fun _ => earlier
        exact ⟨p, by omega, bounds⟩
      · refine ⟨n, Nat.lt_succ_self n, here, ?_⟩
        rw [follow]
        split
        · exact inside
        · exact before (by omega)
  exact search processors (Nat.le_refl _) positive fun absurd_ => absurd absurd_ (Nat.lt_irrefl _)

end SplitBuffers

/-- After `m` processors, when the results are in area `aux`. -/
structure Processed (key : α → Nat) (processors partitions : Nat) (aux : Bool) (b : SplitBuffers α)
    (m : Nat) (b' : SplitBuffers α) : Prop where
  length : ∀ area, (b'.area area).length = b.stream.buffer.length
  perCpuSizes : b'.stream.perCpuSizes = (sliceProcessors processors b).stream.perCpuSizes
  index : ∀ p < m, ∀ k < partitions, b'.index aux p k =
    b.sliceStart processors p + place key (b.slice processors p) 0 k
  cleared : ∀ p < m, ∀ k, b'.index (!aux) p k = 0
  pieces : ∀ p < m, ∀ k < partitions,
    ((b'.area aux).drop (b.sliceStart processors p + place key (b.slice processors p) 0 k)).take
      (bucket key (b.slice processors p) k).length = bucket key (b.slice processors p) k
  start : ∀ p < processors, m ≤ p →
    ∀ k, b'.stream.index p k = if k = 0 then b.sliceStart processors p else 0
  fresh : ∀ p < processors, m ≤ p → ∀ k, b'.auxIndex p k = 0
  left : ∀ p < processors, m ≤ p →
    (b'.stream.buffer.drop (b.sliceStart processors p)).take (b.slice processors p).length =
      b.slice processors p
  mem_workq : ∀ k, k ∈ b'.workq ↔
    k < partitions ∧ ∃ p < m, bucket key (b.slice processors p) k ≠ []
  nodup : b'.workq.Nodup

/-- What `make_index` of a processor does to the buffers. -/
theorem splitProcessor_eq_some [Inhabited α] {fanout partitions fuel p : Nat} {b b' : SplitBuffers α}
    {twizzle : Bool} (isDone : splitProcessor key fanout partitions fuel b p = some (b', twizzle)) :
    ∃ st', xSplit key fanout partitions (b.stream.perCpuSizes p) fuel
        ⟨b.stream.buffer, b.auxBuffer, b.stream.index p, b.auxIndex p, b.workq, false⟩ = some st' ∧
      twizzle = st'.flipped ∧ b'.workq = st'.workq ∧
      b'.stream.perCpuSizes = b.stream.perCpuSizes ∧
      b'.area twizzle = st'.inBuffer ∧ (∀ area, b'.area area = st'.area area) ∧
      b'.index twizzle p = st'.inIndex ∧ b'.index (!twizzle) p = st'.outIndex ∧
      ∀ area, ∀ q ≠ p, b'.index area q = b.index area q := by
  unfold splitProcessor at isDone
  obtain ⟨st', split, isDone⟩ := Option.map_eq_some_iff.mp isDone
  refine ⟨st', split, ?_⟩
  cases flipped : st'.flipped with
  | true =>
    rw [flipped, if_pos rfl, Prod.mk.injEq] at isDone
    obtain ⟨rfl, rfl⟩ := isDone
    refine ⟨rfl, rfl, rfl, rfl, fun area => ?_, Function.update_self .., Function.update_self ..,
      fun area q other => ?_⟩
    · cases area <;> simp [SplitBuffers.area, SplitState.area, flipped]
    · cases area
      · exact Function.update_of_ne other ..
      · exact Function.update_of_ne other ..
  | false =>
    rw [flipped, if_neg Bool.false_ne_true, Prod.mk.injEq] at isDone
    obtain ⟨rfl, rfl⟩ := isDone
    refine ⟨rfl, rfl, rfl, rfl, fun area => ?_, Function.update_self .., Function.update_self ..,
      fun area q other => ?_⟩
    · cases area <;> simp [SplitBuffers.area, SplitState.area, flipped]
    · cases area
      · exact Function.update_of_ne other ..
      · exact Function.update_of_ne other ..

variable {processors m : Nat} {b b' b'' : SplitBuffers α}

/-- The step: the next processor. -/
theorem Processed.step [Inhabited α] {k fanout fuel : Nat} {twizzle : Bool}
    (processed : Processed key processors (2 ^ k) twizzle b m b') (below : m < processors)
    (power : 2 ^ k = 1 ∨ ∃ d, 0 < d ∧ fanout = 2 ^ d) (keys : ∀ r ∈ b.stream.buffer, key r < 2 ^ k)
    (isNext : splitProcessor key fanout (2 ^ k) fuel b' m = some (b'', twizzle)) :
    Processed key processors (2 ^ k) twizzle b (m + 1) b'' := by
  obtain ⟨st', split, isTwizzle, workq, perCpuSizes, here, area, index, cleared, others⟩ :=
    splitProcessor_eq_some isNext
  have inside := b.slice_end_le_length below
  have size : b'.stream.perCpuSizes m = (b.slice processors m).length := by
    rw [processed.perCpuSizes, SplitBuffers.length_slice below]
  rw [size] at split
  have into : SplitInto key (b.sliceStart processors m) (b.slice processors m) (2 ^ k) _ st' :=
    splitInto_xSplit power
      (fun r member => keys r (List.mem_of_mem_drop (List.mem_of_mem_take member)))
      (processed.start m below (Nat.le_refl m)) (processed.fresh m below (Nat.le_refl m))
      (processed.left m below (Nat.le_refl m)) (fun aux => by
        have length := processed.length aux
        cases aux
        all_goals
          refine Nat.le_trans inside (Nat.le_of_eq length.symm)) split
  have frame : ∀ aux, SameOutside (b.sliceStart processors m)
      (b.sliceStart processors m + (b.slice processors m).length) (b'.area aux) (b''.area aux) := by
    intro aux
    rw [area]
    have same := into.frame aux
    cases aux
    all_goals exact same
  have before : ∀ p < m, b.sliceStart processors p + (b.slice processors p).length ≤
      b.sliceStart processors m := fun p less => b.slice_end_le less below
  refine ⟨fun aux => (frame aux).length.trans (processed.length aux),
    perCpuSizes.trans processed.perCpuSizes, fun p less k' isKey => ?_, fun p less k' => ?_,
    fun p less k' isKey => ?_, fun p isProcessor le => ?_, fun p isProcessor le => ?_,
    fun p isProcessor le => ?_, fun k' => ?_, ?_⟩
  · rcases Nat.lt_or_eq_of_le (Nat.le_of_lt_succ less) with earlier | rfl
    · rw [others _ _ (Nat.ne_of_lt earlier)]
      exact processed.index p earlier k' isKey
    · rw [index]
      exact into.index k' isKey
  · rcases Nat.lt_or_eq_of_le (Nat.le_of_lt_succ less) with earlier | rfl
    · rw [others _ _ (Nat.ne_of_lt earlier)]
      exact processed.cleared p earlier k'
    · rw [cleared]
      exact into.outIndex k'
  · rcases Nat.lt_or_eq_of_le (Nat.le_of_lt_succ less) with earlier | rfl
    · have ends := place_le_length (f := key) (b.slice processors p) 0 (k' + 1)
      rw [place_succ, Nat.zero_add] at ends
      have := before p earlier
      rw [(frame twizzle).piece (Or.inl (by omega))]
      exact processed.pieces p earlier k' isKey
    · rw [here]
      exact into.pieces k' isKey
  · rw [show b''.stream.index p = b'.stream.index p from others false p (by omega)]
    exact processed.start p isProcessor (by omega)
  · rw [show b''.auxIndex p = b'.auxIndex p from others true p (by omega)]
    exact processed.fresh p isProcessor (by omega)
  · have behind := b.slice_end_le (show m < p by omega) isProcessor
    have same := (frame false).piece (p := b.sliceStart processors p)
      (n := (b.slice processors p).length) (Or.inr behind)
    exact same.trans (processed.left p isProcessor (by omega))
  · rw [workq, into.mem_workq, processed.mem_workq]
    constructor
    · rintro (⟨isKey, p, less, some_⟩ | ⟨isKey, some_⟩)
      · exact ⟨isKey, p, by omega, some_⟩
      · exact ⟨isKey, m, Nat.lt_succ_self m, some_⟩
    · rintro ⟨isKey, p, less, some_⟩
      rcases Nat.lt_or_eq_of_le (Nat.le_of_lt_succ less) with earlier | rfl
      · exact Or.inl ⟨isKey, p, earlier, some_⟩
      · exact Or.inr ⟨isKey, some_⟩
  · rw [workq]
    exact into.nodup processed.nodup

/-- Behind the first barrier. -/
theorem processed_sliceProcessors {partitions : Nat} (aux : Bool)
    (length : b.auxBuffer.length = b.stream.buffer.length)
    (auxIndex : ∀ p < processors, ∀ k, b.auxIndex p k = 0) :
    Processed key processors partitions aux b 0 (sliceProcessors processors b) where
  length area := by
    cases area
    · rfl
    · exact length
  perCpuSizes := rfl
  index p none_ := absurd none_ (Nat.not_lt_zero p)
  cleared p none_ := absurd none_ (Nat.not_lt_zero p)
  pieces p none_ := absurd none_ (Nat.not_lt_zero p)
  start p _ _ k := rfl
  fresh p below _ k := auxIndex p below k
  left p below _ := by
    rw [SplitBuffers.length_slice below]
    rfl
  mem_workq k := by
    constructor
    · exact fun none_ => absurd none_ List.not_mem_nil
    · rintro ⟨-, p, none_, -⟩
      exact absurd none_ (Nat.not_lt_zero p)
  nodup := List.nodup_nil

/-- Every position belongs to one partition of one slice. -/
theorem existsUnique_place {partitions x : Nat} (positive : 0 < processors)
    (keys : ∀ r ∈ b.stream.buffer, key r < partitions) (inside : x < b.stream.buffer.length) :
    ∃! pk : Nat × Nat, pk.1 < processors ∧ pk.2 < partitions ∧
      b.sliceStart processors pk.1 + place key (b.slice processors pk.1) 0 pk.2 ≤ x ∧
      x < b.sliceStart processors pk.1 + place key (b.slice processors pk.1) 0 (pk.2 + 1) := by
  obtain ⟨p, below, low, high⟩ := SplitBuffers.exists_slice positive inside
  have whole : place key (b.slice processors p) 0 partitions = (b.slice processors p).length :=
    place_eq_length fun r member => ⟨Nat.zero_le _, by
      have := keys r (List.mem_of_mem_drop (List.mem_of_mem_take member))
      omega⟩
  obtain ⟨j, isKey, least, greatest⟩ := exists_place (f := key) (b.slice processors p) 0
    (show x - b.sliceStart processors p < place key (b.slice processors p) 0 partitions by omega)
  refine ⟨(p, j), ⟨below, isKey, by dsimp only; omega, by dsimp only; omega⟩, ?_⟩
  rintro ⟨p', j'⟩ ⟨below', isKey', low', high'⟩
  dsimp only at below' isKey' low' high'
  have inSlice := place_le_length (f := key) (b.slice processors p') 0 (j' + 1)
  have samePart : p' = p := by
    rcases Nat.lt_trichotomy p' p with less | same | greater
    · have := b.slice_end_le less below
      omega
    · exact same
    · have := b.slice_end_le greater below'
      omega
  subst samePart
  have sameKey : j' = j := by
    rcases Nat.lt_trichotomy j' j with less | same | greater
    · have := place_mono (f := key) (b.slice processors p') 0 (show j' + 1 ≤ j by omega)
      omega
    · exact same
    · have := place_mono (f := key) (b.slice processors p') 0 (show j + 1 ≤ j' by omega)
      omega
  rw [sameKey]

variable {k fanout fuel : Nat}

/-- All processors. The area is that of processor 0, and the same for all. -/
theorem processed_foldlM [Inhabited α] {n : Nat} {done : SplitBuffers α × Bool}
    (power : 2 ^ k = 1 ∨ ∃ d, 0 < d ∧ fanout = 2 ^ d)
    (keys : ∀ r ∈ b.stream.buffer, key r < 2 ^ k)
    (length : b.auxBuffer.length = b.stream.buffer.length)
    (auxIndex : ∀ p < processors, ∀ k, b.auxIndex p k = 0) (some_ : 0 < n) (le : n ≤ processors)
    (isDone : (List.range n).foldlM (fun (acc : SplitBuffers α × Bool) p =>
      (splitProcessor key fanout (2 ^ k) fuel acc.1 p).map fun done =>
        (done.1, if p = 0 then done.2 else acc.2)) (sliceProcessors processors b, false) = some done) :
    Processed key processors (2 ^ k) done.2 b n done.1 ∧
      ∃ items, ∃ st st' : SplitState α, st.flipped = false ∧
        xSplit key fanout (2 ^ k) items fuel st = some st' ∧ st'.flipped = done.2 := by
  induction n generalizing done with
  | zero => exact absurd some_ (Nat.lt_irrefl 0)
  | succ n ih =>
    rw [List.range_succ, List.foldlM_append, Option.bind_eq_bind, Option.bind_eq_some_iff] at isDone
    obtain ⟨⟨b', twizzle⟩, isBefore, isNext⟩ := isDone
    simp only [List.foldlM_cons, List.foldlM_nil, bind_pure] at isNext
    obtain ⟨⟨b'', twizzle'⟩, isStep, rfl⟩ := Option.map_eq_some_iff.mp isNext
    obtain ⟨st', split, isTwizzle, -⟩ := splitProcessor_eq_some isStep
    rcases Nat.eq_zero_or_pos n with rfl | earlier
    · obtain ⟨rfl, rfl⟩ := Prod.mk.inj (Option.some.inj isBefore)
      dsimp only
      rw [if_pos rfl]
      exact ⟨(processed_sliceProcessors twizzle' length auxIndex).step (by omega) power keys isStep,
        _, _, _, rfl, split, isTwizzle.symm⟩
    · obtain ⟨processed, items, st₁, st₁', unflipped, split₁, isTwizzle₁⟩ :=
        ih earlier (by omega) isBefore
      have same := flipped_xSplit unflipped split₁ split
      rw [isTwizzle₁, ← isTwizzle] at same
      dsimp only at same processed ⊢
      subst same
      rw [if_neg (Nat.pos_iff_ne_zero.mp earlier)]
      exact ⟨processed.step (by omega) power keys isStep, _, _, _, rfl, split, isTwizzle.symm⟩

/-- What `make_index` is for: the substreams of a processor are the records of its slice, one
partition each, in their order, and together the substreams cover the buffer. -/
structure Partitioned (key : α → Nat) (processors partitions : Nat) (b b' : SplitBuffers α) :
    Prop where
  length : b'.stream.buffer.length = b.stream.buffer.length
  substream : ∀ p < processors, ∀ k < partitions,
    b'.stream.getSubstream p k = (b.slice processors p).filter fun r => decide (key r = k)
  inside : ∀ p < processors, ∀ k < partitions,
    b'.stream.index p k + b'.stream.substreamSize p k ≤ b'.stream.buffer.length
  covered : ∀ x < b'.stream.buffer.length, ∃! pk : Nat × Nat, pk.1 < processors ∧ pk.2 < partitions ∧
    b'.stream.index pk.1 pk.2 ≤ x ∧
      x < b'.stream.index pk.1 pk.2 + b'.stream.substreamSize pk.1 pk.2
  auxIndex : ∀ p < processors, ∀ k, b'.auxIndex p k = 0
  nodup : b'.workq.Nodup
  mem_workq : ∀ k, k ∈ b'.workq ↔
    k < partitions ∧ ∃ p < processors, b'.stream.getSubstream p k ≠ []

/-- The buffers when `make_index` returns: those behind the last processor, exchanged if the
results are in the auxiliary area. -/
theorem makeIndex_eq_some [Inhabited α] {partitions : Nat} (unindexed : b.stream.indexed = false)
    (isDone : makeIndex key processors fanout partitions fuel b = some b') :
    ∃ done : SplitBuffers α × Bool,
      (List.range processors).foldlM (fun (acc : SplitBuffers α × Bool) p =>
        (splitProcessor key fanout partitions fuel acc.1 p).map fun done =>
          (done.1, if p = 0 then done.2 else acc.2)) (sliceProcessors processors b, false) =
        some done ∧
      b'.stream.buffer = done.1.area done.2 ∧ b'.stream.index = done.1.index done.2 ∧
      b'.auxIndex = done.1.index (!done.2) ∧ b'.workq = done.1.workq ∧
      b'.stream.perCpuSizes = done.1.stream.perCpuSizes ∧ b'.stream.indexEntries = partitions := by
  unfold makeIndex at isDone
  rw [if_neg (by rw [unindexed]; exact Bool.false_ne_true)] at isDone
  obtain ⟨⟨last, twizzle⟩, fold, rfl⟩ := Option.map_eq_some_iff.mp isDone
  refine ⟨_, fold, ?_⟩
  cases twizzle <;> exact ⟨rfl, rfl, rfl, rfl, rfl, rfl⟩

/-- The substreams of a processor are its records, partition by partition. -/
theorem Processed.substream {partitions : Nat} {twizzle : Bool} {s : MemoryBuffer α}
    (processed : Processed key processors partitions twizzle b processors b')
    (keys : ∀ r ∈ b.stream.buffer, key r < partitions) (buffer : s.buffer = b'.area twizzle)
    (index : s.index = b'.index twizzle) (sizes : s.perCpuSizes = b'.stream.perCpuSizes)
    (entries : s.indexEntries = partitions) {p j : Nat} (below : p < processors)
    (isKey : j < partitions) :
    s.index p j = b.sliceStart processors p + place key (b.slice processors p) 0 j ∧
      s.substreamSize p j = (bucket key (b.slice processors p) j).length ∧
      s.getSubstream p j = bucket key (b.slice processors p) j := by
  have whole : place key (b.slice processors p) 0 partitions = (b.slice processors p).length :=
    place_eq_length fun r member => ⟨Nat.zero_le _, by
      have := keys r (List.mem_of_mem_drop (List.mem_of_mem_take member))
      omega⟩
  have next := place_succ (f := key) (b.slice processors p) 0 j
  rw [Nat.zero_add] at next
  have start := processed.index p below j isKey
  have size : s.substreamSize p j = (bucket key (b.slice processors p) j).length := by
    unfold MemoryBuffer.substreamSize
    rw [entries, index, sizes]
    split
    · rename_i notLast
      rw [start, processed.index p below (j + 1) (by omega)]
      omega
    · rename_i last
      obtain rfl : partitions = j + 1 := by omega
      rw [start, processed.index p below 0 (by omega), processed.perCpuSizes,
        ← SplitBuffers.length_slice below, place_zero]
      omega
  refine ⟨by rw [index, start], size, ?_⟩
  unfold MemoryBuffer.getSubstream
  rw [size, buffer, index, start]
  exact processed.pieces p below j isKey

/-- Whatever the splitter is given, the buffers it returns are partitioned. -/
theorem partitioned_of_makeIndex [Inhabited α] (positive : 0 < processors)
    (power : 2 ^ k = 1 ∨ ∃ d, 0 < d ∧ fanout = 2 ^ d)
    (keys : ∀ r ∈ b.stream.buffer, key r < 2 ^ k) (unindexed : b.stream.indexed = false)
    (length : b.auxBuffer.length = b.stream.buffer.length)
    (auxIndex : ∀ p < processors, ∀ k, b.auxIndex p k = 0)
    (isDone : makeIndex key processors fanout (2 ^ k) fuel b = some b') :
    Partitioned key processors (2 ^ k) b b' := by
  obtain ⟨done, fold, buffer, index, aux, workq, sizes, entries⟩ := makeIndex_eq_some unindexed isDone
  obtain ⟨processed, -⟩ := processed_foldlM power keys length auxIndex positive (Nat.le_refl _) fold
  have parts := fun {p j : Nat} => processed.substream (s := b'.stream) (p := p) (j := j) keys
    buffer index sizes entries
  have total : b'.stream.buffer.length = b.stream.buffer.length := by
    rw [buffer]
    exact processed.length _
  have ends : ∀ p < processors, ∀ j < 2 ^ k, b'.stream.index p j + b'.stream.substreamSize p j =
      b.sliceStart processors p + place key (b.slice processors p) 0 (j + 1) := by
    intro p below j isKey
    obtain ⟨start, size, -⟩ := parts below isKey
    rw [start, size, place_succ, Nat.zero_add, Nat.add_assoc]
  refine ⟨total, fun p below j isKey => (parts below isKey).2.2, fun p below j isKey => ?_,
    fun x inside => ?_, fun p below j => ?_, ?_, fun j => ?_⟩
  · have inSlice := place_le_length (f := key) (b.slice processors p) 0 (j + 1)
    have inBuffer := b.slice_end_le_length below
    rw [ends p below j isKey, total]
    omega
  · rw [total] at inside
    refine existsUnique_congr ?_ |>.mp (existsUnique_place positive keys inside)
    rintro ⟨p, j⟩
    dsimp only
    refine and_congr_right fun below => and_congr_right fun isKey => ?_
    rw [ends p below j isKey, (parts below isKey).1]
  · rw [aux]
    exact processed.cleared p below j
  · rw [workq]
    exact processed.nodup
  · rw [workq, processed.mem_workq]
    constructor
    · rintro ⟨isKey, p, below, some_⟩
      exact ⟨isKey, p, below, by rwa [(parts below isKey).2.2]⟩
    · rintro ⟨isKey, p, below, some_⟩
      exact ⟨isKey, p, below, by rwa [(parts below isKey).2.2] at some_⟩

/-- Partitioning a buffer is a permutation grouped by partition, for every map of the records to
`2 ^ k` partitions, every number of processors and every fanout. -/
theorem makeIndex_partitions [Inhabited α] (key : α → Nat) (processors k fanout : Nat)
    (b : SplitBuffers α) (positive : 0 < processors)
    (power : 2 ^ k = 1 ∨ ∃ d, 0 < d ∧ fanout = 2 ^ d)
    (keys : ∀ r ∈ b.stream.buffer, key r < 2 ^ k) (unindexed : b.stream.indexed = false)
    (length : b.auxBuffer.length = b.stream.buffer.length)
    (auxIndex : ∀ p < processors, ∀ j, b.auxIndex p j = 0) :
    (∃ fuel, (makeIndex key processors fanout (2 ^ k) fuel b).isSome) ∧
      ∀ fuel b', makeIndex key processors fanout (2 ^ k) fuel b = some b' →
        Partitioned key processors (2 ^ k) b b' := by
  constructor
  · rcases power with one | ⟨d, bits, rfl⟩
    · refine ⟨0, makeIndex_isSome key fun items st => ?_⟩
      unfold xSplit
      rw [if_pos one]
      rfl
    · exact ⟨k + 1, makeIndex_isSome key fun items st => xSplit_isSome key bits items st⟩
  · exact fun fuel b' => partitioned_of_makeIndex positive power keys unindexed length auxIndex

/-- Three records, two of them in the slice of the second processor. -/
def threeRecords : SplitBuffers Nat :=
  ⟨MemoryBuffer.unindexed [3, 1, 2], [0, 0, 0], fun _ _ => 0, []⟩

theorem makeIndex_partitions_three :
    (∃ fuel, (makeIndex (fun n : Nat => n) 2 2 (2 ^ 2) fuel threeRecords).isSome) ∧
      ∀ fuel b', makeIndex (fun n : Nat => n) 2 2 (2 ^ 2) fuel threeRecords = some b' →
        Partitioned (fun n : Nat => n) 2 (2 ^ 2) threeRecords b' :=
  makeIndex_partitions (fun n => n) 2 2 2 threeRecords (by decide) (Or.inr ⟨1, by decide, rfl⟩)
    (by decide) rfl rfl fun _ _ _ => rfl

end MakeIndex

end MBFGraph
