import MBFGraph.Lib.Overwrite

/-!
# Counting sort

The records of a list are put into buckets by a function into the numbers: counting, prefix sums,
and one pass that writes every record to the next place of its bucket. The pass keeps the order of
the records in a bucket. The outputs are the numbers from `first` on.
-/

namespace MBFGraph

namespace CountingSort

open Overwrite

variable {α : Type} (f : α → Nat)

/-- The records of bucket `j`, in their order. -/
def bucket (records : List α) (j : Nat) : List α := records.filter fun r => decide (f r = j)

/-- How many records are in the `t` buckets from `first` on. -/
def place (records : List α) (first t : Nat) : Nat :=
  ((List.range t).map fun i => (bucket f records (first + i)).length).sum

variable {f}

theorem mem_bucket {records : List α} {j : Nat} {r : α} :
    r ∈ bucket f records j ↔ r ∈ records ∧ f r = j := by
  simp [bucket]

theorem bucket_append (xs ys : List α) (j : Nat) :
    bucket f (xs ++ ys) j = bucket f xs j ++ bucket f ys j := List.filter_append ..

theorem bucket_singleton_self (r : α) : bucket f [r] (f r) = [r] := by simp [bucket]

theorem bucket_singleton_of_ne {r : α} {j : Nat} (other : f r ≠ j) : bucket f [r] j = [] := by
  simp [bucket, other]

@[simp] theorem place_zero (records : List α) (first : Nat) : place f records first 0 = 0 := rfl

theorem place_succ (records : List α) (first t : Nat) :
    place f records first (t + 1) =
      place f records first t + (bucket f records (first + t)).length := by
  simp [place, List.range_succ]

theorem place_mono (records : List α) (first : Nat) {t u : Nat} (le : t ≤ u) :
    place f records first t ≤ place f records first u := by
  induction le with
  | refl => exact Nat.le_refl _
  | step _ ih =>
    rw [place_succ]
    omega

theorem place_add (records : List α) (first t u : Nat) :
    place f records first (t + u) = place f records first t + place f records (first + t) u := by
  induction u with
  | zero => rfl
  | succ u ih => rw [← Nat.add_assoc, place_succ, place_succ, ih, Nat.add_assoc, Nat.add_assoc]

/-- Buckets that agree are placed alike. -/
theorem place_congr {g : α → Nat} {xs ys : List α} {first t : Nat}
    (same : ∀ i < t, bucket f xs (first + i) = bucket g ys (first + i)) :
    place f xs first t = place g ys first t := by
  unfold place
  congr 1
  refine List.map_congr_left fun i member => ?_
  rw [same i (List.mem_range.mp member)]

theorem place_cons (r : α) (records : List α) (first t : Nat) :
    place f (r :: records) first t =
      place f records first t + if first ≤ f r ∧ f r < first + t then 1 else 0 := by
  induction t with
  | zero =>
    have outside : ¬(first ≤ f r ∧ f r < first + 0) := by omega
    rw [if_neg outside]
    rfl
  | succ t ih =>
    rw [place_succ, place_succ, ih]
    by_cases here : f r = first + t
    · have now : first ≤ f r ∧ f r < first + (t + 1) := by omega
      have before : ¬(first ≤ f r ∧ f r < first + t) := by omega
      simp [bucket, here]
      omega
    · have same : (first ≤ f r ∧ f r < first + (t + 1)) ↔ (first ≤ f r ∧ f r < first + t) := by omega
      simp only [bucket, List.filter_cons, here, decide_false, Bool.false_eq_true, if_false, same]
      omega

/-- Every position before the end of the buckets is in one of them. -/
theorem exists_place (records : List α) (first : Nat) {t x : Nat} (below : x < place f records first t) :
    ∃ u < t, place f records first u ≤ x ∧ x < place f records first (u + 1) := by
  induction t with
  | zero => exact absurd below (Nat.not_lt_zero x)
  | succ t ih =>
    rcases Nat.lt_or_ge x (place f records first t) with earlier | here
    · obtain ⟨u, less, bounds⟩ := ih earlier
      exact ⟨u, by omega, bounds⟩
    · exact ⟨t, Nat.lt_succ_self t, here, below⟩

/-- Buckets that take all records. -/
theorem place_eq_length {records : List α} {first t : Nat}
    (inside : ∀ r ∈ records, first ≤ f r ∧ f r < first + t) :
    place f records first t = records.length := by
  induction records with
  | nil => simp [place, bucket]
  | cons r records ih =>
    rw [place_cons, ih fun r member => inside r (List.mem_cons_of_mem _ member),
      if_pos (inside r List.mem_cons_self), List.length_cons]

theorem place_le_length (records : List α) (first t : Nat) :
    place f records first t ≤ records.length := by
  induction records with
  | nil => simp [place, bucket]
  | cons r records ih =>
    rw [place_cons, List.length_cons]
    split <;> omega

/-- Counting. -/
theorem foldl_count (records : List α) (index : Nat → Nat) (j : Nat) :
    records.foldl (fun index r => Function.update index (f r) (index (f r) + 1)) index j =
      index j + (bucket f records j).length := by
  induction records generalizing index with
  | nil => rfl
  | cons r records ih =>
    rw [List.foldl_cons, ih]
    by_cases here : f r = j
    · subst here
      rw [Function.update_self]
      simp [bucket]
      omega
    · rw [Function.update_of_ne (Ne.symm here)]
      simp [bucket, here]

/-- Writing the records moves the index as counting does. -/
theorem foldl_scatter_index [Inhabited α] (records : List α) (acc : List α × (Nat → Nat)) (j : Nat) :
    (records.foldl (fun (acc : List α × (Nat → Nat)) r =>
      (overwrite acc.1 (acc.2 (f r)) [r], Function.update acc.2 (f r) (acc.2 (f r) + 1))) acc).2 j =
      acc.2 j + (bucket f records j).length := by
  rw [← foldl_count]
  induction records generalizing acc with
  | nil => rfl
  | cons r records ih => exact ih _

/-- Lists that differ between two positions at most. -/
structure SameOutside (a b : Nat) (xs ys : List α) : Prop where
  length : ys.length = xs.length
  getElem? : ∀ x, x < a ∨ b ≤ x → ys[x]? = xs[x]?

theorem SameOutside.refl (a b : Nat) (xs : List α) : SameOutside a b xs xs :=
  ⟨rfl, fun _ _ => rfl⟩

theorem SameOutside.trans {a b : Nat} {xs ys zs : List α} (first : SameOutside a b xs ys)
    (second : SameOutside a b ys zs) : SameOutside a b xs zs :=
  ⟨second.length.trans first.length,
    fun x outside => (second.getElem? x outside).trans (first.getElem? x outside)⟩

theorem SameOutside.mono {a a' b b' : Nat} {xs ys : List α} (same : SameOutside a b xs ys)
    (low : a' ≤ a) (high : b ≤ b') : SameOutside a' b' xs ys :=
  ⟨same.length, fun x outside => same.getElem? x (by omega)⟩

/-- A piece outside is the same. -/
theorem SameOutside.piece {a b : Nat} {xs ys : List α} (same : SameOutside a b xs ys) {p n : Nat}
    (outside : p + n ≤ a ∨ b ≤ p) : (ys.drop p).take n = (xs.drop p).take n := by
  apply List.ext_getElem?
  intro i
  simp only [List.getElem?_take, List.getElem?_drop]
  split
  · exact same.getElem? _ (by omega)
  · rfl

theorem sameOutside_overwrite [Inhabited α] {xs ys : List α} {a : Nat}
    (inside : a + ys.length ≤ xs.length) :
    SameOutside a (a + ys.length) xs (overwrite xs a ys) := by
  refine ⟨length_overwrite_inside inside, fun x outside => ?_⟩
  rw [getElem?_overwrite (by omega), if_neg (by omega)]

/-- A piece of what was written. -/
theorem piece_overwrite [Inhabited α] {xs ys : List α} {a p n : Nat}
    (inside : a + ys.length ≤ xs.length) (within : p + n ≤ ys.length) :
    ((overwrite xs a ys).drop (a + p)).take n = (ys.drop p).take n := by
  apply List.ext_getElem?
  intro i
  simp only [List.getElem?_take, List.getElem?_drop]
  split
  · rw [getElem?_overwrite (by omega), if_pos (by omega), show a + p + i - a = p + i by omega]
  · rfl

/-- A piece, position by position. -/
theorem piece_eq_iff {xs piece : List α} {p : Nat} :
    (xs.drop p).take piece.length = piece ↔ ∀ i < piece.length, xs[p + i]? = piece[i]? := by
  constructor
  · intro same i below
    have here := congrArg (fun l => l[i]?) same
    simp only [List.getElem?_take, List.getElem?_drop, if_pos below] at here
    exact here
  · intro same
    apply List.ext_getElem?
    intro i
    simp only [List.getElem?_take, List.getElem?_drop]
    split
    · rename_i below
      exact same i below
    · rename_i beyond
      rw [List.getElem?_eq_none (Nat.le_of_not_lt beyond)]

section Refine

variable {g : α → Nat} {width : Nat} {records : List α}

/-- Buckets that come from one coarser bucket. -/
theorem bucket_refine (refines : ∀ r ∈ records, f r / width = g r) {i t : Nat} (below : t < width) :
    bucket f (bucket g records i) (width * i + t) = bucket f records (width * i + t) := by
  unfold bucket
  rw [List.filter_filter]
  refine List.filter_congr fun r member => ?_
  by_cases here : f r = width * i + t
  · have coarse : g r = i := by
      rw [← refines r member, here, Nat.mul_add_div (by omega), Nat.div_eq_of_lt below, Nat.add_zero]
    simp [here, coarse]
  · simp [here]

theorem refine_bounds (refines : ∀ r ∈ records, f r / width = g r) (positive : 0 < width) {i : Nat} :
    ∀ r ∈ bucket g records i, width * i ≤ f r ∧ f r < width * i + width := by
  intro r member
  obtain ⟨ofRecords, coarse⟩ := mem_bucket.mp member
  have quotient := Nat.div_add_mod (f r) width
  rw [refines r ofRecords, coarse] at quotient
  have remainder := Nat.mod_lt (f r) positive
  omega

theorem place_refine_bucket (refines : ∀ r ∈ records, f r / width = g r) {i t : Nat} (le : t ≤ width) :
    place f (bucket g records i) (width * i) t = place f records (width * i) t :=
  place_congr fun u below => bucket_refine refines (by omega)

/-- A coarser grouping has its buckets at the same places. -/
theorem place_refine (refines : ∀ r ∈ records, f r / width = g r) (positive : 0 < width) (i : Nat) :
    place f records 0 (width * i) = place g records 0 i := by
  induction i with
  | zero => rfl
  | succ i ih =>
    rw [Nat.mul_succ, place_add, ih, Nat.zero_add, place_succ, Nat.zero_add,
      ← place_refine_bucket refines (Nat.le_refl width),
      place_eq_length (refine_bounds refines positive)]

theorem place_refine_add (refines : ∀ r ∈ records, f r / width = g r) (positive : 0 < width)
    {i t : Nat} (le : t ≤ width) : place f records 0 (width * i + t) =
      place g records 0 i + place f (bucket g records i) (width * i) t := by
  rw [place_add, place_refine refines positive, Nat.zero_add, place_refine_bucket refines le]

end Refine

section Scatter

variable [Inhabited α] {first outputs base : Nat} {records : List α}

/-- The pass that writes, after the records `done`: every bucket is filled from its place on, and
the index is behind what was written. -/
structure Filled (f : α → Nat) (records : List α) (first outputs base : Nat) (buffer : List α)
    (done : List α) (acc : List α × (Nat → Nat)) : Prop where
  index : ∀ t < outputs, acc.2 (first + t) =
    base + place f records first t + (bucket f done (first + t)).length
  frame : SameOutside base (base + records.length) buffer acc.1
  written : ∀ t < outputs, ∀ i < (bucket f done (first + t)).length,
    acc.1[base + place f records first t + i]? = (bucket f done (first + t))[i]?

/-- A record is written behind the earlier ones of its bucket, and into no other bucket. -/
theorem Filled.step {buffer done later : List α} {r : α} {acc : List α × (Nat → Nat)}
    (filled : Filled f records first outputs base buffer done acc)
    (split : records = done ++ r :: later)
    (inside : ∀ r ∈ records, first ≤ f r ∧ f r < first + outputs)
    (room : base + records.length ≤ buffer.length) :
    Filled f records first outputs base buffer (done ++ [r])
      (overwrite acc.1 (acc.2 (f r)) [r], Function.update acc.2 (f r) (acc.2 (f r) + 1)) := by
  obtain ⟨low, high⟩ := inside r (by rw [split]; simp)
  obtain ⟨t, isOutput⟩ : ∃ t, f r = first + t := ⟨f r - first, by omega⟩
  have below : t < outputs := by omega
  have fewer : ∀ u, (bucket f done (first + u)).length ≤
      (bucket f records (first + u)).length := by
    intro u
    rw [split, bucket_append, List.length_append]
    exact Nat.le_add_right _ _
  have strictly : (bucket f done (first + t)).length <
      (bucket f records (first + t)).length := by
    rw [split, bucket_append, List.length_append, ← isOutput]
    have member : r ∈ bucket f (r :: later) (f r) := mem_bucket.mpr ⟨List.mem_cons_self, rfl⟩
    have := List.length_pos_of_mem member
    omega
  have position := filled.index t below
  rw [← isOutput] at position
  have last := place_le_length (f := f) records first (t + 1)
  have ends := place_succ (f := f) records first t
  have inBuffer : acc.2 (f r) + 1 ≤ acc.1.length := by
    rw [filled.frame.length, position, isOutput]
    omega
  have written : SameOutside (acc.2 (f r)) (acc.2 (f r) + 1) acc.1 (overwrite acc.1 (acc.2 (f r)) [r]) :=
    sameOutside_overwrite (show acc.2 (f r) + [r].length ≤ acc.1.length from inBuffer)
  refine ⟨?_, ?_, ?_⟩
  · intro u isBelow
    by_cases here : u = t
    · subst here
      simp only [← isOutput, Function.update_self, bucket_append, bucket_singleton_self,
        List.length_append, List.length_singleton]
      rw [position]
      omega
    · have other : f r ≠ first + u := by omega
      simp only [Function.update_of_ne (Ne.symm other), bucket_append,
        bucket_singleton_of_ne other, List.append_nil]
      exact filled.index u isBelow
  · refine filled.frame.trans (written.mono (by omega) ?_)
    rw [position, isOutput]
    omega
  · intro u isBelow i isInside
    by_cases here : u = t
    · subst here
      rw [bucket_append, ← isOutput, bucket_singleton_self, List.length_append,
        List.length_singleton] at isInside
      simp only [← isOutput, bucket_append, bucket_singleton_self]
      rcases Nat.lt_or_eq_of_le (Nat.le_of_lt_succ isInside) with earlier | now
      · rw [written.getElem? _ (Or.inl (by omega)), List.getElem?_append_left earlier, isOutput]
        rw [isOutput] at earlier
        exact filled.written u isBelow i earlier
      · rw [now, ← position, getElem?_overwrite (by omega), if_pos (by simp)]
        simp
    · have other : f r ≠ first + u := by omega
      simp only [bucket_append, bucket_singleton_of_ne other, List.append_nil] at isInside ⊢
      have outside : base + place f records first u + i < acc.2 (f r) ∨
          acc.2 (f r) + 1 ≤ base + place f records first u + i := by
        have size := fewer u
        rw [position, isOutput]
        rcases Nat.lt_or_gt_of_ne here with before | behind
        · have le := place_mono (f := f) records first (show u + 1 ≤ t by omega)
          rw [place_succ] at le
          omega
        · have le := place_mono (f := f) records first (show t + 1 ≤ u by omega)
          omega
      rw [written.getElem? _ outside]
      exact filled.written u isBelow i isInside

/-- The whole pass, by induction on the records that are left. -/
theorem filled_foldl {buffer : List α} (later : List α) {done : List α}
    {acc : List α × (Nat → Nat)} (filled : Filled f records first outputs base buffer done acc)
    (split : records = done ++ later)
    (inside : ∀ r ∈ records, first ≤ f r ∧ f r < first + outputs)
    (room : base + records.length ≤ buffer.length) :
    Filled f records first outputs base buffer records (later.foldl (fun acc r =>
      (overwrite acc.1 (acc.2 (f r)) [r], Function.update acc.2 (f r) (acc.2 (f r) + 1))) acc) := by
  induction later generalizing done acc with
  | nil =>
    rw [List.append_nil] at split
    rw [split] at filled ⊢
    exact filled
  | cons r later ih =>
    rw [List.foldl_cons]
    exact ih (filled.step split inside room) (by rw [split]; simp)

end Scatter

section Sorted

/-- A sorted list is its small, its equal and its large records. -/
theorem eq_filters_of_sorted {records : List α} (sorted : records.Pairwise fun x y => f x ≤ f y)
    (v : Nat) : records = (records.filter fun r => decide (f r < v)) ++ bucket f records v ++
      records.filter fun r => decide (v < f r) := by
  induction records with
  | nil => rfl
  | cons r records ih =>
    obtain ⟨least, sorted⟩ := List.pairwise_cons.mp sorted
    have rest := ih sorted
    unfold bucket at rest ⊢
    rcases Nat.lt_trichotomy (f r) v with small | equal | large
    · have notEqual : f r ≠ v := by omega
      have notLarge : ¬ v < f r := by omega
      simp only [List.filter_cons, small, notEqual, notLarge, decide_true, decide_false, if_true,
        Bool.false_eq_true, if_false, List.cons_append]
      rw [← rest]
    · have none_ : (records.filter fun r => decide (f r < v)) = [] := by
        apply List.filter_eq_nil_iff.mpr
        intro s member
        have := least s member
        simp
        omega
      have notSmall : ¬ f r < v := by omega
      have notLarge : ¬ v < f r := by omega
      rw [none_, List.nil_append] at rest
      simp only [List.filter_cons, equal, decide_true, decide_false, if_true,
        Bool.false_eq_true, if_false, none_, List.nil_append, List.cons_append,
        Nat.lt_irrefl]
      rw [← rest]
    · have none_ : (records.filter fun r => decide (f r < v)) = [] := by
        apply List.filter_eq_nil_iff.mpr
        intro s member
        have := least s member
        simp
        omega
      have noneEqual : (records.filter fun r => decide (f r = v)) = [] := by
        apply List.filter_eq_nil_iff.mpr
        intro s member
        have := least s member
        simp
        omega
      have notSmall : ¬ f r < v := by omega
      have notEqual : f r ≠ v := by omega
      rw [none_, noneEqual, List.nil_append, List.nil_append] at rest
      simp only [List.filter_cons, notSmall, notEqual, large, decide_true, decide_false, if_true,
        Bool.false_eq_true, if_false, none_, noneEqual, List.nil_append]
      rw [← rest]

theorem length_filter_lt {records : List α} {first : Nat} (low : ∀ r ∈ records, first ≤ f r)
    (t : Nat) : (records.filter fun r => decide (f r < first + t)).length =
      place f records first t := by
  induction records with
  | nil => simp [place, bucket]
  | cons r records ih =>
    have rest := ih fun r member => low r (List.mem_cons_of_mem _ member)
    have least := low r List.mem_cons_self
    rw [place_cons, ← rest, List.filter_cons]
    by_cases small : f r < first + t
    · rw [if_pos (by simpa using small), if_pos ⟨least, small⟩, List.length_cons]
    · rw [if_neg (by simpa using small), if_neg fun both => small both.2]
      omega

/-- Sorted records are in their buckets already. -/
theorem piece_of_sorted {records : List α} (sorted : records.Pairwise fun x y => f x ≤ f y)
    {first : Nat} (low : ∀ r ∈ records, first ≤ f r) (t : Nat) :
    (records.drop (place f records first t)).take (bucket f records (first + t)).length =
      bucket f records (first + t) := by
  have split := eq_filters_of_sorted sorted (first + t)
  rw [← length_filter_lt low t]
  generalize (records.filter fun r => decide (f r < first + t)) = small at *
  generalize (records.filter fun r => decide (first + t < f r)) = large at *
  generalize bucket f records (first + t) = equal at *
  rw [split, List.append_assoc, List.drop_left, List.take_left]

end Sorted

end CountingSort

end MBFGraph
