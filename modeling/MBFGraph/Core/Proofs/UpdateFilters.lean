import MBFGraph.Core.Proofs.CreateFilters
import MBFGraph.Core.Proofs.NeverHide

/-!
# Mode `update`

An incremental run resumes at the files that mode `create` wrote for a prefix of the edge file.
With one super partition it redoes the last group, with several it resumes every super partition
at its last full group. The first is lost when there is no group yet, the second when a partial
group has to be read back.
-/

namespace MBFGraph

open ByteBits Groups Stdio Overwrite

section Sizes

variable {E : Type} {F : FormatUtils E} {o : BloomOptions}

theorem edgesPerBuf_eq (products : o.IntProducts) : o.edgesPerBuf = o.bfsPerPage * 256 := by
  have := products.2
  unfold simdLen at this
  unfold BloomOptions.edgesPerBuf simdLen
  exact Nat.mod_eq_of_lt (by omega)

theorem edgesPerBuf_pos (products : o.IntProducts) : 0 < o.edgesPerBuf := by
  have := o.bfsPerPage_pos
  rw [edgesPerBuf_eq products]
  omega

theorem edgesPerBuf_lt (products : o.IntProducts) : o.edgesPerBuf < 2 ^ 31 := by
  have := products.2
  rw [edgesPerBuf_eq products]
  exact this

theorem bfBufSize_eq (products : o.IntProducts) : o.bfBufSize = groupBytes o := by
  have fits : GroupFits o := by
    have := products.1
    unfold simdLen at this
    exact (groupFits_iff o).mpr (by omega)
  rw [← fits]
  unfold groupBytes simdLen
  omega

theorem length_filterBytes (gs : List (List E)) :
    (filterBytes F o gs).length = gs.length * groupBytes o :=
  length_flatMap_const length_bloomOut_groupBytes gs

theorem filterGroup_eq (n : Nat) (xs : List E) :
    filterGroup xs.length n = (groups n xs).length := by
  rw [length_groups]
  unfold filterGroup
  by_cases aligned : xs.length % n = 0 <;> simp [aligned]

/-- More records, not fewer groups. -/
theorem length_groups_le_append (n : Nat) (xs ys : List E) :
    (groups n xs).length ≤ (groups n (xs ++ ys)).length := by
  rcases Nat.eq_zero_or_pos n with zero | positive
  · subst zero
    rw [length_groups, length_groups, List.length_append]
    simp only [Nat.div_zero, Nat.mod_zero]
    split <;> split <;> omega
  · have splitLeft := Nat.div_add_mod xs.length n
    have splitBoth := Nat.div_add_mod (xs ++ ys).length n
    have le : xs.length / n ≤ (xs ++ ys).length / n :=
      Nat.div_le_div_right (by rw [List.length_append]; omega)
    rw [List.length_append] at splitBoth le
    rw [length_groups, length_groups, List.length_append]
    rcases Nat.lt_or_eq_of_le le with less | equal
    · split <;> split <;> omega
    · rw [equal] at splitLeft ⊢
      split <;> split <;> omega

end Sizes

section Supers

variable {E : Type} [Inhabited E] [DecidableEq E] {m : Mapping} {F : FormatUtils E}
  {o : BloomOptions}

omit [Inhabited E] [DecidableEq E] in
/-- Every record belongs to one super partition. -/
theorem sum_length_superEdges (edges : List E) :
    ((List.range m.superPartitions).map fun s => (superEdges m F s edges).length).sum =
      edges.length := by
  induction edges with
  | nil => simp [superEdges]
  | cons edge edges ih =>
    have split : ∀ s, (superEdges m F s (edge :: edges)).length =
        (if m.mapSuperPartition (F.splitKey edge 0) = s then 1 else 0) +
          (superEdges m F s edges).length := by
      intro s
      rw [← List.singleton_append, superEdges_append, superEdges_singleton, List.length_append]
      split <;> simp
    have one : ∀ n, m.mapSuperPartition (F.splitKey edge 0) < n →
        ((List.range n).map fun s =>
          if m.mapSuperPartition (F.splitKey edge 0) = s then 1 else 0).sum = 1 := by
      intro n below
      rw [← List.sum_toFinset _ List.nodup_range, List.toFinset_range, Finset.sum_ite_eq,
        if_pos (Finset.mem_range.mpr below)]
    simp only [split]
    rw [List.sum_map_add, ih, one _ (m.mapSuperPartition_lt _), List.length_cons, Nat.add_comm]

/-- The files at their ends, nothing buffered. -/
def atEnd (files : BloomFiles E) : Nat → SuperBuf E := fun s =>
  ⟨⟨files.edges s, (files.edges s).length⟩, ⟨files.bf s, (files.bf s).length⟩, []⟩

omit [Inhabited E] [DecidableEq E] in
/-- Resuming a super partition of whole groups goes to the ends of its files; a partial group
fails the assertion, because a record has more than one byte. -/
theorem resumeSuper_created (products : o.IntProducts) (own : List E) :
    resumeSuper F o own.length
        ⟨File.opened own, File.opened (filterBytes F o (groups o.edgesPerBuf own)), []⟩ =
      if own.length % o.edgesPerBuf = 0 then
        some ⟨⟨own, own.length⟩, ⟨filterBytes F o (groups o.edgesPerBuf own),
          (filterBytes F o (groups o.edgesPerBuf own)).length⟩, []⟩
      else none := by
  unfold resumeSuper
  by_cases nothing : own.length = 0
  · have empty : own = [] := List.length_eq_zero_iff.mp nothing
    subst empty
    simp [File.opened]
  · rw [if_neg nothing]
    by_cases aligned : own.length % o.edgesPerBuf = 0
    · have count : (filterBytes F o (groups o.edgesPerBuf own)).length =
          own.length / o.edgesPerBuf * o.bfBufSize := by
        rw [length_filterBytes, length_groups, bfBufSize_eq products]
        simp [aligned]
      simp [aligned, count, fseek, fread, File.opened]
    · have shorter := Nat.mod_le own.length o.edgesPerBuf
      have record := F.holdsTwoIds
      have read : (fread (fseek (File.opened own) (own.length - own.length % o.edgesPerBuf))
          (own.length % o.edgesPerBuf)).1.length = own.length % o.edgesPerBuf := by
        simp only [fread, fseek, File.opened, List.length_take, List.length_drop]
        omega
      have more : own.length % o.edgesPerBuf ≠ own.length % o.edgesPerBuf * F.splitSizeBytes := by
        intro same
        have := Nat.mul_le_mul_left (own.length % o.edgesPerBuf) record
        omega
      simp [aligned, read, more]

omit [Inhabited E] [DecidableEq E] in
/-- Resuming the super partitions below `n`. -/
theorem resumeSupers_created (products : o.IntProducts) (several : 1 < m.superPartitions)
    (efile : List E) (n : Nat) :
    resumeSupers F o (fun s => ((createdFiles m F o efile).edges s).length) n
        (fun s => ⟨File.opened ((createdFiles m F o efile).edges s),
          File.opened ((createdFiles m F o efile).bf s), []⟩) =
      if ∀ s < n, (superEdges m F s efile).length % o.edgesPerBuf = 0 then
        some fun s =>
          if s < n then atEnd (createdFiles m F o efile) s
          else ⟨File.opened ((createdFiles m F o efile).edges s),
            File.opened ((createdFiles m F o efile).bf s), []⟩
      else none := by
  induction n with
  | zero => simp [resumeSupers]
  | succ n ih =>
    have bound : ∀ s, s < n + 1 ↔ s < n ∨ s = n := by intro s; omega
    have own : (createdFiles m F o efile).edges n = superEdges m F n efile := by
      simp [createdFiles, several]
    unfold resumeSupers
    rw [ih]
    by_cases before : ∀ s < n, (superEdges m F s efile).length % o.edgesPerBuf = 0
    · rw [if_pos before]
      have this_ := resumeSuper_created (F := F) products (superEdges m F n efile)
      simp only [Nat.lt_irrefl, if_false, own]
      rw [show (createdFiles m F o efile).bf n =
        filterBytes F o (groups o.edgesPerBuf (superEdges m F n efile)) from rfl, this_]
      by_cases aligned : (superEdges m F n efile).length % o.edgesPerBuf = 0
      · have all : ∀ s < n + 1, (superEdges m F s efile).length % o.edgesPerBuf = 0 := by
          intro s below
          rcases (bound s).mp below with below | rfl
          · exact before s below
          · exact aligned
        rw [if_pos aligned, if_pos all, Option.map_some]
        congr 1
        funext s
        by_cases here : s = n
        · subst here
          rw [Function.update_self, if_pos (Nat.lt_succ_self s)]
          simp only [atEnd, own]
          rfl
        · rw [Function.update_of_ne here]
          simp [bound, here]
      · have notAll : ¬ ∀ s < n + 1, (superEdges m F s efile).length % o.edgesPerBuf = 0 :=
          fun all => aligned (all n (Nat.lt_succ_self n))
        rw [if_neg aligned, if_neg notAll, Option.map_none]
    · have notAll : ¬ ∀ s < n + 1, (superEdges m F s efile).length % o.edgesPerBuf = 0 :=
        fun all => before fun s below => all s (Nat.lt_succ_of_lt below)
      rw [if_neg before, if_neg notAll]

omit [Inhabited E] [DecidableEq E] in
theorem sanityCheck_update_several (products : o.IntProducts) (several : 1 < m.superPartitions)
    (old new : List E) :
    sanityCheck m o .update (old ++ new) (createdFiles m F o old) =
      some (fun s => ((createdFiles m F o old).edges s).length, old.length) := by
  have notOne : m.superPartitions ≠ 1 := by omega
  have own : ∀ s, (createdFiles m F o old).edges s = superEdges m F s old := by
    intro s; simp [createdFiles, several]
  have sizes : ∀ s, ((createdFiles m F o old).bf s).length ≤
      filterGroup (superEdges m F s old).length o.edgesPerBuf * o.bfBufSize := by
    intro s
    rw [filterGroup_eq, bfBufSize_eq products]
    exact Nat.le_of_eq (length_filterBytes _)
  unfold sanityCheck
  simp only [products, not_true_eq_false, if_false, notOne, own, sum_length_superEdges, sizes,
    List.length_append, Nat.le_add_right, implies_true, and_self, if_true]

omit [DecidableEq E] in
/-- The end of an incremental run with several super partitions. -/
theorem flushed_atEnd (positive : 0 < o.edgesPerBuf) (several : 1 < m.superPartitions)
    {old : List E} (aligned : ∀ s, (superEdges m F s old).length % o.edgesPerBuf = 0)
    (new : List E) :
    (⟨fun i => (flushed m F o (atEnd (createdFiles m F o old)) new i).edgeFp.content,
      fun i => (flushed m F o (atEnd (createdFiles m F o old)) new i).bfFp.content⟩ :
        BloomFiles E) = createdFiles m F o (old ++ new) := by
  unfold flushed shippedState createdFiles atEnd
  congr 1
  · funext s
    simp only [several, if_true, flatten_groups, superEdges_append, fwrite_at_end]
  · funext s
    simp only [superEdges_append, groups_append positive (aligned s), filterBytes_append,
      fwrite_at_end]

/-- Several super partitions: the incremental run equals a rebuild exactly if no partial group
has to be read back. -/
theorem update_several_iff (several : 1 < m.superPartitions) {old new : List E}
    (products : o.IntProducts) (ok : Distributable F o (old ++ new)) :
    partitionSuperPartition m F o .update (old ++ new) (createdFiles m F o old) =
        some (createdFiles m F o (old ++ new)) ↔
      ∀ s < m.superPartitions, (superEdges m F s old).length % o.edgesPerBuf = 0 := by
  have notOne : m.superPartitions ≠ 1 := by omega
  have positive := edgesPerBuf_pos products
  have behind : ∀ s, ¬ s < m.superPartitions → superEdges m F s old = [] := fun s h =>
    superEdges_of_ge (Nat.le_of_not_lt h) old
  have resumed := resumeSupers_created (F := F) products several old m.superPartitions
  have run : partitionSuperPartition m F o .update (old ++ new) (createdFiles m F o old) =
      (edgeDistribution m F o (old ++ new) (fun s => ((createdFiles m F o old).edges s).length)
        old.length (fun s => ⟨File.opened ((createdFiles m F o old).edges s),
          File.opened ((createdFiles m F o old).bf s), []⟩) false).map fun bufs =>
          ⟨fun i => (bufs i).edgeFp.content, fun i => (bufs i).bfFp.content⟩ := by
    unfold partitionSuperPartition
    simp only [reduceCtorEq, if_false, sanityCheck_update_several products several, decide_false]
  rw [run]
  unfold edgeDistribution
  rw [if_neg notOne, resumed]
  by_cases aligned : ∀ s < m.superPartitions, (superEdges m F s old).length % o.edgesPerBuf = 0
  · -- all files are at their ends
    have start : (fun s => if s < m.superPartitions then atEnd (createdFiles m F o old) s
        else (⟨File.opened ((createdFiles m F o old).edges s),
          File.opened ((createdFiles m F o old).bf s), []⟩ : SuperBuf E)) =
        atEnd (createdFiles m F o old) := by
      funext s
      by_cases inside : s < m.superPartitions
      · rw [if_pos inside]
      · rw [if_neg inside]
        simp [atEnd, createdFiles, behind s inside, File.opened]
    have ready : Ready (atEnd (createdFiles m F o old)) :=
      ⟨fun _ => rfl, fun _ => Nat.le_refl _, fun _ => Nat.le_refl _⟩
    have all : ∀ s, (superEdges m F s old).length % o.edgesPerBuf = 0 := by
      intro s
      by_cases inside : s < m.superPartitions
      · exact aligned s inside
      · rw [behind s inside, List.length_nil, Nat.zero_mod]
    rw [if_pos aligned]
    simp only [start, List.drop_left, distributeEdges_of_distributable ready ok.append_right,
      Option.map_some, flushed_atEnd positive several all]
    exact iff_of_true trivial aligned
  · rw [if_neg aligned]
    simp [aligned]

end Supers

section One

variable {E : Type} [Inhabited E] [DecidableEq E] {m : Mapping} {F : FormatUtils E}
  {o : BloomOptions}

omit [Inhabited E] [DecidableEq E] in
/-- The first edge that an incremental run with one super partition distributes again. -/
theorem sanityCheck_update_one (products : o.IntProducts) (one : m.superPartitions = 1)
    (old new : List E) :
    sanityCheck m o .update (old ++ new) (createdFiles m F o old) =
      some (fun _ => 0, ((groups o.edgesPerBuf old).length + (2 ^ 64 - 1)) % 2 ^ 64 *
        o.edgesPerBuf % 2 ^ 64) := by
  have own : (createdFiles m F o old).bf 0 = filterBytes F o (groups o.edgesPerBuf old) := by
    simp [createdFiles, superEdges_of_one one]
  have fewer : (filterBytes F o (groups o.edgesPerBuf old)).length ≤
      filterGroup (old ++ new).length o.edgesPerBuf * groupBytes o := by
    rw [length_filterBytes, filterGroup_eq]
    exact Nat.mul_le_mul_right _ (length_groups_le_append _ _ _)
  have count : (filterBytes F o (groups o.edgesPerBuf old)).length / groupBytes o =
      (groups o.edgesPerBuf old).length := by
    rw [length_filterBytes, Nat.mul_div_cancel _ groupBytes_pos]
  unfold sanityCheck
  simp only [products, not_true_eq_false, if_false, one, if_true, own, bfBufSize_eq products,
    fewer, count]

omit [Inhabited E] [DecidableEq E] in
/-- The last group starts inside the list. -/
theorem last_group_lt {old : List E} (nonempty : old ≠ []) (n : Nat) :
    ((groups n old).length - 1) * n < old.length := by
  have some_ := List.length_pos_iff.mpr nonempty
  have split := Nat.div_add_mod old.length n
  rw [Nat.mul_comm] at split
  rw [length_groups]
  by_cases aligned : old.length % n = 0
  · rw [if_pos aligned, Nat.add_zero, Nat.sub_mul]
    have positive : 0 < n := by
      rcases Nat.eq_zero_or_pos n with zero | pos
      · subst zero; simp at aligned; exact absurd aligned nonempty
      · exact pos
    omega
  · rw [if_neg aligned, Nat.add_sub_cancel]
    omega

omit [Inhabited E] [DecidableEq E] in
/-- The last group and what follows it are written over the last group. -/
theorem overwrite_last_group (positive : 0 < o.edgesPerBuf) {old : List E} (nonempty : old ≠ [])
    (new : List E) :
    overwrite (filterBytes F o (groups o.edgesPerBuf old))
        (((groups o.edgesPerBuf old).length - 1) * groupBytes o)
        (filterBytes F o (groups o.edgesPerBuf
          ((old ++ new).drop (((groups o.edgesPerBuf old).length - 1) * o.edgesPerBuf)))) =
      filterBytes F o (groups o.edgesPerBuf (old ++ new)) := by
  have start := last_group_lt nonempty o.edgesPerBuf
  set first := ((groups o.edgesPerBuf old).length - 1) * o.edgesPerBuf with hfirst
  have preLength : (old.take first).length = first := by rw [List.length_take]; omega
  have preAligned : (old.take first).length % o.edgesPerBuf = 0 := by
    rw [preLength, hfirst, Nat.mul_mod_left]
  have oldCut : old = old.take first ++ old.drop first := (List.take_append_drop _ _).symm
  have newCut : old ++ new = old.take first ++ (old.drop first ++ new) := by
    rw [← List.append_assoc, ← oldCut]
  have tail : (old ++ new).drop first = old.drop first ++ new :=
    List.drop_append_of_le_length (Nat.le_of_lt start)
  have preGroups : (filterBytes F o (groups o.edgesPerBuf (old.take first))).length =
      ((groups o.edgesPerBuf old).length - 1) * groupBytes o := by
    rw [length_filterBytes, length_groups, if_pos preAligned, preLength, hfirst,
      Nat.mul_div_cancel _ positive, Nat.add_zero]
  have oldGroups : groups o.edgesPerBuf old =
      groups o.edgesPerBuf (old.take first) ++ groups o.edgesPerBuf (old.drop first) := by
    conv_lhs => rw [oldCut, groups_append positive preAligned]
  rw [tail, newCut, groups_append positive preAligned, filterBytes_append, ← preGroups]
  conv_lhs => rw [oldGroups, filterBytes_append]
  apply overwrite_tail
  rw [length_filterBytes, length_filterBytes]
  exact Nat.mul_le_mul_right _ (length_groups_le_append _ _ _)

omit [Inhabited E] [DecidableEq E] in
/-- What `create` leaves when there is one super partition. -/
theorem createdFiles_of_one (one : m.superPartitions = 1) (efile : List E) :
    createdFiles m F o efile =
      ⟨fun _ => [], fun s => if s = 0 then filterBytes F o (groups o.edgesPerBuf efile) else []⟩ := by
  unfold createdFiles
  congr 1
  · funext s
    simp [one]
  · funext s
    by_cases zero : s = 0
    · subst zero
      rw [superEdges_of_one one, if_pos rfl]
    · rw [superEdges_of_ge (by omega), groups_nil, filterBytes_nil, if_neg zero]

/-- The buffers of an incremental run with one super partition, resumed at byte `at_` of the
filter file. -/
def resumedOne (filters : List Byte) (at_ : Nat) : Nat → SuperBuf E := fun s =>
  if s = 0 then ⟨File.opened [], fseek (File.opened filters) at_, []⟩
  else ⟨File.opened [], File.opened [], []⟩

/-- The run itself, from the first edge that is distributed again. -/
theorem update_one_run (one : m.superPartitions = 1) (products : o.IntProducts)
    {old new : List E} {startEdge : Nat}
    (start : ((groups o.edgesPerBuf old).length + (2 ^ 64 - 1)) % 2 ^ 64 * o.edgesPerBuf % 2 ^ 64 =
      startEdge) (notEnd : startEdge ≠ (old ++ new).length) :
    partitionSuperPartition m F o .update (old ++ new) (createdFiles m F o old) =
      (distributeEdges m F o false ((old ++ new).drop startEdge)
        (resumedOne (filterBytes F o (groups o.edgesPerBuf old))
          (startEdge / o.edgesPerBuf * o.bfBufSize))).map fun bufs =>
        ⟨fun i => (bufs i).edgeFp.content, fun i => (bufs i).bfFp.content⟩ := by
  have opened : Function.update
      (fun s => (⟨File.opened ((createdFiles m F o old).edges s),
        File.opened ((createdFiles m F o old).bf s), []⟩ : SuperBuf E)) 0
      ⟨File.opened ((createdFiles m F o old).edges 0),
        fseek (File.opened ((createdFiles m F o old).bf 0))
          (startEdge / o.edgesPerBuf * o.bfBufSize), []⟩ =
      resumedOne (filterBytes F o (groups o.edgesPerBuf old))
        (startEdge / o.edgesPerBuf * o.bfBufSize) := by
    rw [createdFiles_of_one one]
    funext s
    unfold resumedOne
    by_cases zero : s = 0
    · subst zero
      rw [Function.update_self, if_pos rfl]
      simp
    · rw [Function.update_of_ne zero, if_neg zero]
      simp [zero]
  unfold partitionSuperPartition edgeDistribution
  simp only [reduceCtorEq, if_false, sanityCheck_update_one products one, decide_false, one,
    if_true, start, notEnd, ne_eq, not_false_eq_true, opened]

/-- No records, nothing buffered: nothing happens. -/
theorem distributeEdges_nil {bufs : Nat → SuperBuf E} (empty : ∀ s, (bufs s).edgeBuf = []) :
    distributeEdges m F o false [] bufs = some bufs := by
  unfold distributeEdges distributeLoop
  simp only
  induction m.superPartitions with
  | zero => rfl
  | succ n ih =>
    rw [List.range_succ, List.foldlM_append, ih]
    simp [flushRest, empty]

/-- One super partition: the incremental run equals a rebuild exactly if there is a group to
resume at or nothing to add. -/
theorem update_one_iff (one : m.superPartitions = 1) {old new : List E}
    (products : o.IntProducts) (ok : Distributable F o (old ++ new))
    (offsets : (old ++ new).length < 2 ^ 63) :
    partitionSuperPartition m F o .update (old ++ new) (createdFiles m F o old) =
        some (createdFiles m F o (old ++ new)) ↔ old ≠ [] ∨ new = [] := by
  have positive := edgesPerBuf_pos products
  have small := edgesPerBuf_lt products
  by_cases nothing : old = []
  · -- the number of groups wraps, the run starts behind the end of the file
    subst nothing
    have start : ((groups o.edgesPerBuf ([] : List E)).length + (2 ^ 64 - 1)) % 2 ^ 64 *
        o.edgesPerBuf % 2 ^ 64 = 2 ^ 64 - o.edgesPerBuf := by
      rw [groups_nil, List.length_nil]
      omega
    have behind : ([] ++ new).drop (2 ^ 64 - o.edgesPerBuf) = [] :=
      List.drop_eq_nil_of_le (by omega)
    rw [update_one_run one products start (by omega), behind, distributeEdges_nil (by
      intro s; unfold resumedOne; split <;> rfl), Option.map_some, createdFiles_of_one one]
    simp only [List.nil_append, ne_eq, not_true_eq_false, false_or, Option.some.injEq]
    constructor
    · intro same
      by_contra some_
      have zeroth : filterBytes F o (groups o.edgesPerBuf ([] : List E)) =
          filterBytes F o (groups o.edgesPerBuf new) := congrFun (congrArg BloomFiles.bf same) 0
      have sizes := congrArg List.length zeroth
      rw [length_filterBytes, length_filterBytes, groups_nil, List.length_nil, Nat.zero_mul]
        at sizes
      have groupsPos : 0 < (groups o.edgesPerBuf new).length := by
        have := getElem?_groups new positive (g := 0)
          (by rw [Nat.zero_mul]; exact List.length_pos_iff.mpr some_)
        exact (List.getElem?_eq_some_iff.mp this).1
      have := Nat.mul_pos groupsPos (groupBytes_pos (o := o))
      omega
    · rintro rfl
      congr 1
      · funext s
        unfold resumedOne
        split <;> rfl
      · funext s
        unfold resumedOne
        split <;> simp [fseek, File.opened]
  · have first := last_group_lt nothing o.edgesPerBuf
    have some_ : 0 < (groups o.edgesPerBuf old).length := by
      have := getElem?_groups old positive (g := 0)
        (by rw [Nat.zero_mul]; exact List.length_pos_iff.mpr nothing)
      exact (List.getElem?_eq_some_iff.mp this).1
    have inOld : old.length ≤ (old ++ new).length := by rw [List.length_append]; omega
    have few : (groups o.edgesPerBuf old).length - 1 ≤
        ((groups o.edgesPerBuf old).length - 1) * o.edgesPerBuf := Nat.le_mul_of_pos_right _ positive
    have start : ((groups o.edgesPerBuf old).length + (2 ^ 64 - 1)) % 2 ^ 64 * o.edgesPerBuf %
        2 ^ 64 = ((groups o.edgesPerBuf old).length - 1) * o.edgesPerBuf := by
      have count : ((groups o.edgesPerBuf old).length + (2 ^ 64 - 1)) % 2 ^ 64 =
          (groups o.edgesPerBuf old).length - 1 := by omega
      rw [count, Nat.mod_eq_of_lt (by omega)]
    have cut : Distributable F o ((old ++ new).drop
        (((groups o.edgesPerBuf old).length - 1) * o.edgesPerBuf)) := by
      rw [← List.take_append_drop (((groups o.edgesPerBuf old).length - 1) * o.edgesPerBuf)
        (old ++ new)] at ok
      exact ok.append_right
    have ready : Ready (resumedOne (E := E) (filterBytes F o (groups o.edgesPerBuf old))
        (((groups o.edgesPerBuf old).length - 1) * groupBytes o)) := by
      have inFile : ((groups o.edgesPerBuf old).length - 1) * groupBytes o ≤
          (filterBytes F o (groups o.edgesPerBuf old)).length := by
        rw [length_filterBytes]
        exact Nat.mul_le_mul_right _ (Nat.sub_le _ _)
      refine ⟨fun s => ?_, fun s => ?_, fun s => ?_⟩
      · unfold resumedOne; split <;> rfl
      · unfold resumedOne; split <;> simp [File.opened]
      · unfold resumedOne
        split
        · exact inFile
        · simp [File.opened]
    rw [update_one_run one products start (by omega), Nat.mul_div_cancel _ positive,
      bfBufSize_eq products, distributeEdges_of_distributable ready cut, Option.map_some,
      createdFiles_of_one one, ← overwrite_last_group positive nothing]
    refine iff_of_true ?_ (Or.inl nothing)
    congr 2
    · funext s
      simp only [flushed, shippedState, one, Nat.lt_irrefl, if_false, resumedOne]
      split <;> rfl
    · funext s
      unfold flushed shippedState resumedOne
      by_cases zero : s = 0
      · subst zero
        simp [superEdges_of_one one, fwrite, fseek, File.opened]
      · have none_ : superEdges m F s ((old ++ new).drop
            (((groups o.edgesPerBuf old).length - 1) * o.edgesPerBuf)) = [] :=
          superEdges_of_ge (by omega) _
        simp [zero, none_, File.opened]

/-- Incremental update and rebuild, both starting from what mode `create` accepts. -/
theorem update_iff {old new : List E} (products : o.IntProducts)
    (ok : Distributable F o (old ++ new)) (offsets : (old ++ new).length < 2 ^ 63) :
    partitionSuperPartition m F o .update (old ++ new) (createdFiles m F o old) =
        some (createdFiles m F o (old ++ new)) ↔
      if m.superPartitions = 1 then old ≠ [] ∨ new = []
      else ∀ s < m.superPartitions, (superEdges m F s old).length % o.edgesPerBuf = 0 := by
  by_cases one : m.superPartitions = 1
  · rw [if_pos one]
    exact update_one_iff one products ok offsets
  · have := m.superPartitions_pos
    rw [if_neg one]
    exact update_several_iff (by omega) products ok

/-- Incremental filter update equals rebuilding exactly if there is something to resume at and
no partial group has to be read back. -/
theorem update_equals_rebuild_iff {old new : List E} {before before' files rebuilt : BloomFiles E}
    (created : partitionSuperPartition m F o .create old before = some files)
    (recreated : partitionSuperPartition m F o .create (old ++ new) before' = some rebuilt)
    (offsets : (old ++ new).length < 2 ^ 63) :
    partitionSuperPartition m F o .update (old ++ new) files = some rebuilt ↔
      if m.superPartitions = 1 then old ≠ [] ∨ new = []
      else ∀ s < m.superPartitions, (superEdges m F s old).length % o.edgesPerBuf = 0 := by
  obtain ⟨products, -, rfl⟩ := partitionSuperPartition_create_iff.mp created
  obtain ⟨-, ok, rfl⟩ := partitionSuperPartition_create_iff.mp recreated
  exact update_iff products ok offsets

end One

section Instances

/-- Two super partitions, one cached partition in each. -/
def twoMapping : Mapping := ⟨2, 1, Mapping.isPow_two, Mapping.isPow_one⟩

theorem distributable_instances :
    Distributable type2 smallOptions [] ∧ Distributable type2 smallOptions [⟨5#32, 7#32⟩] ∧
      Distributable type2 smallOptions [⟨5#32, 7#32⟩, ⟨6#32, 7#32⟩] := by
  refine ⟨⟨by simp, by decide, by decide, by decide⟩, ⟨?_, by decide, by decide, by decide⟩,
    ⟨?_, by decide, by decide, by decide⟩⟩ <;>
    intro edge member <;> revert edge <;> decide

theorem created_instance (m : Mapping) {efile : List SimpleEdge}
    (ok : Distributable type2 smallOptions efile) :
    partitionSuperPartition m type2 smallOptions .create efile ⟨fun _ => [], fun _ => []⟩ =
      some (createdFiles m type2 smallOptions efile) :=
  partitionSuperPartition_create_iff.mpr ⟨by decide, ok, rfl⟩

theorem update_equals_rebuild_iff_one_edge :
    partitionSuperPartition oneMapping type2 smallOptions .update [⟨5#32, 7#32⟩, ⟨6#32, 7#32⟩]
        (createdFiles oneMapping type2 smallOptions [⟨5#32, 7#32⟩]) =
      some (createdFiles oneMapping type2 smallOptions [⟨5#32, 7#32⟩, ⟨6#32, 7#32⟩]) := by
  have created := created_instance oneMapping distributable_instances.2.1
  have recreated := created_instance oneMapping distributable_instances.2.2
  have room : ([⟨5#32, 7#32⟩] ++ [⟨6#32, 7#32⟩] : List SimpleEdge).length < 2 ^ 63 := by simp
  refine (update_equals_rebuild_iff created recreated room).mpr ?_
  rw [if_pos (by decide)]
  exact Or.inl (by simp)

/-- One super partition and no edge yet: the update writes no filter. Two super partitions and
one edge: the update fails its assertion, with nothing to add. -/
theorem update_differs_from_rebuild :
    (∃ files rebuilt, partitionSuperPartition oneMapping type2 smallOptions .create []
          ⟨fun _ => [], fun _ => []⟩ = some files ∧
        partitionSuperPartition oneMapping type2 smallOptions .create [⟨5#32, 7#32⟩]
          ⟨fun _ => [], fun _ => []⟩ = some rebuilt ∧
        partitionSuperPartition oneMapping type2 smallOptions .update [⟨5#32, 7#32⟩] files ≠
          some rebuilt) ∧
      ∃ files, partitionSuperPartition twoMapping type2 smallOptions .create [⟨5#32, 7#32⟩]
          ⟨fun _ => [], fun _ => []⟩ = some files ∧
        partitionSuperPartition twoMapping type2 smallOptions .update [⟨5#32, 7#32⟩] files ≠
          some files := by
  obtain ⟨none_, single, -⟩ := distributable_instances
  refine ⟨⟨_, _, created_instance _ none_, created_instance _ single, ?_⟩,
    _, created_instance _ single, ?_⟩
  · intro same
    have room : ([] ++ [⟨5#32, 7#32⟩] : List SimpleEdge).length < 2 ^ 63 := by simp
    have resumed := (update_iff (by decide) single room).mp same
    rw [if_pos (by decide)] at resumed
    simp at resumed
  · intro same
    have room : ([⟨5#32, 7#32⟩] ++ [] : List SimpleEdge).length < 2 ^ 63 := by simp
    have resumed := (update_iff (by decide) single room).mp same
    rw [if_neg (by decide)] at resumed
    exact absurd (resumed 1 (by decide)) (by decide)

end Instances

end MBFGraph
