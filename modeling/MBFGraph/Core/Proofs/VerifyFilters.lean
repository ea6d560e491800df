import MBFGraph.Lib.Checkers
import MBFGraph.Core.Proofs.UpdateFilters

/-!
# Mode `verify`

Mode `verify` runs the loops of mode `create` and reads where that writes. Every flush is checked
in this sense, and hence the whole run. The sizes that `sanity_check` compares leave no room for
records behind those that were read.
-/

namespace MBFGraph

open ByteBits Groups Stdio Overwrite Checkers

section Files

variable {α : Type} [Inhabited α]

/-- Writing what is there already changes nothing, and only then. -/
theorem fwrite_content_eq_iff {fp : File α} (inside : fp.pos ≤ fp.content.length) (units : List α) :
    (fwrite fp units).content = fp.content ↔ (fread fp units.length).1 = units := by
  constructor
  · intro same
    change overwrite fp.content fp.pos units = fp.content at same
    change (fp.content.drop fp.pos).take units.length = units
    rw [← same, overwrite_of_le inside, List.append_assoc, List.drop_append,
      List.drop_of_length_le (by simp), List.length_take, Nat.min_eq_left inside, Nat.sub_self]
    simp
  · intro read
    have enough : units.length ≤ fp.content.length - fp.pos := by
      have := congrArg List.length read
      simp only [fread, List.length_take, List.length_drop] at this
      omega
    exact overwrite_self (by omega) read

/-- A read that finds the units leaves the file as their write does. -/
theorem fread_eq_fwrite {fp : File α} {units : List α} (inside : fp.pos ≤ fp.content.length)
    (read : (fread fp units.length).1 = units) : (fread fp units.length).2 = fwrite fp units := by
  have same := (fwrite_content_eq_iff inside units).mpr read
  have pos : (fread fp units.length).2.pos = (fwrite fp units).pos := by
    change fp.pos + (fread fp units.length).1.length = fp.pos + units.length
    rw [read]
  change (⟨fp.content, (fread fp units.length).2.pos⟩ : File α) =
    ⟨(fwrite fp units).content, (fwrite fp units).pos⟩
  rw [same, pos]

/-- Content that was not changed by two writes was not changed by the first. -/
theorem fwrite_content_of_append {fp : File α} (inside : fp.pos ≤ fp.content.length)
    {xs ys : List α} (same : (fwrite fp (xs ++ ys)).content = fp.content) :
    (fwrite fp xs).content = fp.content := by
  rw [fwrite_content_eq_iff inside] at same ⊢
  have front := congrArg (List.take xs.length) same
  simp only [fread, List.length_append, List.take_take, List.take_left'] at front ⊢
  rw [Nat.min_eq_left (Nat.le_add_right _ _)] at front
  exact front

theorem fwrite_inside {fp : File α} (inside : fp.pos ≤ fp.content.length) (units : List α) :
    (fwrite fp units).pos ≤ (fwrite fp units).content.length := by
  change fp.pos + units.length ≤ (overwrite fp.content fp.pos units).length
  rw [length_overwrite inside]
  exact Nat.le_max_right _ _

end Files

section Buffers

variable {E : Type} [Inhabited E]

/-- The files of all super partitions: every run of writes is one write. -/
def superJournal : Journal (Nat → SuperBuf E) where
  inside bufs := ∀ s, (bufs s).edgeFp.pos ≤ (bufs s).edgeFp.content.length ∧
    (bufs s).bfFp.pos ≤ (bufs s).bfFp.content.length
  keeps bufs bufs' := ∀ s, (bufs' s).edgeFp.content = (bufs s).edgeFp.content ∧
    (bufs' s).bfFp.content = (bufs s).bfFp.content
  advances bufs bufs' := ∀ s, (∃ records, (bufs' s).edgeFp = fwrite (bufs s).edgeFp records) ∧
    ∃ bytes, (bufs' s).bfFp = fwrite (bufs s).bfFp bytes
  keeps_refl _ _ := ⟨rfl, rfl⟩
  keeps_trans first second s :=
    ⟨(second s).1.trans (first s).1, (second s).2.trans (first s).2⟩
  keeps_symm same s := ⟨(same s).1.symm, (same s).2.symm⟩
  advances_refl _ _ := ⟨⟨[], (fwrite_nil _).symm⟩, [], (fwrite_nil _).symm⟩
  advances_trans inside first second s := by
    obtain ⟨⟨records, edges⟩, bytes, filters⟩ := first s
    obtain ⟨⟨records', edges'⟩, bytes', filters'⟩ := second s
    refine ⟨⟨records ++ records', ?_⟩, bytes ++ bytes', ?_⟩
    · rw [edges', edges, fwrite_fwrite (inside s).1]
    · rw [filters', filters, fwrite_fwrite (inside s).2]
  inside_of_advances inside advances s := by
    obtain ⟨⟨records, edges⟩, bytes, filters⟩ := advances s
    rw [edges, filters]
    exact ⟨fwrite_inside (inside s).1 records, fwrite_inside (inside s).2 bytes⟩
  keeps_of_later inside first second keeps s := by
    obtain ⟨⟨records, edges⟩, bytes, filters⟩ := first s
    obtain ⟨⟨records', edges'⟩, bytes', filters'⟩ := second s
    obtain ⟨sameEdges, sameFilters⟩ := keeps s
    rw [edges', edges, fwrite_fwrite (inside s).1] at sameEdges
    rw [filters', filters, fwrite_fwrite (inside s).2] at sameFilters
    rw [edges, filters]
    exact ⟨fwrite_content_of_append (inside s).1 sameEdges,
      fwrite_content_of_append (inside s).2 sameFilters⟩

variable [DecidableEq E] {m : Mapping} {F : FormatUtils E} {o : BloomOptions}

omit [Inhabited E] [DecidableEq E] in
/-- The filters of a group are compared with the bytes that are there. -/
theorem bloomFilterCalculation_verify_iff {edgeBuf : List E} {bfFp bfFp' : File Byte}
    (inside : bfFp.pos ≤ bfFp.content.length) :
    bloomFilterCalculation F o edgeBuf bfFp true = some bfFp' ↔
      bloomFilterCalculation F o edgeBuf bfFp false = some bfFp' ∧ bfFp'.content = bfFp.content := by
  by_cases fits : GroupFits o
  · have size : o.bfBufSize = (bloomOut F o edgeBuf).1.length := by
      rw [length_bloomOut]
      exact fits.symm
    have expected : ¬ (bloomOut F o edgeBuf).2 ≠ (bloomOut F o edgeBuf).1.length := by
      rw [bloomOut_snd, length_bloomOut, not_not]
    rw [bloomFilterCalculation_create fits]
    unfold bloomFilterCalculation
    simp only [size, expected, if_false, if_true]
    constructor
    · intro ran
      split at ran
      · rename_i read
        rw [fread_eq_fwrite inside read] at ran
        obtain rfl := Option.some.inj ran
        exact ⟨rfl, (fwrite_content_eq_iff inside _).mpr read⟩
      · contradiction
    · rintro ⟨written, same⟩
      obtain rfl := Option.some.inj written
      have read := (fwrite_content_eq_iff inside _).mp same
      rw [if_pos read, fread_eq_fwrite inside read]
  · rw [bloomFilterCalculation_of_not_fits fits, bloomFilterCalculation_of_not_fits fits]
    simp

/-- A flush is checked: the filters, and the records where they have a file of their own. -/
theorem flushBuf_verify_iff {sb sb' : SuperBuf E}
    (edgePos : sb.edgeFp.pos ≤ sb.edgeFp.content.length)
    (bfPos : sb.bfFp.pos ≤ sb.bfFp.content.length) :
    flushBuf m F o true sb = some sb' ↔ flushBuf m F o false sb = some sb' ∧
      sb'.edgeFp.content = sb.edgeFp.content ∧ sb'.bfFp.content = sb.bfFp.content := by
  have filters : ∀ bfFp', bloomFilterCalculation F o sb.edgeBuf sb.bfFp true = some bfFp' ↔
      bloomFilterCalculation F o sb.edgeBuf sb.bfFp false = some bfFp' ∧
        bfFp'.content = sb.bfFp.content :=
    fun _ => bloomFilterCalculation_verify_iff bfPos
  unfold flushBuf
  by_cases fits : GroupFits o
  · rw [bloomFilterCalculation_create fits] at filters ⊢
    cases verified : bloomFilterCalculation F o sb.edgeBuf sb.bfFp true with
    | none =>
      have changed : (fwrite sb.bfFp (bloomOut F o sb.edgeBuf).1).content ≠ sb.bfFp.content := by
        intro same
        have := (filters _).mpr ⟨rfl, same⟩
        rw [verified] at this
        contradiction
      constructor
      · intro ran
        contradiction
      · rintro ⟨written, -, same⟩
        by_cases several : 1 < m.superPartitions
        · simp only [several, if_true, Bool.false_eq_true, if_false] at written
          obtain rfl := Option.some.inj written
          exact absurd same changed
        · simp only [several, if_false] at written
          obtain rfl := Option.some.inj written
          exact absurd same changed
    | some bfFp' =>
      obtain ⟨isWritten, same⟩ := (filters bfFp').mp verified
      obtain rfl := Option.some.inj isWritten
      by_cases several : 1 < m.superPartitions
      · simp only [several, if_true, Bool.false_eq_true, if_false]
        constructor
        · intro ran
          split at ran
          · rename_i read
            rw [fread_eq_fwrite edgePos read] at ran
            obtain rfl := Option.some.inj ran
            exact ⟨rfl, (fwrite_content_eq_iff edgePos _).mpr read, same⟩
          · contradiction
        · rintro ⟨written, sameEdges, -⟩
          obtain rfl := Option.some.inj written
          have read := (fwrite_content_eq_iff edgePos _).mp sameEdges
          rw [if_pos read, fread_eq_fwrite edgePos read]
      · simp only [several, if_false]
        constructor
        · intro ran
          obtain rfl := Option.some.inj ran
          exact ⟨rfl, rfl, same⟩
        · exact fun both => both.1
  · rw [bloomFilterCalculation_of_not_fits fits, bloomFilterCalculation_of_not_fits fits]
    simp

theorem flushBuf_advances {sb sb' : SuperBuf E} (ran : flushBuf m F o false sb = some sb') :
    (∃ records, sb'.edgeFp = fwrite sb.edgeFp records) ∧
      ∃ bytes, sb'.bfFp = fwrite sb.bfFp bytes := by
  by_cases fits : GroupFits o
  · rw [flushBuf_create fits] at ran
    obtain rfl := Option.some.inj ran
    refine ⟨?_, _, rfl⟩
    by_cases several : 1 < m.superPartitions
    · exact ⟨_, if_pos several⟩
    · exact ⟨[], (if_neg several).trans (fwrite_nil _).symm⟩
  · rw [flushBuf_of_not_fits fits] at ran
    contradiction

/-- A flush of one super partition, after a change of its buffer. -/
theorem checks_flush (s : Nat) (edgeBuf : (Nat → SuperBuf E) → List E) :
    Checks superJournal
      (fun bufs => (flushBuf m F o true { bufs s with edgeBuf := edgeBuf bufs }).map
        (Function.update bufs s))
      (fun bufs => (flushBuf m F o false { bufs s with edgeBuf := edgeBuf bufs }).map
        (Function.update bufs s)) where
  eq_some_iff {bufs} inside bufs' := by
    have flush : ∀ sb', flushBuf m F o true { bufs s with edgeBuf := edgeBuf bufs } = some sb' ↔
        flushBuf m F o false { bufs s with edgeBuf := edgeBuf bufs } = some sb' ∧
          sb'.edgeFp.content = (bufs s).edgeFp.content ∧
            sb'.bfFp.content = (bufs s).bfFp.content :=
      fun _ => flushBuf_verify_iff (inside s).1 (inside s).2
    simp only [Option.map_eq_some_iff]
    constructor
    · rintro ⟨sb', ran, rfl⟩
      obtain ⟨written, sameEdges, sameFilters⟩ := (flush sb').mp ran
      refine ⟨⟨sb', written, rfl⟩, fun s' => ?_⟩
      by_cases here : s' = s
      · rw [here, Function.update_self]
        exact ⟨sameEdges, sameFilters⟩
      · rw [Function.update_of_ne here]
        exact ⟨rfl, rfl⟩
    · rintro ⟨⟨sb', written, rfl⟩, keeps⟩
      have same := keeps s
      rw [Function.update_self] at same
      exact ⟨sb', (flush sb').mpr ⟨written, same⟩, rfl⟩
  advances {bufs} inside bufs' ran := by
    obtain ⟨sb', written, rfl⟩ := Option.map_eq_some_iff.mp ran
    have advances := flushBuf_advances written
    dsimp only at advances
    intro s'
    by_cases here : s' = s
    · rw [here, Function.update_self]
      exact advances
    · rw [Function.update_of_ne here]
      exact superJournal.advances_refl bufs s'

/-- A record is put into a buffer, or completes a group. -/
theorem checks_distributeEdge (edge : E) :
    Checks superJournal (fun bufs => distributeEdge m F o true bufs edge)
      (fun bufs => distributeEdge m F o false bufs edge) := by
  unfold distributeEdge
  dsimp only
  by_cases dead : F.splitKey edge 0 = tombstone
  · simp only [if_pos dead]
    exact Checks.failure
  · simp only [if_neg dead]
    refine Checks.ite Checks.failure (Checks.ite (checks_flush _ _) (Checks.silent ?_ ?_))
    all_goals
      intro bufs s
      by_cases here : s = m.mapSuperPartition (F.splitKey edge 0)
    · rw [here, Function.update_self]
      exact ⟨rfl, rfl⟩
    · rw [Function.update_of_ne here]
      exact ⟨rfl, rfl⟩
    · rw [here, Function.update_self]
      exact superJournal.advances_refl bufs _
    · rw [Function.update_of_ne here]
      exact superJournal.advances_refl bufs s

theorem checks_flushRest (superp : Nat) :
    Checks superJournal (fun bufs => flushRest m F o true bufs superp)
      (fun bufs => flushRest m F o false bufs superp) := by
  unfold flushRest
  exact Checks.ite Checks.pure (checks_flush superp fun bufs => (bufs superp).edgeBuf)

/-- A round of the `while` loop. -/
theorem distributeLoop_cons (isVerify : Bool) (fuel : Nat) (edge : E) (edges : List E)
    (bufs : Nat → SuperBuf E) :
    distributeLoop m F o isVerify (fuel + 1) (edge :: edges) bufs =
      if edgeBufSize F o < ((edge :: edges).take o.edgesPerBuf).length * F.splitSizeBytes then none
      else (((edge :: edges).take o.edgesPerBuf).foldlM (distributeEdge m F o isVerify) bufs).bind
        (distributeLoop m F o isVerify fuel ((edge :: edges).drop o.edgesPerBuf)) := by
  rw [distributeLoop]
  split
  · rfl
  · cases ((edge :: edges).take o.edgesPerBuf).foldlM (distributeEdge m F o isVerify) bufs <;> rfl

theorem distributeEdges_eq_bind (isVerify : Bool) (edges : List E) (bufs : Nat → SuperBuf E) :
    distributeEdges m F o isVerify edges bufs =
      (distributeLoop m F o isVerify edges.length edges bufs).bind fun bufs =>
        (List.range m.superPartitions).foldlM (flushRest m F o isVerify) bufs := by
  unfold distributeEdges
  cases distributeLoop m F o isVerify edges.length edges bufs <;> rfl

theorem checks_distributeLoop (fuel : Nat) (edges : List E) :
    Checks superJournal (fun bufs => distributeLoop m F o true fuel edges bufs)
      (fun bufs => distributeLoop m F o false fuel edges bufs) := by
  induction fuel generalizing edges with
  | zero =>
    cases edges with
    | nil => exact Checks.pure
    | cons edge edges => exact Checks.failure
  | succ fuel ih =>
    cases edges with
    | nil => exact Checks.pure
    | cons edge edges =>
      simp only [distributeLoop_cons]
      split
      · exact Checks.failure
      · exact (Checks.foldlM fun edge _ => checks_distributeEdge edge).bind (ih _)

/-- The two loops of `edge_distribution`. -/
theorem checks_distributeEdges (edges : List E) :
    Checks superJournal (fun bufs => distributeEdges m F o true edges bufs)
      (fun bufs => distributeEdges m F o false edges bufs) := by
  simp only [distributeEdges_eq_bind]
  exact (checks_distributeLoop _ _).bind (Checks.foldlM fun superp _ => checks_flushRest superp)

end Buffers

section Verify

variable {E : Type} [Inhabited E] [DecidableEq E] {m : Mapping} {F : FormatUtils E}
  {o : BloomOptions}

/-- Files that were just opened are distributed from their start. -/
theorem edgeDistribution_opened (isVerify : Bool) (efile : List E) (files : BloomFiles E) :
    edgeDistribution m F o efile (fun _ => 0) 0
        (fun i => ⟨File.opened (files.edges i), File.opened (files.bf i), []⟩) isVerify =
      distributeEdges m F o isVerify efile
        fun i => ⟨File.opened (files.edges i), File.opened (files.bf i), []⟩ := by
  unfold edgeDistribution
  by_cases one : m.superPartitions = 1
  · by_cases nothing : 0 = efile.length
    · simp [one, nothing.symm]
    · have seek : Function.update (fun i => (⟨File.opened (files.edges i),
          File.opened (files.bf i), []⟩ : SuperBuf E)) 0
          ⟨File.opened (files.edges 0), fseek (File.opened (files.bf 0)) 0, []⟩ =
          fun i => ⟨File.opened (files.edges i), File.opened (files.bf i), []⟩ := by
        funext superp
        by_cases here : superp = 0
        · subst here; rfl
        · rw [Function.update_of_ne here]
      simp only [one, if_true, nothing, ne_eq, not_false_eq_true, Nat.zero_div, Nat.zero_mul,
        seek, List.drop_zero]
  · simp [one, resumeSupers_zero]

/-- The sizes that `sanity_check` compares in mode `verify`. -/
def SizesMatch (m : Mapping) (o : BloomOptions) (efile : List E) (files : BloomFiles E) : Prop :=
  if m.superPartitions = 1 then
    filterGroup efile.length o.edgesPerBuf * o.bfBufSize = (files.bf 0).length
  else (∀ i < m.superPartitions,
      filterGroup (files.edges i).length o.edgesPerBuf * o.bfBufSize = (files.bf i).length) ∧
    efile.length = ((List.range m.superPartitions).map fun i => (files.edges i).length).sum

omit [Inhabited E] [DecidableEq E] in
theorem sanityCheck_verify (efile : List E) (files : BloomFiles E)
    (r : (Nat → Nat) × Nat) : sanityCheck m o .verify efile files = some r ↔
      o.IntProducts ∧ SizesMatch m o efile files ∧ r = (fun _ => 0, 0) := by
  unfold sanityCheck SizesMatch
  by_cases products : o.IntProducts
  · by_cases one : m.superPartitions = 1
    · simp [products, one, eq_comm]
    · simp [products, one, eq_comm]
  · simp [products]

/-- The files hold what mode `create` writes. -/
def Holds (m : Mapping) (F : FormatUtils E) (o : BloomOptions) (efile : List E)
    (files : BloomFiles E) : Prop :=
  ∀ s < m.superPartitions,
    (1 < m.superPartitions → files.edges s = (createdFiles m F o efile).edges s) ∧
      files.bf s = (createdFiles m F o efile).bf s

omit [DecidableEq E] in
/-- The run that mode `verify` checks changes nothing exactly if the files start with what it
writes. -/
theorem keeps_flushed_iff (efile : List E) (files : BloomFiles E) :
    superJournal.keeps (fun i => ⟨File.opened (files.edges i), File.opened (files.bf i), []⟩)
        (flushed m F o (fun i => ⟨File.opened (files.edges i), File.opened (files.bf i), []⟩) efile) ↔
      ∀ s, (1 < m.superPartitions →
          (files.edges s).take (superEdges m F s efile).length = superEdges m F s efile) ∧
        (files.bf s).take (filterBytes F o (groups o.edgesPerBuf (superEdges m F s efile))).length =
          filterBytes F o (groups o.edgesPerBuf (superEdges m F s efile)) := by
  have prefix_ : ∀ {α : Type} [Inhabited α] (content units : List α),
      (fwrite (File.opened content) units).content = content ↔ content.take units.length = units :=
    fun content units => fwrite_content_eq_iff (Nat.zero_le _) units
  refine forall_congr' fun s => and_congr ?_ (prefix_ _ _)
  simp only [flushed, shippedState, flatten_groups]
  by_cases several : 1 < m.superPartitions
  · simp only [several, if_true, forall_true_left]
    exact prefix_ _ _
  · simp [several]

omit [Inhabited E] [DecidableEq E] in
theorem filterGroup_bytes (products : o.IntProducts) (own : List E) :
    filterGroup own.length o.edgesPerBuf * o.bfBufSize =
      (filterBytes F o (groups o.edgesPerBuf own)).length := by
  rw [filterGroup_eq, bfBufSize_eq products, length_filterBytes]

omit [Inhabited E] [DecidableEq E] in
/-- Together with the sizes, the beginnings of the files are the files. -/
theorem holds_of_prefix (products : o.IntProducts) {efile : List E} {files : BloomFiles E}
    (sizes : SizesMatch m o efile files)
    (edges : ∀ s, 1 < m.superPartitions →
      (files.edges s).take (superEdges m F s efile).length = superEdges m F s efile)
    (filters : ∀ s,
      (files.bf s).take (filterBytes F o (groups o.edgesPerBuf (superEdges m F s efile))).length =
        filterBytes F o (groups o.edgesPerBuf (superEdges m F s efile))) :
    Holds m F o efile files := by
  have bytes := filterGroup_bytes (F := F) products
  have whole : ∀ {α : Type} {content units : List α}, content.take units.length = units →
      content.length = units.length → content = units := by
    intro α content units same length
    rw [← same, ← length, List.take_length]
  intro s inside
  unfold SizesMatch at sizes
  by_cases one : m.superPartitions = 1
  · rw [if_pos one] at sizes
    obtain rfl : s = 0 := by omega
    refine ⟨fun several => by omega, whole (filters 0) ?_⟩
    change _ = (filterBytes F o (groups o.edgesPerBuf (superEdges m F 0 efile))).length
    rw [← sizes, ← bytes, superEdges_of_one one]
  · rw [if_neg one] at sizes
    obtain ⟨groupSizes, total⟩ := sizes
    have several : 1 < m.superPartitions := by omega
    have le : ∀ s ∈ Finset.range m.superPartitions,
        (superEdges m F s efile).length ≤ (files.edges s).length := by
      intro s _
      have := congrArg List.length (edges s several)
      rw [List.length_take] at this
      omega
    have sums : ∑ s ∈ Finset.range m.superPartitions, (superEdges m F s efile).length =
        ∑ s ∈ Finset.range m.superPartitions, (files.edges s).length := by
      have toList : ∀ f : Nat → Nat, ∑ s ∈ Finset.range m.superPartitions, f s =
        ((List.range m.superPartitions).map f).sum := fun _ => rfl
      rw [toList, toList, ← total, sum_length_superEdges]
    have length : (files.edges s).length = (superEdges m F s efile).length :=
      ((Finset.sum_eq_sum_iff_of_le le).mp sums s (Finset.mem_range.mpr inside)).symm
    have same : files.edges s = superEdges m F s efile := whole (edges s several) length
    refine ⟨fun _ => same.trans (if_pos several).symm, whole (filters s) ?_⟩
    rw [← groupSizes s inside, length]
    exact bytes _

omit [Inhabited E] [DecidableEq E] in
theorem prefix_of_holds {efile : List E} {files : BloomFiles E} (holds : Holds m F o efile files)
    (s : Nat) :
    (1 < m.superPartitions →
        (files.edges s).take (superEdges m F s efile).length = superEdges m F s efile) ∧
      (files.bf s).take (filterBytes F o (groups o.edgesPerBuf (superEdges m F s efile))).length =
        filterBytes F o (groups o.edgesPerBuf (superEdges m F s efile)) := by
  rcases Nat.lt_or_ge s m.superPartitions with inside | behind
  · obtain ⟨edges, filters⟩ := holds s inside
    constructor
    · intro several
      rw [edges several]
      unfold createdFiles
      simp only [several, if_true, List.take_length]
    · rw [filters]
      exact List.take_length
  · rw [superEdges_of_ge behind]
    simp

omit [Inhabited E] [DecidableEq E] in
theorem sizesMatch_of_holds (products : o.IntProducts) {efile : List E} {files : BloomFiles E}
    (holds : Holds m F o efile files) : SizesMatch m o efile files := by
  have bytes := filterGroup_bytes (F := F) products
  unfold SizesMatch
  by_cases one : m.superPartitions = 1
  · rw [if_pos one, (holds 0 (by omega)).2, bytes]
    change _ = (filterBytes F o (groups o.edgesPerBuf (superEdges m F 0 efile))).length
    rw [superEdges_of_one one]
  · rw [if_neg one]
    have several : 1 < m.superPartitions := by
      have := m.superPartitions_pos
      omega
    have own : ∀ s < m.superPartitions, files.edges s = superEdges m F s efile :=
      fun s inside => ((holds s inside).1 several).trans (if_pos several)
    constructor
    · intro s inside
      rw [own s inside, bytes, (holds s inside).2]
      rfl
    · have lengths : (List.range m.superPartitions).map (fun s => (files.edges s).length) =
          (List.range m.superPartitions).map fun s => (superEdges m F s efile).length :=
        List.map_congr_left fun s member => by rw [own s (List.mem_range.mp member)]
      rw [lengths, sum_length_superEdges]

/-- When mode `verify` gets to its end. -/
theorem partitionSuperPartition_verify_iff {efile : List E} {files after : BloomFiles E} :
    partitionSuperPartition m F o .verify efile files = some after ↔
      o.IntProducts ∧ Distributable F o efile ∧ Holds m F o efile files ∧ after = files := by
  have start := ready_opened files
  have checks := (checks_distributeEdges (m := m) (F := F) (o := o) efile).eq_some_iff
    (s := fun i => ⟨File.opened (files.edges i), File.opened (files.bf i), []⟩)
    fun _ => ⟨Nat.zero_le _, Nat.zero_le _⟩
  have unfolded : partitionSuperPartition m F o .verify efile files = some after ↔
      o.IntProducts ∧ SizesMatch m o efile files ∧
        ∃ bufs, distributeEdges m F o true efile
          (fun i => ⟨File.opened (files.edges i), File.opened (files.bf i), []⟩) = some bufs ∧
          ⟨fun i => (bufs i).edgeFp.content, fun i => (bufs i).bfFp.content⟩ = after := by
    have sanity := sanityCheck_verify (m := m) (o := o) efile files
    unfold partitionSuperPartition
    simp only [reduceCtorEq, if_false]
    cases passed : sanityCheck m o .verify efile files with
    | none =>
      have refused : ¬ (o.IntProducts ∧ SizesMatch m o efile files) := fun both => by
        have := (sanity _).mpr ⟨both.1, both.2, rfl⟩
        rw [passed] at this
        contradiction
      simp only [reduceCtorEq, false_iff]
      exact fun all => refused ⟨all.1, all.2.1⟩
    | some r =>
      obtain ⟨products, sizes, rfl⟩ := (sanity r).mp passed
      simp only [decide_true, edgeDistribution_opened, Option.map_eq_some_iff]
      exact ⟨fun ran => ⟨products, sizes, ran⟩, fun all => all.2.2⟩
  rw [unfolded]
  constructor
  · rintro ⟨products, sizes, bufs, ran, rfl⟩
    obtain ⟨written, keeps⟩ := (checks bufs).mp ran
    obtain ⟨ok, rfl⟩ := (distributeEdges_eq_some_iff start).mp written
    have prefixes := (keeps_flushed_iff efile files).mp keeps
    refine ⟨products, ok, holds_of_prefix products sizes (fun s => (prefixes s).1)
      fun s => (prefixes s).2, ?_⟩
    congr 1
    · funext s
      exact (keeps s).1
    · funext s
      exact (keeps s).2
  · rintro ⟨products, ok, holds, rfl⟩
    have keeps := (keeps_flushed_iff efile after).mpr (prefix_of_holds holds)
    refine ⟨products, sizesMatch_of_holds products holds, _,
      (checks _).mpr ⟨(distributeEdges_eq_some_iff start).mpr ⟨ok, rfl⟩, keeps⟩, ?_⟩
    congr 1
    · funext s
      exact (keeps s).1
    · funext s
      exact (keeps s).2

/-- Byte for byte the same files. There is no `edges.N` with one super partition. -/
def SameFiles (m : Mapping) (files files' : DiskFiles E) : Prop :=
  ∀ s < m.superPartitions,
    (1 < m.superPartitions → files.edges s = files'.edges s ∧ files.edgesRest s = files'.edgesRest s) ∧
      files.bf s = files'.bf s

end Verify

end MBFGraph
