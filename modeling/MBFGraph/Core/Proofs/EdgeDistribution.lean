import MBFGraph.Core.Proofs.BloomGroup

/-!
# What `edge_distribution` writes

The distribution loop keeps, for every super partition, the full groups of the records seen so
far in its files and the partial group in its buffer. `distributed` is this state in closed
form, `distributeEdge_distributed` the step, and `distributeEdges_eq_some_iff` the result of the
whole function together with the exact condition under which it gets to its end.
-/

namespace MBFGraph

open ByteBits Groups Stdio

section Records

variable {E : Type} (m : Mapping) (F : FormatUtils E) (o : BloomOptions)

/-- The records of a super partition, in input order. -/
def superEdges (superp : Nat) (edges : List E) : List E :=
  edges.filter fun edge => m.mapSuperPartition (F.splitKey edge 0) = superp

/-- The bytes of a run of groups. -/
def filterBytes (gs : List (List E)) : List Byte := gs.flatMap fun g => (bloomOut F o g).1

/-- The inputs that `edge_distribution` gets through. -/
structure Distributable (edges : List E) : Prop where
  noTombstone : ∀ edge ∈ edges, F.splitKey edge 0 ≠ tombstone
  fits : edges ≠ [] → GroupFits o
  progress : edges ≠ [] → 0 < o.edgesPerBuf
  inBuffer : min o.edgesPerBuf edges.length * F.splitSizeBytes ≤ edgeBufSize F o

variable {m F o}

theorem superEdges_append (superp : Nat) (xs ys : List E) :
    superEdges m F superp (xs ++ ys) = superEdges m F superp xs ++ superEdges m F superp ys := by
  simp [superEdges]

theorem superEdges_singleton (superp : Nat) (edge : E) :
    superEdges m F superp [edge] =
      if m.mapSuperPartition (F.splitKey edge 0) = superp then [edge] else [] := by
  simp [superEdges, List.filter_cons]

theorem length_superEdges_le (superp : Nat) (edges : List E) :
    (superEdges m F superp edges).length ≤ edges.length :=
  List.length_filter_le _ _

/-- No record maps behind the last super partition. -/
theorem superEdges_of_ge {superp : Nat} (behind : m.superPartitions ≤ superp) (edges : List E) :
    superEdges m F superp edges = [] := by
  unfold superEdges
  rw [List.filter_eq_nil_iff]
  intro edge _
  have := m.mapSuperPartition_lt (F.splitKey edge 0)
  simp only [decide_eq_true_eq]
  omega

/-- With one super partition there is nothing to split. -/
theorem superEdges_of_one (one : m.superPartitions = 1) (edges : List E) :
    superEdges m F 0 edges = edges := by
  unfold superEdges
  rw [List.filter_eq_self]
  intro edge _
  simp [m.mapSuperPartition_of_one one]

@[simp] theorem filterBytes_append (xs ys : List (List E)) :
    filterBytes F o (xs ++ ys) = filterBytes F o xs ++ filterBytes F o ys := by
  simp [filterBytes]

@[simp] theorem filterBytes_nil : filterBytes F o ([] : List (List E)) = [] := rfl

theorem filterBytes_singleton (g : List E) : filterBytes F o [g] = (bloomOut F o g).1 := by
  simp [filterBytes]

theorem Distributable.append_right {xs ys : List E} (ok : Distributable F o (xs ++ ys)) :
    Distributable F o ys where
  noTombstone edge member := ok.noTombstone edge (List.mem_append_right _ member)
  fits nonempty := ok.fits (by simp [nonempty])
  progress nonempty := ok.progress (by simp [nonempty])
  inBuffer := by
    refine Nat.le_trans (Nat.mul_le_mul_right _ ?_) ok.inBuffer
    rw [List.length_append]
    omega

/-- Without the verify flag a fitting group is written. -/
theorem bloomFilterCalculation_create (fits : GroupFits o) (edgeBuf : List E) (bfFp : File Byte) :
    bloomFilterCalculation F o edgeBuf bfFp false = some (fwrite bfFp (bloomOut F o edgeBuf).1) := by
  have expected : ¬ (bloomOut F o edgeBuf).2 ≠ o.bfBufSize := by
    rw [bloomOut_snd, not_not]; exact fits
  unfold bloomFilterCalculation
  simp only [expected, if_false, Bool.false_eq_true]

theorem bloomFilterCalculation_of_not_fits (wrapped : ¬ GroupFits o) (edgeBuf : List E)
    (bfFp : File Byte) (isVerify : Bool) :
    bloomFilterCalculation F o edgeBuf bfFp isVerify = none := by
  have unexpected : (bloomOut F o edgeBuf).2 ≠ o.bfBufSize := by
    rw [bloomOut_snd]; exact wrapped
  unfold bloomFilterCalculation
  simp only [unexpected, ne_eq, not_false_eq_true, if_true]

end Records

section Distribution

variable {E : Type} [Inhabited E] (m : Mapping) (F : FormatUtils E) (o : BloomOptions)

/-- The state after the records `edges`: `shipped` is what the files got of a super partition's
records, `kept` what its buffer holds. -/
def shippedState (start : Nat → SuperBuf E) (shipped : List E → List (List E))
    (kept : List E → List E) (edges : List E) (superp : Nat) : SuperBuf E :=
  let own := superEdges m F superp edges
  { edgeFp :=
      if 1 < m.superPartitions then fwrite (start superp).edgeFp (shipped own).flatten
      else (start superp).edgeFp
    bfFp := fwrite (start superp).bfFp (filterBytes F o (shipped own))
    edgeBuf := kept own }

/-- The state inside the distribution loop: full groups are in the files. -/
def distributed (start : Nat → SuperBuf E) : List E → Nat → SuperBuf E :=
  shippedState m F o start (fullGroups o.edgesPerBuf) (rest o.edgesPerBuf)

/-- The state at the end: everything is in the files. -/
def flushed (start : Nat → SuperBuf E) : List E → Nat → SuperBuf E :=
  shippedState m F o start (groups o.edgesPerBuf) fun _ => []

/-- A start state: nothing buffered, the file positions inside the files. -/
structure Ready (bufs : Nat → SuperBuf E) : Prop where
  empty : ∀ superp, (bufs superp).edgeBuf = []
  edgePos : ∀ superp, (bufs superp).edgeFp.pos ≤ (bufs superp).edgeFp.content.length
  bfPos : ∀ superp, (bufs superp).bfFp.pos ≤ (bufs superp).bfFp.content.length

variable {m F o}

/-- A state whose records were shipped group by group, seen at another super partition. -/
private theorem shippedState_snoc_ne (start : Nat → SuperBuf E)
    (shipped : List E → List (List E)) (kept : List E → List E) (edges : List E) (edge : E)
    {superp : Nat} (other : superp ≠ m.mapSuperPartition (F.splitKey edge 0)) :
    shippedState m F o start shipped kept (edges ++ [edge]) superp =
      shippedState m F o start shipped kept edges superp := by
  have own : superEdges m F superp (edges ++ [edge]) = superEdges m F superp edges := by
    rw [superEdges_append, superEdges_singleton, if_neg (Ne.symm other), List.append_nil]
  simp only [shippedState, own]

variable [DecidableEq E]

theorem flushBuf_create (fits : GroupFits o) (sb : SuperBuf E) :
    flushBuf m F o false sb = some
      { edgeFp := if 1 < m.superPartitions then fwrite sb.edgeFp sb.edgeBuf else sb.edgeFp
        bfFp := fwrite sb.bfFp (bloomOut F o sb.edgeBuf).1
        edgeBuf := [] } := by
  unfold flushBuf
  rw [bloomFilterCalculation_create fits]
  by_cases several : 1 < m.superPartitions <;> simp [several]

theorem flushBuf_of_not_fits (wrapped : ¬ GroupFits o) (isVerify : Bool) (sb : SuperBuf E) :
    flushBuf m F o isVerify sb = none := by
  unfold flushBuf
  rw [bloomFilterCalculation_of_not_fits wrapped]

/-- The step of the distribution loop. -/
theorem distributeEdge_distributed {start : Nat → SuperBuf E} (ready : Ready start)
    (fits : GroupFits o) (progress : 0 < o.edgesPerBuf) {edges : List E} {edge : E}
    (noTombstone : F.splitKey edge 0 ≠ tombstone)
    (inBuffer : min o.edgesPerBuf (edges.length + 1) * F.splitSizeBytes ≤ edgeBufSize F o) :
    distributeEdge m F o false (distributed m F o start edges) edge =
      some (distributed m F o start (edges ++ [edge])) := by
  set superp := m.mapSuperPartition (F.splitKey edge 0) with hsuperp
  have own : superEdges m F superp (edges ++ [edge]) = superEdges m F superp edges ++ [edge] := by
    rw [superEdges_append, superEdges_singleton, if_pos hsuperp.symm]
  have remainder := Nat.mod_lt (superEdges m F superp edges).length progress
  have count := length_superEdges_le (m := m) (F := F) superp edges
  have restLength : (rest o.edgesPerBuf (superEdges m F superp edges)).length + 1 ≤
      min o.edgesPerBuf (edges.length + 1) := by
    have := Nat.mod_le (superEdges m F superp edges).length o.edgesPerBuf
    rw [length_rest]
    omega
  have copied : ¬ edgeBufSize F o <
      ((distributed m F o start edges superp).edgeBuf.length + 1) * F.splitSizeBytes := by
    have := Nat.mul_le_mul_right F.splitSizeBytes restLength
    change ¬ edgeBufSize F o <
      ((rest o.edgesPerBuf (superEdges m F superp edges)).length + 1) * F.splitSizeBytes
    omega
  unfold distributeEdge
  simp only [← hsuperp, noTombstone, if_false, copied]
  by_cases completes : (rest o.edgesPerBuf (superEdges m F superp edges)).length + 1 = o.edgesPerBuf
  · -- the group is complete and shipped
    have full : ((distributed m F o start edges superp).edgeBuf ++ [edge]).length =
        o.edgesPerBuf := by
      rw [List.length_append, List.length_singleton]; exact completes
    rw [if_pos full, flushBuf_create fits, Option.map_some]
    congr 1
    funext s
    by_cases here : s = superp
    · subst here
      rw [Function.update_self]
      simp only [distributed, shippedState, own, fullGroups_snoc_full edge progress completes,
        rest_snoc_full edge completes, filterBytes_append, filterBytes_singleton,
        List.flatten_append, List.flatten_singleton, fwrite_fwrite (ready.bfPos _)]
      by_cases several : 1 < m.superPartitions
      · simp only [several, if_true, fwrite_fwrite (ready.edgePos _)]
      · simp only [several, if_false]
    · rw [Function.update_of_ne here]
      exact (shippedState_snoc_ne start _ _ edges edge here).symm
  · -- the record joins the buffer
    have open_ : (rest o.edgesPerBuf (superEdges m F superp edges)).length + 1 < o.edgesPerBuf := by
      rw [length_rest] at completes ⊢
      omega
    have notFull : ¬ ((distributed m F o start edges superp).edgeBuf ++ [edge]).length =
        o.edgesPerBuf := by
      rw [List.length_append, List.length_singleton]; exact completes
    rw [if_neg notFull]
    congr 1
    funext s
    by_cases here : s = superp
    · subst here
      rw [Function.update_self]
      simp only [distributed, shippedState, own, fullGroups_snoc_partial edge open_,
        rest_snoc_partial edge open_]
    · rw [Function.update_of_ne here]
      exact (shippedState_snoc_ne start _ _ edges edge here).symm

/-- A run of records goes through the distribution. -/
private theorem foldlM_distributed {start : Nat → SuperBuf E} (ready : Ready start)
    (fits : GroupFits o) (progress : 0 < o.edgesPerBuf) (chunk edges : List E)
    (noTombstone : ∀ edge ∈ chunk, F.splitKey edge 0 ≠ tombstone)
    (inBuffer : min o.edgesPerBuf (edges.length + chunk.length) * F.splitSizeBytes ≤
      edgeBufSize F o) :
    chunk.foldlM (distributeEdge m F o false) (distributed m F o start edges) =
      some (distributed m F o start (edges ++ chunk)) := by
  induction chunk generalizing edges with
  | nil => simp
  | cons edge chunk ih =>
    have first : min o.edgesPerBuf (edges.length + 1) * F.splitSizeBytes ≤ edgeBufSize F o := by
      refine Nat.le_trans (Nat.mul_le_mul_right _ ?_) inBuffer
      rw [List.length_cons]
      omega
    have later : min o.edgesPerBuf ((edges ++ [edge]).length + chunk.length) * F.splitSizeBytes ≤
        edgeBufSize F o := by
      refine Nat.le_trans (Nat.mul_le_mul_right _ ?_) inBuffer
      simp only [List.length_append, List.length_cons, List.length_nil]
      omega
    rw [List.foldlM_cons, distributeEdge_distributed ready fits progress
      (noTombstone edge List.mem_cons_self) first]
    change chunk.foldlM _ _ = _
    rw [ih _ (fun edge member => noTombstone edge (List.mem_cons_of_mem _ member)) later]
    simp

/-- The `while` loop gets through all records that are left. -/
private theorem distributeLoop_distributed {start : Nat → SuperBuf E} (ready : Ready start)
    (fits : GroupFits o) (progress : 0 < o.edgesPerBuf) (fuel : Nat) (left edges : List E)
    (enough : left.length ≤ fuel)
    (noTombstone : ∀ edge ∈ left, F.splitKey edge 0 ≠ tombstone)
    (inBuffer : min o.edgesPerBuf (edges.length + left.length) * F.splitSizeBytes ≤
      edgeBufSize F o) :
    distributeLoop m F o false fuel left (distributed m F o start edges) =
      some (distributed m F o start (edges ++ left)) := by
  induction fuel generalizing left edges with
  | zero =>
    have nothing : left = [] := List.length_eq_zero_iff.mp (by omega)
    subst nothing
    simp [distributeLoop]
  | succ fuel ih =>
    cases left with
    | nil => simp [distributeLoop]
    | cons edge left =>
      have cut : (edge :: left).take o.edgesPerBuf ++ (edge :: left).drop o.edgesPerBuf =
          edge :: left := List.take_append_drop _ _
      have total : ((edge :: left).take o.edgesPerBuf).length +
          ((edge :: left).drop o.edgesPerBuf).length = (edge :: left).length := by
        rw [← List.length_append, cut]
      have chunkInBuffer : ¬ edgeBufSize F o <
          ((edge :: left).take o.edgesPerBuf).length * F.splitSizeBytes := by
        have := Nat.le_trans (Nat.mul_le_mul_right F.splitSizeBytes
          (show ((edge :: left).take o.edgesPerBuf).length ≤
            min o.edgesPerBuf (edges.length + (edge :: left).length) by
              rw [List.length_take]; omega)) inBuffer
        omega
      unfold distributeLoop
      simp only [chunkInBuffer, if_false]
      rw [foldlM_distributed ready fits progress _ edges
        (fun e member => noTombstone e (List.mem_of_mem_take member)) (by
          refine Nat.le_trans (Nat.mul_le_mul_right _ ?_) inBuffer
          omega)]
      simp only
      rw [ih _ _ (by
          rw [List.length_drop]
          rw [List.length_cons] at enough ⊢
          omega)
        (fun e member => noTombstone e (List.mem_of_mem_drop member)) (by
          rw [List.length_append, Nat.add_assoc, total]; exact inBuffer),
        List.append_assoc, cut]

/-- The state while the partial groups are shipped: super partitions below `k` are done. -/
private theorem foldlM_flushRest {start : Nat → SuperBuf E} (ready : Ready start)
    (edges : List E) (fits : edges ≠ [] → GroupFits o) (k : Nat) :
    (List.range k).foldlM (flushRest m F o false) (distributed m F o start edges) =
      some fun superp =>
        if superp < k then flushed m F o start edges superp
        else distributed m F o start edges superp := by
  induction k with
  | zero => simp
  | succ k ih =>
    rw [List.range_succ, List.foldlM_append, ih]
    simp only [Option.bind_eq_bind, Option.bind_some, List.foldlM_cons, List.foldlM_nil, bind_pure]
    unfold flushRest
    simp only [Nat.lt_irrefl, if_false]
    have later : ∀ superp, superp < k + 1 ↔ superp < k ∨ superp = k := by intro; omega
    by_cases nothing : (distributed m F o start edges k).edgeBuf = []
    · rw [if_pos nothing]
      congr 1
      funext superp
      by_cases here : superp = k
      · subst here
        change rest o.edgesPerBuf (superEdges m F superp edges) = [] at nothing
        simp [distributed, flushed, shippedState, groups, nothing]
      · simp [later, here]
    · rw [if_neg nothing]
      have nonempty : edges ≠ [] := by
        rintro rfl
        apply nothing
        simp [distributed, shippedState, superEdges]
      rw [flushBuf_create (fits nonempty), Option.map_some]
      congr 1
      funext superp
      by_cases here : superp = k
      · subst here
        change rest o.edgesPerBuf (superEdges m F superp edges) ≠ [] at nothing
        rw [Function.update_self, if_pos (Nat.lt_succ_self superp)]
        simp only [distributed, flushed, shippedState, groups, nothing, if_false,
          filterBytes_append, filterBytes_singleton, List.flatten_append, List.flatten_singleton,
          fwrite_fwrite (ready.bfPos _)]
        by_cases several : 1 < m.superPartitions
        · simp only [several, if_true, fwrite_fwrite (ready.edgePos _)]
        · simp only [several, if_false]
      · rw [Function.update_of_ne here]
        simp [later, here]

/-- Records that fit are all written. -/
theorem distributeEdges_of_distributable {start : Nat → SuperBuf E} (ready : Ready start)
    {edges : List E} (ok : Distributable F o edges) :
    distributeEdges m F o false edges start = some (flushed m F o start edges) := by
  have begin_ : distributed m F o start [] = start := by
    funext superp
    have empty := ready.empty superp
    simp only [distributed, shippedState, superEdges, List.filter_nil, fullGroups_nil, rest_nil,
      List.flatten_nil, filterBytes_nil, fwrite_nil, ite_self]
    cases h : start superp with
    | mk edgeFp bfFp edgeBuf => rw [h] at empty; simp only at empty; rw [empty]
  have looped : distributeLoop m F o false edges.length edges start =
      some (distributed m F o start edges) := by
    by_cases nonempty : edges = []
    · subst nonempty
      simp [distributeLoop, begin_]
    · have := distributeLoop_distributed (m := m) ready (ok.fits nonempty)
        (ok.progress nonempty) edges.length edges [] (Nat.le_refl _) ok.noTombstone
        (by simpa using ok.inBuffer)
      rwa [begin_, List.nil_append] at this
  unfold distributeEdges
  rw [looped]
  simp only
  rw [foldlM_flushRest ready edges ok.fits]
  congr 1
  funext superp
  by_cases inside : superp < m.superPartitions
  · simp [inside]
  · have nothing := superEdges_of_ge (F := F) (Nat.le_of_not_lt inside) edges
    simp [inside, distributed, flushed, shippedState, nothing]

/-- Where no group can be shipped, a record stays in a buffer. -/
private theorem distributeEdge_of_not_fits (wrapped : ¬ GroupFits o) {bufs after : Nat → SuperBuf E}
    {edge : E} (ran : distributeEdge m F o false bufs edge = some after) :
    (after (m.mapSuperPartition (F.splitKey edge 0))).edgeBuf ≠ [] ∧
      ∀ superp, (bufs superp).edgeBuf ≠ [] → (after superp).edgeBuf ≠ [] := by
  unfold distributeEdge at ran
  simp only [flushBuf_of_not_fits wrapped, Option.map_none] at ran
  split at ran
  · contradiction
  · split at ran
    · contradiction
    · split at ran
      · contradiction
      · obtain rfl := Option.some.inj ran
        refine ⟨by simp, ?_⟩
        intro superp nonempty
        by_cases here : superp = m.mapSuperPartition (F.splitKey edge 0)
        · subst here; simp
        · rw [Function.update_of_ne here]; exact nonempty

/-- The records that a run of the inner loop accepts. -/
private theorem foldlM_distributeEdge_noTombstone {chunk : List E} {bufs after : Nat → SuperBuf E}
    (ran : chunk.foldlM (distributeEdge m F o false) bufs = some after) :
    ∀ edge ∈ chunk, F.splitKey edge 0 ≠ tombstone := by
  induction chunk generalizing bufs with
  | nil => simp
  | cons edge chunk ih =>
    rw [List.foldlM_cons] at ran
    obtain ⟨next, first, later⟩ := Option.bind_eq_some_iff.mp ran
    intro e member
    rcases List.mem_cons.mp member with rfl | member
    · intro dead
      unfold distributeEdge at first
      simp [dead] at first
    · exact ih later e member

private theorem foldlM_distributeEdge_nonempty (wrapped : ¬ GroupFits o) {chunk : List E}
    {bufs after : Nat → SuperBuf E}
    (ran : chunk.foldlM (distributeEdge m F o false) bufs = some after) :
    (∀ edge ∈ chunk, (after (m.mapSuperPartition (F.splitKey edge 0))).edgeBuf ≠ []) ∧
      ∀ superp, (bufs superp).edgeBuf ≠ [] → (after superp).edgeBuf ≠ [] := by
  induction chunk generalizing bufs with
  | nil =>
    obtain rfl := Option.some.inj ran
    simp
  | cons edge chunk ih =>
    rw [List.foldlM_cons] at ran
    obtain ⟨next, first, later⟩ := Option.bind_eq_some_iff.mp ran
    obtain ⟨held, kept⟩ := distributeEdge_of_not_fits wrapped first
    obtain ⟨laterHeld, laterKept⟩ := ih later
    refine ⟨?_, fun superp nonempty => laterKept superp (kept superp nonempty)⟩
    intro e member
    rcases List.mem_cons.mp member with rfl | member
    · exact laterKept _ held
    · exact laterHeld e member

/-- What a terminating run of the `while` loop says about its input. -/
private theorem distributeLoop_some {fuel : Nat} {edges : List E} {bufs after : Nat → SuperBuf E}
    (ran : distributeLoop m F o false fuel edges bufs = some after) :
    (∀ edge ∈ edges, F.splitKey edge 0 ≠ tombstone) ∧
      (edges ≠ [] → 0 < o.edgesPerBuf) ∧
      (min o.edgesPerBuf edges.length * F.splitSizeBytes ≤ edgeBufSize F o) ∧
      (¬ GroupFits o → (∀ edge ∈ edges,
          (after (m.mapSuperPartition (F.splitKey edge 0))).edgeBuf ≠ []) ∧
        ∀ superp, (bufs superp).edgeBuf ≠ [] → (after superp).edgeBuf ≠ []) := by
  induction fuel generalizing edges bufs with
  | zero =>
    cases edges with
    | nil =>
      obtain rfl := Option.some.inj ran
      simp
    | cons edge edges => simp [distributeLoop] at ran
  | succ fuel ih =>
    cases edges with
    | nil =>
      obtain rfl := Option.some.inj ran
      simp
    | cons edge edges =>
      have cut : (edge :: edges).take o.edgesPerBuf ++ (edge :: edges).drop o.edgesPerBuf =
          edge :: edges := List.take_append_drop _ _
      unfold distributeLoop at ran
      simp only at ran
      split at ran
      · contradiction
      · rename_i chunkInBuffer
        split at ran
        · contradiction
        · rename_i next inner
          obtain ⟨alive, progress, -, held⟩ := ih ran
          refine ⟨?_, ?_, ?_, ?_⟩
          · intro e member
            rw [← cut, List.mem_append] at member
            exact member.elim (foldlM_distributeEdge_noTombstone inner e) (alive e)
          · intro _
            by_contra none_
            have zero : o.edgesPerBuf = 0 := by omega
            rw [zero, List.drop_zero] at progress
            exact absurd (progress (by simp)) (Nat.lt_irrefl 0)
          · rw [List.length_take] at chunkInBuffer
            omega
          · intro wrapped
            obtain ⟨innerHeld, innerKept⟩ := foldlM_distributeEdge_nonempty wrapped inner
            obtain ⟨laterHeld, laterKept⟩ := held wrapped
            refine ⟨?_, fun superp nonempty => laterKept superp (innerKept superp nonempty)⟩
            intro e member
            rw [← cut, List.mem_append] at member
            exact member.elim (fun m => laterKept _ (innerHeld e m)) (laterHeld e)

private theorem foldlM_flushRest_of_not_fits (wrapped : ¬ GroupFits o) {k superp : Nat}
    {bufs : Nat → SuperBuf E} (inside : superp < k) (nonempty : (bufs superp).edgeBuf ≠ []) :
    (List.range k).foldlM (flushRest m F o false) bufs = none := by
  have step : ∀ k, (List.range k).foldlM (flushRest m F o false) bufs = none ∨
      (List.range k).foldlM (flushRest m F o false) bufs = some bufs ∧
        ∀ s < k, (bufs s).edgeBuf = [] := by
    intro k
    induction k with
    | zero => exact Or.inr ⟨rfl, by simp⟩
    | succ k ih =>
      rw [List.range_succ, List.foldlM_append]
      rcases ih with failed | ⟨same, empty⟩
      · exact Or.inl (by rw [failed]; rfl)
      · rw [same]
        simp only [Option.bind_eq_bind, Option.bind_some, List.foldlM_cons, List.foldlM_nil,
          bind_pure]
        unfold flushRest
        by_cases nothing : (bufs k).edgeBuf = []
        · refine Or.inr ⟨by simp [nothing], ?_⟩
          intro s below
          rcases Nat.lt_succ_iff_lt_or_eq.mp below with below | rfl
          · exact empty s below
          · exact nothing
        · simp [nothing, flushBuf_of_not_fits wrapped]
  rcases step k with failed | ⟨-, empty⟩
  · exact failed
  · exact absurd (empty superp inside) nonempty

/-- `edge_distribution` gets to its end exactly on the inputs that fit, and then everything is
in the files. -/
theorem distributeEdges_eq_some_iff {start after : Nat → SuperBuf E} (ready : Ready start)
    {edges : List E} :
    distributeEdges m F o false edges start = some after ↔
      Distributable F o edges ∧ after = flushed m F o start edges := by
  constructor
  · intro ran
    have ok : Distributable F o edges := by
      unfold distributeEdges at ran
      split at ran
      · contradiction
      · rename_i bufs looped
        obtain ⟨alive, progress, inBuffer, held⟩ := distributeLoop_some looped
        refine ⟨alive, ?_, progress, inBuffer⟩
        intro nonempty
        by_contra wrapped
        obtain ⟨edge, member⟩ := List.exists_mem_of_ne_nil edges nonempty
        rw [foldlM_flushRest_of_not_fits wrapped (m.mapSuperPartition_lt _)
          ((held wrapped).1 edge member)] at ran
        contradiction
    rw [distributeEdges_of_distributable ready ok] at ran
    exact ⟨ok, (Option.some.inj ran).symm⟩
  · rintro ⟨ok, rfl⟩
    exact distributeEdges_of_distributable ready ok

end Distribution

end MBFGraph
