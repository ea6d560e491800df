import MBFGraph.Core.WriteBack

/-!
# The write-back loses nothing as long as a record touches two sectors

A run is followed byte by byte: a byte of a reported record lies in a marked sector and is
written, a byte of any other record is what the file holds already. The first part needs that a
record has no sector besides its first and its last one.
-/

namespace MBFGraph

open ByteBits BitScan Overwrite

section Writes

variable {test buffer : List Byte} {bufbytes : Nat}

private theorem findNext_funext (test : List Byte) :
    findNext test = fun p => nextBit (bitAt test) (8 * test.length) (p + 1) :=
  funext (findNext_eq test)

/-- The request for a run of sectors. -/
private def requestOf (buffer : List Byte) (bufbytes : Nat) (run : Nat × Nat) :
    Nat × List Byte :=
  (run.1 * 512, (buffer.drop (run.1 * 512)).take
    (if run.1 * 512 + run.2 * 512 > bufbytes then bufbytes - run.1 * 512 else run.2 * 512))

private theorem randomWritesFrom_eq (fuel : Nat) (pos : Option Nat) :
    randomWritesFrom test buffer bufbytes fuel pos =
      (scanRuns (bitAt test) (8 * test.length) (fun n => decide (n * 512 < 2 ^ 30)) fuel pos).map
        (requestOf buffer bufbytes) := by
  induction fuel generalizing pos with
  | zero => rfl
  | succ fuel ih =>
    cases pos with
    | none => rfl
    | some cur =>
      simp only [randomWritesFrom, scanRuns, List.map_cons]
      rw [ih]
      simp only [searchAndUpdateNextWPositions, findNext_funext, requestOf]

private theorem covers_requestOf_iff (whole : buffer.length = bufbytes) (run : Nat × Nat) {x : Nat}
    (inside : x < bufbytes) :
    Covers (requestOf buffer bufbytes run) x ↔ run.1 ≤ x / 512 ∧ x / 512 < run.1 + run.2 := by
  unfold Covers requestOf
  simp only [List.length_take, List.length_drop, whole]
  split <;> omega

/-- The requests cover the bytes of the marked sectors. -/
theorem covered_randomWrites_iff (whole : buffer.length = bufbytes) {x : Nat}
    (inside : x < bufbytes) :
    (∃ w ∈ randomWrites test buffer bufbytes, Covers w x) ↔ bitAt test (x / 512) = true := by
  unfold randomWrites
  rw [randomWritesFrom_eq, findFirst_eq]
  simp only [List.mem_map, exists_exists_and_eq_and, covers_requestOf_iff whole _ inside]
  rw [mem_scanRuns_iff _ _ (by omega)]
  constructor
  · rintro ⟨-, -, set⟩
    exact set
  · intro set
    refine ⟨Nat.zero_le _, ?_, set⟩
    by_contra outside
    rw [bitAt_of_length_le (Nat.le_of_not_lt outside)] at set
    contradiction

/-- A request holds what the buffer holds there. -/
theorem getElem?_of_mem_randomWrites {w : Nat × List Byte}
    (member : w ∈ randomWrites test buffer bufbytes) {x : Nat} (covers : Covers w x) :
    w.2[x - w.1]? = buffer[x]? := by
  unfold randomWrites at member
  rw [randomWritesFrom_eq] at member
  obtain ⟨run, -, rfl⟩ := List.mem_map.mp member
  have above := covers.1
  have below := covers.2
  unfold requestOf at above below ⊢
  simp only [List.length_take] at above below ⊢
  rw [List.getElem?_take_of_lt (by omega), List.getElem?_drop, Nat.add_sub_cancel' above]

/-- What the file holds when all requests are done. -/
theorem getElem?_applyWrites_randomWrites (whole : buffer.length = bufbytes)
    {order : List (Nat × List Byte)} (perm : order.Perm (randomWrites test buffer bufbytes))
    {file : List Byte} {x : Nat} (inside : x < bufbytes)
    (reached : bitAt test (x / 512) = true ∨ file[x]? = buffer[x]?) :
    (applyWrites order file)[x]? = buffer[x]? := by
  have present : x < buffer.length := by omega
  rw [List.getElem?_eq_getElem present] at reached ⊢
  apply getElem?_applyWrites
  · intro w member covers
    rw [getElem?_of_mem_randomWrites (perm.mem_iff.mp member) covers,
      List.getElem?_eq_getElem present]
  · rcases reached with set | old
    · obtain ⟨w, member, covers⟩ := (covered_randomWrites_iff whole inside).mpr set
      exact Or.inl ⟨w, perm.mem_iff.mpr member, covers⟩
    · exact Or.inr old

end Writes

section Marks

variable {A : VertexProgram} {c : Configuration}

/-- The first and the last sector of a record. -/
def firstSector (A : VertexProgram) (r : Nat) : Nat := r * A.vertexStateBytes / 512

def lastSector (A : VertexProgram) (r : Nat) : Nat :=
  (r * A.vertexStateBytes + A.vertexStateBytes - 1) / 512

/-- The sector that `previous_pos` names is marked. -/
def PreviousMarked (s : ChangeScan) : Prop :=
  ∀ p, s.previousPos = some p → bitAt s.verBufChg p = true

/-- The vertex can be visited: its record is in the buffer, its sectors are in the bitmap, and
their numbers fit in 32 bits. -/
structure InReach (A : VertexProgram) (c : Configuration) (superp : Nat) (s : ChangeScan)
    (v : Nat × Nat) : Prop where
  inside : (recordOf c superp v + 1) * A.vertexStateBytes ≤ s.buffer.length
  roomy : lastSector A (recordOf c superp v) < 8 * s.verBufChg.length
  small : lastSector A (recordOf c superp v) < 2 ^ 32

/-- What visiting the vertices `vs` does, from `s` to `t`. -/
structure Marks (A : VertexProgram) (c : Configuration) (superp phase : Nat)
    (vs : List (Nat × Nat)) (s t : ChangeScan) : Prop where
  length : t.buffer.length = s.buffer.length
  length_chg : t.verBufChg.length = s.verBufChg.length
  visited : ∀ v ∈ vs, block A.vertexStateBytes t.buffer (recordOf c superp v) =
    (A.checkResetChanged (block A.vertexStateBytes s.buffer (recordOf c superp v))
      (c.mapInverse superp v.1 v.2) phase).2
  others : ∀ r, (∀ v ∈ vs, recordOf c superp v ≠ r) →
    block A.vertexStateBytes t.buffer r = block A.vertexStateBytes s.buffer r
  kept : ∀ p, bitAt s.verBufChg p = true → bitAt t.verBufChg p = true
  marked : ∀ v ∈ vs, (A.checkResetChanged (block A.vertexStateBytes s.buffer (recordOf c superp v))
      (c.mapInverse superp v.1 v.2) phase).1 = true →
    bitAt t.verBufChg (firstSector A (recordOf c superp v)) = true ∧
      bitAt t.verBufChg (lastSector A (recordOf c superp v)) = true
  previous : PreviousMarked t

variable {superp phase : Nat}

theorem InReach.congr {s t : ChangeScan} {v : Nat × Nat} (reach : InReach A c superp s v)
    (length : t.buffer.length = s.buffer.length)
    (length_chg : t.verBufChg.length = s.verBufChg.length) : InReach A c superp t v where
  inside := by rw [length]; exact reach.inside
  roomy := by rw [length_chg]; exact reach.roomy
  small := reach.small

theorem marks_nil {s : ChangeScan} (previous : PreviousMarked s) :
    Marks A c superp phase [] s s where
  length := rfl
  length_chg := rfl
  visited := by simp
  others _ _ := rfl
  kept _ set := set
  marked := by simp
  previous := previous

/-- What `check_reset_changed` says of the record of a vertex in a buffer. -/
def checkAt (A : VertexProgram) (c : Configuration) (superp phase : Nat) (buffer : List Byte)
    (v : Nat × Nat) : Bool × List Byte :=
  A.checkResetChanged (block A.vertexStateBytes buffer (recordOf c superp v))
    (c.mapInverse superp v.1 v.2) phase

theorem stateIterCallback_buffer (s : ChangeScan) (v : Nat × Nat) :
    (stateIterCallback A c superp phase s v).buffer =
      overwrite s.buffer (recordOf c superp v * A.vertexStateBytes)
        (checkAt A c superp phase s.buffer v).2 := by
  unfold stateIterCallback checkAt
  simp only
  split
  · split <;> rfl
  · rfl

/-- The bitmap after a visit: it only grows, and the sectors of a reported record are in it, put
there now or by the record before. -/
theorem stateIterCallback_verBufChg (phase : Nat) {s : ChangeScan} {v : Nat × Nat}
    (reach : InReach A c superp s v) (previous : PreviousMarked s) :
    let t := stateIterCallback A c superp phase s v
    t.verBufChg.length = s.verBufChg.length ∧
      (∀ p, bitAt s.verBufChg p = true → bitAt t.verBufChg p = true) ∧
      ((checkAt A c superp phase s.buffer v).1 = true →
        bitAt t.verBufChg (firstSector A (recordOf c superp v)) = true ∧
          bitAt t.verBufChg (lastSector A (recordOf c superp v)) = true) ∧
      PreviousMarked t := by
  have roomy := reach.roomy
  have small := reach.small
  have order : firstSector A (recordOf c superp v) ≤ lastSector A (recordOf c superp v) :=
    Nat.div_le_div_right (by have := A.vertexStateBytes_pos; omega)
  have firstSmall : firstSector A (recordOf c superp v) % 2 ^ 32 =
      firstSector A (recordOf c superp v) := Nat.mod_eq_of_lt (by omega)
  have lastSmall : lastSector A (recordOf c superp v) % 2 ^ 32 =
      lastSector A (recordOf c superp v) := Nat.mod_eq_of_lt small
  unfold stateIterCallback checkAt
  simp only [← firstSector.eq_def, ← lastSector.eq_def, firstSmall, lastSmall]
  generalize firstSector A (recordOf c superp v) = pos at *
  generalize lastSector A (recordOf c superp v) = tPos at *
  split
  · split
    · -- both sectors are marked now
      simp only [length_setBit, bitAt_setBit, PreviousMarked, Option.some.injEq]
      refine ⟨trivial, fun p set => by simp [set], fun _ => ⟨?_, ?_⟩, ?_⟩
      · have below : pos < 8 * s.verBufChg.length := by omega
        simp [below]
      · simp [roomy]
      · rintro p rfl
        have below : pos < 8 * s.verBufChg.length := by omega
        simp [below]
    · -- the record lies in the sector that was marked last
      rename_i same
      obtain ⟨samePos, sameTPos⟩ : s.previousPos = some pos ∧ s.previousPos = some tPos := by
        simpa [not_or] using same
      exact ⟨rfl, fun p set => set, fun _ => ⟨previous _ samePos, previous _ sameTPos⟩, previous⟩
  · rename_i unreported
    exact ⟨rfl, fun p set => set, fun reported => absurd reported unreported, previous⟩

/-- Visiting a vertex. -/
theorem marks_stateIterCallback (phase : Nat) {s : ChangeScan} {v : Nat × Nat}
    (reach : InReach A c superp s v) (previous : PreviousMarked s) :
    Marks A c superp phase [v] s (stateIterCallback A c superp phase s v) := by
  have inside := reach.inside
  have size : (checkAt A c superp phase s.buffer v).2.length = A.vertexStateBytes := by
    unfold checkAt
    rw [A.length_checkResetChanged, length_block inside]
  obtain ⟨length_chg, kept, marked, previous'⟩ :=
    stateIterCallback_verBufChg phase reach previous
  refine ⟨?_, length_chg, ?_, ?_, kept, ?_, previous'⟩
  · rw [stateIterCallback_buffer]
    apply length_overwrite_inside
    rw [Nat.succ_mul] at inside
    omega
  · intro w member
    obtain rfl := List.mem_singleton.mp member
    rw [stateIterCallback_buffer, block_overwrite size inside, if_pos rfl]
    rfl
  · intro r notVisited
    have other : r ≠ recordOf c superp v := (notVisited v (List.mem_singleton_self v)).symm
    rw [stateIterCallback_buffer, block_overwrite size inside, if_neg other]
  · intro w member
    obtain rfl := List.mem_singleton.mp member
    exact marked

/-- Visits of disjoint lists of records, one after the other. -/
theorem Marks.append {s t u : ChangeScan} {vs ws : List (Nat × Nat)}
    (first : Marks A c superp phase vs s t) (second : Marks A c superp phase ws t u)
    (disjoint : ∀ v ∈ vs, ∀ w ∈ ws, recordOf c superp v ≠ recordOf c superp w) :
    Marks A c superp phase (vs ++ ws) s u := by
  -- the records of the second list are still those of `s`
  have untouched : ∀ w ∈ ws, block A.vertexStateBytes t.buffer (recordOf c superp w) =
      block A.vertexStateBytes s.buffer (recordOf c superp w) := fun w member =>
    first.others _ fun v vMember => disjoint v vMember w member
  refine ⟨second.length.trans first.length, second.length_chg.trans first.length_chg, ?_, ?_,
    fun p set => second.kept p (first.kept p set), ?_, second.previous⟩
  · intro v member
    rcases List.mem_append.mp member with inFirst | inSecond
    · rw [second.others _ fun w wMember => (disjoint v inFirst w wMember).symm]
      exact first.visited v inFirst
    · rw [← untouched v inSecond]
      exact second.visited v inSecond
  · intro r notVisited
    rw [second.others r fun w member => notVisited w (List.mem_append_right _ member),
      first.others r fun v member => notVisited v (List.mem_append_left _ member)]
  · intro v member reported
    rcases List.mem_append.mp member with inFirst | inSecond
    · obtain ⟨firstSet, lastSet⟩ := first.marked v inFirst reported
      exact ⟨second.kept _ firstSet, second.kept _ lastSet⟩
    · rw [← untouched v inSecond] at reported
      exact second.marked v inSecond reported

/-- The vertices of a processor. -/
theorem marks_foldl {s : ChangeScan} (vs : List (Nat × Nat))
    (reach : ∀ v ∈ vs, InReach A c superp s v) (distinct : (vs.map (recordOf c superp)).Nodup)
    (previous : PreviousMarked s) :
    Marks A c superp phase vs s (vs.foldl (stateIterCallback A c superp phase) s) := by
  induction vs generalizing s with
  | nil => exact marks_nil previous
  | cons v vs ih =>
    have head := marks_stateIterCallback phase (reach v List.mem_cons_self) previous
    rw [List.map_cons, List.nodup_cons] at distinct
    obtain ⟨fresh, distinct⟩ := distinct
    have tail := ih (fun w member => (reach w (List.mem_cons_of_mem _ member)).congr head.length
      head.length_chg) distinct head.previous
    refine Marks.append head tail ?_
    intro v' member w wMember same
    obtain rfl := List.mem_singleton.mp member
    exact fresh (List.mem_map.mpr ⟨w, wMember, same.symm⟩)

/-- Forgetting `previous_pos` is no harm. -/
theorem Marks.reset {s t : ChangeScan} {vs : List (Nat × Nat)}
    (marks : Marks A c superp phase vs { s with previousPos := none } t) :
    Marks A c superp phase vs s t := by
  obtain ⟨length, length_chg, visited, others, kept, marked, previous⟩ := marks
  exact ⟨length, length_chg, visited, others, kept, marked, previous⟩

/-- All processors. -/
theorem marks_processors {s : ChangeScan} (ps : List Nat)
    (reach : ∀ v ∈ ps.flatMap (c.stateIter superp), InReach A c superp s v)
    (distinct : ((ps.flatMap (c.stateIter superp)).map (recordOf c superp)).Nodup)
    (previous : PreviousMarked s) :
    Marks A c superp phase (ps.flatMap (c.stateIter superp)) s
      (ps.foldl (stateIterProcessor A c superp phase) s) := by
  induction ps generalizing s with
  | nil => exact marks_nil previous
  | cons p ps ih =>
    rw [List.flatMap_cons] at reach distinct ⊢
    rw [List.map_append, List.nodup_append] at distinct
    obtain ⟨headDistinct, tailDistinct, disjoint⟩ := distinct
    have head : Marks A c superp phase (c.stateIter superp p) s
        (stateIterProcessor A c superp phase s p) := by
      apply Marks.reset
      apply marks_foldl
      · intro v member
        exact (reach v (List.mem_append_left _ member)).congr rfl rfl
      · exact headDistinct
      · intro q impossible
        contradiction
    have tail := ih (fun v member => (reach v (List.mem_append_right _ member)).congr head.length
      head.length_chg) tailDistinct head.previous
    refine Marks.append head tail ?_
    intro v member w wMember
    exact disjoint _ (List.mem_map_of_mem member) _ (List.mem_map_of_mem wMember)

end Marks

section Visit

variable {A : VertexProgram} {c : Configuration}

theorem mem_vertices_iff {superp : Nat} {v : Nat × Nat} :
    v ∈ (List.range c.processors).flatMap (c.stateIter superp) ↔ IsVertex c superp v := by
  obtain ⟨i, k⟩ := v
  simp only [List.mem_flatMap, List.mem_range]
  exact c.mem_stateIter_iff

/-- The records of the vertices are numbered through. -/
theorem lt_records_iff {superp r : Nat} :
    r < c.records superp ↔ ∃ v, IsVertex c superp v ∧ recordOf c superp v = r := by
  rw [← List.mem_range, ← c.map_record_stateIter superp, List.mem_map]
  simp only [mem_vertices_iff]
  rfl

theorem length_clearedVerBufChg :
    (clearedVerBufChg A c).length = (stateBufsize A c / 512 + 1) / 8 + 1 := by
  unfold clearedVerBufChg
  rw [length_setBit, List.length_replicate]

/-- The whole state iteration of `phase_scatter`. -/
theorem marks_markChanged (superp phase : Nat) {buffer : List Byte}
    (whole : buffer.length = stateBufsize A c)
    (fit : c.records superp * A.vertexStateBytes ≤ stateBufsize A c)
    (small : stateBufsize A c < 2 ^ 41) :
    Marks A c superp phase ((List.range c.processors).flatMap (c.stateIter superp))
      ⟨buffer, clearedVerBufChg A c, none⟩ (markChanged A c superp phase buffer) := by
  have positive := A.vertexStateBytes_pos
  apply marks_processors
  · intro v member
    have below : recordOf c superp v < c.records superp :=
      lt_records_iff.mpr ⟨v, mem_vertices_iff.mp member, rfl⟩
    have inside : (recordOf c superp v + 1) * A.vertexStateBytes ≤ stateBufsize A c :=
      le_trans (Nat.mul_le_mul_right _ below) fit
    have lastInside : lastSector A (recordOf c superp v) ≤ (stateBufsize A c - 1) / 512 := by
      rw [Nat.succ_mul] at inside
      exact Nat.div_le_div_right (by omega)
    refine ⟨by rw [whole]; exact inside, ?_, by omega⟩
    rw [length_clearedVerBufChg]
    omega
  · have numbered := c.map_record_stateIter superp
    have distinct := List.nodup_range (n := c.records superp)
    rw [← numbered] at distinct
    exact distinct
  · intro p impossible
    contradiction

/-- A record with no sector besides its first and its last one. -/
def TwoSectors (A : VertexProgram) (r : Nat) : Prop := lastSector A r ≤ firstSector A r + 1

/-- The sector of a byte of such a record is the first or the last one of the record. -/
theorem sector_of_twoSectors {x : Nat} (two : TwoSectors A (x / A.vertexStateBytes)) :
    x / 512 = firstSector A (x / A.vertexStateBytes) ∨
      x / 512 = lastSector A (x / A.vertexStateBytes) := by
  have above : x / A.vertexStateBytes * A.vertexStateBytes ≤ x := Nat.div_mul_le_self _ _
  have below : x < x / A.vertexStateBytes * A.vertexStateBytes + A.vertexStateBytes :=
    Nat.lt_div_mul_add A.vertexStateBytes_pos
  unfold TwoSectors at two
  have first : firstSector A (x / A.vertexStateBytes) ≤ x / 512 := Nat.div_le_div_right above
  have last : x / 512 ≤ lastSector A (x / A.vertexStateBytes) := Nat.div_le_div_right (by omega)
  omega

/-- The condition under which a visit loses nothing: every record that it reports lies in two
sectors at most, and where the file holds nothing yet it reports every record. -/
def WritesBackAll (A : VertexProgram) (c : Configuration) (fuse : Bool) (st : WriteBackState)
    (changes : Changes) : Prop :=
  (∀ v, IsVertex c st.superp v → (checked A c st changes v).1 = true →
      TwoSectors A (recordOf c st.superp v)) ∧
    (st.phase = 0 ∨ fuse = true →
      ∀ v, IsVertex c st.superp v → (checked A c st changes v).1 = true)

/-- What holds between two visits of a run. -/
structure WriteBackInv (A : VertexProgram) (c : Configuration) (st : WriteBackState) : Prop where
  length : st.buffer.length = stateBufsize A c
  superp_lt : st.superp < c.superPartitions
  stored_length : ∀ s buffer, st.stored s = some buffer →
    s < c.superPartitions ∧ buffer.length = stateBufsize A c
  kept : ∀ s buffer, st.stored s = some buffer →
    ∀ x < c.records s * A.vertexStateBytes, (st.files s)[x]? = buffer[x]?
  visited : ∀ s < c.superPartitions, 0 < st.phase ∨ s < st.superp → (st.stored s).isSome

variable {st : WriteBackState} {changes : Changes} {fuse : Bool}

/-- A load brings back what the file starts with. -/
theorem getElem?_readOneShot {buffer file : List Byte} {bufsize x : Nat} (inside : x < bufsize)
    (present : x < file.length) : (readOneShot buffer file bufsize)[x]? = file[x]? := by
  unfold readOneShot
  rw [getElem?_overwrite (Nat.zero_le _), List.length_take, if_pos ⟨Nat.zero_le _, by omega⟩,
    Nat.sub_zero, List.getElem?_take_of_lt inside]

theorem length_readOneShot {buffer file : List Byte} {bufsize : Nat}
    (whole : buffer.length = bufsize) : (readOneShot buffer file bufsize).length = bufsize := by
  unfold readOneShot
  rw [length_overwrite_inside, whole]
  rw [List.length_take, whole]
  omega

theorem length_stateLoad (inv : WriteBackInv A c st) :
    (stateLoad A c st).length = stateBufsize A c := by
  unfold stateLoad
  split
  · exact length_readOneShot inv.length
  · exact inv.length

/-- From the second superstep on the loaded records are those of the file. -/
theorem getElem?_stateLoad (inv : WriteBackInv A c st) (later : 0 < st.phase)
    (fit : c.records st.superp * A.vertexStateBytes ≤ stateBufsize A c) {x : Nat}
    (inside : x < c.records st.superp * A.vertexStateBytes) :
    (stateLoad A c st)[x]? = (st.files st.superp)[x]? := by
  obtain ⟨buffer, stored⟩ :=
    Option.isSome_iff_exists.mp (inv.visited st.superp inv.superp_lt (Or.inl later))
  have present : x < (st.files st.superp).length := by
    have same := inv.kept _ _ stored x inside
    have inBuffer : x < buffer.length := by rw [(inv.stored_length _ _ stored).2]; omega
    rw [List.getElem?_eq_getElem inBuffer] at same
    exact (List.getElem?_eq_some_iff.mp same).1
  unfold stateLoad
  rw [if_pos later, getElem?_readOneShot (by omega) present]

/-- The changes keep the buffer's length and every record they do not name. -/
theorem scattered_spec (fitChanges : ChangesFit A c st changes)
    (inside : c.records st.superp * A.vertexStateBytes ≤ (stateLoad A c st).length) :
    (scattered A c st changes).length = (stateLoad A c st).length ∧
      ∀ r, (∀ change ∈ changes, change.1 ≠ r) →
        block A.vertexStateBytes (scattered A c st changes) r =
          block A.vertexStateBytes (stateLoad A c st) r := by
  unfold scattered
  generalize stateLoad A c st = buffer at *
  induction changes generalizing buffer with
  | nil => exact ⟨rfl, fun r _ => rfl⟩
  | cons change changes ih =>
    obtain ⟨below, size⟩ := fitChanges change List.mem_cons_self
    have whole : (change.1 + 1) * A.vertexStateBytes ≤ buffer.length :=
      le_trans (Nat.mul_le_mul_right _ below) inside
    have sameLength : (overwrite buffer (change.1 * A.vertexStateBytes) change.2).length =
        buffer.length := by
      apply length_overwrite_inside
      rw [Nat.succ_mul] at whole
      omega
    rw [List.map_cons, applyWrites_cons]
    obtain ⟨length, others⟩ := ih (fun w member => fitChanges w (List.mem_cons_of_mem _ member))
      _ (by rw [sameLength]; exact inside)
    refine ⟨length.trans sameLength, fun r notNamed => ?_⟩
    rw [others r fun w member => notNamed w (List.mem_cons_of_mem _ member),
      block_overwrite size whole, if_neg (notNamed change List.mem_cons_self).symm]

/-- A record that is not reported still is what was loaded. -/
theorem block_marked_of_unreported (inv : WriteBackInv A c st)
    (fitChanges : ChangesFit A c st changes)
    (fit : c.records st.superp * A.vertexStateBytes ≤ stateBufsize A c)
    (small : stateBufsize A c < 2 ^ 41) (reports : ReportsChanges A c st changes)
    {v : Nat × Nat} (isVertex : IsVertex c st.superp v)
    (unreported : (checked A c st changes v).1 = false) :
    block A.vertexStateBytes (marked A c st changes).buffer (recordOf c st.superp v) =
      block A.vertexStateBytes (stateLoad A c st) (recordOf c st.superp v) := by
  have loaded := length_stateLoad inv
  obtain ⟨length, others⟩ := scattered_spec fitChanges (by rw [loaded]; exact fit)
  have marks := marks_markChanged st.superp st.phase (length.trans loaded) fit small
  have visited := marks.visited v (mem_vertices_iff.mpr isVertex)
  obtain ⟨changed, untouched⟩ := reports v isVertex
  rw [← others _ fun change member same => ?_]
  · rw [← untouched unreported]
    exact visited
  · have reported := changed ⟨change, member, same⟩
    rw [reported] at unreported
    contradiction

/-- After a store the file agrees with the state buffer on all records. -/
theorem getElem?_stored (inv : WriteBackInv A c st) (fitChanges : ChangesFit A c st changes)
    (fit : c.records st.superp * A.vertexStateBytes ≤ stateBufsize A c)
    (small : stateBufsize A c < 2 ^ 41) (reports : ReportsChanges A c st changes)
    (all : WritesBackAll A c fuse st changes) {order : List (Nat × List Byte)}
    (perm : order.Perm (storeWrites A c st changes)) {x : Nat}
    (inside : x < c.records st.superp * A.vertexStateBytes) :
    (applyWrites order (if fuse then [] else st.files st.superp))[x]? =
      (marked A c st changes).buffer[x]? := by
  have loaded := length_stateLoad inv
  have length := (scattered_spec fitChanges (by rw [loaded]; exact fit)).1.trans loaded
  have marks := marks_markChanged st.superp st.phase length fit small
  have whole : (marked A c st changes).buffer.length = stateBufsize A c :=
    marks.length.trans length
  refine getElem?_applyWrites_randomWrites whole perm (by omega) ?_
  obtain ⟨v, isVertex, named⟩ := lt_records_iff.mp ((Nat.div_lt_iff_lt_mul
    A.vertexStateBytes_pos).mpr inside)
  cases reported : (checked A c st changes v).1 with
  | true =>
    -- its sectors are marked, and there are no others
    left
    have two := all.1 v isVertex reported
    obtain ⟨first, last⟩ := marks.marked v (mem_vertices_iff.mpr isVertex) reported
    rw [named] at two first last
    rcases sector_of_twoSectors two with isFirst | isLast
    · rw [isFirst]; exact first
    · rw [isLast]; exact last
  | false =>
    -- the file has the record from the store before
    right
    have laterStore : ¬(st.phase = 0 ∨ fuse = true) := by
      intro nothingYet
      rw [all.2 nothingYet v isVertex] at reported
      contradiction
    obtain ⟨later, noFuse⟩ := not_or.mp laterStore
    have same := block_marked_of_unreported inv fitChanges fit small reports isVertex reported
    rw [named] at same
    rw [if_neg noFuse, getElem?_eq_of_block_eq A.vertexStateBytes_pos same,
      getElem?_stateLoad inv (Nat.pos_of_ne_zero later) fit inside]

/-- A visit keeps the invariant. -/
theorem WriteBackInv.visit (inv : WriteBackInv A c st) (fitChanges : ChangesFit A c st changes)
    (fit : ∀ s < c.superPartitions, c.records s * A.vertexStateBytes ≤ stateBufsize A c)
    (small : stateBufsize A c < 2 ^ 41) (reports : ReportsChanges A c st changes)
    (all : WritesBackAll A c fuse st changes) {order : List (Nat × List Byte)}
    (perm : order.Perm (storeWrites A c st changes)) :
    WriteBackInv A c (visit A c fuse st changes order) := by
  have inRange := inv.superp_lt
  have loaded := length_stateLoad inv
  have length := (scattered_spec fitChanges (by rw [loaded]; exact fit _ inRange)).1.trans loaded
  have whole : (marked A c st changes).buffer.length = stateBufsize A c :=
    (marks_markChanged st.superp st.phase length (fit _ inRange) small).length.trans length
  refine ⟨whole, ?_, ?_, ?_, ?_⟩
  · unfold MBFGraph.visit
    simp only [decide_eq_true_eq]
    split <;> omega
  · intro s buffer stored
    change Function.update st.stored st.superp _ s = some buffer at stored
    by_cases same : s = st.superp
    · subst same
      rw [Function.update_self] at stored
      rw [← Option.some.inj stored]
      exact ⟨inRange, whole⟩
    · rw [Function.update_of_ne same] at stored
      exact inv.stored_length s buffer stored
  · intro s buffer stored x inside
    change Function.update st.stored st.superp _ s = some buffer at stored
    change (Function.update st.files st.superp _ s)[x]? = buffer[x]?
    by_cases same : s = st.superp
    · subst same
      rw [Function.update_self] at stored ⊢
      rw [← Option.some.inj stored]
      exact getElem?_stored inv fitChanges (fit _ inRange) small reports all perm inside
    · rw [Function.update_of_ne same] at stored ⊢
      exact inv.kept s buffer stored x inside
  · intro s below passed
    change (Function.update st.stored st.superp _ s).isSome = true
    by_cases same : s = st.superp
    · subst same
      rw [Function.update_self]
      rfl
    · rw [Function.update_of_ne same]
      apply inv.visited s below
      unfold MBFGraph.visit at passed
      simp only [decide_eq_true_eq] at passed
      split at passed <;> omega

/-- Every run whose visits meet the condition keeps the invariant. -/
theorem writeBackInv_of_run (fit : ∀ s < c.superPartitions, c.records s * A.vertexStateBytes ≤ stateBufsize A c)
    (small : stateBufsize A c < 2 ^ 41)
    (run : WriteBackRun A c fuse
      (fun st changes => ReportsChanges A c st changes ∧ WritesBackAll A c fuse st changes) st) :
    WriteBackInv A c st := by
  induction run with
  | start whole =>
    refine ⟨whole, c.superPartitions_pos, ?_, ?_, ?_⟩
    · intro s buffer impossible
      contradiction
    · intro s buffer impossible
      contradiction
    · rintro s - (impossible | impossible)
      · exact absurd impossible (Nat.lt_irrefl 0)
      · exact absurd impossible (Nat.not_lt_zero s)
  | visit run fitChanges good perm ih => exact ih.visit fitChanges fit small good.1 good.2 perm

/-- Lists that agree below a bound have the same beginning. -/
private theorem take_eq_take {xs ys : List Byte} {n : Nat} (same : ∀ i < n, xs[i]? = ys[i]?) :
    xs.take n = ys.take n := by
  apply List.ext_getElem?
  intro i
  rw [List.getElem?_take, List.getElem?_take]
  split
  · exact same i ‹_›
  · rfl

theorem WriteBackInv.lossless (inv : WriteBackInv A c st)
    (fit : ∀ s < c.superPartitions, c.records s * A.vertexStateBytes ≤ stateBufsize A c) : Lossless A c st := by
  intro s buffer stored
  have kept := inv.kept s buffer stored
  refine ⟨take_eq_take kept, take_eq_take fun x inside => ?_⟩
  obtain ⟨inRange, whole⟩ := inv.stored_length s buffer stored
  have inBuffer : x < stateBufsize A c := lt_of_lt_of_le inside (fit s inRange)
  have present : x < (st.files s).length := by
    have same := kept x inside
    have inStored : x < buffer.length := by omega
    rw [List.getElem?_eq_getElem inStored] at same
    exact (List.getElem?_eq_some_iff.mp same).1
  rw [getElem?_readOneShot inBuffer present, kept x inside]

end Visit

end MBFGraph
