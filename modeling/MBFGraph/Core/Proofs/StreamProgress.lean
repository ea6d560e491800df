import MBFGraph.Core.Proofs.RandomRead
import MBFGraph.Core.Proofs.StreamPieces
import MBFGraph.Core.Proofs.MetaStream
import MBFGraph.Core.Proofs.Autotune

/-!
# Streaming makes progress

A request moves `disk_pos` on if a buffer has room for a record. `read` reads ahead, so the last call
may find that there is nothing left to request; then the stream is at its end. So the loops of
`do_stream` and `do_meta_stream` end (`streamsProgress`).
-/

namespace MBFGraph

open ByteBits BitScan Overwrite

namespace DiskStream

variable {cfg : StreamConfig} {s : Nat} {P : DiskStream → Prop}

/-- The requests for super partition `s` move on by a record at least, and read whole records. -/
structure Advances (cfg : StreamConfig) (s : Nat) (P : DiskStream → Prop) : Prop where
  request : ∀ {st}, P st → st.eof s = false → ∃ buffer st', readRequest cfg st s = some (buffer, st') ∧
    P st' ∧ st.diskPos s + cfg.streamUnitBytes ≤ st'.diskPos s ∧
    cfg.streamUnitBytes ∣ buffer.buffer.length
  congr : ∀ {st}, P st → ∀ requestSuperp request cache eofFlag,
    P { st with requestSuperp, request, cache, eofFlag }
  inside : ∀ {st}, P st → st.diskPos s ≤ st.diskBytes s

/-- A stream that is being read: what is on disk can be requested, and the buffers in memory hold
whole records. -/
structure BeingRead (cfg : StreamConfig) (P : DiskStream → Prop) (st : DiskStream) : Prop where
  left : st.cache = none → P st
  named : st.cache.isSome → st.requestSuperp.isSome
  pending : ∀ buffer, st.request = some buffer → cfg.streamUnitBytes ∣ buffer.buffer.length
  kept : ∀ buffer, st.cache = some buffer → cfg.streamUnitBytes ∣ buffer.buffer.length

/-- A call of `read` that returns whole records, and that moves on or brings the stream to its end. -/
def Progresses (cfg : StreamConfig) (s : Nat) (st : DiskStream) (buffer : MemoryBuffer Byte)
    (st' : DiskStream) : Prop :=
  read cfg st s = some (buffer, st') ∧ cfg.streamUnitBytes ∣ buffer.buffer.length ∧
    (st.diskPos s + cfg.streamUnitBytes ≤ st'.diskPos s ∨ st'.streamEof s = true)

/-- The first half of `read`: a new request moves on. -/
theorem awaited_of_advances (advances : Advances cfg s P) {st : DiskStream}
    (reading : BeingRead cfg P st) (uncached : st.cache = none) (more : st.streamEof s = false) :
    ∃ buffer st', awaited cfg st s = some (buffer, st') ∧ P st' ∧ st'.cache = none ∧
      cfg.streamUnitBytes ∣ buffer.buffer.length ∧ st'.diskBytes = st.diskBytes ∧
      (st'.diskPos s = st.diskPos s ∨ st.diskPos s + cfg.streamUnitBytes ≤ st'.diskPos s) := by
  have left := reading.left uncached
  by_cases waiting : st.request.isSome ∧ st.requestSuperp = some s
  · obtain ⟨buffer, pending⟩ := Option.isSome_iff_exists.mp waiting.1
    exact ⟨buffer, st, awaited_of_request pending waiting.2, left, uncached,
      reading.pending buffer pending, rfl, Or.inl rfl⟩
  · have notAtEnd : st.eof s = false := by
      unfold streamEof at more
      rwa [uncached, Option.isSome_none, if_neg Bool.false_ne_true, if_neg waiting] at more
    obtain ⟨buffer, st', requested, left', moved, records⟩ :=
      advances.request (advances.congr left (some s) st.request st.cache st.eofFlag) notAtEnd
    have frame := requestFrame_readRequest requested
    have issued : awaited cfg st s = readRequest cfg { st with requestSuperp := some s } s := by
      unfold awaited
      split
      · rename_i buffer pending
        rw [if_neg fun named => waiting ⟨by rw [pending]; rfl, named⟩]
      · rfl
    exact ⟨buffer, st', issued.trans requested, left', frame.cache.trans uncached, records,
      frame.diskBytes, Or.inr moved⟩

/-- The second half: it reads ahead, and moves on, or the stream is at its end. -/
theorem readAhead_of_advances (advances : Advances cfg s P) {st : DiskStream} (left : P st)
    (uncached : st.cache = none) (named : st.requestSuperp = some s) {result : MemoryBuffer Byte}
    (records : cfg.streamUnitBytes ∣ result.buffer.length) (currentPos : Nat) :
    ∃ st', readAhead cfg s currentPos result st = some (result, st') ∧ BeingRead cfg P st' ∧
      st'.diskBytes = st.diskBytes ∧
      (st'.cache = none ∧ st.diskPos s + cfg.streamUnitBytes ≤ st'.diskPos s ∨
        st'.diskPos s = st.diskPos s ∧ st'.streamEof s = true) := by
  unfold readAhead
  cases atEnd : st.eof s with
  | false =>
    obtain ⟨ahead, st', requested, left', moved, records'⟩ := advances.request left atEnd
    have frame := requestFrame_readRequest requested
    rw [if_pos rfl, requested]
    refine ⟨_, rfl, ⟨fun _ => advances.congr left' _ _ _ _, fun cached => ?_, ?_, ?_⟩,
      frame.diskBytes, Or.inl ⟨frame.cache.trans uncached, moved⟩⟩
    · have some_ : st'.cache.isSome := cached
      rw [frame.cache, uncached] at some_
      contradiction
    · intro buffer pending
      rw [← Option.some.inj pending]
      exact records'
    · intro buffer cached
      have same : st'.cache = some buffer := cached
      rw [frame.cache, uncached] at same
      contradiction
  | true =>
    rw [if_neg (by simp)]
    split
    · -- the stream keeps its only buffer
      refine ⟨_, rfl, ⟨fun none_ => by contradiction, fun _ => by rw [named]; rfl,
        fun buffer pending => by contradiction, fun buffer kept => ?_⟩, rfl, Or.inr ⟨rfl, rfl⟩⟩
      rw [← Option.some.inj kept]
      exact records
    · refine ⟨_, rfl, ⟨fun _ => advances.congr left _ _ _ _, fun cached => ?_,
        fun buffer pending => by contradiction, fun buffer cached => ?_⟩, rfl, Or.inr ⟨rfl, ?_⟩⟩
      · have some_ : st.cache.isSome := cached
        rw [uncached] at some_
        contradiction
      · have some_ : st.cache = some buffer := cached
        rw [uncached] at some_
        contradiction
      · unfold streamEof
        simp only [uncached, Option.isSome_none, Bool.false_eq_true, if_false, false_and]
        exact atEnd

/-- Every call of `read` makes progress. -/
theorem read_of_advances (advances : Advances cfg s P) {st : DiskStream}
    (reading : BeingRead cfg P st) (more : st.streamEof s = false) :
    ∃ buffer st', Progresses cfg s st buffer st' ∧ BeingRead cfg P st' ∧
      st'.diskBytes = st.diskBytes ∧ (st'.cache = none ∨ st'.streamEof s = true) := by
  cases cached : st.cache with
  | some buffer =>
    obtain ⟨superp, named⟩ := Option.isSome_iff_exists.mp (reading.named (by rw [cached]; rfl))
    have atEnd : streamEof { st with eofFlag := true } s = true := by
      unfold streamEof
      simp only [cached, Option.isSome_some, if_true]
    refine ⟨buffer, { st with eofFlag := true }, ⟨?_, reading.kept buffer cached, Or.inr atEnd⟩,
      ⟨fun none_ => ?_, reading.named, reading.pending, reading.kept⟩, rfl, Or.inr atEnd⟩
    · unfold read
      rw [cached]
      simp only
      rw [if_neg (by rw [named]; exact Bool.false_ne_true)]
    · have uncached : st.cache = none := none_
      rw [cached] at uncached
      contradiction
  | none =>
    obtain ⟨buffer, st1, isAwaited, left, uncached, records, bytes, moved⟩ :=
      awaited_of_advances advances reading cached more
    obtain ⟨st', isAhead, reading', bytes', moved'⟩ := readAhead_of_advances advances left uncached
      (frame_awaited isAwaited).2.1 records (st.diskPos s)
    refine ⟨buffer, st', ⟨?_, records, ?_⟩, reading', bytes'.trans bytes, ?_⟩
    · rw [read_of_uncached cached, isAwaited]
      exact isAhead
    · obtain ⟨-, ahead⟩ | ⟨-, atEnd⟩ := moved'
      · left
        omega
      · exact Or.inr atEnd
    · exact moved'.imp And.left And.right

/-- The loop ends, because `disk_pos` cannot grow without end. -/
theorem doStream_of_advances (advances : Advances cfg s P) (positive : 0 < cfg.streamUnitBytes)
    {st : DiskStream} (reading : BeingRead cfg P st) :
    ∃ n outs after, (∀ fuel, n < fuel → doStream cfg s fuel st = some (outs, after)) ∧
      ∀ bytes ∈ outs, cfg.streamUnitBytes ∣ bytes.length := by
  induction size : st.diskBytes s - st.diskPos s using Nat.strong_induction_on generalizing st with
  | _ size ih =>
    subst size
    have ended {st : DiskStream} (atEnd : st.streamEof s = true) (fuel : Nat) (enough : 0 < fuel) :
        doStream cfg s fuel st = some ([], st) := by
      obtain ⟨fuel, rfl⟩ := Nat.exists_eq_add_one_of_ne_zero (Nat.ne_of_gt enough)
      rw [doStream, if_pos atEnd]
    cases more : st.streamEof s with
    | true => exact ⟨0, [], st, ended more, fun bytes mem => absurd mem List.not_mem_nil⟩
    | false =>
      obtain ⟨buffer, st', ⟨isRead, records, moved⟩, reading', bytes, uncached⟩ :=
        read_of_advances advances reading more
      obtain ⟨n, outs, after, streamed, others⟩ : ∃ n outs after,
          (∀ fuel, n < fuel → doStream cfg s fuel st' = some (outs, after)) ∧
            ∀ bytes ∈ outs, cfg.streamUnitBytes ∣ bytes.length := by
        cases atEnd : st'.streamEof s with
        | true => exact ⟨0, [], st', ended atEnd, fun bytes mem => absurd mem List.not_mem_nil⟩
        | false =>
          have left := reading'.left (uncached.resolve_right (by simp [atEnd]))
          have ahead := moved.resolve_right (by simp [atEnd])
          have inside := advances.inside left
          rw [bytes] at inside
          exact ih _ (by rw [bytes]; omega) reading' rfl
      refine ⟨n + 1, buffer.buffer :: outs, after, fun fuel enough => ?_,
        List.forall_mem_cons.mpr ⟨records, others⟩⟩
      obtain ⟨fuel, rfl⟩ := Nat.exists_eq_add_one_of_ne_zero (by omega : fuel ≠ 0)
      rw [doStream, if_neg (by rw [more]; exact Bool.false_ne_true), isRead, Option.bind_some,
        streamed fuel (by omega)]
      rfl

/-! ## The two ways of reading -/

/-- Without a bitset, and with room for a record in a buffer. -/
theorem advances_left (sizes : Sizes cfg) (content : List Byte) :
    Advances cfg s fun st => ∃ rest n, Left cfg s content st rest n where
  request := by
    rintro st ⟨rest, n, left⟩ more
    obtain ⟨st', requested, left'⟩ := readRequest_left sizes left
    have wholeBuffer : cfg.streamUnitBytes ∣ wholeRecords cfg := Nat.dvd_mul_left _ _
    have someBuffer := Nat.le_of_dvd sizes.wholeRecords_pos wholeBuffer
    have records : cfg.streamUnitBytes ∣ n := by
      rw [left.count]
      exact Nat.dvd_of_mod_eq_zero left.records
    have notAtEnd : st.diskPos s ≠ st.diskBytes s := by
      simpa only [eof, decide_eq_false_iff_not] using more
    have inside := left.inside
    have inside' := left'.inside
    have count := left.count
    have count' := left'.count
    rw [left.bytes] at notAtEnd
    have someLeft := Nat.le_of_dvd (by omega) records
    refine ⟨_, st', requested, ⟨_, _, left'⟩, by omega, ?_⟩
    have length : rest.length = n := by rw [left.rest_eq, List.length_drop, count]
    rw [MemoryBuffer.unindexed_buffer, List.length_take, length]
    rcases Nat.le_total (wholeRecords cfg) n with le | le
    · rwa [Nat.min_eq_left le]
    · rwa [Nat.min_eq_right le]
  congr := by
    rintro st ⟨rest, n, left⟩ requestSuperp request cache eofFlag
    exact ⟨rest, n, (source_left sizes s content).congr left requestSuperp request cache eofFlag⟩
  inside := by
    rintro st ⟨rest, n, left⟩
    rw [left.bytes]
    exact left.inside

section Filtered

variable {test content : List Byte}

/-- With a bitset: `disk_pos` is not ahead of the page that is looked for next. -/
def FilteredAt (cfg : StreamConfig) (test content : List Byte) (s : Nat) (st : DiskStream) : Prop :=
  ∃ start, Scanning cfg test content s start st ∧
    (st.randomPos.isSome → st.diskPos s ≤ start * cfg.subBufSize)

/-- Where the stream is after a run has been found. -/
theorem diskPos_search {st st' : DiskStream} {processedBuf : Nat} {piece : Nat × Nat}
    (found : searchAndUpdateNextPositions cfg st s processedBuf = some (piece, st')) :
    st'.diskPos s = if st'.randomPos.isSome then piece.1 + piece.2 else st.diskBytes s := by
  unfold searchAndUpdateNextPositions at found
  split at found
  · split at found
    · contradiction
    · dsimp only at found
      generalize extendRun _ _ _ _ _ _ = run at found
      split at found
      · split at found
        · contradiction
        · rename_i last
          obtain ⟨rfl, rfl⟩ := Prod.mk.inj (Option.some.inj found)
          simp [Option.not_isSome_iff_eq_none.mp (not_or.mp last).1]
      · split at found
        · rename_i last
          obtain ⟨rfl, rfl⟩ := Prod.mk.inj (Option.some.inj found)
          simp [Option.isNone_iff_eq_none.mp last]
        · rename_i more
          obtain ⟨rfl, rfl⟩ := Prod.mk.inj (Option.some.inj found)
          simp [Option.isSome_iff_ne_none, Option.isNone_iff_eq_none.not.mp more]
  · contradiction

/-- A request with a bitset moves on to a later page, or to the end. -/
theorem filteredAt_randomReadFrom (fit : PagesFit cfg test content) {fuel start : Nat}
    {st st' : DiskStream} {data : List Byte} {buffer : MemoryBuffer Byte}
    (scan : Scanning cfg test content s start st)
    (behind : st.randomPos.isSome → st.diskPos s ≤ start * cfg.subBufSize)
    (done : randomReadFrom cfg s fuel st data.length data = some (buffer, st')) :
    FilteredAt cfg test content s st' ∧
      (st'.randomPos.isSome → st.randomPos.isSome ∧ st.diskPos s ≤ st'.diskPos s ∧
        (data.length < cfg.bufbytes → (start + 1) * cfg.subBufSize ≤ st'.diskPos s)) := by
  induction fuel generalizing start st data with
  | zero => contradiction
  | succ fuel ih =>
    unfold randomReadFrom at done
    split at done
    · rename_i goesOn
      obtain ⟨next, found, more⟩ := Option.bind_eq_some_iff.mp done
      obtain ⟨units, isRead, rest⟩ := Option.bind_eq_some_iff.mp more
      obtain ⟨cur, at_⟩ := Option.isSome_iff_exists.mp goesOn.1
      obtain ⟨n, st1, searched, positive, -, -, nextInside, scan1⟩ :=
        MBFGraph.search_eq fit scan at_ (RandomRead.room_of_search found)
      have above := (nextBit_eq_some_iff.mp (scan.pos.symm.trans at_)).2.1
      obtain rfl := Option.some.inj (found.symm.trans searched)
      have size := RandomRead.length_preadPages isRead
      have moved := diskPos_search found
      simp only at rest size
      -- a run that is not the last one ends at a page of the file
      have pos1 : st1.randomPos.isSome → st1.diskPos s = (cur + n) * cfg.subBufSize := by
        intro isSome
        have inside := nextInside isSome
        rw [Nat.add_mul] at inside ⊢
        rw [moved, if_pos isSome, Nat.min_eq_left (by omega)]
      rw [← size, ← List.length_append] at rest
      obtain ⟨filtered, later⟩ := ih scan1 (fun isSome => (pos1 isSome).le) rest
      refine ⟨filtered, fun isSome => ?_⟩
      obtain ⟨isSome1, moves, -⟩ := later isSome
      have step : (start + 1) * cfg.subBufSize ≤ (cur + n) * cfg.subBufSize :=
        Nat.mul_le_mul_right _ (by omega)
      have first := behind goesOn.1
      rw [pos1 isSome1] at moves
      have page := Nat.mul_le_mul_right cfg.subBufSize (Nat.le_succ start)
      exact ⟨goesOn.1, first.trans (page.trans (step.trans moves)), fun _ => step.trans moves⟩
    · rename_i finished
      obtain ⟨-, rfl⟩ := Prod.mk.inj (Option.some.inj done)
      exact ⟨⟨start, scan, behind⟩, fun isSome =>
        ⟨isSome, Nat.le_refl _, fun room => absurd ⟨isSome, room⟩ finished⟩⟩

theorem FilteredAt.inside (fit : PagesFit cfg test content) {st : DiskStream}
    (filtered : FilteredAt cfg test content s st) :
    st.diskPos s ≤ content.length ∧
      (st.randomPos.isSome → ∃ cur, st.diskPos s ≤ cur * cfg.subBufSize ∧
        cur * cfg.subBufSize < content.length) := by
  obtain ⟨start, scan, behind⟩ := filtered
  have pages : st.randomPos.isSome → ∃ cur, st.diskPos s ≤ cur * cfg.subBufSize ∧
      cur * cfg.subBufSize < content.length := by
    intro isSome
    obtain ⟨cur, at_⟩ := Option.isSome_iff_exists.mp isSome
    obtain ⟨set, above, -, -⟩ := nextBit_eq_some_iff.mp (scan.pos.symm.trans at_)
    exact ⟨cur, (behind isSome).trans (Nat.mul_le_mul_right _ above), fit.inside cur set⟩
  refine ⟨?_, pages⟩
  by_cases isSome : st.randomPos.isSome
  · obtain ⟨cur, le, less⟩ := pages isSome
    omega
  · exact (scan.atEnd.mpr (Option.not_isSome_iff_eq_none.mp isSome)).le

/-- With a bitset whose pages lie in the file, and records that do not cross pages. -/
theorem advances_filtered (fit : PagesFit cfg test content)
    (whole : RandomRead.WholeRecords cfg content) :
    Advances cfg s (FilteredAt cfg test content s) where
  request := by
    rintro st filtered more
    obtain ⟨-, pages⟩ := filtered.inside fit
    obtain ⟨start, scan, behind⟩ := filtered
    have isSome : st.randomPos.isSome := by
      rw [Option.isSome_iff_ne_none]
      intro used
      rw [eof, scan.bytes, decide_eq_false_iff_not] at more
      exact more (scan.atEnd.mpr used)
    obtain ⟨stop, st', units, requested, -, -, -, -, scan'⟩ := MBFGraph.readRequest_eq fit scan
    have done := requested
    unfold readRequest at done
    rw [scan.bitset] at done
    simp only [fit.whole, if_true] at done
    rw [← List.length_nil (α := Byte)] at done
    obtain ⟨filtered', moved⟩ := filteredAt_randomReadFrom fit scan behind done
    obtain ⟨records, -, -⟩ := RandomRead.whole_randomReadFrom fit whole scan done (Nat.dvd_zero _)
    obtain ⟨cur, before, inFile⟩ := pages isSome
    have page := Nat.le_of_dvd fit.page whole.page
    refine ⟨_, st', requested, filtered', ?_, records⟩
    by_cases isSome' : st'.randomPos.isSome
    · obtain ⟨-, -, later⟩ := moved isSome'
      have first := behind isSome
      have next := later fit.buffer
      rw [Nat.add_mul, Nat.one_mul] at next
      omega
    · -- what is left of the file holds a record
      have used := scan'.atEnd.mpr (Option.not_isSome_iff_eq_none.mp isSome')
      have left : cfg.streamUnitBytes ∣ content.length - cur * cfg.subBufSize :=
        Nat.dvd_sub whole.file (Nat.dvd_mul_left_of_dvd whole.page cur)
      have someLeft := Nat.le_of_dvd (by omega) left
      omega
  congr := by
    rintro st ⟨start, scan, behind⟩ requestSuperp request cache eofFlag
    exact ⟨start, ⟨scan.bitset, scan.pos, scan.file, scan.bytes, scan.atEnd⟩, behind⟩
  inside := by
    intro st filtered
    have inside := (filtered.inside fit).1
    obtain ⟨start, scan, -⟩ := filtered
    rw [scan.bytes]
    exact inside

end Filtered

/-! ## The streams of the driver -/

/-- A stream in front of the loop over super partition `s`. -/
inductive ToBeRead (cfg : StreamConfig) (s : Nat) (st : DiskStream) : Prop
  | onDisk (content : List Byte) (ready : (st.view s).Ready content) (uncached : st.cache = none)
      (request : st.request = none) (unfiltered : st.randomBitset = none)
      (records : content.length % cfg.streamUnitBytes = 0)
  | inMemory (buffer : MemoryBuffer Byte) (cached : st.cache = some buffer)
      (named : st.requestSuperp.isSome) (request : st.request = none)
      (records : cfg.streamUnitBytes ∣ buffer.buffer.length)
  | selected (test content : List Byte) (fit : PagesFit cfg test content)
      (whole : RandomRead.WholeRecords cfg content) (scan : Scanning cfg test content s 0 st)
      (start : st.randomPos.isSome → st.diskPos s = 0) (uncached : st.cache = none)
      (request : st.request = none)

/-- A stream that was opened, rewound, or written and rewound. -/
theorem toBeRead_of_atStart {content : Nat → List Byte} {st : DiskStream}
    (start : AtStart cfg content st) (inside : s < cfg.superpCnt)
    (records : (content s).length % cfg.streamUnitBytes = 0) : ToBeRead cfg s st := by
  cases start with
  | onDisk ready uncached mode request unfiltered =>
    exact .onDisk _ (ready s inside) uncached request unfiltered records
  | inMemory cached single whole disk nonempty named notYet request unfiltered =>
    obtain rfl : s = 0 := by omega
    rw [whole] at records
    exact .inMemory _ cached (by rw [named]; rfl) request (Nat.dvd_of_mod_eq_zero records)

theorem exists_beingRead (sizes : Sizes cfg) {st : DiskStream} (start : ToBeRead cfg s st) :
    ∃ P, Advances cfg s P ∧ BeingRead cfg P st := by
  have none_ {buffer : MemoryBuffer Byte} {kept : Option (MemoryBuffer Byte)} (empty : kept = none)
      (some_ : kept = some buffer) : cfg.streamUnitBytes ∣ buffer.buffer.length := by
    rw [empty] at some_
    contradiction
  have unnamed (uncached : st.cache = none) : st.cache.isSome → st.requestSuperp.isSome := by
    rw [uncached]
    intro cached
    contradiction
  cases start with
  | onDisk content ready uncached request unfiltered records =>
    exact ⟨_, advances_left sizes content,
      ⟨fun _ => ⟨_, _, left_of_ready ready unfiltered records⟩, unnamed uncached,
        fun _ => none_ request, fun _ => none_ uncached⟩⟩
  | inMemory buffer cached named request records =>
    refine ⟨_, advances_left sizes [], ⟨fun uncached => ?_, fun _ => named,
      fun _ => none_ request, fun kept isKept => ?_⟩⟩
    · rw [cached] at uncached
      contradiction
    · obtain rfl := Option.some.inj (cached.symm.trans isKept)
      exact records
  | selected test content fit whole scan start uncached request =>
    exact ⟨_, advances_filtered fit whole,
      ⟨fun _ => ⟨0, scan, fun isSome => by rw [start isSome]; exact Nat.zero_le _⟩,
        unnamed uncached, fun _ => none_ request, fun _ => none_ uncached⟩⟩

/-- The states that the loop over a super partition goes through. -/
inductive Reached (cfg : StreamConfig) (s : Nat) (st : DiskStream) : DiskStream → Prop
  | start : Reached cfg s st st
  | read {st' st'' : DiskStream} {buffer : MemoryBuffer Byte} (reached : Reached cfg s st st')
      (more : st'.streamEof s = false) (isRead : read cfg st' s = some (buffer, st'')) :
      Reached cfg s st st''

/-- A state that is reached is at the end, or is being read. -/
theorem beingRead_of_reached (advances : Advances cfg s P) {st st' : DiskStream}
    (reading : BeingRead cfg P st) (reached : Reached cfg s st st') : BeingRead cfg P st' := by
  induction reached with
  | start => exact reading
  | read reached more isRead ih =>
    obtain ⟨buffer, after, ⟨isRead', -⟩, reading', -⟩ := read_of_advances advances ih more
    obtain ⟨-, rfl⟩ := Prod.mk.inj (Option.some.inj (isRead.symm.trans isRead'))
    exact reading'

end DiskStream

open DiskStream

/-- A stream as `scatter_gather` opens it: buffers and transfers have the tuned sizes. -/
def scatterGatherStream (m : Machine) (t : Tuned) (pageSize unit : Nat) : StreamConfig where
  superpCnt := t.superPartitions
  processors := m.processors
  streamUnitBytes := unit
  bufbytes := t.bufferSize
  subBufSize := pageSize
  streamUnit := t.streamUnit

/-- The loop over super partition `s` ends, and hands on whole records. -/
structure StreamEnds (cfg : StreamConfig) (s : Nat) (st : DiskStream) : Prop where
  progress : ∀ st', Reached cfg s st st' → st'.streamEof s = false →
    ∃ buffer st'', Progresses cfg s st' buffer st''
  doStream : ∃ n outs after, (∀ fuel, n < fuel → doStream cfg s fuel st = some (outs, after)) ∧
    (∀ bytes ∈ outs, cfg.streamUnitBytes ∣ bytes.length) ∧
    ∀ o : BloomOptions, groupBytes o = cfg.streamUnitBytes → o.bitsPerBF * 256 < 2 ^ 31 →
      0 < cfg.processors → (doMetaStream o cfg.processors outs 0).isSome

namespace Machine

variable {m : Machine} {t : Tuned}

theorem streamUnit_of_tuneSuperPartitions {partitions streamUnit fuel superPartitions : Nat}
    (found : m.tuneSuperPartitions partitions streamUnit fuel superPartitions = some (some t)) :
    t.streamUnit = streamUnit := by
  induction fuel generalizing superPartitions with
  | zero => contradiction
  | succ fuel ih =>
    unfold tuneSuperPartitions at found
    split at found
    · split at found
      · contradiction
      · dsimp only at found
        split at found
        · rw [← Option.some.inj (Option.some.inj found)]
        · exact ih found
    · cases found

/-- The tuned transfers are powers of two above a page. -/
theorem streamUnit_of_tuneStreamUnit {partitions fuel i : Nat}
    (found : m.tuneStreamUnit partitions fuel (2 ^ i) = some (some t)) :
    diskPageSize ≤ t.streamUnit ∧ ∃ j, t.streamUnit = 2 ^ j := by
  induction fuel generalizing i with
  | zero => contradiction
  | succ fuel ih =>
    unfold tuneStreamUnit at found
    split at found
    · rename_i large
      obtain ⟨tried, isTried, more⟩ := Option.bind_eq_some_iff.mp found
      cases tried with
      | some tuned =>
        obtain rfl := Option.some.inj (Option.some.inj more)
        rw [streamUnit_of_tuneSuperPartitions isTried]
        exact ⟨large.le, i, rfl⟩
      | none =>
        cases i with
        | zero => contradiction
        | succ i =>
          rw [Nat.pow_succ, Nat.mul_div_cancel _ (by decide)] at more
          exact ih more
    · cases found

theorem streamUnit_of_autotune (tuned : m.autotune = some t) :
    diskPageSize ≤ t.streamUnit ∧ ∃ j, t.streamUnit = 2 ^ j := by
  unfold autotune at tuned
  split at tuned
  · contradiction
  · obtain ⟨partitions, -, more⟩ := Option.bind_eq_some_iff.mp tuned
    obtain ⟨found, isFound, same⟩ := Option.bind_eq_some_iff.mp more
    have result : found = some t := same
    rw [result] at isFound
    exact streamUnit_of_tuneStreamUnit (i := 24) isFound

end Machine

theorem sizes_scatterGatherStream {m : Machine} {t : Tuned} (tuned : m.autotune = some t)
    (pageSize : Nat) {unit : Nat} (positive : 0 < unit) (fits : unit ≤ t.bufferSize) :
    Sizes (scatterGatherStream m t pageSize unit) :=
  ⟨⟨(Machine.streamUnit_of_autotune tuned).2, (Machine.streamUnit_of_autotune tuned).1⟩, positive,
    fits⟩

/-- Every stream whose records fit in the tuned buffers makes progress, and can be read to its
end. -/
theorem streamsProgress {m : Machine} {t : Tuned} (tuned : m.autotune = some t) (pageSize : Nat)
    {unit : Nat} (positive : 0 < unit) (fits : unit ≤ t.bufferSize) {s : Nat} {st : DiskStream}
    (start : ToBeRead (scatterGatherStream m t pageSize unit) s st) :
    StreamEnds (scatterGatherStream m t pageSize unit) s st := by
  have sizes := sizes_scatterGatherStream tuned pageSize positive fits
  obtain ⟨P, advances, reading⟩ := exists_beingRead sizes start
  refine ⟨fun st' reached more => ?_, ?_⟩
  · obtain ⟨buffer, st'', progresses, -⟩ :=
      read_of_advances advances (beingRead_of_reached advances reading reached) more
    exact ⟨buffer, st'', progresses⟩
  · obtain ⟨n, outs, after, streamed, records⟩ := doStream_of_advances advances positive reading
    refine ⟨n, outs, after, streamed, records, fun o isUnit small processors => ?_⟩
    have lengths : outs.map List.length =
        (outs.map fun bytes => bytes.length / groupBytes o).map (· * groupBytes o) := by
      rw [List.map_map]
      refine List.map_congr_left fun bytes mem => ?_
      have whole := records bytes mem
      rw [← isUnit] at whole
      exact (Nat.div_mul_cancel whole).symm
    have calls := doMetaStream_eq processors small _ outs 0 lengths
    rw [Nat.zero_mul] at calls
    rw [calls]
    rfl

/-- What autotuning finds for one MiB of memory. -/
def oneMiB : Tuned := ⟨1, 1, 1, 131072, 172032, 8192⟩

theorem autotune_oneMiB : (smallMachine (2 ^ 20) (2 ^ 20)).autotune = some oneMiB := by
  decide +kernel

/-- Records of `unit` bytes in the buffers that autotuning finds for one MiB of memory. -/
def oneMiBStream (unit : Nat) : StreamConfig :=
  scatterGatherStream (smallMachine (2 ^ 20) (2 ^ 20)) oneMiB 8192 unit

theorem toBeRead_opened (content : List Byte) (whole : content.length % cfg.streamUnitBytes = 0) :
    ToBeRead cfg 0 (opened fun _ => content) :=
  .onDisk content ⟨List.prefix_rfl, rfl, List.length_replicate, rfl, rfl⟩ rfl rfl rfl whole

/-- Two edges of 12 bytes. -/
theorem streamsProgress_edges :
    StreamEnds (oneMiBStream 12) 0 (opened fun _ => List.replicate 24 0) :=
  streamsProgress autotune_oneMiB 8192 (by decide) (by decide)
    (toBeRead_opened _ (by rw [List.length_replicate]; rfl))

/-- Nothing is requested when the last request is waited for. -/
theorem diskPos_read_of_atEnd {st st' : DiskStream} {pending buffer : MemoryBuffer Byte}
    (uncached : st.cache = none) (request : st.request = some pending)
    (named : st.requestSuperp = some s) (atEnd : st.eof s = true)
    (isRead : read cfg st s = some (buffer, st')) : st'.diskPos s = st.diskPos s := by
  rw [read_of_uncached uncached, awaited_of_request request named, Option.bind_some] at isRead
  unfold readAhead at isRead
  rw [if_neg (by rw [atEnd]; decide)] at isRead
  split at isRead <;> obtain ⟨-, rfl⟩ := Prod.mk.inj (Option.some.inj isRead) <;> rfl

/-- The read in front of the last one leaves nothing to request. -/
theorem exists_notAdvancing (sizes : Sizes cfg) {content : List Byte}
    (whole : content.length % cfg.streamUnitBytes = 0) (many : wholeRecords cfg < content.length)
    (few : content.length ≤ 2 * wholeRecords cfg) :
    ∃ st, Reached cfg 0 (opened fun _ => content) st ∧ st.streamEof 0 = false ∧
      ∀ buffer st', read cfg st 0 = some (buffer, st') → st'.diskPos 0 = st.diskPos 0 := by
  have start := (source_left sizes 0 content).congr (left_opened whole) (some 0) none none false
  obtain ⟨st1, requested, left1⟩ := readRequest_left sizes start
  obtain ⟨st2, ahead, left2⟩ := readRequest_left sizes left1
  have frame1 := requestFrame_readRequest requested
  have frame2 := requestFrame_readRequest ahead
  have named : st2.requestSuperp = some 0 := frame2.requestSuperp.trans frame1.requestSuperp
  have uncached : st2.cache = none := frame2.cache.trans frame1.cache
  have more : st1.eof 0 = false := by
    rw [eof, decide_eq_false_iff_not, left1.bytes]
    have count := left1.count
    omega
  have atEnd : st2.eof 0 = true := by
    rw [eof, decide_eq_true_iff, left2.bytes]
    have count := left2.count
    have inside := left2.inside
    omega
  have isRead : read cfg (opened fun _ => content) 0 = some (MemoryBuffer.unindexed
      (content.take (wholeRecords cfg)), { st2 with request := some (MemoryBuffer.unindexed
        ((content.drop (wholeRecords cfg)).take (wholeRecords cfg))) }) := by
    rw [read_of_uncached rfl]
    have awaits : awaited cfg (opened fun _ => content) 0 = _ := requested
    rw [awaits, Option.bind_some]
    unfold readAhead
    rw [if_pos more, ahead]
    rfl
  refine ⟨_, .read .start ?_ isRead, ?_, fun buffer st' isNext => ?_⟩
  · have some_ : content.length ≠ 0 := by omega
    simp [streamEof, eof, opened, some_.symm]
  · unfold streamEof
    simp only [uncached, named, Option.isSome_none, Bool.false_eq_true, if_false, Option.isSome_some,
      and_self, if_true]
  · exact diskPos_read_of_atEnd uncached rfl named atEnd isNext

/-- A stream without a bitset that is not at its end. -/
structure NotAtEnd (s : Nat) (st : DiskStream) : Prop where
  unfiltered : st.randomBitset = none
  uncached : st.cache = none
  more : st.eof s = false

/-- If a record is larger than a buffer, then a request asks for nothing. -/
theorem NotAtEnd.readRequest (large : cfg.bufbytes < cfg.streamUnitBytes) {st st' : DiskStream}
    {buffer : MemoryBuffer Byte} (notAtEnd : NotAtEnd s st)
    (requested : readRequest cfg st s = some (buffer, st')) : NotAtEnd s st' := by
  have frame := requestFrame_readRequest requested
  refine ⟨frame.bitset.trans notAtEnd.unfiltered, frame.cache.trans notAtEnd.uncached, ?_⟩
  unfold DiskStream.readRequest at requested
  rw [notAtEnd.unfiltered] at requested
  obtain ⟨-, rfl⟩ := Prod.mk.inj (Option.some.inj requested)
  have none_ : min (st.diskBytes s - st.diskPos s) cfg.bufbytes / cfg.streamUnitBytes = 0 :=
    Nat.div_eq_of_lt (by omega)
  have same : (readOperator cfg st s).2.eof s = st.eof s := by
    simp only [eof, readOperator, none_, Nat.zero_mul, Nat.add_zero, Function.update_self]
  exact same.trans notAtEnd.more

theorem NotAtEnd.read (large : cfg.bufbytes < cfg.streamUnitBytes) {st st' : DiskStream}
    {buffer : MemoryBuffer Byte} (notAtEnd : NotAtEnd s st)
    (isRead : read cfg st s = some (buffer, st')) : NotAtEnd s st' := by
  rw [read_of_uncached notAtEnd.uncached] at isRead
  obtain ⟨⟨result, st1⟩, isAwaited, isAhead⟩ := Option.bind_eq_some_iff.mp isRead
  have notAtEnd1 : NotAtEnd s st1 := by
    have renamed : NotAtEnd s { st with requestSuperp := some s } :=
      ⟨notAtEnd.unfiltered, notAtEnd.uncached, notAtEnd.more⟩
    unfold awaited at isAwaited
    split at isAwaited
    · split at isAwaited
      · obtain ⟨-, rfl⟩ := Prod.mk.inj (Option.some.inj isAwaited)
        exact notAtEnd
      · exact renamed.readRequest large isAwaited
    · exact renamed.readRequest large isAwaited
  unfold readAhead at isAhead
  rw [if_pos notAtEnd1.more] at isAhead
  obtain ⟨⟨ahead, st2⟩, requested, same⟩ := Option.map_eq_some_iff.mp isAhead
  obtain ⟨-, rfl⟩ := Prod.mk.inj same
  have notAtEnd2 := notAtEnd1.readRequest large requested
  exact ⟨notAtEnd2.unfiltered, notAtEnd2.uncached, notAtEnd2.more⟩

/-- So the loop does not end. -/
theorem doStream_of_large (large : cfg.bufbytes < cfg.streamUnitBytes) (fuel : Nat)
    {st : DiskStream} (notAtEnd : NotAtEnd s st) : doStream cfg s fuel st = none := by
  induction fuel generalizing st with
  | zero => rfl
  | succ fuel ih =>
    have more : st.streamEof s = false := by
      unfold streamEof
      rw [notAtEnd.uncached, Option.isSome_none, if_neg Bool.false_ne_true]
      split
      · rfl
      · exact notAtEnd.more
    rw [doStream, if_neg (by rw [more]; decide)]
    cases isRead : DiskStream.read cfg st s with
    | none => rfl
    | some done =>
      rw [Option.bind_some, ih (notAtEnd.read large isRead)]
      rfl

/-- `172032 + 8` bytes, which is more than a buffer. -/
def twoBuffers : List Byte := List.replicate (oneMiB.bufferSize + 8) 0

/-- A group of filters of 8192 bits. -/
def largeGroup : List Byte := List.replicate (8192 / 8 * 256) 0

/-- What is claimed of every read fails where the last request has been issued already; and a
group of filters of 8192 bits does not fit in a buffer. -/
theorem not_streamsProgress :
    (smallMachine (2 ^ 20) (2 ^ 20)).autotune = some oneMiB ∧
    (∃ st, Reached (oneMiBStream 8) 0 (opened fun _ => twoBuffers) st ∧ st.streamEof 0 = false ∧
      ∀ buffer st', read (oneMiBStream 8) st 0 = some (buffer, st') →
        ¬ st.diskPos 0 + 8 ≤ st'.diskPos 0) ∧
    ∀ fuel, doStream (oneMiBStream (8192 / 8 * 256)) 0 fuel (opened fun _ => largeGroup) = none := by
  refine ⟨autotune_oneMiB, ?_, fun fuel => doStream_of_large (by decide) fuel ⟨rfl, rfl, ?_⟩⟩
  · have length : twoBuffers.length = oneMiB.bufferSize + 8 := List.length_replicate
    have room : wholeRecords (oneMiBStream 8) = oneMiB.bufferSize := by decide
    have sizes : Sizes (oneMiBStream 8) :=
      sizes_scatterGatherStream autotune_oneMiB 8192 (by decide) (by decide)
    have whole : twoBuffers.length % (oneMiBStream 8).streamUnitBytes = 0 := by rw [length]; rfl
    obtain ⟨st, reached, more, stays⟩ := exists_notAdvancing sizes whole
      (by rw [length, room]; decide) (by rw [length, room]; decide)
    refine ⟨st, reached, more, fun buffer st' isRead => ?_⟩
    rw [stays buffer st' isRead]
    omega
  · have length : largeGroup.length ≠ 0 := by
      rw [largeGroup, List.length_replicate]
      decide
    exact decide_eq_false (Ne.symm length)

end MBFGraph
