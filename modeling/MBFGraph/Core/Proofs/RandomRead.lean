import MBFGraph.Core.RandomRead
import MBFGraph.Core.Proofs.EdgeScatter

/-!
# Random reads deliver the selected pages

The order in which reads are completed makes no difference: each has its own place in the buffer. And
page numbers of 32 bits are enough for a bitset whose last set bit is far from 2^32. So the reads are
those of `DiskStream`, and the buffers hold the selected pages (`readsSelected`).
-/

namespace MBFGraph

open ByteBits BitScan Overwrite DiskStream

namespace RandomRead

/-- The page numbers of a bitset are small enough for an `unsigned int`, -1 and the loop that runs to
the next multiple of 8. -/
def Small (test : List Byte) : Prop := ∀ p, bitAt test p = true → p < 2 ^ 32 - 8

variable {cfg : StreamConfig} {s : Nat} {test : List Byte}

/-! ## Page numbers -/

theorem unsignedInt_of_lt {pos : Nat} (small : pos < 2 ^ 32 - 8) : unsignedInt pos = some pos := by
  unfold unsignedInt
  rw [Nat.mod_eq_of_lt (by omega), if_neg (by omega)]

theorem bind_scanBytes (small : Small test) (i : Nat) :
    (scanBytes (test.drop i) i).bind unsignedInt = scanBytes (test.drop i) i := by
  rw [scanBytes_drop]
  cases found : nextBit (bitAt test) (8 * test.length) (8 * i) with
  | none => rfl
  | some p => exact unsignedInt_of_lt (small p (nextBit_eq_some_iff.mp found).1)

theorem findFirst_eq (small : Small test) : findFirst test = MBFGraph.findFirst test :=
  bind_scanBytes small 0

theorem findNextFrom_eq (small : Small test) (fuel : Nat) {last : Nat}
    (bound : last ≤ 2 ^ 32 - 8) :
    findNextFrom test fuel last = MBFGraph.findNextFrom test fuel last := by
  induction fuel generalizing last with
  | zero => exact bind_scanBytes small _
  | succ fuel ih =>
    unfold findNextFrom MBFGraph.findNextFrom
    split
    · rename_i between
      split
      · rename_i set
        exact unsignedInt_of_lt (small last set)
      · rw [Nat.mod_eq_of_lt (by omega)]
        exact ih (by omega)
    · exact bind_scanBytes small _

theorem findNext_eq (small : Small test) {p : Nat} (set : bitAt test p = true) :
    findNext test p = MBFGraph.findNext test p := by
  have below := small p set
  unfold findNext MBFGraph.findNext
  rw [Nat.mod_eq_of_lt (by omega)]
  exact findNextFrom_eq small 7 (by omega)

/-- What `find_next` finds is set. -/
theorem bitAt_of_findNext {p q : Nat} (found : MBFGraph.findNext test p = some q) :
    bitAt test q = true :=
  (nextBit_eq_some_iff.mp ((MBFGraph.findNext_eq test p).symm.trans found)).1

/-- The position behind a run is one that has been found. -/
theorem bitAt_of_extendRun (more : Nat → Bool) (cur fuel n : Nat) {pos : Option Nat}
    (start : ∀ p, pos = some p → bitAt test p = true) {p : Nat}
    (behind : (extendRun (MBFGraph.findNext test) more cur fuel n pos).2 = some p) :
    bitAt test p = true := by
  induction fuel generalizing n pos with
  | zero => exact start p behind
  | succ fuel ih =>
    cases pos with
    | none => exact start p behind
    | some q =>
      unfold extendRun at behind
      split at behind
      · exact ih (n + 1) (fun _ => bitAt_of_findNext) behind
      · exact start p behind

theorem extendRun_eq (small : Small test) (more : Nat → Bool) (cur fuel n : Nat) {pos : Option Nat}
    (start : ∀ p, pos = some p → bitAt test p = true) :
    extendRun (findNext test) more cur fuel n pos =
      extendRun (MBFGraph.findNext test) more cur fuel n pos := by
  induction fuel generalizing n pos with
  | zero => rfl
  | succ fuel ih =>
    cases pos with
    | none => rfl
    | some p =>
      unfold extendRun
      split
      · rw [findNext_eq small (start p rfl)]
        exact ih (n + 1) fun _ => bitAt_of_findNext
      · rfl

/-- The bitset is in use, and the stream stands at a set bit. -/
structure Selects (test : List Byte) (st : DiskStream) : Prop where
  bitset : st.randomBitset = some test
  set : ∀ p, st.randomPos = some p → bitAt test p = true

theorem search_eq (small : Small test) {st : DiskStream} (selects : Selects test st)
    (processedBuf : Nat) :
    searchAndUpdateNextPositions cfg st s processedBuf =
      DiskStream.searchAndUpdateNextPositions cfg st s processedBuf := by
  unfold searchAndUpdateNextPositions DiskStream.searchAndUpdateNextPositions
  rw [selects.bitset]
  cases at_ : st.randomPos with
  | none => rfl
  | some cur =>
    have run := extendRun_eq small
      (fun n => decide (processedBuf + n * cfg.subBufSize < cfg.bufbytes)) cur
      (8 * test.length + 1) 1 fun p (found : MBFGraph.findNext test cur = some p) =>
        bitAt_of_findNext found
    simp only [findNext_eq small (selects.set cur at_), run]

theorem selects_search {st st' : DiskStream} {processedBuf : Nat} {piece : Nat × Nat}
    (selects : Selects test st)
    (found : DiskStream.searchAndUpdateNextPositions cfg st s processedBuf = some (piece, st')) :
    Selects test st' := by
  have bitset := (requestFrame_search found).bitset.trans selects.bitset
  refine ⟨bitset, fun p at_ => ?_⟩
  unfold DiskStream.searchAndUpdateNextPositions at found
  rw [selects.bitset] at found
  cases here : st.randomPos with
  | none =>
    rw [here] at found
    contradiction
  | some cur =>
    rw [here] at found
    -- in every case the position is the one behind the run
    have behind := @bitAt_of_extendRun test
      (fun n => decide (processedBuf + n * cfg.subBufSize < cfg.bufbytes)) cur
      (8 * test.length + 1) 1 (MBFGraph.findNext test cur) (fun p => bitAt_of_findNext) p
    simp only at found
    split at found
    · contradiction
    · split at found
      · split at found
        · contradiction
        · obtain ⟨-, rfl⟩ := Prod.mk.inj (Option.some.inj found)
          exact behind at_
      · split at found
        · obtain ⟨-, rfl⟩ := Prod.mk.inj (Option.some.inj found)
          exact behind at_
        · obtain ⟨-, rfl⟩ := Prod.mk.inj (Option.some.inj found)
          exact behind at_

/-! ## The order of completion -/

theorem length_preadPages {content units : List Byte} {offset length : Nat}
    (read : preadPages cfg content offset length = some units) : units.length = length := by
  unfold preadPages at read
  dsimp only at read
  generalize (content.drop offset).take _ = back at read
  split at read
  · rename_i same
    rw [← Option.some.inj read]
    exact same
  · contradiction

/-- All bytes up to `processed_buf` are in the buffer or under way, and the rest can be read one
piece after the other, with the result `target`. -/
structure Reading (cfg : StreamConfig) (s : Nat) (test : List Byte)
    (target : MemoryBuffer Byte × DiskStream) (fuel : Nat) (data : List Byte) (x : Inflight) :
    Prop where
  selects : Selects test x.stream
  length : data.length = x.processedBuf
  rest : randomReadFrom cfg s fuel x.stream x.processedBuf data = some target
  underWay : ∀ r ∈ x.openReq, r.pos + r.length ≤ data.length ∧
    preadPages cfg (x.stream.fds s).content r.offset r.length = some ((data.drop r.pos).take r.length)
  placed : ∀ i < data.length,
    x.buffer i = data.getD i 0 ∨ ∃ r ∈ x.openReq, r.pos ≤ i ∧ i < r.pos + r.length

variable {target : MemoryBuffer Byte × DiskStream} {fuel : Nat} {data : List Byte} {x : Inflight}

theorem Reading.issue (reading : Reading cfg s test target fuel data x) (small : Small test)
    (goesOn : GoesOn cfg x) :
    ∃ fuel' data' r x', RandomRead.issue cfg s x = some x' ∧
      Reading cfg s test target fuel' data' x' ∧ fuel = fuel' + 1 ∧
      x'.openReq = x.openReq ++ [r] := by
  obtain ⟨selects, length, rest, underWay, placed⟩ := reading
  cases fuel with
  | zero => contradiction
  | succ fuel =>
    rw [randomReadFrom, if_pos (show _ ∧ _ from goesOn)] at rest
    obtain ⟨⟨⟨offset, bytes⟩, st⟩, found, more⟩ := Option.bind_eq_some_iff.mp rest
    obtain ⟨units, isRead, rest⟩ := Option.bind_eq_some_iff.mp more
    have size := length_preadPages isRead
    have same := (requestFrame_search found).contents s
    simp only at isRead rest size same
    refine ⟨fuel, data ++ units, ⟨x.processedBuf, offset, bytes⟩, _, by
      unfold RandomRead.issue
      rw [search_eq small selects, found]
      rfl, ⟨selects_search selects found, ?_, rest, ?_, ?_⟩, rfl, rfl⟩
    · rw [List.length_append, size, length]
    · intro r mem
      simp only [same, List.length_append]
      obtain old | new := List.mem_append.mp mem
      · obtain ⟨inside, read⟩ := underWay r old
        refine ⟨by omega, ?_⟩
        rw [read, List.drop_append_of_le_length (by omega),
          List.take_append_of_le_length (by rw [List.length_drop]; omega)]
      · rw [List.mem_singleton.mp new]
        simp only
        rw [← length, List.drop_left, List.take_of_length_le (by omega)]
        exact ⟨by omega, isRead⟩
    · intro i below
      rw [List.length_append] at below
      by_cases old : i < data.length
      · rw [List.getD_append _ _ _ _ old]
        exact (placed i old).imp_right fun ⟨r, mem, place⟩ =>
          ⟨r, List.mem_append_left _ mem, place⟩
      · exact Or.inr ⟨_, List.mem_append_right _ (List.mem_singleton_self _), by simp only; omega,
          by simp only; omega⟩

theorem Reading.submit (small : Small test) (n : Nat)
    (reading : Reading cfg s test target fuel data x) :
    ∃ fuel' data' x', RandomRead.submit cfg s n x = some x' ∧
      Reading cfg s test target fuel' data' x' ∧
      fuel' + x'.openReq.length = fuel + x.openReq.length ∧
      (GoesOn cfg x' → x.openReq.length + n ≤ x'.openReq.length) := by
  induction n generalizing fuel data x with
  | zero => exact ⟨fuel, data, x, rfl, reading, rfl, fun _ => Nat.le_refl _⟩
  | succ n ih =>
    unfold RandomRead.submit
    by_cases goesOn : GoesOn cfg x
    · rw [if_pos goesOn]
      obtain ⟨fuel', data', r, x', issued, reading', rfl, opened⟩ := reading.issue small goesOn
      obtain ⟨fuel'', data'', x'', submitted, reading'', same, enough⟩ := ih reading'
      rw [opened, List.length_append, List.length_singleton] at same enough
      refine ⟨fuel'', data'', x'', by rw [issued]; exact submitted, reading'', by omega, ?_⟩
      intro more
      have := enough more
      omega
    · rw [if_neg goesOn]
      exact ⟨fuel, data, x, rfl, reading, rfl, fun more => absurd more goesOn⟩

theorem getD_take_drop {pos length i : Nat} (above : pos ≤ i)
    (below : i < pos + length) : ((data.drop pos).take length).getD (i - pos) 0 = data.getD i 0 := by
  rw [List.getD_eq_getElem?_getD, List.getElem?_take_of_lt (by omega), List.getElem?_drop,
    Nat.add_sub_cancel' above, ← List.getD_eq_getElem?_getD]

theorem Reading.complete (reading : Reading cfg s test target fuel data x) (small : Small test)
    {r : Subrequest} (mem : r ∈ x.openReq) :
    ∃ fuel' data' x', RandomRead.complete cfg s x r = some x' ∧
      Reading cfg s test target fuel' data' x' ∧
      fuel' + x'.openReq.length + 1 = fuel + x.openReq.length ∧
      (GoesOn cfg x' → x'.openReq ≠ []) := by
  obtain ⟨inside, read⟩ := reading.underWay r mem
  have size := length_preadPages read
  have arrived : Reading cfg s test target fuel data { x with
      openReq := x.openReq.erase r
      buffer := arrive x.buffer r.pos ((data.drop r.pos).take r.length) } := by
    refine ⟨reading.selects, reading.length, reading.rest,
      fun other mem' => reading.underWay other (List.mem_of_mem_erase mem'), fun i below => ?_⟩
    dsimp only [arrive]
    rw [size]
    by_cases here : r.pos ≤ i ∧ i < r.pos + r.length
    · left
      rw [if_pos here]
      exact getD_take_drop here.1 here.2
    · rw [if_neg here]
      refine (reading.placed i below).imp_right fun ⟨other, mem', place⟩ => ⟨other, ?_, place⟩
      have differs : other ≠ r := by
        rintro rfl
        exact here place
      exact (List.mem_erase_of_ne differs).mpr mem'
  have erased := List.length_erase_of_mem mem
  have nonempty := List.length_pos_of_mem mem
  unfold RandomRead.complete
  rw [read, Option.bind_some]
  dsimp only
  split
  · rename_i goesOn
    obtain ⟨fuel', data', r', x', issued, reading', rfl, opened⟩ := arrived.issue small goesOn
    refine ⟨fuel', data', x', issued, reading', ?_, fun _ => ?_⟩
    · rw [opened, List.length_append, List.length_singleton, erased]
      omega
    · rw [opened]
      exact List.append_ne_nil_of_right_ne_nil _ (List.cons_ne_nil _ _)
  · rename_i finished
    refine ⟨fuel, data, _, rfl, arrived, ?_, fun more => absurd more finished⟩
    rw [erased]
    omega

theorem Reading.completeAll (small : Small test) (n : Nat) (order : Nat → Nat)
    (reading : Reading cfg s test target fuel data x) (enough : fuel + x.openReq.length < n)
    (busy : GoesOn cfg x → x.openReq ≠ []) :
    (RandomRead.completeAll cfg s n order x).map (fun x =>
      (MemoryBuffer.unindexed ((List.range x.processedBuf).map x.buffer), x.stream)) =
        some target := by
  induction n generalizing fuel data x order with
  | zero => exact absurd enough (Nat.not_lt_zero _)
  | succ n ih =>
    unfold RandomRead.completeAll
    by_cases done : x.openReq = []
    · have finished : ¬ GoesOn cfg x := fun more => busy more done
      have rest := reading.rest
      cases fuel with
      | zero => contradiction
      | succ fuel =>
        rw [randomReadFrom, if_neg (show ¬ (_ ∧ _) from finished)] at rest
        have bytes : (List.range x.processedBuf).map x.buffer = data := by
          apply List.ext_getElem (by simp [reading.length])
          intro i _ below
          obtain here | ⟨r, mem, -⟩ := reading.placed i below
          · rw [List.getElem_map, List.getElem_range, here, List.getD_eq_getElem _ _ below]
          · rw [done] at mem
            exact absurd mem List.not_mem_nil
        simp only [done, List.getElem?_nil, Option.map_some, bytes]
        exact rest
    · have below : order 0 % x.openReq.length < x.openReq.length :=
        Nat.mod_lt _ (List.length_pos_iff.mpr done)
      obtain ⟨fuel', data', x', completed, reading', less, busy'⟩ :=
        reading.complete small (List.getElem_mem below)
      rw [List.getElem?_eq_getElem below]
      simp only [completed, Option.bind_some]
      exact ih _ reading' (by omega) busy'

/-- In whatever order the reads are completed, the result is the same. -/
theorem readRequest_eq (small : Small test) {st : DiskStream} (selects : Selects test st)
    (orders : Orders) (done : DiskStream.readRequest cfg st s = some target) :
    readRequest cfg orders st s = some target := by
  unfold DiskStream.readRequest at done
  unfold readRequest randomReadOperator
  rw [selects.bitset] at done ⊢
  simp only at done ⊢
  split at done
  · rename_i whole
    rw [if_pos whole]
    have reading : Reading cfg s test target (8 * test.length + 1) []
        { stream := st, processedBuf := 0, openReq := [], buffer := orders.old 0 } :=
      ⟨selects, rfl, done, fun r mem => absurd mem List.not_mem_nil,
        fun i below => absurd below (Nat.not_lt_zero i)⟩
    obtain ⟨fuel, data, x, submitted, reading', same, enough⟩ := reading.submit small numSubreq
    rw [submitted, Option.bind_some]
    refine reading'.completeAll small _ _ (by rw [same]; exact Nat.lt_succ_self _) fun more => ?_
    have first := enough more
    rw [← List.length_pos_iff]
    have some_ : 0 < numSubreq := by decide
    omega
  · contradiction

/-! ## The calls of `read` -/

theorem selects_randomReadFrom {fuel : Nat} {st st' : DiskStream} {processedBuf : Nat}
    {data : List Byte} {buffer : MemoryBuffer Byte} (selects : Selects test st)
    (done : randomReadFrom cfg s fuel st processedBuf data = some (buffer, st')) :
    Selects test st' := by
  induction fuel generalizing st processedBuf data with
  | zero => contradiction
  | succ fuel ih =>
    unfold randomReadFrom at done
    split at done
    · obtain ⟨next, found, more⟩ := Option.bind_eq_some_iff.mp done
      obtain ⟨units, -, rest⟩ := Option.bind_eq_some_iff.mp more
      exact ih (selects_search selects found) rest
    · obtain ⟨-, rfl⟩ := Prod.mk.inj (Option.some.inj done)
      exact selects

theorem selects_readRequest {st st' : DiskStream} {buffer : MemoryBuffer Byte}
    (selects : Selects test st) (done : DiskStream.readRequest cfg st s = some (buffer, st')) :
    Selects test st' := by
  unfold DiskStream.readRequest at done
  rw [selects.bitset] at done
  simp only at done
  split at done
  · exact selects_randomReadFrom selects done
  · contradiction

theorem awaited_eq (small : Small test) {st : DiskStream} (selects : Selects test st)
    (orders : Orders) (done : DiskStream.awaited cfg st s = some target) :
    awaited cfg orders st s = some target ∧ Selects test target.2 := by
  have requests (isRequest : DiskStream.readRequest cfg { st with requestSuperp := some s } s =
      some target) :
      readRequest cfg orders { st with requestSuperp := some s } s = some target ∧
        Selects test target.2 :=
    have named : Selects test { st with requestSuperp := some s } := ⟨selects.bitset, selects.set⟩
    ⟨readRequest_eq small named orders isRequest, selects_readRequest named isRequest⟩
  by_cases here : st.request.isSome ∧ st.requestSuperp = some s
  · obtain ⟨buffer, pending⟩ := Option.isSome_iff_exists.mp here.1
    rw [awaited_of_request pending here.2] at done
    rw [← Option.some.inj done]
    refine ⟨?_, selects⟩
    unfold awaited
    split
    · rename_i other isOther
      rw [if_pos here.2, Option.some.inj (isOther.symm.trans pending)]
    · rename_i isNone
      rw [pending] at isNone
      contradiction
  · unfold DiskStream.awaited at done
    unfold awaited
    -- the request has to be made
    split
    · rename_i buffer pending
      have elsewhere : ¬ st.requestSuperp = some s := fun named => here ⟨by rw [pending]; rfl, named⟩
      rw [if_neg elsewhere]
      split at done
      · rw [if_neg elsewhere] at done
        exact requests done
      · exact requests done
    · rename_i isNone
      split at done
      · rename_i buffer pending
        rw [isNone] at pending
        contradiction
      · exact requests done

theorem readAhead_eq (small : Small test) {st : DiskStream} (selects : Selects test st)
    (orders : Orders) (currentPos : Nat) (result : MemoryBuffer Byte)
    (done : DiskStream.readAhead cfg s currentPos result st = some target) :
    readAhead cfg orders s currentPos result st = some target ∧ Selects test target.2 ∧
      target.2.cache = st.cache := by
  unfold DiskStream.readAhead at done
  unfold readAhead
  split
  · rename_i more
    rw [if_pos more] at done
    obtain ⟨⟨buffer, st'⟩, isRequest, rfl⟩ := Option.map_eq_some_iff.mp done
    have selects' := selects_readRequest selects isRequest
    rw [readRequest_eq small selects orders isRequest]
    exact ⟨rfl, ⟨selects'.bitset, selects'.set⟩, (requestFrame_readRequest isRequest).cache⟩
  · rename_i finished
    rw [if_neg finished, if_neg (by rw [selects.bitset]; simp)] at done
    rw [if_neg (by rw [selects.bitset]; simp), ← Option.some.inj done]
    exact ⟨rfl, ⟨selects.bitset, selects.set⟩, rfl⟩

theorem read_eq (small : Small test) {st : DiskStream} (selects : Selects test st)
    (uncached : st.cache = none) (orders : Orders)
    (done : DiskStream.read cfg st s = some target) :
    read cfg orders st s = some target ∧ Selects test target.2 ∧ target.2.cache = none := by
  rw [read_of_uncached uncached] at done
  obtain ⟨await, isAwaited, isAhead⟩ := Option.bind_eq_some_iff.mp done
  obtain ⟨awaits, selects'⟩ := awaited_eq small selects orders isAwaited
  unfold read
  rw [uncached]
  simp only [awaits, Option.bind_some]
  rw [← (frame_awaited isAwaited).2.2.trans uncached]
  exact readAhead_eq small selects' _ _ _ isAhead

theorem reads_eq (small : Small test) (fuel : Nat) {st : DiskStream} (selects : Selects test st)
    (uncached : st.cache = none) (orders : Orders) {result : List (List Byte) × DiskStream}
    (done : doStream cfg s fuel st = some result) :
    reads cfg s fuel orders st = some result := by
  induction fuel generalizing st orders result with
  | zero => contradiction
  | succ fuel ih =>
    unfold doStream at done
    unfold reads
    split
    · rename_i atEnd
      rw [if_pos atEnd] at done
      exact done
    · rename_i more
      rw [if_neg more] at done
      obtain ⟨⟨buffer, st'⟩, isRead, rest⟩ := Option.bind_eq_some_iff.mp done
      obtain ⟨read, selects', uncached'⟩ := read_eq small selects uncached orders isRead
      obtain ⟨results, isRest, same⟩ := Option.map_eq_some_iff.mp rest
      rw [read, Option.bind_some, ih selects' uncached' _ isRest]
      exact congrArg some same

/-! ## What a buffer holds -/

section Buffers

variable {content : List Byte}

/-- Records do not cross pages, and the file is made of records. -/
structure WholeRecords (cfg : StreamConfig) (content : List Byte) : Prop where
  page : cfg.streamUnitBytes ∣ cfg.subBufSize
  file : cfg.streamUnitBytes ∣ content.length

theorem room_of_search {st : DiskStream} {processedBuf : Nat} {next : (Nat × Nat) × DiskStream}
    (found : DiskStream.searchAndUpdateNextPositions cfg st s processedBuf = some next) :
    processedBuf + cfg.subBufSize ≤ cfg.bufbytes := by
  unfold DiskStream.searchAndUpdateNextPositions at found
  split at found
  · split at found
    · contradiction
    · rename_i room
      exact not_lt.mp room
  · contradiction

/-- A request reads whole records, and some if there are pages left. -/
theorem whole_randomReadFrom (fit : PagesFit cfg test content) (whole : WholeRecords cfg content)
    {fuel start : Nat} {st st' : DiskStream} {data : List Byte} {buffer : MemoryBuffer Byte}
    (scan : Scanning cfg test content s start st)
    (done : randomReadFrom cfg s fuel st data.length data = some (buffer, st'))
    (records : cfg.streamUnitBytes ∣ data.length) :
    cfg.streamUnitBytes ∣ buffer.buffer.length ∧ data.length ≤ buffer.buffer.length ∧
      (st.randomPos.isSome → data.length < cfg.bufbytes → data.length < buffer.buffer.length) := by
  induction fuel generalizing start st data with
  | zero => contradiction
  | succ fuel ih =>
    unfold randomReadFrom at done
    split at done
    · rename_i goesOn
      obtain ⟨next, found, more⟩ := Option.bind_eq_some_iff.mp done
      obtain ⟨units, isRead, rest⟩ := Option.bind_eq_some_iff.mp more
      obtain ⟨cur, at_⟩ := Option.isSome_iff_exists.mp goesOn.1
      obtain ⟨n, st'', searched, positive, -, -, -, scan'⟩ :=
        MBFGraph.search_eq fit scan at_ (room_of_search found)
      have first := fit.inside cur (nextBit_eq_some_iff.mp (scan.pos.symm.trans at_)).1
      obtain rfl := Option.some.inj (found.symm.trans searched)
      have size := length_preadPages isRead
      simp only at rest size
      have page := Nat.mul_pos positive fit.page
      have piece : cfg.streamUnitBytes ∣
          min (n * cfg.subBufSize) (content.length - cur * cfg.subBufSize) := by
        have pages := whole.page.mul_left n
        have left := Nat.dvd_sub whole.file (whole.page.mul_left cur)
        rcases Nat.le_total (n * cfg.subBufSize) (content.length - cur * cfg.subBufSize) with le | le
        · rwa [Nat.min_eq_left le]
        · rwa [Nat.min_eq_right le]
      rw [← size, ← List.length_append] at rest
      have done' := ih scan' rest (by
        rw [List.length_append, size]
        exact Nat.dvd_add records piece)
      rw [List.length_append, size] at done'
      exact ⟨done'.1, by omega, fun _ _ => by omega⟩
    · rename_i finished
      obtain ⟨rfl, -⟩ := Prod.mk.inj (Option.some.inj done)
      exact ⟨records, Nat.le_refl _, fun isSome room => absurd ⟨isSome, room⟩ finished⟩

/-- A buffer that `read` returns: some whole records. -/
def Filled (cfg : StreamConfig) (bytes : List Byte) : Prop :=
  bytes ≠ [] ∧ cfg.streamUnitBytes ∣ bytes.length

/-- The stream is somewhere in the bitset. -/
def InBitset (cfg : StreamConfig) (test content : List Byte) (s : Nat) (st : DiskStream) : Prop :=
  ∃ start, Scanning cfg test content s start st

theorem InBitset.congr {st : DiskStream} (scan : InBitset cfg test content s st)
    (requestSuperp : Option Nat) (request cache : Option (MemoryBuffer Byte)) (eofFlag : Bool) :
    InBitset cfg test content s { st with requestSuperp, request, cache, eofFlag } :=
  let ⟨start, scan⟩ := scan
  ⟨start, scan.bitset, scan.pos, scan.file, scan.bytes, scan.atEnd⟩

theorem filled_readRequest (fit : PagesFit cfg test content) (whole : WholeRecords cfg content)
    {st st' : DiskStream} {buffer : MemoryBuffer Byte} (scan : InBitset cfg test content s st)
    (more : st.eof s = false)
    (done : DiskStream.readRequest cfg st s = some (buffer, st')) :
    Filled cfg buffer.buffer ∧ InBitset cfg test content s st' := by
  obtain ⟨start, scan⟩ := scan
  have isSome : st.randomPos.isSome := by
    rw [Option.isSome_iff_ne_none]
    intro used
    rw [eof, scan.bytes, decide_eq_false_iff_not] at more
    exact more (scan.atEnd.mpr used)
  obtain ⟨stop, after, units, requested, -, -, -, -, scan'⟩ := MBFGraph.readRequest_eq fit scan
  obtain ⟨-, rfl⟩ := Prod.mk.inj (Option.some.inj (done.symm.trans requested))
  refine ⟨?_, stop, scan'⟩
  unfold DiskStream.readRequest at done
  rw [scan.bitset] at done
  simp only [fit.whole, if_true] at done
  obtain ⟨records, -, some_⟩ := whole_randomReadFrom fit whole scan done
    (show cfg.streamUnitBytes ∣ ([] : List Byte).length from Nat.dvd_zero _)
  exact ⟨List.length_pos_iff.mp (some_ isSome fit.buffer), records⟩

/-- The request that is pending. -/
def PendingFilled (cfg : StreamConfig) (s : Nat) (st : DiskStream) : Prop :=
  ∀ buffer, st.request = some buffer → st.requestSuperp = some s ∧ Filled cfg buffer.buffer

theorem filled_awaited (fit : PagesFit cfg test content) (whole : WholeRecords cfg content)
    {st st' : DiskStream} {buffer : MemoryBuffer Byte} (scan : InBitset cfg test content s st)
    (pending : PendingFilled cfg s st) (uncached : st.cache = none) (more : st.streamEof s = false)
    (done : DiskStream.awaited cfg st s = some (buffer, st')) :
    Filled cfg buffer.buffer ∧ InBitset cfg test content s st' := by
  cases request : st.request with
  | none =>
    rw [awaited_of_noRequest request] at done
    have notAtEnd : st.eof s = false := by simpa [streamEof, uncached, request] using more
    exact filled_readRequest fit whole (scan.congr (some s) st.request st.cache st.eofFlag) notAtEnd
      done
  | some waiting =>
    obtain ⟨named, filled⟩ := pending waiting request
    rw [awaited_of_request request named] at done
    obtain ⟨rfl, rfl⟩ := Prod.mk.inj (Option.some.inj done)
    exact ⟨filled, scan⟩

theorem filled_readAhead (fit : PagesFit cfg test content) (whole : WholeRecords cfg content)
    {st st' : DiskStream} {result buffer : MemoryBuffer Byte} {currentPos : Nat}
    (scan : InBitset cfg test content s st) (named : st.requestSuperp = some s)
    (uncached : st.cache = none)
    (done : DiskStream.readAhead cfg s currentPos result st = some (buffer, st')) :
    InBitset cfg test content s st' ∧ PendingFilled cfg s st' ∧ st'.cache = none := by
  unfold DiskStream.readAhead at done
  split at done
  · rename_i more
    obtain ⟨⟨ahead, st1⟩, isRequest, same⟩ := Option.map_eq_some_iff.mp done
    obtain ⟨filled, scan'⟩ := filled_readRequest fit whole scan more isRequest
    have frame := requestFrame_readRequest isRequest
    obtain ⟨-, rfl⟩ := Prod.mk.inj same
    refine ⟨scan'.congr _ _ _ _, fun other isOther => ?_, frame.cache.trans uncached⟩
    rw [← Option.some.inj isOther]
    exact ⟨frame.requestSuperp.trans named, filled⟩
  · obtain ⟨start, scan⟩ := scan
    rw [if_neg (by rw [scan.bitset]; simp)] at done
    obtain ⟨-, rfl⟩ := Prod.mk.inj (Option.some.inj done)
    exact ⟨InBitset.congr ⟨start, scan⟩ _ _ _ _, fun other isOther => by contradiction, uncached⟩

/-- Every call of `read` returns some whole records, until the stream is at its end. -/
theorem filled_doStream (fit : PagesFit cfg test content) (whole : WholeRecords cfg content)
    {fuel : Nat} {st after : DiskStream} {out : List (List Byte)}
    (scan : InBitset cfg test content s st) (pending : PendingFilled cfg s st)
    (uncached : st.cache = none) (done : doStream cfg s fuel st = some (out, after)) :
    (∀ bytes ∈ out, Filled cfg bytes) ∧ after.streamEof s = true := by
  induction fuel generalizing st out with
  | zero => contradiction
  | succ fuel ih =>
    unfold doStream at done
    split at done
    · rename_i atEnd
      obtain ⟨rfl, rfl⟩ := Prod.mk.inj (Option.some.inj done)
      exact ⟨fun bytes mem => absurd mem List.not_mem_nil, atEnd⟩
    · rename_i more
      obtain ⟨⟨buffer, st'⟩, isRead, rest⟩ := Option.bind_eq_some_iff.mp done
      obtain ⟨⟨results, st2⟩, isRest, same⟩ := Option.map_eq_some_iff.mp rest
      obtain ⟨rfl, rfl⟩ := Prod.mk.inj same
      rw [read_of_uncached uncached] at isRead
      obtain ⟨⟨result, st1⟩, isAwaited, isAhead⟩ := Option.bind_eq_some_iff.mp isRead
      obtain ⟨filled, scan1⟩ := filled_awaited fit whole scan pending uncached
        (Bool.eq_false_iff.mpr more) isAwaited
      obtain ⟨-, named, sameCache⟩ := frame_awaited isAwaited
      have uncached1 := sameCache.trans uncached
      obtain ⟨rfl, -, -⟩ := frame_readAhead named uncached1 isAhead
      obtain ⟨scan', pending', uncached'⟩ := filled_readAhead fit whole scan1 named uncached1 isAhead
      obtain ⟨others, atEnd⟩ := ih scan' pending' uncached' isRest
      exact ⟨List.forall_mem_cons.mpr ⟨filled, others⟩, atEnd⟩

end Buffers

end RandomRead

open RandomRead

/-- Behind `set_bitset`, in whatever orders the reads are completed, the calls of `read` come to the
end of the stream without a failing assertion; the buffers they return are the selected pages, in
order, and each is some whole records. -/
def ReadsSelected (cfg : StreamConfig) (content test : List Byte) (s : Nat) (st : DiskStream) :
    Prop :=
  ∃ st', RandomRead.setBitset st test = some st' ∧ ∀ orders : Orders, ∃ size outs after,
    (∀ fuel, size < fuel → reads cfg s fuel orders st' = some (outs, after)) ∧
    outs.flatten = selectedPages cfg content test ∧
    (∀ bytes ∈ outs, bytes ≠ [] ∧ cfg.streamUnitBytes ∣ bytes.length) ∧
    after.streamEof s = true

/-- A stream that is not at its end, with no buffer in memory and no request under way, before
`set_bitset`. -/
structure Unread (content : List Byte) (s : Nat) (st : DiskStream) : Prop where
  file : (st.fds s).content = content
  bytes : st.diskBytes s = content.length
  uncached : st.cache = none
  idle : st.request = none
  unused : st.randomPos = none
  ahead : st.eof s = false

theorem inside_of_lt {page length p : Nat} (positive : 0 < page)
    (below : p < (length + page - 1) / page) : p * page < length := by
  have := (Nat.le_div_iff_mul_le positive).mp below
  rw [Nat.succ_mul] at this
  omega

/-- The selected pages are read, if page numbers fit into an `unsigned int`. -/
theorem readsSelected (cfg : StreamConfig) (content test : List Byte) (s : Nat) (st : DiskStream)
    (page : 0 < cfg.subBufSize) (buffer : 0 < cfg.bufbytes)
    (wholePages : cfg.bufbytes % cfg.subBufSize = 0)
    (recordsInPage : cfg.streamUnitBytes ∣ cfg.subBufSize)
    (recordsInFile : cfg.streamUnitBytes ∣ content.length) (some_ : ∃ p, bitAt test p = true)
    (inside : ∀ p, bitAt test p = true →
      p < (content.length + cfg.subBufSize - 1) / cfg.subBufSize)
    (small : ∀ p, bitAt test p = true → p < 2 ^ 32 - 8) (unread : Unread content s st) :
    ReadsSelected cfg content test s st := by
  have fit : PagesFit cfg test content :=
    ⟨page, buffer, wholePages, fun p set => inside_of_lt page (inside p set)⟩
  obtain ⟨p, set⟩ := some_
  obtain ⟨cur, found⟩ : ∃ cur, nextBit (bitAt test) (8 * test.length) 0 = some cur := by
    rw [← Option.isSome_iff_exists, Option.isSome_iff_ne_none]
    intro none_
    by_cases below : p < 8 * test.length
    · rw [nextBit_eq_none_iff.mp none_ p (Nat.zero_le p) below] at set
      contradiction
    · rw [bitAt_of_length_le (Nat.le_of_not_lt below)] at set
      contradiction
  refine ⟨{ st with randomBitset := some test, randomPos := some cur }, ?_, fun orders => ?_⟩
  · unfold RandomRead.setBitset
    rw [unread.unused, RandomRead.findFirst_eq small, MBFGraph.findFirst_eq, found]
    rfl
  · have scan : Scanning cfg test content s 0
        { st with randomBitset := some test, randomPos := some cur } := by
      refine ⟨rfl, found.symm, unread.file, unread.bytes, iff_of_false ?_ (Option.some_ne_none cur)⟩
      have ahead := unread.ahead
      rw [eof, unread.bytes, decide_eq_false_iff_not] at ahead
      exact ahead
    obtain ⟨size, outs, after, streamed, -, -, flat⟩ :=
      doStream_of_source (source_bitset fit) ⟨0, scan, rfl, rfl⟩ unread.uncached unread.idle
    have selects : Selects test { st with randomBitset := some test, randomPos := some cur } := by
      refine ⟨rfl, fun q isQ => ?_⟩
      rw [← Option.some.inj isQ]
      exact (nextBit_eq_some_iff.mp found).1
    obtain ⟨filled, atEnd⟩ := filled_doStream fit ⟨recordsInPage, recordsInFile⟩ ⟨0, scan⟩
      (fun waiting isWaiting => by
        have idle : st.request = some waiting := isWaiting
        rw [unread.idle] at idle
        contradiction)
      unread.uncached (streamed (size + 1) (Nat.lt_succ_self size))
    exact ⟨size, outs, after,
      fun fuel enough => reads_eq small fuel selects unread.uncached orders (streamed fuel enough),
      by rw [flat, selectedFrom_zero], filled, atEnd⟩

/-- One super partition, records of 8 bytes, pages of 512 bytes and buffers of one page. -/
def onePageConfig : StreamConfig where
  superpCnt := 1
  processors := 1
  streamUnitBytes := 8
  bufbytes := 512
  subBufSize := 512
  streamUnit := 8192

/-- A bitset that selects the last page only, and its file. -/
def lastPage (n : Nat) : List Byte := List.replicate n 0 ++ [0x80]

/-- A file of `8 * (n + 1)` pages. -/
def pagesFile (n : Nat) : List Byte := List.replicate (8 * (n + 1) * 512) 0

theorem bitAt_lastPage {n p : Nat} : bitAt (lastPage n) p = true ↔ p = 8 * n + 7 := by
  unfold bitAt lastPage
  rcases Nat.lt_trichotomy (p / 8) n with before | here | behind
  · rw [List.getD_append _ _ _ _ (by simpa using before),
      List.getD_eq_getElem _ _ (by simpa using before), List.getElem_replicate]
    simp only [BitVec.ofNat_eq_ofNat, BitVec.getLsbD_zero, Bool.false_eq_true, false_iff]
    omega
  · rw [List.getD_append_right _ _ _ _ (by simp [here]), List.length_replicate, here, Nat.sub_self]
    have small : p % 8 < 8 := Nat.mod_lt _ (by decide)
    have last : ∀ j < 8, (0x80 : Byte).getLsbD j = true ↔ j = 7 := by decide
    rw [show ([0x80] : List Byte).getD 0 0 = 0x80 from rfl, last _ small]
    omega
  · rw [List.getD_eq_default _ _ (by simp; omega)]
    simp only [BitVec.ofNat_eq_ofNat, BitVec.getLsbD_zero, Bool.false_eq_true, false_iff]
    omega

theorem unread_pagesFile (n : Nat) :
    Unread (pagesFile n) 0 (DiskStream.opened fun _ => pagesFile n) where
  file := rfl
  bytes := rfl
  uncached := rfl
  idle := rfl
  unused := rfl
  ahead := by
    apply decide_eq_false
    simp [DiskStream.opened, pagesFile]

theorem lastPage_inside {n p : Nat} (set : bitAt (lastPage n) p = true) :
    p < ((pagesFile n).length + onePageConfig.subBufSize - 1) / onePageConfig.subBufSize := by
  rw [bitAt_lastPage.mp set, pagesFile, List.length_replicate]
  change 8 * n + 7 < (8 * (n + 1) * 512 + 512 - 1) / 512
  omega

theorem pagesFile_records (n : Nat) : onePageConfig.streamUnitBytes ∣ (pagesFile n).length := by
  rw [pagesFile, List.length_replicate, Nat.mul_assoc]
  exact Nat.dvd_mul_right _ _

/-- The last one of eight pages. -/
theorem readsSelected_last :
    ReadsSelected onePageConfig (pagesFile 0) (lastPage 0) 0
      (DiskStream.opened fun _ => pagesFile 0) :=
  readsSelected _ _ _ _ _ (by decide) (by decide) (by decide) (by decide)
    (pagesFile_records 0) ⟨7, bitAt_lastPage.mpr rfl⟩
    (fun _ set => lastPage_inside set)
    (fun p set => by rw [bitAt_lastPage.mp set]; decide) (unread_pagesFile 0)

/-- The last one of 2^32 pages: its number is that of -1, and `set_bitset` finds no bit. -/
theorem not_readsSelected_large :
    ¬ ∀ (cfg : StreamConfig) (content test : List Byte) (s : Nat) (st : DiskStream),
      0 < cfg.subBufSize → 0 < cfg.bufbytes → cfg.bufbytes % cfg.subBufSize = 0 →
      cfg.streamUnitBytes ∣ cfg.subBufSize → cfg.streamUnitBytes ∣ content.length →
      (∃ p, bitAt test p = true) →
      (∀ p, bitAt test p = true →
        p < (content.length + cfg.subBufSize - 1) / cfg.subBufSize) →
      Unread content s st → ReadsSelected cfg content test s st := by
  intro all
  have some_ : ∃ p, bitAt (lastPage (2 ^ 29 - 1)) p = true := ⟨2 ^ 32 - 1, bitAt_lastPage.mpr rfl⟩
  obtain ⟨st', set, -⟩ := all onePageConfig (pagesFile (2 ^ 29 - 1)) (lastPage (2 ^ 29 - 1)) 0
    (DiskStream.opened fun _ => pagesFile (2 ^ 29 - 1)) (by decide) (by decide) (by decide)
    (by decide) (pagesFile_records _) some_
    (fun _ set => lastPage_inside set) (unread_pagesFile _)
  unfold RandomRead.setBitset at set
  have none_ : RandomRead.findFirst (lastPage (2 ^ 29 - 1)) = none := by
    unfold RandomRead.findFirst
    rw [MBFGraph.findFirst_eq]
    cases found : nextBit (bitAt (lastPage (2 ^ 29 - 1)))
        (8 * (lastPage (2 ^ 29 - 1)).length) 0 with
    | none => rfl
    | some p =>
      rw [bitAt_lastPage.mp (nextBit_eq_some_iff.mp found).1]
      rfl
  rw [none_] at set
  contradiction

end MBFGraph
