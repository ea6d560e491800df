import MBFGraph.Core.EdgeScatter
import MBFGraph.Core.Proofs.StreamDrain

/-!
# A bitset is used up

A filtered scatter reads exactly the selected pages and leaves `random_pos` at `-1`, if the
stream keeps no buffer, the buffers are made of whole pages, and every selected page lies in the
file. The last point fails for a super partition without edges: bit 0 is always set.
-/

namespace MBFGraph

open ByteBits Overwrite Stdio BitScan DiskStream

section Scan

variable {cfg : StreamConfig} {test content : List Byte} {s : Nat}

/-- The stream has gone through the bitset up to `start`. -/
structure Scanning (cfg : StreamConfig) (test content : List Byte) (s start : Nat)
    (st : DiskStream) : Prop where
  bitset : st.randomBitset = some test
  pos : st.randomPos = nextBit (bitAt test) (8 * test.length) start
  file : (st.fds s).content = content
  bytes : st.diskBytes s = content.length
  atEnd : st.diskPos s = content.length ↔ st.randomPos = none

/-- What a bitset and a buffer size have to satisfy. -/
structure PagesFit (cfg : StreamConfig) (test content : List Byte) : Prop where
  page : 0 < cfg.subBufSize
  buffer : 0 < cfg.bufbytes
  whole : cfg.bufbytes % cfg.subBufSize = 0
  inside : ∀ p, bitAt test p = true → p * cfg.subBufSize < content.length

/-- The selected bytes from a position of the bitset on. -/
def selectedFrom (cfg : StreamConfig) (test content : List Byte) (start : Nat) : List Byte :=
  (setFrom (bitAt test) (8 * test.length) start).flatMap (block cfg.subBufSize content)

theorem selectedFrom_zero : selectedFrom cfg test content 0 = selectedPages cfg content test := by
  unfold selectedFrom selectedPages setFrom
  rw [Nat.sub_zero, List.range_eq_range']

theorem selectedFrom_of_none {start : Nat}
    (none_ : nextBit (bitAt test) (8 * test.length) start = none) :
    selectedFrom cfg test content start = [] := by
  unfold selectedFrom
  rw [setFrom_of_none none_]
  rfl

/-- The request for a run of pages: it starts inside the file, and only the last one ends behind
the file. -/
theorem search_eq (fit : PagesFit cfg test content) {start cur processedBuf : Nat} {st : DiskStream}
    (scan : Scanning cfg test content s start st) (found : st.randomPos = some cur)
    (room : processedBuf + cfg.subBufSize ≤ cfg.bufbytes) :
    ∃ n st', searchAndUpdateNextPositions cfg st s processedBuf =
        some ((cur * cfg.subBufSize, min (n * cfg.subBufSize)
          (content.length - cur * cfg.subBufSize)), st') ∧
      0 < n ∧ IsRun (bitAt test) (8 * test.length) cur n st'.randomPos ∧
      (∀ m, 0 < m → m < n → processedBuf + m * cfg.subBufSize < cfg.bufbytes) ∧
      (st'.randomPos.isSome → (cur + n) * cfg.subBufSize < content.length) ∧
      Scanning cfg test content s (cur + n) st' := by
  obtain ⟨bitset, pos, sameContent, bytes, -⟩ := scan
  have first := nextBit_eq_some_iff.mp (pos.symm.trans found)
  have findNext_eq_nextBit : findNext test = fun p => nextBit (bitAt test) (8 * test.length) (p + 1) :=
    funext (findNext_eq test)
  obtain ⟨run, longer, -⟩ := isRun_extendRun
    (fun n => decide (processedBuf + n * cfg.subBufSize < cfg.bufbytes))
    (8 * test.length + 1) 1 _ (isRun_one first.1 first.2.2.1)
  have more := fun m (above : 1 ≤ m) => more_of_extendRun
    (fun p => nextBit (bitAt test) (8 * test.length) (p + 1))
    (fun n => decide (processedBuf + n * cfg.subBufSize < cfg.bufbytes)) cur
    (8 * test.length + 1) 1 (nextBit (bitAt test) (8 * test.length) (cur + 1)) above
  have enoughRoom : ¬ cfg.bufbytes < processedBuf + cfg.subBufSize := by omega
  unfold searchAndUpdateNextPositions
  rw [bitset, found]
  simp only [enoughRoom, if_false, findNext_eq_nextBit]
  generalize extendRun (fun p => nextBit (bitAt test) (8 * test.length) (p + 1))
    (fun n => decide (processedBuf + n * cfg.subBufSize < cfg.bufbytes)) cur
    (8 * test.length + 1) 1 (nextBit (bitAt test) (8 * test.length) (cur + 1)) = result at *
  obtain ⟨n, behind⟩ := result
  simp only at run longer more ⊢
  have startInside : cur * cfg.subBufSize < content.length := fit.inside cur first.1
  have split : (cur + n) * cfg.subBufSize = cur * cfg.subBufSize + n * cfg.subBufSize :=
    Nat.add_mul _ _ _
  -- the pages found next lie in the file, so what comes before them ends in it
  have nextInside : behind.isSome → (cur + n) * cfg.subBufSize < content.length := by
    intro isSome
    obtain ⟨p, isP⟩ := Option.isSome_iff_exists.mp isSome
    have next := nextBit_eq_some_iff.mp (run.behind.symm.trans isP)
    exact lt_of_le_of_lt (Nat.mul_le_mul_right _ next.2.1) (fit.inside p next.1)
  have moreRoom : ∀ m, 0 < m → m < n → processedBuf + m * cfg.subBufSize < cfg.bufbytes :=
    fun m above below => of_decide_eq_true (more m above below)
  rw [bytes]
  by_cases past : content.length < cur * cfg.subBufSize + n * cfg.subBufSize
  · have isLast : behind = none := by
      rw [← Option.not_isSome_iff_eq_none]
      intro isSome
      have := nextInside isSome
      omega
    have length : min (n * cfg.subBufSize) (content.length - cur * cfg.subBufSize) =
        content.length - cur * cfg.subBufSize := by omega
    rw [if_pos past, if_neg (by rw [isLast]; simp; omega)]
    refine ⟨n, _, congrArg (fun l => some ((_, l), _)) length.symm, longer, run, moreRoom,
      nextInside, rfl, run.behind, sameContent, bytes, ?_⟩
    simp [isLast]
  · have length : min (n * cfg.subBufSize) (content.length - cur * cfg.subBufSize) =
        n * cfg.subBufSize := by omega
    rw [if_neg past]
    by_cases isLast : behind = none
    · rw [if_pos (by rw [isLast]; rfl)]
      refine ⟨n, _, congrArg (fun l => some ((_, l), _)) length.symm, longer, run, moreRoom,
      nextInside, rfl, run.behind, sameContent, bytes, ?_⟩
      simp [isLast]
    · have isSome : behind.isSome := Option.isSome_iff_ne_none.mpr isLast
      have inFile := nextInside isSome
      rw [if_neg (by simpa using isLast)]
      refine ⟨n, _, congrArg (fun l => some ((_, l), _)) length.symm, longer, run, moreRoom,
      nextInside, rfl, run.behind, sameContent, bytes, ?_⟩
      simp only [Function.update_self, isLast, iff_false]
      omega

/-- All bytes that a request asks for come back, as far as the file goes. -/
theorem preadPages_eq (fit : PagesFit cfg test content) {n offset : Nat} :
    preadPages cfg content offset (min (n * cfg.subBufSize) (content.length - offset)) =
      some ((content.drop offset).take (n * cfg.subBufSize)) := by
  have page := fit.page
  unfold preadPages
  by_cases inside : n * cfg.subBufSize ≤ content.length - offset
  · have whole : n * cfg.subBufSize % cfg.subBufSize = 0 := Nat.mul_mod_left _ _
    have size : ((content.drop offset).take (n * cfg.subBufSize)).length = n * cfg.subBufSize := by
      rw [List.length_take, List.length_drop, Nat.min_eq_left inside]
    simp only [Nat.min_eq_left inside, whole, size, if_true]
  · -- the rest of the file, however many pages are asked for
    have rest : ∀ m, content.length - offset ≤ m →
        (content.drop offset).take m = content.drop offset := fun m enough =>
      List.take_of_length_le (by rw [List.length_drop]; exact enough)
    have rounded : content.length - offset ≤
        ((content.length - offset) / cfg.subBufSize + 1) * cfg.subBufSize :=
      le_of_lt (Nat.lt_mul_of_div_lt (Nat.lt_succ_self _) page)
    rw [Nat.min_eq_right (by omega), rest (n * cfg.subBufSize) (by omega)]
    by_cases whole : (content.length - offset) % cfg.subBufSize = 0
    · simp only [whole, if_true, rest _ (Nat.le_refl _), List.length_drop]
    · simp only [whole, if_false, rest _ rounded, List.length_drop, if_true]

/-- A filled buffer: the selected bytes from one position of the bitset to another. -/
theorem randomReadFrom_eq (fit : PagesFit cfg test content) (fuel : Nat) (data : List Byte)
    {start : Nat} {st : DiskStream} (scan : Scanning cfg test content s start st)
    (enough : 8 * test.length - start < fuel) (room : data.length ≤ cfg.bufbytes)
    (aligned : st.randomPos.isSome → data.length % cfg.subBufSize = 0) :
    ∃ stop st' units, randomReadFrom cfg s fuel st data.length data =
        some (MemoryBuffer.unindexed (data ++ units), st') ∧
      (data ++ units).length ≤ cfg.bufbytes ∧ start ≤ stop ∧
      (st.randomPos.isSome → data.length < cfg.bufbytes → start < stop) ∧
      selectedFrom cfg test content start = units ++ selectedFrom cfg test content stop ∧
      Scanning cfg test content s stop st' := by
  induction fuel generalizing start st data with
  | zero => exact absurd enough (Nat.not_lt_zero _)
  | succ fuel ih =>
    unfold randomReadFrom
    by_cases goesOn : st.randomPos.isSome = true ∧ data.length < cfg.bufbytes
    · rw [if_pos goesOn]
      obtain ⟨cur, found⟩ := Option.isSome_iff_exists.mp goesOn.1
      have first := nextBit_eq_some_iff.mp (scan.pos.symm.trans found)
      -- the buffer is made of whole pages, so there is room for one more
      have roomForPage : data.length + cfg.subBufSize ≤ cfg.bufbytes := by
        obtain ⟨pages, isPages⟩ := Nat.dvd_of_mod_eq_zero fit.whole
        obtain ⟨filled, isFilled⟩ := Nat.dvd_of_mod_eq_zero (aligned goesOn.1)
        rw [isPages, isFilled] at goesOn ⊢
        have less : filled < pages := Nat.lt_of_mul_lt_mul_left goesOn.2
        rw [← Nat.mul_succ]
        exact Nat.mul_le_mul_left _ less
      obtain ⟨n, st1, searched, positive, run, more, nextInside, scan1⟩ :=
        search_eq fit scan found roomForPage
      have fits : data.length + n * cfg.subBufSize ≤ cfg.bufbytes := by
        rcases Nat.lt_or_ge 1 n with several | one
        · obtain ⟨m, rfl⟩ : ∃ m, n = m + 1 := ⟨n - 1, by omega⟩
          have below := more m (by omega) (by omega)
          obtain ⟨pages, isPages⟩ := Nat.dvd_of_mod_eq_zero fit.whole
          obtain ⟨filled, isFilled⟩ := Nat.dvd_of_mod_eq_zero (aligned goesOn.1)
          rw [isPages, isFilled, Nat.mul_comm m, ← Nat.mul_add] at below
          have less : filled + m < pages := Nat.lt_of_mul_lt_mul_left below
          rw [isPages, isFilled, Nat.mul_comm (m + 1), ← Nat.mul_add]
          exact Nat.mul_le_mul_left _ less
        · obtain rfl : n = 1 := by omega
          rw [Nat.one_mul]
          exact roomForPage
      rw [searched, Option.bind_some, scan.file, preadPages_eq fit, Option.bind_some]
      have size : ((content.drop (cur * cfg.subBufSize)).take (n * cfg.subBufSize)).length =
          min (n * cfg.subBufSize) (content.length - cur * cfg.subBufSize) := by
        rw [List.length_take, List.length_drop]
      have inside := run.inside
      obtain ⟨stop, st', units, result, small, le, -, selected, scan'⟩ :=
        ih (data ++ (content.drop (cur * cfg.subBufSize)).take (n * cfg.subBufSize)) scan1
          (by omega) (by rw [List.length_append, size]; omega) (by
            intro isSome
            have before := nextInside isSome
            rw [Nat.add_mul] at before
            rw [List.length_append, size, Nat.min_eq_left (by omega), Nat.add_mod,
              aligned goesOn.1, Nat.mul_mod_left]
            exact Nat.zero_mod _)
      rw [List.length_append, size] at result
      refine ⟨stop, st', (content.drop (cur * cfg.subBufSize)).take (n * cfg.subBufSize) ++ units,
        ?_, ?_, by omega, ?_, ?_, scan'⟩
      · rw [← List.append_assoc]
        exact result
      · rw [← List.append_assoc]
        exact small
      · intro _ _
        omega
      · unfold selectedFrom at selected ⊢
        rw [setFrom_of_isRun (scan.pos.symm.trans found) run, List.flatMap_append, selected,
          flatMap_block, List.append_assoc]
    · rw [if_neg goesOn]
      refine ⟨start, st, [], by rw [List.append_nil], by rw [List.append_nil]; exact room,
        Nat.le_refl _, fun isSome below => absurd ⟨isSome, below⟩ goesOn, by rw [List.nil_append],
        scan⟩

/-- A request of the I/O thread behind `set_bitset`. -/
theorem readRequest_eq (fit : PagesFit cfg test content) {start : Nat} {st : DiskStream}
    (scan : Scanning cfg test content s start st) :
    ∃ stop st' units, readRequest cfg st s = some (MemoryBuffer.unindexed units, st') ∧
      units.length ≤ cfg.bufbytes ∧ start ≤ stop ∧ (st.randomPos.isSome → start < stop) ∧
      selectedFrom cfg test content start = units ++ selectedFrom cfg test content stop ∧
      Scanning cfg test content s stop st' := by
  obtain ⟨stop, st', units, result, small, le, progress, selected, scan'⟩ :=
    randomReadFrom_eq fit (8 * test.length + 1) [] scan (by omega) (Nat.zero_le _)
      (fun _ => Nat.zero_mod _)
  unfold readRequest
  rw [scan.bitset]
  simp only [fit.whole, if_true]
  exact ⟨stop, st', units, result, small, le, fun isSome => progress isSome fit.buffer, selected,
    scan'⟩

/-- What is left of a bitset: the selected bytes, and an upper bound for the requests. -/
def BitsetLeft (cfg : StreamConfig) (test content : List Byte) (s : Nat) (st : DiskStream)
    (rest : List Byte) (n : Nat) : Prop :=
  ∃ start, Scanning cfg test content s start st ∧ rest = selectedFrom cfg test content start ∧
    n = if st.randomPos.isSome then 8 * test.length - start else 0

/-- A bitset whose next position is known is not at its end. -/
theorem lt_of_randomPos {start : Nat} {st : DiskStream}
    (scan : Scanning cfg test content s start st) (isSome : st.randomPos.isSome) :
    start < 8 * test.length := by
  obtain ⟨cur, found⟩ := Option.isSome_iff_exists.mp isSome
  obtain ⟨-, above, below, -⟩ := nextBit_eq_some_iff.mp (scan.pos.symm.trans found)
  omega

/-- Behind `set_bitset` a stream delivers the selected pages. -/
theorem source_bitset (fit : PagesFit cfg test content) :
    Source cfg s (BitsetLeft cfg test content s) where
  atEnd := by
    rintro st rest n ⟨start, scan, rfl, rfl⟩
    rw [scan.bytes, scan.atEnd]
    constructor
    · intro used
      rw [used]
      rfl
    · intro zero
      by_contra more
      have isSome : st.randomPos.isSome := Option.isSome_iff_ne_none.mpr more
      have below := lt_of_randomPos scan isSome
      rw [if_pos isSome] at zero
      omega
  done := by
    rintro st rest ⟨start, scan, rfl, zero⟩
    by_cases isSome : st.randomPos.isSome
    · have below := lt_of_randomPos scan isSome
      rw [if_pos isSome] at zero
      omega
    · exact selectedFrom_of_none (scan.pos.symm.trans (Option.not_isSome_iff_eq_none.mp isSome))
  request := by
    rintro st rest n ⟨start, scan, rfl, rfl⟩ positive
    have isSome : st.randomPos.isSome := by
      by_contra used
      rw [if_neg used] at positive
      omega
    have below := lt_of_randomPos scan isSome
    obtain ⟨stop, st', units, requested, small, le, progress, selected, scan'⟩ :=
      readRequest_eq fit scan
    have later := progress isSome
    refine ⟨units, _, _, st', requested, small, selected, ?_, stop, scan', rfl, rfl⟩
    rw [if_pos isSome]
    split <;> omega
  congr := by
    rintro st rest n ⟨start, scan, rfl, rfl⟩ requestSuperp request cache eofFlag
    exact ⟨start, ⟨scan.bitset, scan.pos, scan.file, scan.bytes, scan.atEnd⟩, rfl, rfl⟩

end Scan

section Driver

variable {cfg : StreamConfig} {contents : Nat → List Byte}

/-- What the stream is like between two scatters of a superstep, from super partition `superp`
on. -/
structure EdgesReady (cfg : StreamConfig) (contents : Nat → List Byte) (superp : Nat)
    (st : DiskStream) : Prop where
  files : ∀ i, (st.fds i).content = contents i
  diskBytes : ∀ i, st.diskBytes i = (contents i).length
  bitset : st.randomBitset = none
  randomPos : st.randomPos = none
  request : st.request = none
  ahead : st.cache = none → ∀ i < cfg.superpCnt, superp ≤ i → st.diskPos i = 0

/-- The same between supersteps, where only positions that were never moved are at the start. -/
structure EdgeInv (cfg : StreamConfig) (contents : Nat → List Byte) (d : EdgeDriver) : Prop where
  superp_lt : d.superp < cfg.superpCnt
  ready : EdgesReady cfg contents (if d.superp = 0 then cfg.superpCnt else d.superp) d.stream
  appending : d.stream.requestSuperp = none → d.stream.cache = none →
    ∀ i < cfg.superpCnt, d.stream.diskPos i = 0

/-- Rewinding the files of a stream that was not appended to writes nothing. -/
theorem foldl_rewindOne (cfg : StreamConfig) (l : List Nat) (st : DiskStream)
    (untouched : st.requestSuperp = none → ∀ i ∈ l, st.diskPos i = 0) :
    let st' := l.foldl (rewindOne cfg) st
    (∀ i, (st'.fds i).content = (st.fds i).content) ∧ st'.diskBytes = st.diskBytes ∧
      st'.randomBitset = st.randomBitset ∧ st'.randomPos = st.randomPos ∧
      st'.request = st.request ∧ st'.cache = st.cache ∧
      (∀ i, i ∈ l ∨ st.diskPos i = 0 → st'.diskPos i = 0) := by
  induction l generalizing st with
  | nil =>
    refine ⟨fun _ => rfl, rfl, rfl, rfl, rfl, rfl, ?_⟩
    rintro i (impossible | zero)
    · contradiction
    · exact zero
  | cons s l ih =>
    have noFlush : ¬(st.requestSuperp = none ∧ 0 < st.diskPos s ∧ 0 < st.diskBytes s) := by
      rintro ⟨appending, moved, -⟩
      have := untouched appending s List.mem_cons_self
      omega
    have one : rewindOne cfg st s = { st with
        fds := Function.update st.fds s (fseek (st.fds s) 0)
        diskPos := Function.update st.diskPos s 0 } := by
      unfold rewindOne
      rw [if_neg noFlush]
    rw [List.foldl_cons, one]
    obtain ⟨contents, diskBytes, bitset, randomPos, request, cache, zero⟩ := ih { st with
        fds := Function.update st.fds s (fseek (st.fds s) 0)
        diskPos := Function.update st.diskPos s 0 } (by
      intro appending i member
      change Function.update st.diskPos s 0 i = 0
      by_cases same : i = s
      · rw [same, Function.update_self]
      · rw [Function.update_of_ne same]
        exact untouched appending i (List.mem_cons_of_mem _ member))
    refine ⟨fun i => (contents i).trans ?_, diskBytes, bitset, randomPos, request, cache, ?_⟩
    · change (Function.update st.fds s (fseek (st.fds s) 0) i).content = _
      by_cases same : i = s
      · rw [same, Function.update_self, fseek_content]
      · rw [Function.update_of_ne same]
    · intro i place
      apply zero
      change i ∈ l ∨ Function.update st.diskPos s 0 i = 0
      by_cases same : i = s
      · rw [same, Function.update_self]
        exact Or.inr rfl
      · rw [Function.update_of_ne same]
        rcases place with member | old
        · rcases List.mem_cons.mp member with isS | later
          · exact absurd isS same
          · exact Or.inl later
        · exact Or.inr old

/-- The stream when `set_bitset` is called. -/
theorem edgesReady_beginSuperstep {d : EdgeDriver} (inv : EdgeInv cfg contents d) :
    ∃ st, beginSuperstep cfg d = some st ∧ EdgesReady cfg contents d.superp st ∧
      (st.cache = none ↔ d.stream.cache = none) ∧
      (st.requestSuperp = none → st.cache = none →
        ∀ i < cfg.superpCnt, st.diskPos i = 0) := by
  obtain ⟨superp_lt, ready, appending⟩ := inv
  unfold beginSuperstep
  by_cases begins : d.superp = 0
  · rw [if_pos begins] at ready ⊢
    unfold rewind
    simp only
    split
    · rename_i cached
      obtain ⟨sameContents, diskBytes, bitset, randomPos, request, cache, zero⟩ :=
        foldl_rewindOne cfg (List.range cfg.superpCnt)
          { d.stream with eofFlag := false, request := none }
          (fun none_ i member => appending none_ cached i (List.mem_range.mp member))
      have uncached := cache.trans cached
      refine ⟨_, rfl, ⟨fun i => (sameContents i).trans (ready.files i), ?_,
        bitset.trans ready.bitset, randomPos.trans ready.randomPos, request, ?_⟩,
        ⟨fun _ => cached, fun _ => uncached⟩, ?_⟩
      · intro i
        exact (congrFun diskBytes i).trans (ready.diskBytes i)
      · intro _ i below _
        exact zero i (Or.inl (List.mem_range.mpr below))
      · intro _ _ i below
        exact zero i (Or.inl (List.mem_range.mpr below))
    · rename_i buffer cached
      have notCached : ¬ d.stream.cache = none := by
        rw [show d.stream.cache = some buffer from cached]
        simp
      rw [if_neg (by rw [ready.request]; simp)]
      split
      · exact ⟨_, rfl, ⟨ready.files, ready.diskBytes, ready.bitset, ready.randomPos,
          ready.request, fun impossible => by contradiction⟩,
          ⟨fun impossible => by contradiction, fun none_ => absurd none_ notCached⟩,
          fun impossible => by contradiction⟩
      · exact ⟨_, rfl, ⟨ready.files, ready.diskBytes, ready.bitset, ready.randomPos,
          ready.request, fun none_ => absurd none_ notCached⟩, Iff.rfl,
          fun _ none_ => absurd none_ notCached⟩
  · rw [if_neg begins] at ready ⊢
    exact ⟨_, rfl, ready, Iff.rfl, appending⟩

/-- `set_bitset` changes only what `clear_bitset` resets. -/
theorem handBitset_frame {st handed : DiskStream} {bitset : Option (List Byte)}
    (isHanded : handBitset st bitset = some handed) :
    handed.fds = st.fds ∧ handed.diskPos = st.diskPos ∧ handed.diskBytes = st.diskBytes ∧
      handed.request = st.request ∧ handed.cache = st.cache ∧
      handed.requestSuperp = st.requestSuperp := by
  cases bitset with
  | none =>
    obtain rfl := Option.some.inj isHanded
    exact ⟨rfl, rfl, rfl, rfl, rfl, rfl⟩
  | some test =>
    change setBitset st test = some handed at isHanded
    unfold setBitset at isHanded
    split at isHanded
    · contradiction
    · split at isHanded
      · contradiction
      · obtain rfl := Option.some.inj isHanded
        exact ⟨rfl, rfl, rfl, rfl, rfl, rfl⟩

/-- A scatter keeps the invariant, if it gets through `clear_bitset`. -/
theorem EdgeInv.scatter {d d' : EdgeDriver} (inv : EdgeInv cfg contents d)
    {bitset : Option (List Byte)} {fuel : Nat} {buffers : List (List Byte)} {st : DiskStream}
    (scattered : scatterEdges cfg d bitset fuel = some (buffers, st))
    (next : nextSuperp cfg d st = some d') : EdgeInv cfg contents d' := by
  obtain ⟨begun, isBegun, ready, cacheIff, appending⟩ := edgesReady_beginSuperstep inv
  unfold scatterEdges at scattered
  rw [isBegun] at scattered
  simp only at scattered
  split at scattered
  · contradiction
  rename_i handed isHanded
  obtain ⟨fds, diskPos, diskBytes, request, cache, requestSuperp⟩ :=
    handBitset_frame isHanded
  have underway : Underway d.superp handed := by
    refine ⟨fun pending => ?_, fun _ => request.trans ready.request⟩
    rw [request, ready.request] at pending
    contradiction
  obtain ⟨frame, noRequest⟩ := frame_doStream underway scattered
  unfold nextSuperp clearBitset at next
  split at next
  · contradiction
  rename_i cleared isCleared
  split at isCleared
  · contradiction
  rename_i used
  obtain rfl := Option.some.inj isCleared
  obtain rfl := Option.some.inj next
  have kept : st.cache = none → begun.cache = none := fun none_ =>
    cache.symm.trans (frame.uncached none_)
  have positive : 0 < cfg.superpCnt := lt_of_le_of_lt (Nat.zero_le _) inv.superp_lt
  refine ⟨Nat.mod_lt _ positive, ⟨?_, ?_, rfl, ?_, noRequest, ?_⟩, ?_⟩
  · intro i
    change (st.fds i).content = contents i
    rw [frame.contents, fds]
    exact ready.files i
  · intro i
    change st.diskBytes i = (contents i).length
    rw [frame.diskBytes, diskBytes]
    exact ready.diskBytes i
  · exact Option.not_isSome_iff_eq_none.mp used
  · intro none_ i below above
    change st.diskPos i = 0
    -- `i` comes after the super partition that was scattered
    have later : d.superp < i := by
      simp only at above
      rcases Nat.lt_or_ge (d.superp + 1) cfg.superpCnt with inner | last
      · rw [Nat.mod_eq_of_lt inner, if_neg (by omega)] at above
        omega
      · have isLast : d.superp + 1 = cfg.superpCnt := by
          have := inv.superp_lt
          omega
        rw [isLast, Nat.mod_self, if_pos rfl] at above
        omega
    rw [frame.others i (by omega), diskPos]
    exact ready.ahead (kept none_) i below (by omega)
  · intro none_ uncached i below
    obtain ⟨before, same⟩ := frame.appending none_
    change st.diskPos i = 0
    rw [same, diskPos]
    exact appending (requestSuperp.symm.trans before) (kept uncached) i below

/-- Every run keeps the invariant. -/
theorem edgeInv_of_run {d : EdgeDriver} (positive : 0 < cfg.superpCnt)
    (run : EdgeRun cfg contents d) : EdgeInv cfg contents d := by
  induction run with
  | start =>
    refine ⟨positive, ⟨fun _ => rfl, fun _ => rfl, rfl, rfl, rfl, ?_⟩, fun _ _ _ _ => rfl⟩
    intro _ i _ _
    rfl
  | scatter run forced scattered next ih => exact ih.scatter scattered next

/-- The first set bit is the one that is always set. -/
theorem findFirst_of_forced {test : List Byte} (forced : bitAt test 0 = true) :
    findFirst test = some 0 := by
  have notEmpty : 0 < 8 * test.length := by
    by_contra empty
    rw [bitAt_of_length_le (Nat.le_of_not_lt empty)] at forced
    contradiction
  rw [findFirst_eq]
  exact nextBit_self forced notEmpty

/-- A filtered scatter is `do_stream` from the start of the bitset. -/
theorem scatterEdges_eq {d : EdgeDriver} {begun : DiskStream} {test : List Byte}
    (isBegun : beginSuperstep cfg d = some begun) (free : begun.randomPos = none)
    (forced : bitAt test 0 = true) (fuel : Nat) :
    scatterEdges cfg d (some test) fuel = doStream cfg d.superp fuel
      { begun with randomBitset := some test, randomPos := some 0 } := by
  unfold scatterEdges handBitset setBitset
  rw [isBegun]
  simp only [free, findFirst_of_forced forced, Option.isSome_none, Bool.false_eq_true, if_false]

/-- A filtered scatter without a kept buffer, when every selected page lies in the file. -/
theorem usesUpBitset_of_fit {d : EdgeDriver} (inv : EdgeInv cfg contents d) {test : List Byte}
    (forced : bitAt test 0 = true) (uncached : d.stream.cache = none)
    (fit : PagesFit cfg test (contents d.superp)) : UsesUpBitset cfg contents d test := by
  obtain ⟨begun, isBegun, ready, cacheIff, -⟩ := edgesReady_beginSuperstep inv
  have none_ := cacheIff.mpr uncached
  have nonempty : 0 < (contents d.superp).length := by
    simpa using fit.inside 0 forced
  have zero := ready.ahead none_ d.superp inv.superp_lt (Nat.le_refl _)
  have left : BitsetLeft cfg test (contents d.superp) d.superp
      { begun with randomBitset := some test, randomPos := some 0 }
      (selectedFrom cfg test (contents d.superp) 0) (8 * test.length - 0) := by
    refine ⟨0, ⟨rfl, ?_, ready.files _, ready.diskBytes _, ?_⟩, rfl, rfl⟩
    · rw [← findFirst_eq, findFirst_of_forced forced]
    · change begun.diskPos d.superp = _ ↔ some 0 = none
      rw [zero]
      constructor
      · intro isEmpty
        omega
      · intro impossible
        contradiction
  obtain ⟨size, out, after, streamed, ⟨start, scan, -, finished⟩, -, flat⟩ :=
    doStream_of_source (source_bitset fit) left none_ ready.request
  have used : after.randomPos = none := by
    by_contra more
    have isSome : after.randomPos.isSome := Option.isSome_iff_ne_none.mpr more
    have below := lt_of_randomPos scan isSome
    rw [if_pos isSome] at finished
    omega
  refine ⟨size, out, after, ?_, used, ?_, by rw [flat, selectedFrom_zero]⟩
  · intro fuel enough
    rw [scatterEdges_eq isBegun ready.randomPos forced]
    exact streamed fuel enough
  · unfold nextSuperp clearBitset
    rw [used]
    rfl

/-- With a kept buffer `do_stream` never looks at the bitset. -/
theorem randomPos_doStream_of_cached (st : DiskStream) (s fuel : Nat) {st' : DiskStream}
    {buffers : List (List Byte)} (cached : st.cache.isSome)
    (done : doStream cfg s fuel st = some (buffers, st')) :
    st'.randomPos = st.randomPos := by
  induction fuel generalizing st buffers with
  | zero => contradiction
  | succ fuel ih =>
    obtain ⟨buffer, isBuffer⟩ := Option.isSome_iff_exists.mp cached
    unfold doStream at done
    split at done
    · obtain ⟨-, rfl⟩ := Prod.mk.inj (Option.some.inj done)
      rfl
    · obtain ⟨⟨result, st1⟩, isRead, more⟩ := Option.bind_eq_some_iff.mp done
      obtain ⟨⟨results, st2⟩, rest, same⟩ := Option.map_eq_some_iff.mp more
      obtain ⟨-, rfl⟩ := Prod.mk.inj same
      unfold DiskStream.read at isRead
      rw [isBuffer] at isRead
      simp only at isRead
      split at isRead
      · contradiction
      · obtain ⟨-, rfl⟩ := Prod.mk.inj (Option.some.inj isRead)
        exact ih { st with eofFlag := true, cache := some buffer } rfl rest

/-- With a kept buffer, or without edges, the bitset is not used up. -/
theorem not_usesUpBitset {d : EdgeDriver} (inv : EdgeInv cfg contents d) {test : List Byte}
    (forced : bitAt test 0 = true)
    (unfit : d.stream.cache ≠ none ∨ contents d.superp = []) :
    ¬ UsesUpBitset cfg contents d test := by
  rintro ⟨n, out, after, streamed, used, -, -⟩
  obtain ⟨begun, isBegun, ready, cacheIff, -⟩ := edgesReady_beginSuperstep inv
  have done := streamed (n + 1) (Nat.lt_succ_self n)
  rw [scatterEdges_eq isBegun ready.randomPos forced] at done
  by_cases cached : begun.cache = none
  · have uncached := cacheIff.mp cached
    have empty : contents d.superp = [] := unfit.resolve_left (not_not.mpr uncached)
    have zero := ready.ahead cached d.superp inv.superp_lt (Nat.le_refl _)
    have atEnd : streamEof { begun with randomBitset := some test, randomPos := some 0 }
        d.superp = true := by
      unfold streamEof eof
      simp only [cached, ready.request, zero, ready.diskBytes, empty]
      rfl
    unfold doStream at done
    rw [if_pos atEnd] at done
    obtain ⟨-, rfl⟩ := Prod.mk.inj (Option.some.inj done)
    contradiction
  · have kept := randomPos_doStream_of_cached
      { begun with randomBitset := some test, randomPos := some 0 } _ _
      (Option.isSome_iff_ne_none.mpr cached) done
    rw [used] at kept
    contradiction

/-- Exactly then. -/
theorem usesUpBitset_iff_of_inv {d : EdgeDriver} (inv : EdgeInv cfg contents d) {test : List Byte}
    (forced : bitAt test 0 = true) (page : 0 < cfg.subBufSize) (buffer : 0 < cfg.bufbytes)
    (whole : cfg.bufbytes % cfg.subBufSize = 0)
    (others : ∀ p, 0 < p → bitAt test p = true → p * cfg.subBufSize < (contents d.superp).length) :
    UsesUpBitset cfg contents d test ↔ d.stream.cache = none ∧ contents d.superp ≠ [] := by
  constructor
  · intro uses
    refine ⟨?_, fun empty => not_usesUpBitset inv forced (Or.inr empty) uses⟩
    by_contra cached
    exact not_usesUpBitset inv forced (Or.inl cached) uses
  · rintro ⟨uncached, nonempty⟩
    refine usesUpBitset_of_fit inv forced uncached ⟨page, buffer, whole, fun p set => ?_⟩
    rcases Nat.eq_zero_or_pos p with rfl | later
    · rw [Nat.zero_mul]
      exact List.length_pos_of_ne_nil nonempty
    · exact others p later set

end Driver

end MBFGraph
