import MBFGraph.Core.Ingest
import MBFGraph.Core.Proofs.StreamRoundTrip

/-!
# When an ingested batch is kept

A stream that was read to its end is on disk, or it keeps its only buffer. What a batch does to it
is followed through `ingest`; then it is rewound and read like any other stream.
-/

namespace MBFGraph

open ByteBits Overwrite Stdio

namespace DiskStream

variable {cfg : StreamConfig}

section ToTheEnd

/-- A stream with one super partition between two reads. -/
inductive InRead (cfg : StreamConfig) (content : List Byte) : DiskStream → Prop
  | onDisk {st : DiskStream} {rest : List Byte} {n : Nat} (left : Left cfg 0 content st rest n)
      (uncached : st.cache = none)
      (mode : st.requestSuperp = none ∧ st.diskPos 0 = 0 ∧ st.request = none ∨
        st.requestSuperp = some 0)
      (ahead : st.request.isSome → 0 < st.diskPos 0) : InRead cfg content st
  | inMemory {st : DiskStream} {buffer : MemoryBuffer Byte} (cached : st.cache = some buffer)
      (whole : content = buffer.buffer) (disk : buffer.dirty = true → (st.view 0).Holds [])
      (nonempty : buffer.buffer ≠ []) (named : st.requestSuperp = some 0)
      (request : st.request = none) (unfiltered : st.randomBitset = none) : InRead cfg content st

theorem inRead_of_atStart (single : cfg.superpCnt = 1) {content : List Byte} {st : DiskStream}
    (start : AtStart cfg (fun _ => content) st)
    (records : content.length % cfg.streamUnitBytes = 0) : InRead cfg content st := by
  cases start with
  | onDisk ready uncached mode request unfiltered =>
    refine .onDisk (left_of_ready (ready 0 (by omega)) unfiltered records) uncached
      (Or.inl ⟨mode, (ready 0 (by omega)).pos, request⟩) ?_
    rw [request]
    intro impossible
    contradiction
  | inMemory cached _ whole disk nonempty named notYet request unfiltered =>
    exact .inMemory cached whole (fun dirty => disk dirty 0 (by omega)) nonempty named request
      unfiltered

/-- The second half of `read`: the result is kept only if it is all there is. -/
theorem inRead_readAhead (sizes : Sizes cfg) {content rest : List Byte} {n currentPos : Nat}
    {st st' : DiskStream} {result buffer : MemoryBuffer Byte} (left : Left cfg 0 content st rest n)
    (uncached : st.cache = none) (named : st.requestSuperp = some 0)
    (moved : 0 < st.diskPos 0)
    (all : currentPos = 0 → content = result.buffer ++ rest ∧ result.dirty = false)
    (done : readAhead cfg 0 currentPos result st = some (buffer, st')) :
    InRead cfg content st' := by
  unfold readAhead eof at done
  split at done
  · rename_i more
    obtain ⟨⟨ahead, st1⟩, requested, same⟩ := Option.map_eq_some_iff.mp done
    obtain ⟨-, rfl⟩ := Prod.mk.inj same
    have notAtEnd : 0 < n := by
      apply Nat.pos_of_ne_zero
      intro finished
      exact absurd (((source_left sizes 0 content).atEnd left).mpr finished)
        (of_decide_eq_false more)
    obtain ⟨units, rest', n', st2, requested', -, -, less, left'⟩ :=
      (source_left sizes 0 content).request left notAtEnd
    obtain ⟨-, rfl⟩ := Prod.mk.inj (Option.some.inj (requested.symm.trans requested'))
    have frame := requestFrame_readRequest requested
    refine .onDisk ((source_left sizes 0 content).congr left' st1.requestSuperp _ st1.cache
      st1.eofFlag) (frame.cache.trans uncached) (Or.inr (frame.requestSuperp.trans named)) ?_
    intro _
    have count := left.count
    have count' := left'.count
    change 0 < st1.diskPos 0
    omega
  · rename_i atEnd
    have finished : n = 0 := ((source_left sizes 0 content).atEnd left).mp (by simpa using atEnd)
    split at done
    · rename_i keeps
      obtain ⟨-, rfl⟩ := Prod.mk.inj (Option.some.inj done)
      obtain ⟨whole, clean⟩ := all keeps.2.1
      subst finished
      rw [(source_left sizes 0 content).done left, List.append_nil] at whole
      refine .inMemory rfl whole (fun impossible => ?_) (fun empty => ?_) named rfl left.unfiltered
      · rw [clean] at impossible
        contradiction
      · have inside := left.inside
        rw [whole, empty, List.length_nil] at inside
        omega
    · obtain ⟨-, rfl⟩ := Prod.mk.inj (Option.some.inj done)
      exact .onDisk ((source_left sizes 0 content).congr left st.requestSuperp none st.cache
        st.eofFlag) uncached (Or.inr named) (fun impossible => by contradiction)

/-- `read` in the middle of the stream. -/
theorem inRead_read (sizes : Sizes cfg) {content : List Byte} {st st' : DiskStream}
    {buffer : MemoryBuffer Byte} (inRead : InRead cfg content st) (more : st.streamEof 0 = false)
    (done : DiskStream.read cfg st 0 = some (buffer, st')) : InRead cfg content st' := by
  cases inRead with
  | onDisk left uncached mode ahead =>
    rw [read_of_uncached uncached] at done
    obtain ⟨⟨result, st1⟩, first, second⟩ := Option.bind_eq_some_iff.mp done
    cases request : st.request with
    | none =>
      rename_i rest n
      rw [awaited_of_noRequest request] at first
      have notAtEnd : 0 < n := by
        apply Nat.pos_of_ne_zero
        intro finished
        have atEnd := ((source_left sizes 0 content).atEnd left).mpr finished
        unfold streamEof eof at more
        rw [uncached, request, atEnd] at more
        simp at more
      obtain ⟨units, rest', n', st2, requested, -, same, less, left'⟩ :=
        (source_left sizes 0 content).request
          ((source_left sizes 0 content).congr left (some 0) st.request st.cache st.eofFlag)
          notAtEnd
      obtain ⟨rfl, rfl⟩ := Prod.mk.inj (Option.some.inj (first.symm.trans requested))
      have frame := requestFrame_readRequest requested
      have count := left.count
      have count' := left'.count
      refine inRead_readAhead sizes left' (frame.cache.trans uncached) frame.requestSuperp
        (by omega) ?_ second
      intro atStart
      have rest_eq := left.rest_eq
      rw [show st.diskPos 0 = 0 from atStart, List.drop_zero] at rest_eq
      exact ⟨by rw [← rest_eq, same]; rfl, rfl⟩
    | some pending =>
      have named : st.requestSuperp = some 0 := by
        rcases mode with ⟨-, -, noRequest⟩ | named
        · rw [request] at noRequest
          contradiction
        · exact named
      have moved := ahead (by rw [request]; rfl)
      rw [awaited_of_request request named] at first
      obtain ⟨rfl, rfl⟩ := Prod.mk.inj (Option.some.inj first)
      -- what was read ahead is not all there is
      exact inRead_readAhead sizes left uncached named moved (fun atStart => by omega) second
  | inMemory cached whole disk nonempty named request unfiltered =>
    rename_i kept
    unfold DiskStream.read at done
    split at done
    · rw [if_neg (by rw [named]; exact Bool.false_ne_true)] at done
      obtain ⟨-, rfl⟩ := Prod.mk.inj (Option.some.inj done)
      exact .inMemory cached whole disk nonempty named request unfiltered
    · rename_i isNone
      rw [cached] at isNone
      contradiction

theorem inRead_doStream (sizes : Sizes cfg) {content : List Byte} {fuel : Nat}
    {st after : DiskStream} {outs : List (List Byte)} (inRead : InRead cfg content st)
    (done : doStream cfg 0 fuel st = some (outs, after)) :
    InRead cfg content after ∧ after.streamEof 0 = true := by
  induction fuel generalizing st outs with
  | zero => contradiction
  | succ fuel ih =>
    unfold doStream at done
    split at done
    · rename_i atEnd
      obtain ⟨-, rfl⟩ := Prod.mk.inj (Option.some.inj done)
      exact ⟨inRead, atEnd⟩
    · rename_i more
      obtain ⟨⟨buffer, st1⟩, isRead, rest⟩ := Option.bind_eq_some_iff.mp done
      obtain ⟨⟨results, st2⟩, later, same⟩ := Option.map_eq_some_iff.mp rest
      obtain ⟨-, rfl⟩ := Prod.mk.inj same
      exact ih (inRead_read sizes inRead (Bool.eq_false_of_not_eq_true more) isRead) later

/-- A stream with one super partition that was read to its end. -/
inductive AtEnd (cfg : StreamConfig) (content : List Byte) : DiskStream → Prop
  | onDisk {st : DiskStream} (left : Left cfg 0 content st [] 0) (uncached : st.cache = none)
      (request : st.request = none) (mode : st.requestSuperp = none → content = []) :
      AtEnd cfg content st
  | inMemory {st : DiskStream} {buffer : MemoryBuffer Byte} (cached : st.cache = some buffer)
      (whole : content = buffer.buffer) (disk : buffer.dirty = true → (st.view 0).Holds [])
      (nonempty : buffer.buffer ≠ []) (named : st.requestSuperp = some 0)
      (request : st.request = none) (unfiltered : st.randomBitset = none) : AtEnd cfg content st

theorem atEnd_doStream (sizes : Sizes cfg) {content : List Byte} {fuel : Nat}
    {st after : DiskStream} {outs : List (List Byte)} (inRead : InRead cfg content st)
    (done : doStream cfg 0 fuel st = some (outs, after)) : AtEnd cfg content after := by
  obtain ⟨inRead', atEnd⟩ := inRead_doStream sizes inRead done
  cases inRead' with
  | onDisk left uncached mode ahead =>
    rename_i rest n
    unfold streamEof at atEnd
    rw [uncached] at atEnd
    have request : after.request = none := by
      rcases mode with ⟨-, -, noRequest⟩ | named
      · exact noRequest
      · cases pending : after.request with
        | none => rfl
        | some buffer =>
          rw [pending, named] at atEnd
          simp at atEnd
    rw [request] at atEnd
    have pos : after.diskPos 0 = after.diskBytes 0 := by
      simpa [eof] using atEnd
    have finished : n = 0 := ((source_left sizes 0 content).atEnd left).mp pos
    subst finished
    have nothing := (source_left sizes 0 content).done left
    subst nothing
    refine .onDisk left uncached request fun notNamed => ?_
    rcases mode with ⟨-, atStart, -⟩ | named
    · exact List.eq_nil_of_length_eq_zero (left.bytes.symm.trans (pos.symm.trans atStart))
    · rw [notNamed] at named
      contradiction
  | inMemory cached whole disk nonempty named request unfiltered =>
    exact .inMemory cached whole disk nonempty named request unfiltered

end ToTheEnd

section Rewind

/-- A stream that was read to its end, and rewound. -/
theorem atStart_rewind_atEnd (single : cfg.superpCnt = 1) {content : List Byte} {st : DiskStream}
    (atEnd : AtEnd cfg content st) :
    ∃ st', rewind cfg st = some st' ∧ AtStart cfg (fun _ => content) st' := by
  cases atEnd with
  | onDisk left uncached request mode =>
    have noFlush : ¬(st.requestSuperp = none ∧ 0 < st.diskPos 0 ∧ 0 < st.diskBytes 0) := by
      rintro ⟨notNamed, -, more⟩
      have bytes := left.bytes
      rw [mode notNamed, List.length_nil] at bytes
      omega
    refine ⟨_, rewind_of_uncached uncached, ?_⟩
    rw [single, List.range_one, List.foldl_cons, List.foldl_nil]
    unfold rewindOne
    simp only [if_neg noFlush]
    refine .onDisk (fun s below => ?_) uncached rfl rfl left.unfiltered
    obtain rfl : s = 0 := by omega
    refine ⟨?_, ?_, left.readable.length_page, ?_, left.bytes⟩
    · simp only [view, Function.update_self, fseek_content]
      exact left.inFile
    · simp only [view, Function.update_self, fseek_pos]
    · simp only [view, Function.update_self]
  | inMemory cached whole disk nonempty named request unfiltered =>
    rename_i buffer
    refine ⟨{ st with eofFlag := false }, ?_, .inMemory cached single whole (fun dirty s below => ?_)
      nonempty named rfl request unfiltered⟩
    · unfold rewind
      simp only
      split
      · rename_i isNone
        rw [cached] at isNone
        contradiction
      · rw [if_neg (by rw [request]; exact Bool.false_ne_true), if_neg (by rw [named]; simp)]
    · obtain rfl : s = 0 := by omega
      exact disk dirty

end Rewind

section Batch

/-- At the end of a stream the last page is in memory, as if the stream had been written. -/
theorem written_of_left {content : List Byte} {st : DiskStream}
    (left : Left cfg 0 content st [] 0) :
    Written (fseek (st.fds 0) (wholePages content.length)) (st.diskPages 0) content := by
  have pos : st.diskPos 0 = content.length := by
    have count := left.count
    have inside := left.inside
    omega
  have le := wholePages_le content.length
  have split := wholePages_add_mod content.length
  obtain ⟨behind, inFile⟩ := left.inFile
  refine ⟨?_, rfl, left.readable.length_page, ?_⟩
  · rw [fseek_content, ← inFile, List.take_append_of_le_length le]
  · by_cases begun : 0 < content.length % diskPageSize
    · have small : content.length % diskPageSize < diskPageSize := Nat.mod_lt _ (by decide)
      rw [← pos] at begun
      obtain ⟨stale, page⟩ := left.readable.begun begun
      have last : ((st.fds 0).content.drop (wholePages content.length)).take
          (content.length % diskPageSize) = content.drop (wholePages content.length) := by
        rw [← inFile, List.drop_append_of_le_length le]
        exact List.take_left' (by rw [List.length_drop]; omega)
      have inFileLength := congrArg List.length inFile
      rw [List.length_append] at inFileLength
      rw [pos] at page
      rw [← page, List.take_append_of_le_length (by
        rw [List.length_take, List.length_drop]
        omega), List.take_take, Nat.min_eq_left (Nat.le_of_lt small), last]
    · have whole : wholePages content.length = content.length := by omega
      rw [Nat.eq_zero_of_not_pos begun, whole, List.take_zero, List.drop_length]

/-- The last part of `ingest` appends the batch. -/
theorem appending_ingestAtEnd (transfers : Transfers cfg) (single : cfg.superpCnt = 1)
    {content : List Byte} (st : DiskStream) (buffer : MemoryBuffer Byte)
    (written : Written (fseek (st.fds 0) (wholePages content.length)) (st.diskPages 0) content)
    (bytes : st.diskBytes 0 = content.length) (uncached : st.cache = none)
    (mode : st.requestSuperp = none) (request : st.request = none)
    (unfiltered : st.randomBitset = none) (whole : appended cfg [buffer] 0 = buffer.buffer) :
    ∃ st', ingestAtEnd cfg st buffer = some st' ∧
      Appending cfg (fun _ => content ++ buffer.buffer) st' := by
  unfold ingestAtEnd
  rw [if_neg (by rw [request]; exact Bool.false_ne_true)]
  have moved : Appending cfg (fun _ => content) { st with
      diskPos := fun s => if s < cfg.superpCnt then st.diskBytes s else st.diskPos s
      fds := fun s => if s < cfg.superpCnt then
          fseek (st.fds s) (st.diskBytes s / diskPageSize * diskPageSize)
        else st.fds s } := by
    refine .onDisk (fun s below => ?_) uncached mode unfiltered
      (fun _ pending => by rw [request] at pending; contradiction)
    obtain rfl : s = 0 := by omega
    refine ⟨?_, ?_, bytes⟩
    · simp only [view, if_pos below, bytes]
      exact written
    · simp only [view, if_pos below, bytes]
  obtain ⟨st', appends, appending⟩ :=
    appending_append transfers (by omega) moved (fun _ => whole)
  refine ⟨st', appends, appending.congr _ fun s below => ?_⟩
  obtain rfl : s = 0 := by omega
  rw [whole]

/-- A batch behind a stream that is on disk, or empty. -/
theorem appending_ingest_onDisk (transfers : Transfers cfg) (single : cfg.superpCnt = 1)
    {content : List Byte} {st : DiskStream} {buffer : MemoryBuffer Byte}
    (left : Left cfg 0 content st [] 0) (uncached : st.cache = none) (request : st.request = none)
    (whole : appended cfg [buffer] 0 = buffer.buffer) :
    ∃ st', ingest cfg st buffer = some st' ∧
      Appending cfg (fun _ => content ++ buffer.buffer) st' := by
  have written := written_of_left left
  have isEmpty_eq : isEmpty cfg { st with requestSuperp := none } =
      decide (content.length = 0) := by
    unfold isEmpty
    rw [diskEmpty_of_single single]
    simp only [uncached, request, left.bytes]
    rfl
  unfold ingest
  simp only [isEmpty_eq]
  by_cases empty : content.length = 0
  · obtain rfl := List.eq_nil_of_length_eq_zero empty
    rw [if_pos (show decide (([] : List Byte).length = 0) = true from rfl)]
    have filePos : (st.fds 0).pos = 0 := by
      have pos : st.diskPos 0 = 0 := Nat.le_zero.mp left.inside
      have atStart := left.readable.filePos
      rw [pos, wholePages_next] at atStart
      simpa using atStart
    have same : ∀ fd : File Byte, fd.pos = 0 →
        fseek fd (wholePages ([] : List Byte).length) = fd := by
      intro fd atStart
      rw [List.length_nil, wholePages_of_lt (by decide), ← atStart]
      rfl
    rw [same _ filePos] at written
    have nothing : Appending cfg (fun _ => []) { st with requestSuperp := none } := by
      refine .onDisk (fun s below => ?_) uncached rfl left.unfiltered
        (fun _ pending => by rw [request] at pending; contradiction)
      obtain rfl : s = 0 := by omega
      exact ⟨written, Nat.le_zero.mp left.inside, left.bytes⟩
    obtain ⟨st', appends, appending⟩ :=
      appending_append transfers (by omega) nothing (fun _ => whole)
    refine ⟨st', appends, appending.congr _ fun s below => ?_⟩
    obtain rfl : s = 0 := by omega
    rw [whole]
  · rw [if_neg (by simpa using empty)]
    split
    · rename_i kept isKept
      rw [uncached] at isKept
      contradiction
    · exact appending_ingestAtEnd transfers single _ buffer written left.bytes uncached rfl request
        left.unfiltered whole

/-- With a flat index the whole buffer is the substream of processor 0. -/
theorem appended_flat (processors : 0 < cfg.processors) (buffer : MemoryBuffer Byte) :
    appended cfg [buffer.resetIndex.setFlatIndex] 0 = buffer.buffer := by
  obtain ⟨n, isSucc⟩ : ∃ n, cfg.processors = n + 1 := ⟨cfg.processors - 1, by omega⟩
  have first : buffer.resetIndex.setFlatIndex.getSubstream 0 0 = buffer.buffer := by
    simp [MemoryBuffer.getSubstream, MemoryBuffer.substreamSize, MemoryBuffer.setFlatIndex]
  have others : ∀ p, buffer.resetIndex.setFlatIndex.getSubstream (p + 1) 0 = [] := by
    intro p
    simp [MemoryBuffer.getSubstream, MemoryBuffer.substreamSize, MemoryBuffer.setFlatIndex,
      MemoryBuffer.resetIndex]
  unfold appended
  rw [List.flatMap_singleton, isSucc, List.range_succ_eq_map, List.flatMap_cons, List.flatMap_map,
    first]
  simp [others]

/-- What is left of a batch when records were moved behind the kept ones. -/
def leftOver (cfg : StreamConfig) (kept buffer : MemoryBuffer Byte) : List Byte :=
  buffer.buffer.take (buffer.buffer.length - ingestSpace cfg kept buffer)

theorem ingest_of_kept {st : DiskStream} {kept buffer : MemoryBuffer Byte}
    (cached : st.cache = some kept) (whole : buffer.buffer.length % cfg.streamUnitBytes = 0) :
    ingest cfg st buffer =
      if leftOver cfg kept buffer = [] then
        some { st with requestSuperp := none, cache := some kept.resetIndex }
      else if kept.dirty then
        ingestAtEnd cfg { writeInternal cfg kept.resetIndex.setFlatIndex
            { st with requestSuperp := none } with request := none, cache := none }
          { buffer with buffer := leftOver cfg kept buffer }.resetIndex.setFlatIndex
      else none := by
  have notEmpty : isEmpty cfg { st with requestSuperp := none } = false := by
    unfold isEmpty
    simp only [cached]
    rfl
  unfold ingest
  simp only [notEmpty]
  rw [if_neg Bool.false_ne_true]
  split
  · rename_i kept' isKept
    obtain rfl : kept = kept' := Option.some.inj (cached.symm.trans isKept)
    rw [if_neg (fun all => all.2 whole)]
    rfl
  · rename_i isNone
    rw [cached] at isNone
    contradiction

/-- A batch behind a buffer that is kept in memory: what is left over is appended. -/
theorem atStart_ingest_inMemory (transfers : Transfers cfg) (single : cfg.superpCnt = 1)
    (processors : 0 < cfg.processors) {content : List Byte} {st : DiskStream}
    {kept buffer : MemoryBuffer Byte} (cached : st.cache = some kept)
    (content_eq : content = kept.buffer) (disk : kept.dirty = true → (st.view 0).Holds [])
    (nonempty : kept.buffer ≠ []) (request : st.request = none)
    (unfiltered : st.randomBitset = none)
    (whole : buffer.buffer.length % cfg.streamUnitBytes = 0)
    (writable : leftOver cfg kept buffer = [] ∨ kept.dirty = true) :
    ∃ st' st'', ingest cfg st buffer = some st' ∧ rewind cfg st' = some st'' ∧
      AtStart cfg (fun _ => content ++ leftOver cfg kept buffer) st'' := by
  rw [ingest_of_kept cached whole]
  by_cases nothing : leftOver cfg kept buffer = []
  · rw [if_pos nothing, nothing, List.append_nil]
    refine ⟨_, _, rfl, rewind_of_kept rfl request rfl, .inMemory rfl single content_eq
      (fun dirty s below => ?_) nonempty rfl rfl request unfiltered⟩
    obtain rfl : s = 0 := by omega
    exact disk dirty
  · have dirty := writable.resolve_left nothing
    rw [if_neg nothing, if_pos dirty]
    have clean : ∀ s < cfg.superpCnt, (view { st with requestSuperp := none } s).Holds [] := by
      intro s below
      obtain rfl : s = 0 := by omega
      exact disk dirty
    obtain ⟨sameMode, holds⟩ :=
      holds_writeInternal transfers kept.resetIndex.setFlatIndex clean
    have onDisk := holds 0 (by omega)
    rw [List.nil_append, appended_flat processors, ← content_eq] at onDisk
    have samePos : fseek ((writeInternal cfg kept.resetIndex.setFlatIndex
        { st with requestSuperp := none }).fds 0) (wholePages content.length) =
        (writeInternal cfg kept.resetIndex.setFlatIndex
          { st with requestSuperp := none }).fds 0 := by
      unfold fseek
      rw [← onDisk.disk.pos]
      rfl
    obtain ⟨st', ingests, appending⟩ := appending_ingestAtEnd transfers single
      { writeInternal cfg kept.resetIndex.setFlatIndex { st with requestSuperp := none }
        with request := none, cache := none }
      { buffer with buffer := leftOver cfg kept buffer }.resetIndex.setFlatIndex
      (by rw [samePos]; exact onDisk.disk) onDisk.bytes rfl sameMode.requestSuperp rfl
      (sameMode.bitset.trans unfiltered)
      (appended_flat processors { buffer with buffer := leftOver cfg kept buffer })
    obtain ⟨st'', rewinds, start⟩ := atStart_rewind appending
    exact ⟨st', st'', ingests, rewinds, start⟩

end Batch

section Records

theorem recordsOf_append {unit : Nat} (positive : 0 < unit) {xs : List Byte}
    (whole : xs.length % unit = 0) (ys : List Byte) :
    recordsOf unit (xs ++ ys) = recordsOf unit xs ++ recordsOf unit ys := by
  obtain ⟨k, count⟩ := Nat.dvd_of_mod_eq_zero whole
  have front : xs.length / unit = k := by
    rw [count, Nat.mul_div_cancel_left _ positive]
  have total : (xs ++ ys).length / unit = k + ys.length / unit := by
    rw [List.length_append, count, Nat.mul_add_div positive]
  unfold recordsOf
  rw [total, front, List.range_add, List.map_append, List.map_map]
  congr 1
  · refine List.map_congr_left fun i member => ?_
    have below := List.mem_range.mp member
    have inside : i * unit + unit ≤ xs.length := by
      rw [count, ← Nat.succ_mul, Nat.mul_comm unit k]
      exact Nat.mul_le_mul_right unit below
    rw [List.drop_append_of_le_length (by omega),
      List.take_append_of_le_length (by rw [List.length_drop]; omega)]
  · refine List.map_congr_left fun i _ => ?_
    have behind : (k + i) * unit = xs.length + i * unit := by
      rw [count, Nat.add_mul, Nat.mul_comm unit k]
    simp only [Function.comp_apply]
    rw [behind, List.drop_length_add_append]

theorem length_recordsOf (unit : Nat) (bytes : List Byte) :
    (recordsOf unit bytes).length = bytes.length / unit := by
  unfold recordsOf
  rw [List.length_map, List.length_range]

/-- A shorter area of whole records holds fewer of them. -/
theorem length_recordsOf_lt {unit : Nat} (positive : 0 < unit) {xs ys : List Byte}
    (whole : xs.length % unit = 0) (whole' : ys.length % unit = 0) (shorter : xs.length < ys.length) :
    (recordsOf unit xs).length < (recordsOf unit ys).length := by
  rw [length_recordsOf, length_recordsOf]
  obtain ⟨k, count⟩ := Nat.dvd_of_mod_eq_zero whole
  obtain ⟨k', count'⟩ := Nat.dvd_of_mod_eq_zero whole'
  rw [count, count'] at shorter ⊢
  rw [Nat.mul_div_cancel_left _ positive, Nat.mul_div_cancel_left _ positive]
  exact Nat.lt_of_mul_lt_mul_left shorter

theorem length_leftOver (cfg : StreamConfig) (kept buffer : MemoryBuffer Byte) :
    (leftOver cfg kept buffer).length = buffer.buffer.length - ingestSpace cfg kept buffer := by
  unfold leftOver
  rw [List.length_take]
  omega

theorem ingestSpace_le (cfg : StreamConfig) (kept buffer : MemoryBuffer Byte) :
    ingestSpace cfg kept buffer ≤ buffer.buffer.length :=
  (Nat.div_mul_le_self _ _).trans (Nat.min_le_right _ _)

theorem length_leftOver_mod (kept : MemoryBuffer Byte) {buffer : MemoryBuffer Byte}
    (whole : buffer.buffer.length % cfg.streamUnitBytes = 0) :
    (leftOver cfg kept buffer).length % cfg.streamUnitBytes = 0 := by
  have le := ingestSpace_le cfg kept buffer
  have spaceWhole : ingestSpace cfg kept buffer % cfg.streamUnitBytes = 0 := Nat.mul_mod_left _ _
  rw [length_leftOver]
  exact Nat.mod_eq_zero_of_dvd (Nat.dvd_sub (Nat.dvd_of_mod_eq_zero whole)
    (Nat.dvd_of_mod_eq_zero spaceWhole))

/-- The whole batch is left over exactly if nothing was moved. -/
theorem leftOver_eq_iff (kept buffer : MemoryBuffer Byte) :
    leftOver cfg kept buffer = buffer.buffer ↔
      buffer.buffer = [] ∨ ingestSpace cfg kept buffer = 0 := by
  have le := ingestSpace_le cfg kept buffer
  constructor
  · intro same
    have lengths := congrArg List.length same
    rw [length_leftOver] at lengths
    by_cases empty : buffer.buffer = []
    · exact Or.inl empty
    · have := List.length_pos_of_ne_nil empty
      right
      omega
  · unfold leftOver
    rintro (empty | nothing)
    · rw [empty]
      exact List.take_nil
    · rw [nothing, Nat.sub_zero, List.take_length]

end Records

section Session

variable (single : cfg.superpCnt = 1) (sizes : Sizes cfg) (processors : 0 < cfg.processors)

include single sizes processors

/-- A batch that is taken is behind the content when the stream is rewound. -/
theorem atStart_ingest {content : List Byte} {st : DiskStream} {buffer : MemoryBuffer Byte}
    (atEnd : AtEnd cfg content st) (whole : buffer.buffer.length % cfg.streamUnitBytes = 0)
    (indexed : buffer.Indexed cfg.processors 1) (takes : TakesBatch cfg st buffer) :
    ∃ st' st'', ingest cfg st buffer = some st' ∧ rewind cfg st' = some st'' ∧
      AtStart cfg (fun _ => content ++ buffer.buffer) st'' := by
  cases atEnd with
  | onDisk left uncached request mode =>
    obtain ⟨st', ingests, appending⟩ := appending_ingest_onDisk sizes.transfers single left uncached
      request (appended_of_single (single ▸ indexed) single)
    obtain ⟨st'', rewinds, start⟩ := atStart_rewind appending
    exact ⟨st', st'', ingests, rewinds, start⟩
  | inMemory cached content_eq disk nonempty named request unfiltered =>
    rename_i kept
    have all : leftOver cfg kept buffer = buffer.buffer :=
      (leftOver_eq_iff kept buffer).mpr ((takes kept cached).imp_right And.right)
    have writable : leftOver cfg kept buffer = [] ∨ kept.dirty = true := by
      rw [all]
      exact (takes kept cached).imp_right And.left
    rw [← all]
    exact atStart_ingest_inMemory sizes.transfers single processors cached content_eq disk nonempty
      request unfiltered whole writable

/-- In every session the stream is at its start and holds whole records. -/
theorem atStart_of_session {content : List Byte} {st : DiskStream}
    (session : Session cfg content st) :
    AtStart cfg (fun _ => content) st ∧ content.length % cfg.streamUnitBytes = 0 := by
  induction session with
  | opened whole =>
    refine ⟨.onDisk (fun s _ => ⟨List.prefix_rfl, rfl, List.length_replicate, rfl, rfl⟩) rfl rfl rfl
      rfl, whole⟩
  | @created buffers st st' indexed whole appends rewinds =>
    obtain ⟨st1, appends', appending⟩ := appending_appendAll sizes.transfers (by omega) buffers
      appending_opened (fun buffer member => by rw [single]; exact indexed buffer member)
    obtain rfl : st = st1 := Option.some.inj (appends.symm.trans appends')
    obtain ⟨st2, rewinds', start⟩ := atStart_rewind (appending.congr
      (fun _ => appended cfg buffers 0) (fun s below => by
        obtain rfl : s = 0 := by omega
        rw [List.nil_append]))
    obtain rfl : st' = st2 := Option.some.inj (rewinds.symm.trans rewinds')
    exact ⟨start, length_appended_mod whole⟩
  | readAgain _ read rewinds ih =>
    obtain ⟨start, whole⟩ := ih
    obtain ⟨st', rewinds', start'⟩ := atStart_rewind_atEnd single
      (atEnd_doStream sizes (inRead_of_atStart single start whole) read)
    rw [Option.some.inj (rewinds.symm.trans rewinds')]
    exact ⟨start', whole⟩
  | ingested _ read whole indexed takes ingests rewinds ih =>
    obtain ⟨start, wholeContent⟩ := ih
    obtain ⟨st1, st2, ingests', rewinds', start'⟩ := atStart_ingest single sizes processors
      (atEnd_doStream sizes (inRead_of_atStart single start wholeContent) read) whole indexed takes
    obtain rfl := Option.some.inj (ingests.symm.trans ingests')
    rw [Option.some.inj (rewinds.symm.trans rewinds')]
    refine ⟨start', ?_⟩
    rw [List.length_append, Nat.add_mod, wholeContent, whole]
    exact Nat.zero_mod _

omit processors in
/-- What a stream delivers when it was rewound behind a batch. -/
theorem read_of_ingested {content : List Byte} {st st' st'' : DiskStream}
    {buffer : MemoryBuffer Byte} (whole : content.length % cfg.streamUnitBytes = 0)
    (ingests : ingest cfg st buffer = some st') (rewinds : rewind cfg st' = some st'')
    (start : AtStart cfg (fun _ => content) st'') :
    ∃ size outs, (∀ fuel, size < fuel → ingestedThenRead cfg fuel st buffer = some outs) ∧
      outs.flatten = content := by
  obtain ⟨size, outs, after, streamed, flat⟩ := doStream_of_atStart sizes start
    (show 0 < cfg.superpCnt by omega) whole
  refine ⟨size, outs, fun fuel enough => ?_, flat⟩
  unfold ingestedThenRead
  rw [ingests, Option.bind_some, rewinds, Option.bind_some, streamed fuel enough, Option.map_some]

/-- At the end of a stream, a batch is kept exactly if it is taken. -/
theorem keepsIngested_iff_of_atEnd {content : List Byte} {st : DiskStream}
    {buffer : MemoryBuffer Byte} (atEnd : AtEnd cfg content st)
    (wholeContent : content.length % cfg.streamUnitBytes = 0)
    (whole : buffer.buffer.length % cfg.streamUnitBytes = 0)
    (indexed : buffer.Indexed cfg.processors 1) :
    KeepsIngested cfg content st buffer ↔ TakesBatch cfg st buffer := by
  have wholeBehind : ∀ bytes : List Byte, bytes.length % cfg.streamUnitBytes = 0 →
      (content ++ bytes).length % cfg.streamUnitBytes = 0 := by
    intro bytes wholeBytes
    rw [List.length_append, Nat.add_mod, wholeContent, wholeBytes]
    exact Nat.zero_mod _
  constructor
  · rintro ⟨size, outs, run, kept⟩ cachedBuffer cached
    cases atEnd with
    | onDisk left uncached request mode =>
      rw [uncached] at cached
      contradiction
    | inMemory cached' content_eq disk nonempty named request unfiltered =>
      obtain rfl := Option.some.inj (cached.symm.trans cached')
      by_cases writable : leftOver cfg cachedBuffer buffer = [] ∨ cachedBuffer.dirty = true
      · obtain ⟨st', st'', ingests, rewinds, start⟩ := atStart_ingest_inMemory sizes.transfers
          single processors cached content_eq disk nonempty request unfiltered whole writable
        obtain ⟨size', outs', run', flat⟩ := read_of_ingested single sizes
          (wholeBehind _ (length_leftOver_mod cachedBuffer whole)) ingests rewinds start
        obtain rfl : outs = outs' := Option.some.inj
          ((run (max size size' + 1) (by omega)).symm.trans (run' (max size size' + 1) (by omega)))
        -- the records that were moved are missing
        have same : (leftOver cfg cachedBuffer buffer).length = buffer.buffer.length := by
          have le := ingestSpace_le cfg cachedBuffer buffer
          have count := length_leftOver cfg cachedBuffer buffer
          by_contra different
          have fewer := length_recordsOf_lt sizes.record
            (length_leftOver_mod cachedBuffer whole) whole (by omega)
          have counts := kept.length_eq
          rw [flat, recordsOf_append sizes.record wholeContent, List.length_append,
            List.length_append] at counts
          omega
        have all : leftOver cfg cachedBuffer buffer = buffer.buffer :=
          (List.take_sublist _ _).eq_of_length same
        rw [all] at writable
        rcases writable with empty | dirty
        · exact Or.inl empty
        · exact ((leftOver_eq_iff cachedBuffer buffer).mp all).imp_right fun nothing =>
            ⟨dirty, nothing⟩
      · rw [not_or] at writable
        have failed := run (size + 1) (Nat.lt_succ_self size)
        unfold ingestedThenRead at failed
        rw [ingest_of_kept cached whole, if_neg writable.1, if_neg writable.2,
          Option.bind_none] at failed
        contradiction
  · intro takes
    obtain ⟨st', st'', ingests, rewinds, start⟩ :=
      atStart_ingest single sizes processors atEnd whole indexed takes
    obtain ⟨size, outs, run, flat⟩ := read_of_ingested single sizes
      (wholeBehind _ whole) ingests rewinds start
    refine ⟨size, outs, run, ?_⟩
    rw [flat, recordsOf_append sizes.record wholeContent]

end Session

/-- A batch is kept exactly if the stream keeps no buffer in memory that is clean or has room for a
record. -/
theorem keepsIngested_iff (cfg : StreamConfig) (single : cfg.superpCnt = 1) (sizes : Sizes cfg)
    (processors : 0 < cfg.processors) {content : List Byte} {st st' : DiskStream} {fuel : Nat}
    {outs : List (List Byte)} (session : Session cfg content st)
    (read : doStream cfg 0 fuel st = some (outs, st')) (buffer : MemoryBuffer Byte)
    (whole : buffer.buffer.length % cfg.streamUnitBytes = 0)
    (indexed : buffer.Indexed cfg.processors 1) :
    KeepsIngested cfg content st' buffer ↔ TakesBatch cfg st' buffer := by
  obtain ⟨start, wholeContent⟩ := atStart_of_session single sizes processors session
  exact keepsIngested_iff_of_atEnd single sizes processors
    (atEnd_doStream sizes (inRead_of_atStart single start wholeContent) read) wholeContent whole
    indexed

/-- One super partition, records of two bytes, and buffers of three records. -/
def oneSuperConfig : StreamConfig := { twoRecordConfig with superpCnt := 1 }

/-- A batch of one record. -/
def oneRecord : MemoryBuffer Byte where
  buffer := [1, 2]
  index _ _ := 0
  perCpuSizes p := if p = 0 then 2 else 0
  indexEntries := 1
  indexed := true
  dirty := false

theorem sizes_oneSuperConfig : Sizes oneSuperConfig :=
  ⟨⟨⟨13, rfl⟩, by decide⟩, by decide, by decide⟩

theorem indexed_oneRecord : oneRecord.Indexed oneSuperConfig.processors 1 := by
  refine ⟨rfl, fun p below => ?_, rfl⟩
  obtain rfl : p = 0 := Nat.lt_one_iff.mp below
  rfl

/-- The stream that keeps the first batch in memory, read to its end. -/
def oneRecordKept : DiskStream :=
  { opened fun _ => [] with
    cache := some { oneRecord with
      index := fun _ _ => 0, perCpuSizes := fun _ => 0, indexed := false, dirty := true }
    requestSuperp := some 0
    eofFlag := true }

theorem session_oneRecord : ∃ st, Session oneSuperConfig oneRecord.buffer st ∧
    doStream oneSuperConfig 0 2 st = some ([oneRecord.buffer], oneRecordKept) := by
  refine ⟨_, @Session.created _ [oneRecord] _ _ (fun buffer member => ?_)
    (fun buffer member p below => ?_) rfl rfl, rfl⟩
  · rw [List.mem_singleton.mp member]
    exact indexed_oneRecord
  · rw [List.mem_singleton.mp member]
    obtain rfl : p = 0 := Nat.lt_one_iff.mp below
    rfl

/-- A batch behind an empty stream is kept. -/
theorem keepsIngested_iff_empty_stream :
    KeepsIngested oneSuperConfig [] (opened fun _ => []) oneRecord ↔
      TakesBatch oneSuperConfig (opened fun _ => []) oneRecord :=
  keepsIngested_iff oneSuperConfig rfl sizes_oneSuperConfig (by decide)
    (.opened rfl) (show doStream oneSuperConfig 0 1 (opened fun _ => []) =
      some ([], opened fun _ => []) from rfl) oneRecord rfl indexed_oneRecord

/-- A second record is lost: the kept buffer has room for it. -/
theorem not_keepsIngested_second_record :
    ¬ ∀ (cfg : StreamConfig) (content : List Byte) (st st' : DiskStream) (fuel : Nat)
      (outs : List (List Byte)) (buffer : MemoryBuffer Byte), cfg.superpCnt = 1 → Sizes cfg →
      0 < cfg.processors → Session cfg content st →
      doStream cfg 0 fuel st = some (outs, st') →
      buffer.buffer.length % cfg.streamUnitBytes = 0 → buffer.Indexed cfg.processors 1 →
      KeepsIngested cfg content st' buffer := by
  intro all
  obtain ⟨st, session, read⟩ := session_oneRecord
  obtain ⟨start, whole⟩ := atStart_of_session rfl sizes_oneSuperConfig (by decide) session
  have takes := (keepsIngested_iff_of_atEnd rfl sizes_oneSuperConfig (by decide)
    (atEnd_doStream sizes_oneSuperConfig (inRead_of_atStart rfl start whole) read) whole rfl
    indexed_oneRecord).mp (all oneSuperConfig oneRecord.buffer st oneRecordKept 2 _ oneRecord rfl
      sizes_oneSuperConfig (by decide) session read rfl indexed_oneRecord)
  rcases takes _ rfl with empty | ⟨-, full⟩
  · contradiction
  · contradiction

end DiskStream

end MBFGraph
