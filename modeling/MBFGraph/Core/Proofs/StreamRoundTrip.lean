import MBFGraph.Core.Proofs.StreamAppend
import MBFGraph.Core.Proofs.StreamDrain

/-!
# What is appended is read back

Flushing and rewinding are followed through the super partitions; an unfiltered read is a source
that delivers what was written, piece by piece.
-/

namespace MBFGraph

open ByteBits Overwrite Stdio

namespace DiskStream

variable {cfg : StreamConfig}

section Rewind

/-- `flush_one`. -/
def View.flush (v : View) : View :=
  if 0 < v.pos % diskPageSize then { v with fd := fwrite v.fd v.page } else v

theorem actsOn_flushOne : ActsOn flushOne (fun _ v => v.flush) := by
  intro st s
  by_cases begun : 0 < st.diskPos s % diskPageSize
  · have flushed : (st.view s).flush =
        { st.view s with fd := fwrite (st.fds s) (st.diskPages s) } := if_pos begun
    unfold flushOne
    beta_reduce
    rw [if_pos begun, flushed]
    refine ⟨⟨rfl, rfl, rfl, rfl, rfl⟩, ?_, fun i other => ?_⟩
    · simp only [view, Function.update_self]
    · simp only [view, Function.update_of_ne other]
  · have same : (st.view s).flush = st.view s := if_neg begun
    unfold flushOne
    beta_reduce
    rw [if_neg begun, same]
    exact ⟨SameMode.refl st, rfl, fun _ _ => rfl⟩

/-- A super partition before the rewind: written, and perhaps flushed. Every flush writes the page
once more, behind the one before. -/
structure View.Flushable (v : View) (written : List Byte) : Prop where
  disk : Written v.fd v.page written ∨
    written <+: v.fd.content ∧ written.length ≤ v.fd.pos ∧ v.fd.pos ≤ v.fd.content.length
  length_page : v.page.length = diskPageSize
  pos : v.pos = written.length
  bytes : v.bytes = written.length

theorem View.Holds.flushable {v : View} {written : List Byte} (holds : v.Holds written) :
    v.Flushable written :=
  ⟨Or.inl holds.disk, holds.disk.length_page, holds.pos, holds.bytes⟩

/-- With the page behind the whole pages everything is in the file. -/
theorem Written.flushed {fd : File Byte} {page written : List Byte} (w : Written fd page written) :
    written <+: (fwrite fd page).content := by
  have inside := w.inside
  have split := wholePages_add_mod written.length
  have small : written.length % diskPageSize < diskPageSize := Nat.mod_lt _ (by decide)
  have upTo := take_overwrite_end page inside
  have front : written <+: fd.content.take fd.pos ++ page := by
    rw [w.pos, w.content]
    conv_lhs => rw [← List.take_append_drop (wholePages written.length) written]
    rw [List.prefix_append_right_inj, ← w.tail]
    exact List.take_prefix _ _
  rw [← upTo] at front
  exact front.trans (List.take_prefix _ _)

/-- `flush_one` brings everything into the file. -/
theorem View.Flushable.flush {v : View} {written : List Byte} (flushable : v.Flushable written) :
    v.flush.Flushable written ∧ written <+: v.flush.fd.content := by
  obtain ⟨disk, length_page, pos, bytes⟩ := flushable
  have split := wholePages_add_mod written.length
  unfold View.flush
  by_cases begun : 0 < v.pos % diskPageSize
  · rw [if_pos begun]
    rw [pos] at begun
    have sealed : written <+: (fwrite v.fd v.page).content ∧
        written.length ≤ (fwrite v.fd v.page).pos ∧
        (fwrite v.fd v.page).pos ≤ (fwrite v.fd v.page).content.length := by
      rcases disk with w | ⟨inFile, behind, inside⟩
      · refine ⟨w.flushed, ?_, ?_⟩
        · have small : written.length % diskPageSize < diskPageSize := Nat.mod_lt _ (by decide)
          change written.length ≤ v.fd.pos + v.page.length
          rw [w.pos, length_page]
          omega
        · unfold fwrite
          rw [length_overwrite w.inside]
          exact Nat.le_max_right _ _
      · refine ⟨?_, ?_, ?_⟩
        · have same := take_overwrite_of_le v.page inside behind
          rw [List.prefix_iff_eq_take.mp inFile] at same ⊢
          unfold fwrite
          rw [List.length_take, Nat.min_eq_left (by omega)] at same
          rw [← same]
          exact List.take_prefix _ _
        · change written.length ≤ v.fd.pos + v.page.length
          omega
        · unfold fwrite
          rw [length_overwrite inside]
          exact Nat.le_max_right _ _
    exact ⟨⟨Or.inr sealed, length_page, pos, bytes⟩, sealed.1⟩
  · rw [if_neg begun]
    refine ⟨⟨disk, length_page, pos, bytes⟩, ?_⟩
    rw [pos] at begun
    rcases disk with w | ⟨inFile, -, -⟩
    · have whole : wholePages written.length = written.length := by omega
      have content := w.content
      rw [whole, List.take_length] at content
      rw [← content]
      exact List.take_prefix _ _
    · exact inFile

/-- A super partition that was rewound. -/
structure View.Ready (v : View) (content : List Byte) : Prop where
  inFile : content <+: v.fd.content
  filePos : v.fd.pos = 0
  length_page : v.page.length = diskPageSize
  pos : v.pos = 0
  bytes : v.bytes = content.length

theorem View.Ready.flush {v : View} {content : List Byte} (ready : v.Ready content) :
    v.flush = v := by
  unfold View.flush
  rw [ready.pos, if_neg (by decide)]

/-- `rewind_file`, and the position. -/
def View.rewind (v : View) : View := { v with fd := fseek v.fd 0, pos := 0 }

/-- One turn of the loop: the files that are not rewound yet may be flushed once more. -/
theorem rewindOne_step {written : Nat → List Byte} {st : DiskStream} {s : Nat}
    (below : s < cfg.superpCnt) (mode : st.requestSuperp = none)
    (flushable : (st.view s).Flushable (written s)) :
    SameMode st (rewindOne cfg st s) ∧ ((rewindOne cfg st s).view s).Ready (written s) ∧
      ∀ i, i < cfg.superpCnt → i ≠ s →
        (rewindOne cfg st s).view i = st.view i ∨
          (rewindOne cfg st s).view i = (st.view i).flush := by
  have rewinds : ∀ st' : DiskStream, ∀ i, i ≠ s →
      view { st' with
        fds := Function.update st'.fds s (fseek (st'.fds s) 0)
        diskPos := Function.update st'.diskPos s 0 } i = st'.view i := by
    intro st' i other
    unfold view
    simp only [Function.update_of_ne other]
  have here : ∀ st' : DiskStream, view { st' with
        fds := Function.update st'.fds s (fseek (st'.fds s) 0)
        diskPos := Function.update st'.diskPos s 0 } s = (st'.view s).rewind := by
    intro st'
    unfold view View.rewind
    simp only [Function.update_self]
  unfold rewindOne
  by_cases flushes : st.requestSuperp = none ∧ 0 < st.diskPos s ∧ 0 < st.diskBytes s
  · simp only [if_pos flushes]
    obtain ⟨sameMode, inside, -⟩ := actsOn_flushOne.foldl (List.range cfg.superpCnt)
      List.nodup_range st
    obtain ⟨⟨-, length_page, -, bytes⟩, inFile⟩ := flushable.flush
    refine ⟨sameMode.trans ⟨rfl, rfl, rfl, rfl, rfl⟩, ?_, ?_⟩
    · rw [here, flush, inside s (List.mem_range.mpr below)]
      exact ⟨inFile, rfl, length_page, rfl, bytes⟩
    · intro i below' other
      right
      rw [rewinds _ i other, flush, inside i (List.mem_range.mpr below')]
  · simp only [if_neg flushes]
    refine ⟨⟨rfl, rfl, rfl, rfl, rfl⟩, ?_, fun i _ other => Or.inl (rewinds st i other)⟩
    have empty : written s = [] := by
      have pos := flushable.pos
      have bytes := flushable.bytes
      change st.diskPos s = _ at pos
      change st.diskBytes s = _ at bytes
      apply List.eq_nil_of_length_eq_zero
      by_contra positive
      exact flushes ⟨mode, by omega, by omega⟩
    rw [here, empty]
    rw [empty] at flushable
    exact ⟨List.nil_prefix, rfl, flushable.length_page, rfl, flushable.bytes⟩

/-- The loop of `rewind`, by induction on the files that are left. -/
theorem rewindOne_loop {written : Nat → List Byte} (l : List Nat) (distinct : l.Nodup)
    (inside : ∀ s ∈ l, s < cfg.superpCnt) (st : DiskStream) (mode : st.requestSuperp = none)
    (flushable : ∀ s ∈ l, (st.view s).Flushable (written s))
    (ready : ∀ s < cfg.superpCnt, s ∉ l → (st.view s).Ready (written s)) :
    SameMode st (l.foldl (rewindOne cfg) st) ∧
      ∀ s < cfg.superpCnt, ((l.foldl (rewindOne cfg) st).view s).Ready (written s) := by
  induction l generalizing st with
  | nil => exact ⟨SameMode.refl st, fun s below => ready s below (List.not_mem_nil)⟩
  | cons s l ih =>
    obtain ⟨fresh, distinct⟩ := List.nodup_cons.mp distinct
    have below := inside s List.mem_cons_self
    obtain ⟨sameMode, here, others⟩ := rewindOne_step below mode
      (flushable s List.mem_cons_self)
    have flushable' : ∀ i ∈ l, ((rewindOne cfg st s).view i).Flushable (written i) := by
      intro i member
      have other : i ≠ s := by
        rintro rfl
        exact fresh member
      have before := flushable i (List.mem_cons_of_mem s member)
      rcases others i (inside i (List.mem_cons_of_mem s member)) other with same | flushed
      · rw [same]
        exact before
      · rw [flushed]
        exact before.flush.1
    have ready' : ∀ i < cfg.superpCnt, i ∉ l →
        ((rewindOne cfg st s).view i).Ready (written i) := by
      intro i below' notIn
      by_cases isS : i = s
      · rw [isS]
        exact here
      · have before := ready i below' (by simp [isS, notIn])
        rcases others i below' isS with same | flushed
        · rw [same]
          exact before
        · rw [flushed, before.flush]
          exact before
    rw [List.foldl_cons]
    obtain ⟨sameMode', all⟩ := ih distinct
      (fun i member => inside i (List.mem_cons_of_mem s member)) (rewindOne cfg st s)
      (sameMode.requestSuperp.trans mode) flushable' ready'
    exact ⟨sameMode.trans sameMode', all⟩

/-- A stream that is going to be read from its start. -/
inductive AtStart (cfg : StreamConfig) (content : Nat → List Byte) : DiskStream → Prop
  | onDisk {st : DiskStream} (ready : ∀ s < cfg.superpCnt, (st.view s).Ready (content s))
      (uncached : st.cache = none) (mode : st.requestSuperp = none) (request : st.request = none)
      (unfiltered : st.randomBitset = none) : AtStart cfg content st
  | inMemory {st : DiskStream} {buffer : MemoryBuffer Byte} (cached : st.cache = some buffer)
      (single : cfg.superpCnt = 1) (whole : content 0 = buffer.buffer)
      (disk : buffer.dirty = true → ∀ s < cfg.superpCnt, (st.view s).Holds [])
      (nonempty : buffer.buffer ≠ []) (named : st.requestSuperp = some 0)
      (notYet : st.eofFlag = false) (request : st.request = none)
      (unfiltered : st.randomBitset = none) : AtStart cfg content st

/-- `rewind` of a stream that keeps no buffer. -/
theorem rewind_of_uncached {st : DiskStream} (uncached : st.cache = none) :
    rewind cfg st = some { (List.range cfg.superpCnt).foldl (rewindOne cfg)
      { st with eofFlag := false, request := none } with requestSuperp := none } := by
  unfold rewind
  simp only
  split
  · rfl
  · rename_i isSome
    rw [uncached] at isSome
    contradiction

/-- `rewind` of a stream that was appended to and keeps its buffer. -/
theorem rewind_of_kept {st : DiskStream} {buffer : MemoryBuffer Byte}
    (cached : st.cache = some buffer) (request : st.request = none)
    (mode : st.requestSuperp = none) :
    rewind cfg st = some { st with
      eofFlag := false
      cache := some { buffer.resetIndex with indexed := false }
      requestSuperp := some 0 } := by
  unfold rewind
  simp only
  split
  · rename_i isNone
    rw [cached] at isNone
    contradiction
  · rename_i kept isKept
    obtain rfl : buffer = kept := Option.some.inj (cached.symm.trans isKept)
    rw [if_neg (by rw [request]; exact Bool.false_ne_true), if_pos mode]

/-- `rewind` behind appending. -/
theorem atStart_rewind {written : Nat → List Byte} {st : DiskStream}
    (appending : Appending cfg written st) :
    ∃ st', rewind cfg st = some st' ∧ AtStart cfg written st' := by
  cases appending with
  | onDisk holds uncached mode unfiltered request =>
    obtain ⟨sameMode, ready⟩ := rewindOne_loop (List.range cfg.superpCnt) List.nodup_range
      (fun s member => List.mem_range.mp member)
      { st with eofFlag := false, request := none } mode
      (fun s member => (holds s (List.mem_range.mp member)).flushable)
      (fun s below notIn => absurd (List.mem_range.mpr below) notIn)
    exact ⟨_, rewind_of_uncached uncached, .onDisk ready (sameMode.cache.trans uncached) rfl
      sameMode.request (sameMode.bitset.trans unfiltered)⟩
  | inMemory holds cached single dirty whole nonempty content mode unfiltered request =>
    exact ⟨_, rewind_of_kept cached request mode, .inMemory rfl single content (fun _ => holds)
      nonempty rfl rfl request unfiltered⟩

end Rewind

section Read

/-- What is left of a super partition that is being read. -/
structure Left (cfg : StreamConfig) (s : Nat) (content : List Byte) (st : DiskStream)
    (rest : List Byte) (n : Nat) : Prop where
  unfiltered : st.randomBitset = none
  readable : Readable (st.fds s) (st.diskPages s) (st.fds s).content (st.diskPos s)
  inFile : content <+: (st.fds s).content
  bytes : st.diskBytes s = content.length
  inside : st.diskPos s ≤ content.length
  records : (content.length - st.diskPos s) % cfg.streamUnitBytes = 0
  rest_eq : rest = content.drop (st.diskPos s)
  count : n = content.length - st.diskPos s

/-- The sizes of records and buffers of a stream. -/
structure Sizes (cfg : StreamConfig) : Prop where
  transfers : Transfers cfg
  record : 0 < cfg.streamUnitBytes
  fits : cfg.streamUnitBytes ≤ cfg.bufbytes

/-- How many bytes of whole records a buffer has room for. -/
def wholeRecords (cfg : StreamConfig) : Nat :=
  cfg.bufbytes / cfg.streamUnitBytes * cfg.streamUnitBytes

theorem Sizes.wholeRecords_pos (sizes : Sizes cfg) : 0 < wholeRecords cfg :=
  Nat.mul_pos (Nat.div_pos sizes.fits sizes.record) sizes.record

theorem wholeRecords_le : wholeRecords cfg ≤ cfg.bufbytes := Nat.div_mul_le_self _ _

/-- The request takes what is left, or as many whole records as fit. -/
theorem amount_eq (record : 0 < cfg.streamUnitBytes) {n : Nat} (records : n % cfg.streamUnitBytes = 0) :
    min n cfg.bufbytes / cfg.streamUnitBytes * cfg.streamUnitBytes = min n (wholeRecords cfg) := by
  obtain ⟨k, rfl⟩ := Nat.dvd_of_mod_eq_zero records
  unfold wholeRecords
  rcases Nat.le_total (cfg.streamUnitBytes * k) cfg.bufbytes with fits | large
  · have below : k ≤ cfg.bufbytes / cfg.streamUnitBytes :=
      (Nat.le_div_iff_mul_le record).mpr (by rwa [Nat.mul_comm])
    have le := Nat.mul_le_mul_right cfg.streamUnitBytes below
    rw [Nat.min_eq_left fits, Nat.mul_div_cancel_left _ record, Nat.mul_comm _ k, Nat.min_eq_left le]
  · have le := (Nat.div_mul_le_self cfg.bufbytes cfg.streamUnitBytes).trans large
    rw [Nat.min_eq_right large, Nat.min_eq_right le]

/-- A request takes as many records as fit. -/
theorem readRequest_left (sizes : Sizes cfg) {s n : Nat} {content rest : List Byte} {st : DiskStream}
    (left : Left cfg s content st rest n) :
    ∃ st', readRequest cfg st s =
        some (MemoryBuffer.unindexed (rest.take (wholeRecords cfg)), st') ∧
      Left cfg s content st' (rest.drop (wholeRecords cfg)) (n - wholeRecords cfg) := by
  obtain ⟨unfiltered, readable, inFile, bytes, inside, records, rest_eq, count⟩ := left
  have inFileLength := inFile.length_le
  have length : rest.length = n := by rw [rest_eq, List.length_drop, count]
  have bytesEq : min (st.diskBytes s - st.diskPos s) cfg.bufbytes / cfg.streamUnitBytes *
      cfg.streamUnitBytes = min n (wholeRecords cfg) := by
    rw [bytes, ← count]
    exact amount_eq sizes.record (by rw [count]; exact records)
  generalize amountEq : min n (wholeRecords cfg) = amount at bytesEq
  have taken : rest.take (wholeRecords cfg) = rest.take amount := by
    rw [← amountEq, ← length, List.take_eq_take_iff]
    omega
  have dropped : rest.drop (wholeRecords cfg) = rest.drop amount := by
    rcases Nat.le_total n (wholeRecords cfg) with all | part
    · rw [List.drop_eq_nil_of_le (by omega), List.drop_eq_nil_of_le (by omega)]
    · rw [← amountEq, Nat.min_eq_right part]
  have wholeAmount : (n - amount) % cfg.streamUnitBytes = 0 := by
    rw [← bytesEq]
    exact Nat.mod_eq_zero_of_dvd (Nat.dvd_sub (Nat.dvd_of_mod_eq_zero (by rw [count]; exact records))
      (Nat.dvd_mul_left _ _))
  obtain ⟨units, readable'⟩ := readable_doReadIo sizes.transfers.size sizes.transfers.large readable
    (show st.diskPos s + amount ≤ (st.fds s).content.length by omega)
  have fromContent : ((st.fds s).content.drop (st.diskPos s)).take amount =
      (content.drop (st.diskPos s)).take amount := by
    obtain ⟨behind, same⟩ := inFile
    rw [← same, List.drop_append_of_le_length inside,
      List.take_append_of_le_length (by rw [List.length_drop]; omega)]
  refine ⟨(readOperator cfg st s).2, ?_, ?_⟩
  · unfold readRequest
    split
    · rename_i test filtered
      rw [unfiltered] at filtered
      contradiction
    · rw [taken, rest_eq]
      unfold readOperator
      simp only [bytesEq, units, fromContent]
  · have sameContent : ((readOperator cfg st s).2.fds s).content = (st.fds s).content :=
      (requestFrame_readOperator st).contents s
    have pos : (readOperator cfg st s).2.diskPos s = st.diskPos s + amount := by
      unfold readOperator
      simp only [Function.update_self, bytesEq]
    refine ⟨unfiltered, ?_, ?_, bytes, by omega, ?_, ?_, by omega⟩
    · rw [pos, sameContent]
      unfold readOperator
      simp only [Function.update_self, bytesEq]
      exact readable'
    · rw [sameContent]
      exact inFile
    · rw [pos, ← Nat.sub_sub, ← count]
      exact wholeAmount
    · rw [dropped, rest_eq, pos, List.drop_drop]

/-- The requests are a source. -/
theorem source_left (sizes : Sizes cfg) (s : Nat) (content : List Byte) :
    Source cfg s (Left cfg s content) where
  atEnd := by
    rintro st rest n ⟨-, -, -, bytes, inside, -, -, count⟩
    omega
  done := by
    rintro st rest ⟨-, -, -, -, -, -, rest_eq, count⟩
    rw [rest_eq, List.drop_eq_nil_of_le (by omega)]
  request := by
    intro st rest n left more
    obtain ⟨st', requested, left'⟩ := readRequest_left sizes left
    refine ⟨_, _, _, st', requested, ?_, (List.take_append_drop _ rest).symm, ?_, left'⟩
    · exact (List.length_take_le _ _).trans wholeRecords_le
    · have := sizes.wholeRecords_pos
      omega
  congr := by
    rintro st rest n ⟨unfiltered, readable, inFile, bytes, inside, records, rest_eq, count⟩ _ _ _ _
    exact ⟨unfiltered, readable, inFile, bytes, inside, records, rest_eq, count⟩

/-- A super partition that was rewound is to be read in full. -/
theorem left_of_ready {s : Nat} {content : List Byte} {st : DiskStream}
    (ready : (st.view s).Ready content) (unfiltered : st.randomBitset = none)
    (records : content.length % cfg.streamUnitBytes = 0) :
    Left cfg s content st content content.length := by
  have pos : st.diskPos s = 0 := ready.pos
  have filePos : (st.fds s).pos = 0 := ready.filePos
  refine ⟨unfiltered, ⟨rfl, ?_, ready.length_page, ?_⟩, ready.inFile, ready.bytes, ?_, ?_, ?_, ?_⟩
  · rw [pos, filePos, wholePages_next]
    simp
  · rw [pos]
    intro impossible
    exact absurd impossible (by decide)
  · rw [pos]
    exact Nat.zero_le _
  · rw [pos]
    exact records
  · rw [pos, List.drop_zero]
  · rw [pos]
    rfl

/-- A buffer that is kept is handed on once. -/
theorem doStream_of_kept {st : DiskStream} {buffer : MemoryBuffer Byte} {s : Nat}
    (cached : st.cache = some buffer) (named : st.requestSuperp = some s)
    (notYet : st.eofFlag = false) {fuel : Nat} (enough : 1 < fuel) :
    doStream cfg s fuel st = some ([buffer.buffer], { st with eofFlag := true }) := by
  obtain ⟨fuel, rfl⟩ : ∃ m, fuel = m + 1 := ⟨fuel - 1, by omega⟩
  have notAtEnd : st.streamEof s = false := by
    unfold streamEof
    rw [cached, notYet]
    rfl
  have isRead : DiskStream.read cfg st s = some (buffer, { st with eofFlag := true }) := by
    unfold DiskStream.read
    split
    · rename_i kept isKept
      obtain rfl : buffer = kept := Option.some.inj (cached.symm.trans isKept)
      rw [if_neg (by rw [named]; exact Bool.false_ne_true)]
    · rename_i isNone
      rw [cached] at isNone
      contradiction
  unfold doStream
  rw [notAtEnd, isRead, if_neg Bool.false_ne_true, Option.bind_some,
    doStream_of_eofFlag (by rw [cached]; rfl) rfl (by omega)]
  rfl

/-- Reading a stream to its end: what is handed on, and the super partitions that come later are
still at their start. -/
theorem doStream_of_atStart (sizes : Sizes cfg) {content : Nat → List Byte} {st : DiskStream}
    (start : AtStart cfg content st) {s : Nat} (below : s < cfg.superpCnt)
    (records : (content s).length % cfg.streamUnitBytes = 0) :
    ∃ size out after, (∀ fuel, size < fuel → doStream cfg s fuel st = some (out, after)) ∧
      out.flatten = content s := by
  cases start with
  | onDisk ready uncached mode request unfiltered =>
    obtain ⟨size, out, after, streamed, -, -, flat⟩ := doStream_of_source
      (source_left sizes s (content s)) (left_of_ready (ready s below) unfiltered records)
      uncached request
    exact ⟨size, out, after, streamed, flat⟩
  | inMemory cached single whole disk nonempty named notYet request unfiltered =>
    obtain rfl : s = 0 := by omega
    refine ⟨1, _, _, fun fuel enough => doStream_of_kept cached named notYet enough, ?_⟩
    rw [whole]
    simp

/-- Reading one super partition leaves the others at their start. -/
theorem ready_doStream {content : Nat → List Byte} {st after : DiskStream} {s i fuel : Nat}
    {out : List (List Byte)} (request : st.request = none)
    (done : doStream cfg s fuel st = some (out, after)) (other : i ≠ s)
    (ready : (st.view i).Ready (content i)) : (after.view i).Ready (content i) := by
  obtain ⟨frame, -⟩ := frame_doStream
    ⟨fun pending => by rw [request] at pending; contradiction, fun _ => request⟩ done
  have same : after.view i = st.view i := by
    unfold view
    rw [(frame.elsewhere i other).1, (frame.elsewhere i other).2, frame.others i other,
      frame.diskBytes]
  rw [same]
  exact ready

/-- The super partitions one after the other, by induction on those that are left. -/
theorem drain_onDisk (sizes : Sizes cfg) {content : Nat → List Byte} (l : List Nat)
    (distinct : l.Nodup) (inside : ∀ s ∈ l, s < cfg.superpCnt)
    (records : ∀ s < cfg.superpCnt, (content s).length % cfg.streamUnitBytes = 0)
    {st : DiskStream} (ready : ∀ s ∈ l, (st.view s).Ready (content s))
    (uncached : l ≠ [] → st.cache = none) (request : st.request = none)
    (unfiltered : st.randomBitset = none) :
    ∃ size outs, (∀ fuel, size < fuel → drain cfg fuel l st = some outs) ∧
      outs.map List.flatten = l.map content := by
  induction l generalizing st with
  | nil => exact ⟨0, [], fun _ _ => rfl, rfl⟩
  | cons s l ih =>
    obtain ⟨fresh, distinct⟩ := List.nodup_cons.mp distinct
    have below := inside s List.mem_cons_self
    have uncached := uncached (List.cons_ne_nil s l)
    obtain ⟨size, out, after, streamed, -, -, flat⟩ := doStream_of_source
      (source_left sizes s (content s))
      (left_of_ready (ready s List.mem_cons_self) unfiltered (records s below)) uncached request
    obtain ⟨frame, request'⟩ := frame_doStream
      ⟨fun pending => by rw [request] at pending; contradiction, fun _ => request⟩
      (streamed (size + 1) (Nat.lt_succ_self size))
    have ready' : ∀ i ∈ l, (after.view i).Ready (content i) := by
      intro i member
      have other : i ≠ s := by
        rintro rfl
        exact fresh member
      exact ready_doStream request (streamed (size + 1) (Nat.lt_succ_self size)) other
        (ready i (List.mem_cons_of_mem s member))
    -- a buffer is kept only if there is no other super partition
    have uncached' : l ≠ [] → after.cache = none := by
      intro more
      obtain ⟨i, member⟩ := List.exists_mem_of_ne_nil l more
      have other : i ≠ s := by
        rintro rfl
        exact fresh member
      have below' := inside i (List.mem_cons_of_mem s member)
      rw [frame.cached (by omega), uncached]
    obtain ⟨size', outs, drained, flats⟩ := ih distinct
      (fun i member => inside i (List.mem_cons_of_mem s member)) ready' uncached' request'
      (frame.bitset.trans unfiltered)
    refine ⟨max size size', out :: outs, fun fuel enough => ?_, ?_⟩
    · unfold drain
      rw [streamed fuel (by omega), Option.bind_some, drained fuel (by omega)]
      rfl
    · rw [List.map_cons, List.map_cons, flat, flats]

/-- A stream that is read from its start delivers its content. -/
theorem drain_of_atStart (sizes : Sizes cfg) {content : Nat → List Byte}
    (records : ∀ s < cfg.superpCnt, (content s).length % cfg.streamUnitBytes = 0)
    {st : DiskStream} (start : AtStart cfg content st) :
    ∃ size outs, (∀ fuel, size < fuel →
        drain cfg fuel (List.range cfg.superpCnt) st = some outs) ∧
      outs.map List.flatten = (List.range cfg.superpCnt).map content := by
  cases start with
  | onDisk ready uncached mode request unfiltered =>
    exact drain_onDisk sizes (List.range cfg.superpCnt) List.nodup_range
      (fun s member => List.mem_range.mp member) records
      (fun s member => ready s (List.mem_range.mp member)) (fun _ => uncached) request unfiltered
  | inMemory cached single whole disk nonempty named notYet request unfiltered =>
    rename_i buffer
    refine ⟨1, [[buffer.buffer]], fun fuel enough => ?_, ?_⟩
    · rw [single, List.range_one]
      unfold drain
      rw [doStream_of_kept cached named notYet enough]
      rfl
    · rw [single, List.range_one, List.map_singleton, List.map_singleton, whole]
      simp

theorem length_appended_mod {buffers : List (MemoryBuffer Byte)} {s : Nat}
    (records : ∀ buffer ∈ buffers, ∀ p < cfg.processors,
      (buffer.getSubstream p s).length % cfg.streamUnitBytes = 0) :
    (appended cfg buffers s).length % cfg.streamUnitBytes = 0 := by
  have sums : ∀ l : List Nat, (∀ n ∈ l, n % cfg.streamUnitBytes = 0) →
      l.sum % cfg.streamUnitBytes = 0 := by
    intro l all
    exact Nat.mod_eq_zero_of_dvd
      (List.dvd_sum fun n member => Nat.dvd_of_mod_eq_zero (all n member))
  unfold appended
  rw [List.length_flatMap]
  apply sums
  intro n member
  obtain ⟨buffer, isBuffer, rfl⟩ := List.mem_map.mp member
  rw [List.length_flatMap]
  apply sums
  intro n member
  obtain ⟨p, isProcessor, rfl⟩ := List.mem_map.mp member
  exact records buffer isBuffer p (List.mem_range.mp isProcessor)

end Read

/-- What is appended to a new stream is read back: for each super partition the substreams of the
processors, buffer by buffer. -/
theorem roundTrip_eq (cfg : StreamConfig) (positive : 0 < cfg.superpCnt) (sizes : Sizes cfg)
    (buffers : List (MemoryBuffer Byte))
    (indexed : ∀ buffer ∈ buffers, buffer.Indexed cfg.processors cfg.superpCnt)
    (records : ∀ buffer ∈ buffers, ∀ p < cfg.processors, ∀ s < cfg.superpCnt,
      (buffer.getSubstream p s).length % cfg.streamUnitBytes = 0) :
    ∃ size outs, (∀ fuel, size < fuel → roundTrip cfg fuel buffers = some outs) ∧
      outs.map List.flatten = (List.range cfg.superpCnt).map (appended cfg buffers) := by
  obtain ⟨st, appends, appending⟩ :=
    appending_appendAll sizes.transfers positive buffers appending_opened indexed
  obtain ⟨st', rewinds, start⟩ := atStart_rewind appending
  simp only [List.nil_append] at start
  obtain ⟨size, outs, drained, flats⟩ := drain_of_atStart sizes
    (fun s below => length_appended_mod fun buffer member p isProcessor =>
      records buffer member p isProcessor s below) start
  refine ⟨size, outs, fun fuel enough => ?_, flats⟩
  unfold roundTrip
  rw [appends, Option.bind_some, rewinds, Option.bind_some, drained fuel enough]

/-- Two super partitions, records of two bytes, and buffers of three records. -/
def twoRecordConfig : StreamConfig where
  superpCnt := 2
  processors := 1
  streamUnitBytes := 2
  bufbytes := 6
  subBufSize := 512
  streamUnit := 8192

/-- One record for super partition 0, and two for super partition 1. -/
def threeRecords : MemoryBuffer Byte where
  buffer := [1, 2, 3, 4, 5, 6]
  index _ k := if k = 0 then 0 else 2
  perCpuSizes p := if p = 0 then 6 else 0
  indexEntries := 2
  indexed := true
  dirty := false

theorem roundTrip_threeRecords :
    ∃ size outs, (∀ fuel, size < fuel →
        roundTrip twoRecordConfig fuel [threeRecords, threeRecords] = some outs) ∧
      outs.map List.flatten =
        (List.range 2).map (appended twoRecordConfig [threeRecords, threeRecords]) :=
  roundTrip_eq twoRecordConfig (by decide)
    ⟨⟨⟨13, rfl⟩, by decide⟩, by decide, by decide⟩ [threeRecords, threeRecords]
    (fun buffer member => by
      have same : buffer = threeRecords := by simpa using member
      subst same
      refine ⟨rfl, fun p below => ?_, rfl⟩
      obtain rfl : p = 0 := Nat.lt_one_iff.mp below
      rfl)
    (fun buffer member p below s isSuperp => by
      have same : buffer = threeRecords := by simpa using member
      subst same
      obtain rfl : p = 0 := Nat.lt_one_iff.mp below
      obtain rfl | rfl : s = 0 ∨ s = 1 := by
        have two : twoRecordConfig.superpCnt = 2 := rfl
        omega
      · rfl
      · rfl)

end DiskStream

end MBFGraph
