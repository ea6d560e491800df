import MBFGraph.Lib.Records
import MBFGraph.Core.Proofs.Ingest

/-!
# What is handed on, and what reaches the disk

`do_stream` hands a file on in pieces of as many whole records as fit in a buffer. A stream with one
super partition that is appended to keeps its first buffer in memory; from the second buffer on
everything goes to disk.
-/

namespace MBFGraph

open ByteBits Groups Records Stdio

namespace DiskStream

variable {cfg : StreamConfig}

section Pieces

/-- The pieces behind the one that is pending. -/
theorem doStream_eq_groups (sizes : Sizes cfg) {s fuel n : Nat} {content rest : List Byte}
    {st after : DiskStream} {outs pieces : List (List Byte)} (left : Left cfg s content st rest n)
    (uncached : st.cache = none)
    (pending : st.request = none ∧ pieces = [] ∨
      ∃ units, st.request = some (MemoryBuffer.unindexed units) ∧ st.requestSuperp = some s ∧
        pieces = [units])
    (done : doStream cfg s fuel st = some (outs, after)) :
    outs = pieces ++ groups (wholeRecords cfg) rest := by
  have source := source_left sizes s content
  induction fuel generalizing st rest n outs pieces after with
  | zero => contradiction
  | succ fuel ih =>
    -- behind `read`: the piece it returns, and a request for what follows
    have behind : ∀ {units rest' : List Byte} {n' currentPos : Nat} {st' : DiskStream},
        Left cfg s content st' rest' n' → st'.cache = none → st'.requestSuperp = some s →
        ((readAhead cfg s currentPos (MemoryBuffer.unindexed units) st').bind fun done =>
          (doStream cfg s fuel done.2).map fun rest => (done.1.buffer :: rest.1, rest.2)) =
            some (outs, after) → outs = units :: groups (wholeRecords cfg) rest' := by
      intro units rest' n' currentPos st' left' uncached' named isDone
      unfold readAhead eof at isDone
      by_cases more : n' = 0
      · subst more
        obtain rfl := source.done left'
        rw [if_neg (by simp [(source.atEnd left').mpr rfl])] at isDone
        rw [groups_nil]
        split at isDone
        · obtain ⟨⟨outs', after'⟩, streamed, same⟩ := Option.map_eq_some_iff.mp isDone
          cases fuel with
          | zero => contradiction
          | succ fuel =>
            rw [doStream_of_eofFlag rfl rfl (Nat.succ_pos fuel)] at streamed
            obtain ⟨rfl, rfl⟩ := Prod.mk.inj (Option.some.inj streamed)
            exact (Prod.mk.inj same).1.symm
        · obtain ⟨⟨outs', after'⟩, streamed, same⟩ := Option.map_eq_some_iff.mp isDone
          have later := ih (source.congr left' st'.requestSuperp none st'.cache st'.eofFlag) uncached'
            (Or.inl ⟨rfl, rfl⟩) streamed
          rw [groups_nil] at later
          rw [← (Prod.mk.inj same).1, later]
          rfl
      · have notAtEnd : st'.diskPos s ≠ st'.diskBytes s :=
          fun atEnd => more ((source.atEnd left').mp atEnd)
        have some_ : rest' ≠ [] := by
          rw [left'.rest_eq, ← List.length_pos_iff, List.length_drop, ← left'.count]
          exact Nat.pos_of_ne_zero more
        obtain ⟨st2, requested, left2⟩ := readRequest_left sizes left'
        have frame := requestFrame_readRequest requested
        rw [if_pos (by simpa using notAtEnd), requested, Option.map_some, Option.bind_some] at isDone
        obtain ⟨⟨outs', after'⟩, streamed, same⟩ := Option.map_eq_some_iff.mp isDone
        have later := ih (source.congr left2 st2.requestSuperp
            (some (MemoryBuffer.unindexed (rest'.take (wholeRecords cfg)))) st2.cache st2.eofFlag)
          (frame.cache.trans uncached')
          (Or.inr ⟨_, rfl, frame.requestSuperp.trans named, rfl⟩) streamed
        rw [← (Prod.mk.inj same).1, later, groups_of_ne_nil sizes.wholeRecords_pos some_]
        rfl
    unfold doStream at done
    rcases pending with ⟨noRequest, rfl⟩ | ⟨units, isRequest, named, rfl⟩
    · have atEnd_eq : st.streamEof s = decide (st.diskPos s = st.diskBytes s) := by
        unfold streamEof eof
        rw [uncached, noRequest]
        simp
      rw [List.nil_append]
      by_cases finished : n = 0
      · subst finished
        obtain rfl := source.done left
        rw [atEnd_eq, decide_eq_true ((source.atEnd left).mpr rfl), if_pos rfl] at done
        rw [groups_nil]
        exact (Prod.mk.inj (Option.some.inj done)).1.symm
      · have notAtEnd : st.streamEof s = false := by
          rw [atEnd_eq]
          exact decide_eq_false fun atEnd => finished ((source.atEnd left).mp atEnd)
        have some_ : rest ≠ [] := by
          rw [left.rest_eq, ← List.length_pos_iff, List.length_drop, ← left.count]
          exact Nat.pos_of_ne_zero finished
        obtain ⟨st1, requested, left1⟩ := readRequest_left sizes
          (source.congr left (some s) st.request st.cache st.eofFlag)
        have frame := requestFrame_readRequest requested
        rw [notAtEnd, if_neg Bool.false_ne_true, read_of_uncached uncached,
          awaited_of_noRequest noRequest, requested, Option.bind_some] at done
        rw [groups_of_ne_nil sizes.wholeRecords_pos some_]
        exact behind left1 (frame.cache.trans uncached) frame.requestSuperp done
    · have notAtEnd : st.streamEof s = false := by
        unfold streamEof
        rw [uncached, isRequest, named]
        simp
      rw [notAtEnd, if_neg Bool.false_ne_true, read_of_uncached uncached,
        awaited_of_request isRequest named, Option.bind_some] at done
      exact behind left uncached named done

theorem left_opened {content : List Byte} (whole : content.length % cfg.streamUnitBytes = 0) :
    Left cfg 0 content (opened fun _ => content) content content.length :=
  left_of_ready ⟨List.prefix_rfl, rfl, List.length_replicate, rfl, rfl⟩ rfl whole

/-- A file is handed on in pieces of as many whole records as fit in a buffer. -/
theorem eq_groups_of_doStream (sizes : Sizes cfg) {content : List Byte}
    (whole : content.length % cfg.streamUnitBytes = 0) {fuel : Nat} {outs : List (List Byte)}
    {after : DiskStream} (done : doStream cfg 0 fuel (opened fun _ => content) = some (outs, after)) :
    outs = groups (wholeRecords cfg) content :=
  doStream_eq_groups sizes (left_opened whole) rfl (Or.inl ⟨rfl, rfl⟩) done

/-- It is read to its end, and then it can be rewound. -/
theorem doStream_opened (sizes : Sizes cfg) (single : cfg.superpCnt = 1) {content : List Byte}
    (whole : content.length % cfg.streamUnitBytes = 0) :
    ∃ fuel after after', doStream cfg 0 fuel (opened fun _ => content) =
        some (groups (wholeRecords cfg) content, after) ∧ rewind cfg after = some after' := by
  obtain ⟨size, outs, after, streamed, -, -, -⟩ :=
    doStream_of_source (source_left sizes 0 content) (left_opened whole) rfl rfl
  have done := streamed (size + 1) (Nat.lt_succ_self size)
  have start : AtStart cfg (fun _ => content) (opened fun _ => content) :=
    .onDisk (fun s _ => ⟨List.prefix_rfl, rfl, List.length_replicate, rfl, rfl⟩) rfl rfl rfl rfl
  obtain ⟨after', rewinds, -⟩ := atStart_rewind_atEnd single
    (atEnd_doStream sizes (inRead_of_atStart single start whole) done)
  rw [← eq_groups_of_doStream sizes whole done]
  exact ⟨size + 1, after, after', done, rewinds⟩

end Pieces

section Appended

/-- A second buffer sends the first one to disk; no later one is kept. -/
theorem uncached_append (transfers : Transfers cfg) (single : cfg.superpCnt = 1)
    {written : Nat → List Byte} {st st' : DiskStream} {buffer : MemoryBuffer Byte}
    (appending : Appending cfg written st) (second : written 0 ≠ []) (some_ : buffer.buffer ≠ [])
    (done : append cfg st buffer = some st') : st'.cache = none := by
  cases appending with
  | onDisk holds uncached mode unfiltered request =>
    have notEmpty : ¬(st.diskEmpty cfg = true ∧ cfg.superpCnt = 1) := by
      rintro ⟨diskEmpty, -⟩
      rw [diskEmpty_of_single single] at diskEmpty
      have bytes : st.diskBytes 0 = (written 0).length := (holds 0 (by omega)).bytes
      rw [of_decide_eq_true diskEmpty] at bytes
      exact second (List.eq_nil_of_length_eq_zero bytes.symm)
    rw [append_later some_ uncached notEmpty] at done
    rw [← Option.some.inj done]
    exact (holds_writeInternal transfers buffer holds).1.cache.trans uncached
  | inMemory holds cached _ dirty whole nonempty content mode unfiltered request =>
    rename_i kept _
    rw [append_kept some_ cached dirty] at done
    have onDisk : ∀ s < cfg.superpCnt,
        (view { writeInternal cfg kept st with request := none, cache := none } s).Holds
          ([] ++ appended cfg [kept] s) := (holds_writeInternal transfers kept holds).2
    rw [← Option.some.inj done]
    exact (holds_writeInternal transfers buffer onDisk).1.cache

/-- The buffers behind the first one, by induction on those that are left. -/
theorem uncached_appendAll (transfers : Transfers cfg) (single : cfg.superpCnt = 1)
    (buffers : List (MemoryBuffer Byte)) {written : Nat → List Byte} {st st' : DiskStream}
    (appending : Appending cfg written st) (second : written 0 ≠ [])
    (more : st.cache = none ∨ buffers ≠ [])
    (indexed : ∀ buffer ∈ buffers, buffer.Indexed cfg.processors 1)
    (some_ : ∀ buffer ∈ buffers, buffer.buffer ≠ [])
    (done : appendAll cfg buffers st = some st') : st'.cache = none := by
  induction buffers generalizing written st with
  | nil =>
    rw [← Option.some.inj done]
    exact more.resolve_right fun absurd_ => absurd_ rfl
  | cons buffer buffers ih =>
    have indexed' : buffer.Indexed cfg.processors cfg.superpCnt := by
      rw [single]
      exact indexed buffer List.mem_cons_self
    obtain ⟨st1, first, rest⟩ := Option.bind_eq_some_iff.mp done
    obtain ⟨st1', first', appending1⟩ := appending_append transfers (by omega) appending
      (appended_of_single indexed')
    obtain rfl : st1' = st1 := Option.some.inj (first'.symm.trans first)
    have uncached := uncached_append transfers single appending second
      (some_ buffer List.mem_cons_self) first
    refine ih appending1 ?_ (Or.inl uncached)
      (fun b member => indexed b (List.mem_cons_of_mem _ member))
      (fun b member => some_ b (List.mem_cons_of_mem _ member)) rest
    exact fun nothing => second (List.append_eq_nil_iff.mp nothing).1

/-- The file of a stream that keeps nothing has what was appended. -/
theorem prefix_of_rewind {written : Nat → List Byte} {st st' : DiskStream}
    (appending : Appending cfg written st) (uncached : st.cache = none)
    (done : rewind cfg st = some st') {s : Nat} (below : s < cfg.superpCnt) :
    written s <+: (st'.fds s).content := by
  cases appending with
  | onDisk holds _ mode unfiltered request =>
    obtain ⟨-, ready⟩ := rewindOne_loop (List.range cfg.superpCnt) List.nodup_range
      (fun s member => List.mem_range.mp member)
      { st with eofFlag := false, request := none } mode
      (fun s member => (holds s (List.mem_range.mp member)).flushable)
      (fun s below notIn => absurd (List.mem_range.mpr below) notIn)
    rw [rewind_of_uncached uncached] at done
    rw [← Option.some.inj done]
    exact (ready s below).inFile
  | inMemory holds cached single dirty whole nonempty content mode unfiltered request =>
    rw [uncached] at cached
    contradiction

/-- A single buffer stays in memory, and rewinding the stream writes nothing. -/
theorem content_of_single_buffer (single : cfg.superpCnt = 1) {buffer : MemoryBuffer Byte}
    {st st' : DiskStream} (some_ : buffer.buffer ≠ [])
    (appends : appendAll cfg [buffer] (opened fun _ => []) = some st)
    (done : rewind cfg st = some st') : (st'.fds 0).content = [] := by
  unfold appendAll at appends
  rw [append_first single some_ rfl rfl rfl, Option.bind_some] at appends
  rw [← Option.some.inj appends, rewind_of_kept rfl rfl rfl] at done
  rw [← Option.some.inj done]
  rfl

/-- From two buffers on everything is in the file. -/
theorem prefix_of_two_buffers (transfers : Transfers cfg) (single : cfg.superpCnt = 1)
    {buffers : List (MemoryBuffer Byte)} {st st' : DiskStream} (two : 1 < buffers.length)
    (indexed : ∀ buffer ∈ buffers, buffer.Indexed cfg.processors 1)
    (some_ : ∀ buffer ∈ buffers, buffer.buffer ≠ [])
    (appends : appendAll cfg buffers (opened fun _ => []) = some st)
    (done : rewind cfg st = some st') : appended cfg buffers 0 <+: (st'.fds 0).content := by
  have indexed' : ∀ buffer ∈ buffers, buffer.Indexed cfg.processors cfg.superpCnt := by
    rw [single]
    exact indexed
  obtain ⟨st0, appends', appending⟩ :=
    appending_appendAll transfers (by omega) buffers appending_opened indexed'
  obtain rfl : st0 = st := Option.some.inj (appends'.symm.trans appends)
  obtain ⟨first, rest, rfl⟩ := List.exists_cons_of_length_pos (show 0 < buffers.length by omega)
  obtain ⟨st1, isFirst, isRest⟩ := Option.bind_eq_some_iff.mp appends
  have wholeFirst := appended_of_single (indexed' first List.mem_cons_self)
  obtain ⟨st1', isFirst', appending1⟩ := appending_append transfers (by omega) appending_opened
    wholeFirst
  obtain rfl : st1' = st1 := Option.some.inj (isFirst'.symm.trans isFirst)
  have more : rest ≠ [] := by
    rintro rfl
    exact absurd two (by simp)
  have uncached := uncached_appendAll transfers single rest appending1
    (by
      rw [List.nil_append, wholeFirst single]
      exact some_ first List.mem_cons_self)
    (Or.inr more) (fun b member => indexed b (List.mem_cons_of_mem _ member))
    (fun b member => some_ b (List.mem_cons_of_mem _ member)) isRest
  exact prefix_of_rewind appending uncached done (by omega)

end Appended

end DiskStream

end MBFGraph
