import MBFGraph.Core.Proofs.DiskPages

/-!
# What appending leaves in a stream

The operations of a stream act on one super partition at a time, on its file, its partial page and
its position. A stream in append mode has everything on disk up to the partial pages, or keeps its
only buffer in memory.
-/

namespace MBFGraph

open ByteBits Overwrite Stdio

namespace DiskStream

/-- The part of a stream that belongs to one super partition. -/
structure View where
  fd : File Byte
  page : List Byte
  pos : Nat
  bytes : Nat

/-- The view of a super partition. -/
def view (st : DiskStream) (s : Nat) : View :=
  ⟨st.fds s, st.diskPages s, st.diskPos s, st.diskBytes s⟩

/-- What writing and rewinding leave alone. -/
structure SameMode (st st' : DiskStream) : Prop where
  eofFlag : st'.eofFlag = st.eofFlag
  requestSuperp : st'.requestSuperp = st.requestSuperp
  request : st'.request = st.request
  cache : st'.cache = st.cache
  bitset : st'.randomBitset = st.randomBitset

theorem SameMode.refl (st : DiskStream) : SameMode st st := ⟨rfl, rfl, rfl, rfl, rfl⟩

theorem SameMode.trans {st st' st'' : DiskStream} (first : SameMode st st')
    (second : SameMode st' st'') : SameMode st st'' :=
  ⟨second.eofFlag.trans first.eofFlag, second.requestSuperp.trans first.requestSuperp,
    second.request.trans first.request, second.cache.trans first.cache,
    second.bitset.trans first.bitset⟩

/-- An operation on one super partition. -/
def ActsOn (f : DiskStream → Nat → DiskStream) (g : Nat → View → View) : Prop :=
  ∀ st s, SameMode st (f st s) ∧ (f st s).view s = g s (st.view s) ∧
    ∀ i, i ≠ s → (f st s).view i = st.view i

/-- Such operations on different super partitions do not interfere. -/
theorem ActsOn.foldl {f : DiskStream → Nat → DiskStream} {g : Nat → View → View}
    (acts : ActsOn f g) (l : List Nat) (distinct : l.Nodup) (st : DiskStream) :
    SameMode st (l.foldl f st) ∧ (∀ s ∈ l, (l.foldl f st).view s = g s (st.view s)) ∧
      ∀ i, i ∉ l → (l.foldl f st).view i = st.view i := by
  induction l generalizing st with
  | nil => exact ⟨SameMode.refl st, by simp, fun _ _ => rfl⟩
  | cons s l ih =>
    obtain ⟨fresh, distinct⟩ := List.nodup_cons.mp distinct
    obtain ⟨mode, here, elsewhere⟩ := acts st s
    obtain ⟨mode', inside, outside⟩ := ih distinct (f st s)
    rw [List.foldl_cons]
    refine ⟨mode.trans mode', ?_, ?_⟩
    · intro i member
      rcases List.mem_cons.mp member with rfl | later
      · rw [outside i fresh, here]
      · have other : i ≠ s := by
          rintro rfl
          exact fresh later
        rw [inside i later, elsewhere i other]
    · intro i notIn
      rw [List.mem_cons, not_or] at notIn
      rw [outside i notIn.2, elsewhere i notIn.1]

variable {cfg : StreamConfig}

section Append

/-- `do_write_IO` of a substream. -/
def View.write (cfg : StreamConfig) (v : View) (bytes : List Byte) : View :=
  let done := doWriteIo cfg.streamUnit v.fd bytes v.pos v.page
  ⟨done.1, done.2, v.pos + bytes.length, v.bytes + bytes.length⟩

theorem writeSubstream_view (cfg : StreamConfig) (buffer : MemoryBuffer Byte) (s : Nat) (st : DiskStream) (j : Nat) :
    SameMode st (writeSubstream cfg buffer s st j) ∧
      (writeSubstream cfg buffer s st j).view s =
        (st.view s).write cfg (buffer.getSubstream j s) ∧
      ∀ i, i ≠ s → (writeSubstream cfg buffer s st j).view i = st.view i := by
  refine ⟨⟨rfl, rfl, rfl, rfl, rfl⟩, ?_, ?_⟩
  · unfold writeSubstream view View.write
    simp only [Function.update_self]
  · intro i other
    unfold writeSubstream view
    simp only [Function.update_of_ne other]

/-- The substreams of all processors for a super partition. -/
theorem actsOn_writeSubstreams (cfg : StreamConfig) (buffer : MemoryBuffer Byte) :
    ActsOn (fun st s => (List.range cfg.processors).foldl (writeSubstream cfg buffer s) st)
      (fun s v => (List.range cfg.processors).foldl
        (fun v j => v.write cfg (buffer.getSubstream j s)) v) := by
  intro st s
  simp only
  induction List.range cfg.processors generalizing st with
  | nil => exact ⟨SameMode.refl st, rfl, fun _ _ => rfl⟩
  | cons j js ih =>
    obtain ⟨mode, here, elsewhere⟩ := writeSubstream_view cfg buffer s st j
    obtain ⟨mode', here', elsewhere'⟩ := ih (writeSubstream cfg buffer s st j)
    rw [List.foldl_cons, List.foldl_cons]
    refine ⟨mode.trans mode', by rw [here', here], fun i other => ?_⟩
    rw [elsewhere' i other, elsewhere i other]

/-- A super partition that was appended to holds `written`. -/
structure View.Holds (v : View) (written : List Byte) : Prop where
  disk : Written v.fd v.page written
  pos : v.pos = written.length
  bytes : v.bytes = written.length

/-- The transfers that a stream is configured for. -/
structure Transfers (cfg : StreamConfig) : Prop where
  size : TransferSize cfg.streamUnit
  large : diskPageSize ≤ cfg.streamUnit

theorem View.Holds.write (transfers : Transfers cfg) {v : View} {written : List Byte}
    (holds : v.Holds written) (bytes : List Byte) :
    (v.write cfg bytes).Holds (written ++ bytes) := by
  have appends := written_doWriteIo transfers.size transfers.large holds.disk bytes
  refine ⟨?_, ?_, ?_⟩
  · unfold View.write
    rw [holds.pos]
    exact appends
  · change v.pos + bytes.length = _
    rw [holds.pos, List.length_append]
  · change v.bytes + bytes.length = _
    rw [holds.bytes, List.length_append]

theorem View.Holds.writes (transfers : Transfers cfg) {v : View} {written : List Byte}
    (holds : v.Holds written) (pieces : Nat → List Byte) (js : List Nat) :
    (js.foldl (fun v j => v.write cfg (pieces j)) v).Holds (written ++ js.flatMap pieces) := by
  induction js generalizing v written with
  | nil =>
    rw [List.flatMap_nil, List.append_nil]
    exact holds
  | cons j js ih =>
    rw [List.foldl_cons, List.flatMap_cons, ← List.append_assoc]
    exact ih (holds.write transfers (pieces j))

/-- `write_internal` appends the substreams of a buffer. -/
theorem holds_writeInternal (transfers : Transfers cfg) (buffer : MemoryBuffer Byte)
    {st : DiskStream} {written : Nat → List Byte}
    (holds : ∀ s < cfg.superpCnt, (st.view s).Holds (written s)) :
    SameMode st (writeInternal cfg buffer st) ∧
      ∀ s < cfg.superpCnt, ((writeInternal cfg buffer st).view s).Holds
        (written s ++ appended cfg [buffer] s) := by
  obtain ⟨mode, inside, -⟩ := (actsOn_writeSubstreams cfg buffer).foldl
    (List.range cfg.superpCnt) List.nodup_range st
  refine ⟨mode, fun s below => ?_⟩
  have here := inside s (List.mem_range.mpr below)
  unfold writeInternal
  rw [here]
  have all := (holds s below).writes transfers (fun j => buffer.getSubstream j s)
    (List.range cfg.processors)
  simpa [appended] using all

/-- A stream in append mode: everything is on disk up to the partial pages, or its only buffer
stays in memory. -/
inductive Appending (cfg : StreamConfig) (written : Nat → List Byte) : DiskStream → Prop
  | onDisk {st : DiskStream} (holds : ∀ s < cfg.superpCnt, (st.view s).Holds (written s))
      (uncached : st.cache = none) (mode : st.requestSuperp = none)
      (unfiltered : st.randomBitset = none)
      (request : cfg.superpCnt = 1 → st.request.isSome → written 0 ≠ []) :
      Appending cfg written st
  | inMemory {st : DiskStream} {buffer : MemoryBuffer Byte}
      (holds : ∀ s < cfg.superpCnt, (st.view s).Holds []) (cached : st.cache = some buffer)
      (single : cfg.superpCnt = 1) (dirty : buffer.dirty = true)
      (whole : appended cfg [buffer] 0 = buffer.buffer) (nonempty : buffer.buffer ≠ [])
      (content : written 0 = buffer.buffer) (mode : st.requestSuperp = none)
      (unfiltered : st.randomBitset = none) (request : st.request = none) :
      Appending cfg written st

theorem appended_of_empty {buffer : MemoryBuffer Byte} (empty : buffer.buffer = []) (s : Nat) :
    appended cfg [buffer] s = [] := by
  unfold appended
  simp [MemoryBuffer.getSubstream_of_empty empty]

/-- The only super partition gets the whole buffer. -/
theorem appended_of_single {buffer : MemoryBuffer Byte}
    (indexed : buffer.Indexed cfg.processors cfg.superpCnt) (single : cfg.superpCnt = 1) :
    appended cfg [buffer] 0 = buffer.buffer := by
  rw [single] at indexed
  unfold appended
  rw [List.flatMap_singleton, indexed.flatMap_getSubstream]

/-- A stream whose only super partition has nothing on disk is empty. -/
theorem diskEmpty_of_single {st : DiskStream} (single : cfg.superpCnt = 1) :
    st.diskEmpty cfg = decide (st.diskBytes 0 = 0) := by
  unfold diskEmpty
  rw [single]
  simp

/-- A first buffer stays in memory. -/
theorem append_first {st : DiskStream} {buffer : MemoryBuffer Byte} (single : cfg.superpCnt = 1)
    (nonempty : buffer.buffer ≠ []) (nothing : st.diskBytes 0 = 0) (uncached : st.cache = none)
    (noRequest : st.request = none) :
    append cfg st buffer = some { st with cache := some { buffer with dirty := true } } := by
  unfold append
  rw [if_neg nonempty, if_pos ⟨by rw [diskEmpty_of_single single, nothing]; rfl,
    by rw [uncached]; rfl, single⟩, if_neg (by rw [noRequest]; exact Bool.false_ne_true)]

/-- The stream after a buffer was written behind what is on disk. -/
def wroteBehind (cfg : StreamConfig) (buffer : MemoryBuffer Byte) (st : DiskStream) : DiskStream :=
  { writeInternal cfg buffer st with request := some { buffer with dirty := false } }

/-- Later buffers go to disk. -/
theorem append_later {st : DiskStream} {buffer : MemoryBuffer Byte} (nonempty : buffer.buffer ≠ [])
    (uncached : st.cache = none) (several : ¬(st.diskEmpty cfg = true ∧ cfg.superpCnt = 1)) :
    append cfg st buffer = some (wroteBehind cfg buffer st) := by
  unfold append
  rw [if_neg nonempty, if_neg (fun all => several ⟨all.1, all.2.2⟩)]
  split
  · rename_i cached isCached
    rw [uncached] at isCached
    contradiction
  · rfl

/-- The buffer that was kept goes first. -/
theorem append_kept {st : DiskStream} {buffer cached : MemoryBuffer Byte}
    (nonempty : buffer.buffer ≠ []) (kept : st.cache = some cached) (dirty : cached.dirty = true) :
    append cfg st buffer = some (wroteBehind cfg buffer
      { writeInternal cfg cached st with request := none, cache := none }) := by
  have notFirst : ¬(st.diskEmpty cfg = true ∧ st.cache.isNone = true ∧ cfg.superpCnt = 1) := by
    rintro ⟨-, impossible, -⟩
    rw [kept] at impossible
    exact Bool.false_ne_true impossible
  unfold append
  rw [if_neg nonempty, if_neg notFirst]
  split
  · rename_i cached' isCached
    obtain rfl : cached' = cached := Option.some.inj (isCached.symm.trans kept)
    rw [if_pos dirty]
    rfl
  · rename_i isNone
    rw [kept] at isNone
    contradiction

theorem appending_wroteBehind (transfers : Transfers cfg) (st : DiskStream)
    {written : Nat → List Byte} {buffer : MemoryBuffer Byte}
    (holds : ∀ s < cfg.superpCnt, (st.view s).Holds (written s)) (uncached : st.cache = none)
    (mode : st.requestSuperp = none) (unfiltered : st.randomBitset = none)
    (nonempty : cfg.superpCnt = 1 → appended cfg [buffer] 0 ≠ []) :
    Appending cfg (fun s => written s ++ appended cfg [buffer] s) (wroteBehind cfg buffer st) := by
  obtain ⟨sameMode, holds'⟩ := holds_writeInternal transfers buffer holds
  refine .onDisk holds' (sameMode.cache.trans uncached) (sameMode.requestSuperp.trans mode)
    (sameMode.bitset.trans unfiltered) ?_
  intro single _ nothing
  exact nonempty single (List.append_eq_nil_iff.mp nothing).2

theorem Appending.congr {written : Nat → List Byte} {st : DiskStream}
    (appending : Appending cfg written st) (written' : Nat → List Byte)
    (same : ∀ s < cfg.superpCnt, written s = written' s) :
    Appending cfg written' st := by
  cases appending with
  | onDisk holds uncached mode unfiltered request =>
    refine .onDisk (fun s below => ?_) uncached mode unfiltered (fun single => ?_)
    · rw [← same s below]
      exact holds s below
    · rw [← same 0 (by omega)]
      exact request single
  | inMemory holds cached single dirty whole nonempty content mode unfiltered request =>
    exact .inMemory holds cached single dirty whole nonempty
      ((same 0 (by omega)).symm.trans content) mode unfiltered request

/-- `append` appends. -/
theorem appending_append (transfers : Transfers cfg) (positive : 0 < cfg.superpCnt)
    {written : Nat → List Byte} {st : DiskStream} (appending : Appending cfg written st)
    {buffer : MemoryBuffer Byte}
    (wholeBuffer : cfg.superpCnt = 1 → appended cfg [buffer] 0 = buffer.buffer) :
    ∃ st', append cfg st buffer = some st' ∧
      Appending cfg (fun s => written s ++ appended cfg [buffer] s) st' := by
  by_cases empty : buffer.buffer = []
  · refine ⟨st, ?_, ?_⟩
    · unfold append
      rw [if_pos empty]
    · simp only [appended_of_empty empty, List.append_nil]
      exact appending
  have nonempty : cfg.superpCnt = 1 → appended cfg [buffer] 0 ≠ [] := by
    intro single
    rw [wholeBuffer single]
    exact empty
  cases appending with
  | onDisk holds uncached mode unfiltered request =>
    by_cases first : st.diskEmpty cfg = true ∧ cfg.superpCnt = 1
    · obtain ⟨diskEmpty, single⟩ := first
      rw [diskEmpty_of_single single] at diskEmpty
      have nothing : written 0 = [] := by
        have bytes := (holds 0 positive).bytes
        exact List.eq_nil_of_length_eq_zero (bytes.symm.trans (of_decide_eq_true diskEmpty))
      have noRequest : st.request = none := by
        rw [← Option.not_isSome_iff_eq_none]
        intro pending
        exact request single pending nothing
      refine ⟨_, append_first single empty (of_decide_eq_true diskEmpty) uncached noRequest,
        .inMemory (fun s below => ?_) rfl single rfl (wholeBuffer single) empty ?_ mode unfiltered
          noRequest⟩
      · obtain rfl : s = 0 := by omega
        have atStart := holds 0 below
        rw [nothing] at atStart
        exact atStart
      · rw [nothing, wholeBuffer single]
        rfl
    · exact ⟨_, append_later empty uncached first,
        appending_wroteBehind transfers st holds uncached mode unfiltered nonempty⟩
  | inMemory holds cached single dirty whole _ content mode unfiltered request =>
    rename_i kept _
    obtain ⟨sameMode, holds'⟩ := holds_writeInternal transfers kept holds
    refine ⟨_, append_kept empty cached dirty, ?_⟩
    have appending := appending_wroteBehind transfers { writeInternal cfg kept st with
      request := none, cache := none } holds' rfl (sameMode.requestSuperp.trans mode)
      (sameMode.bitset.trans unfiltered) nonempty
    refine appending.congr _ fun s below => ?_
    obtain rfl : s = 0 := by omega
    rw [List.nil_append, whole, content]

/-- All appended buffers. -/
theorem appending_appendAll (transfers : Transfers cfg) (positive : 0 < cfg.superpCnt)
    (buffers : List (MemoryBuffer Byte)) {written : Nat → List Byte} {st : DiskStream}
    (appending : Appending cfg written st)
    (indexed : ∀ buffer ∈ buffers, buffer.Indexed cfg.processors cfg.superpCnt) :
    ∃ st', appendAll cfg buffers st = some st' ∧
      Appending cfg (fun s => written s ++ appended cfg buffers s) st' := by
  induction buffers generalizing written st with
  | nil =>
    refine ⟨st, rfl, ?_⟩
    simpa [appended] using appending
  | cons buffer buffers ih =>
    obtain ⟨st1, first, appending1⟩ := appending_append transfers positive appending
      (appended_of_single (indexed buffer List.mem_cons_self))
    obtain ⟨st2, rest, appending2⟩ := ih appending1 fun b member =>
      indexed b (List.mem_cons_of_mem _ member)
    refine ⟨st2, ?_, ?_⟩
    · unfold appendAll
      rw [first, Option.bind_some, rest]
    · simpa [appended, List.append_assoc] using appending2

/-- A new stream. -/
theorem appending_opened : Appending cfg (fun _ => []) (opened fun _ => []) := by
  refine .onDisk (fun s _ => ⟨⟨rfl, rfl, List.length_replicate, rfl⟩, rfl, rfl⟩) rfl rfl rfl ?_
  intro _ impossible
  contradiction

end Append

end DiskStream

end MBFGraph
