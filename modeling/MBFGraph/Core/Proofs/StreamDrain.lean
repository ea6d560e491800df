import MBFGraph.Core.Proofs.StreamFrame

/-!
# Draining a stream

`do_stream` with its read-ahead hands on what the single requests would read, in order. A source
says what a state still has to deliver; a request takes a piece off its front.
-/

namespace MBFGraph

open ByteBits Overwrite Stdio BitScan

namespace DiskStream

/-- What super partition `s` of a stream still delivers: `P st rest n` says that the bytes `rest`
are left, and that `n` bounds the number of requests. -/
structure Source (cfg : StreamConfig) (s : Nat) (P : DiskStream → List Byte → Nat → Prop) :
    Prop where
  atEnd : ∀ {st rest n}, P st rest n → (st.diskPos s = st.diskBytes s ↔ n = 0)
  done : ∀ {st rest}, P st rest 0 → rest = []
  request : ∀ {st rest n}, P st rest n → 0 < n → ∃ units rest' n' st',
    readRequest cfg st s = some (MemoryBuffer.unindexed units, st') ∧
      units.length ≤ cfg.bufbytes ∧ rest = units ++ rest' ∧ n' < n ∧ P st' rest' n'
  congr : ∀ {st rest n}, P st rest n → ∀ requestSuperp request cache eofFlag,
    P { st with requestSuperp, request, cache, eofFlag } rest n

variable {cfg : StreamConfig} {s : Nat} {P : DiskStream → List Byte → Nat → Prop}

/-- The request that is pending, if there is one, has read `pending`. -/
def Pending (cfg : StreamConfig) (s : Nat) (pending : List Byte) (st : DiskStream) : Prop :=
  st.request = none ∧ pending = [] ∨
    st.request = some (MemoryBuffer.unindexed pending) ∧ st.requestSuperp = some s ∧
      pending.length ≤ cfg.bufbytes

/-- How much is left to do. -/
def remaining (n : Nat) (st : DiskStream) : Nat := 2 * n + if st.request.isSome then 1 else 0

/-- What `read` leaves behind: either the source with what was read ahead, or the buffer it keeps,
and then the source is at its end. -/
def Drained (cfg : StreamConfig) (s : Nat) (P : DiskStream → List Byte → Nat → Prop)
    (rest : List Byte) (n : Nat) (st : DiskStream) : Prop :=
  (st.cache = none ∧ ∃ pending rest' n', Pending cfg s pending st ∧ P st rest' n' ∧
      rest = pending ++ rest' ∧ n' ≤ n ∧ (st.request.isSome → n' < n)) ∨
    (st.cache.isSome ∧ st.eofFlag = true ∧ P st [] 0 ∧ rest = [])

/-- The second half of `read`. -/
theorem readAhead_of_source (source : Source cfg s P) (currentPos : Nat) {st : DiskStream} {rest : List Byte}
    {n : Nat} (left : P st rest n) (uncached : st.cache = none)
    (named : st.requestSuperp = some s) (result : MemoryBuffer Byte) :
    ∃ st', readAhead cfg s currentPos result st = some (result, st') ∧
      Drained cfg s P rest n st' := by
  unfold readAhead eof
  by_cases more : n = 0
  · subst more
    have atEnd := (source.atEnd left).mpr rfl
    have nothing := source.done left
    rw [if_neg (by simp [atEnd])]
    split
    · refine ⟨_, rfl, Or.inr ⟨rfl, rfl, ?_, nothing⟩⟩
      rw [nothing] at left
      exact source.congr left _ _ _ _
    · exact ⟨_, rfl, Or.inl ⟨uncached, [], rest, 0, Or.inl ⟨rfl, rfl⟩,
        source.congr left st.requestSuperp none st.cache st.eofFlag, rfl, Nat.le_refl _,
        fun impossible => by contradiction⟩⟩
  · have notAtEnd : st.diskPos s ≠ st.diskBytes s := fun atEnd => more ((source.atEnd left).mp atEnd)
    obtain ⟨units, rest', n', st', requested, small, same, less, left'⟩ :=
      source.request left (Nat.pos_of_ne_zero more)
    have frame := requestFrame_readRequest requested
    rw [if_pos (by simpa using notAtEnd), requested, Option.map_some]
    exact ⟨_, rfl, Or.inl ⟨frame.cache.trans uncached, units, rest', n',
      Or.inr ⟨rfl, frame.requestSuperp.trans named, small⟩,
      source.congr left' st'.requestSuperp _ st'.cache st'.eofFlag, same, Nat.le_of_lt less,
      fun _ => less⟩⟩

/-- A stream that keeps a buffer it has handed on is at its end. -/
theorem doStream_of_eofFlag {st : DiskStream} (cached : st.cache.isSome)
    (flag : st.eofFlag = true) {fuel : Nat} (enough : 0 < fuel) :
    doStream cfg s fuel st = some ([], st) := by
  obtain ⟨fuel, rfl⟩ : ∃ m, fuel = m + 1 := ⟨fuel - 1, by omega⟩
  unfold doStream streamEof
  rw [if_pos cached, if_pos flag]

/-- `do_stream` hands on all that is left, by induction on what is left to do. -/
theorem doStream_of_remaining (source : Source cfg s P) (size : Nat) {n : Nat}
    {pending rest : List Byte} {st : DiskStream} (left : P st rest n) (uncached : st.cache = none)
    (isPending : Pending cfg s pending st) (small : remaining n st ≤ size) :
    ∃ out after, (∀ fuel, size + 1 < fuel → doStream cfg s fuel st = some (out, after)) ∧
      P after [] 0 ∧ (∀ buffer ∈ out, buffer.length ≤ cfg.bufbytes) ∧
      out.flatten = pending ++ rest := by
  induction size using Nat.strongRecOn generalizing n pending rest st with
  | ind size ih =>
    -- `read` hands on a buffer and leaves less to do
    have step : ∀ {units rest' : List Byte} {m : Nat} {st' : DiskStream},
        st.streamEof s = false →
        DiskStream.read cfg st s = some (MemoryBuffer.unindexed units, st') →
        units.length ≤ cfg.bufbytes → Drained cfg s P rest' m st' →
        pending ++ rest = units ++ rest' →
        (∀ k, k ≤ m → (st'.request.isSome → k < m) → remaining k st' < remaining n st) →
        ∃ out after, (∀ fuel, size + 1 < fuel → doStream cfg s fuel st = some (out, after)) ∧
          P after [] 0 ∧ (∀ buffer ∈ out, buffer.length ≤ cfg.bufbytes) ∧
          out.flatten = pending ++ rest := by
      intro units rest' m st' notAtEnd isRead fits drained same less
      have unfolds : ∀ fuel out after, 0 < fuel →
          doStream cfg s (fuel - 1) st' = some (out, after) →
          doStream cfg s fuel st = some (units :: out, after) := by
        intro fuel out after enough rest
        obtain ⟨fuel, rfl⟩ : ∃ m, fuel = m + 1 := ⟨fuel - 1, by omega⟩
        rw [Nat.add_sub_cancel] at rest
        unfold doStream
        rw [notAtEnd, isRead]
        simp only [Bool.false_eq_true, if_false, Option.bind_some, rest, Option.map_some,
          MemoryBuffer.unindexed_buffer]
      rcases drained with
        ⟨uncached', pending', rest'', k, isPending', left', split, le, lt⟩ |
        ⟨cached', flag, left', nothing⟩
      · obtain ⟨out, after, streamed, final, sizes, flat⟩ :=
          ih (remaining k st') (by have := less k le lt; omega) left' uncached' isPending'
            (Nat.le_refl _)
        refine ⟨units :: out, after, ?_, final, ?_, ?_⟩
        · intro fuel enough
          refine unfolds fuel out after (by omega) (streamed _ ?_)
          have := less k le lt
          omega
        · intro buffer member
          rcases List.mem_cons.mp member with rfl | later
          · exact fits
          · exact sizes buffer later
        · rw [List.flatten_cons, flat, same, split]
      · refine ⟨[units], st', ?_, left', ?_, ?_⟩
        · intro fuel enough
          exact unfolds fuel [] st' (by omega) (doStream_of_eofFlag cached' flag (by omega))
        · intro buffer member
          rw [List.mem_singleton.mp member]
          exact fits
        · rw [same, nothing]
          rfl
    rcases isPending with ⟨noRequest, rfl⟩ | ⟨isRequest, named, fits⟩
    · have streamEof_eq : st.streamEof s = decide (st.diskPos s = st.diskBytes s) := by
        unfold streamEof eof
        rw [uncached, noRequest]
        simp
      by_cases finished : n = 0
      · subst finished
        have nothing := source.done left
        refine ⟨[], st, ?_, by rw [nothing] at left; exact left, by simp, by rw [nothing]; rfl⟩
        intro fuel enough
        obtain ⟨fuel, rfl⟩ : ∃ m, fuel = m + 1 := ⟨fuel - 1, by omega⟩
        unfold doStream
        rw [streamEof_eq, decide_eq_true ((source.atEnd left).mpr rfl), if_pos rfl]
      · have notAtEnd : st.streamEof s = false := by
          rw [streamEof_eq]
          exact decide_eq_false fun atEnd => finished ((source.atEnd left).mp atEnd)
        obtain ⟨units, rest', n', st1, requested, fits, same, less, left'⟩ :=
          source.request (source.congr left (some s) st.request st.cache st.eofFlag)
            (Nat.pos_of_ne_zero finished)
        have frame := requestFrame_readRequest requested
        obtain ⟨st2, ahead, drained⟩ := readAhead_of_source source (st.diskPos s)
          left' (frame.cache.trans uncached) frame.requestSuperp (MemoryBuffer.unindexed units)
        refine step notAtEnd ?_ fits drained ?_ ?_
        · rw [read_of_uncached uncached, awaited_of_noRequest noRequest, requested]
          exact ahead
        · rw [same, List.nil_append]
        · intro k le lt
          unfold remaining
          rw [noRequest]
          simp only [Option.isSome_none, Bool.false_eq_true, if_false]
          split
          · have := lt ‹_›
            omega
          · omega
    · have notAtEnd : st.streamEof s = false := by
        unfold streamEof
        rw [uncached, isRequest, named]
        simp
      obtain ⟨st2, ahead, drained⟩ := readAhead_of_source source (st.diskPos s) left
        uncached named (MemoryBuffer.unindexed pending)
      refine step notAtEnd ?_ fits drained rfl ?_
      · rw [read_of_uncached uncached, awaited_of_request isRequest named]
        exact ahead
      · intro k le lt
        unfold remaining
        rw [isRequest]
        simp only [Option.isSome_some, if_true]
        split
        · have := lt ‹_›
          omega
        · omega

/-- With enough fuel `do_stream` hands on all that is left. -/
theorem doStream_of_source (source : Source cfg s P) {n : Nat} {rest : List Byte}
    {st : DiskStream} (left : P st rest n) (uncached : st.cache = none)
    (noRequest : st.request = none) :
    ∃ size out after, (∀ fuel, size < fuel → doStream cfg s fuel st = some (out, after)) ∧
      P after [] 0 ∧ (∀ buffer ∈ out, buffer.length ≤ cfg.bufbytes) ∧ out.flatten = rest := by
  obtain ⟨out, after, streamed, final, sizes, flat⟩ :=
    doStream_of_remaining source (remaining n st) left uncached (Or.inl ⟨noRequest, rfl⟩)
      (Nat.le_refl _)
  exact ⟨remaining n st + 1, out, after, streamed, final, sizes, flat⟩

end DiskStream

end MBFGraph
