import MBFGraph.Core.DiskStream

/-!
# What reading a stream leaves alone

A read of super partition `s` changes no file content and no other position, and it leaves the
bitset alone. When `do_stream` is through, nothing is under way.
-/

namespace MBFGraph

open ByteBits Overwrite Stdio BitScan

namespace DiskStream

theorem readChunks_content (fd : File Byte) (bytes ioSize : Nat) :
    (readChunks fd bytes ioSize).2.1.content = fd.content := by
  fun_induction readChunks fd bytes ioSize with
  | case1 fd bytes ioSize page tooMuch ih => exact ih
  | case2 fd bytes ioSize page fits units rest ih => exact ih
  | case3 fd bytes ioSize small => rfl

theorem readWhole_content (streamUnit : Nat) (fd : File Byte) (diskPage : List Byte)
    (bytes : Nat) : (readWhole streamUnit fd diskPage bytes).2.1.content = fd.content := by
  unfold readWhole
  simp only
  split
  · rw [fread_content, readChunks_content]
  · exact readChunks_content _ _ _

theorem doReadIo_content (streamUnit : Nat) (fd : File Byte) (diskPage : List Byte)
    (bytes diskBufferPos : Nat) :
    (doReadIo streamUnit fd diskPage bytes diskBufferPos).2.1.content = fd.content := by
  unfold doReadIo
  simp only
  split
  · split
    · rfl
    · exact readWhole_content _ _ _ _
  · exact readWhole_content _ _ _ _

/-- What a read request of super partition `s` leaves alone. -/
structure RequestFrame (s : Nat) (st st' : DiskStream) : Prop where
  contents : ∀ i, (st'.fds i).content = (st.fds i).content
  diskBytes : st'.diskBytes = st.diskBytes
  others : ∀ i, i ≠ s → st'.diskPos i = st.diskPos i
  elsewhere : ∀ i, i ≠ s → st'.fds i = st.fds i ∧ st'.diskPages i = st.diskPages i
  bitset : st'.randomBitset = st.randomBitset
  randomPos : st.randomBitset = none → st'.randomPos = st.randomPos
  cache : st'.cache = st.cache
  request : st'.request = st.request
  requestSuperp : st'.requestSuperp = st.requestSuperp

theorem RequestFrame.refl (s : Nat) (st : DiskStream) : RequestFrame s st st :=
  ⟨fun _ => rfl, rfl, fun _ _ => rfl, fun _ _ => ⟨rfl, rfl⟩, rfl, fun _ => rfl, rfl, rfl, rfl⟩

theorem RequestFrame.trans {s : Nat} {st st' st'' : DiskStream} (first : RequestFrame s st st')
    (second : RequestFrame s st' st'') : RequestFrame s st st'' where
  contents i := (second.contents i).trans (first.contents i)
  diskBytes := second.diskBytes.trans first.diskBytes
  others i other := (second.others i other).trans (first.others i other)
  elsewhere i other :=
    ⟨(second.elsewhere i other).1.trans (first.elsewhere i other).1,
      (second.elsewhere i other).2.trans (first.elsewhere i other).2⟩
  bitset := second.bitset.trans first.bitset
  randomPos unfiltered :=
    (second.randomPos (first.bitset.trans unfiltered)).trans (first.randomPos unfiltered)
  cache := second.cache.trans first.cache
  request := second.request.trans first.request
  requestSuperp := second.requestSuperp.trans first.requestSuperp

variable {cfg : StreamConfig} {s : Nat}

theorem requestFrame_readOperator (st : DiskStream) :
    RequestFrame s st (readOperator cfg st s).2 where
  contents i := by
    unfold readOperator
    by_cases same : i = s
    · subst same
      simp only [Function.update_self, doReadIo_content]
    · simp only [Function.update_of_ne same]
  diskBytes := rfl
  others i other := Function.update_of_ne other ..
  elsewhere i other := ⟨Function.update_of_ne other .., Function.update_of_ne other ..⟩
  bitset := rfl
  randomPos _ := rfl
  cache := rfl
  request := rfl
  requestSuperp := rfl

/-- Moving through the bitset. -/
theorem requestFrame_move {st : DiskStream} {test : List Byte} (filtered : st.randomBitset = some test)
    (pos : Option Nat) (diskPos : Nat) :
    RequestFrame s st { st with
      randomPos := pos, diskPos := Function.update st.diskPos s diskPos } where
  contents _ := rfl
  diskBytes := rfl
  others i other := Function.update_of_ne other ..
  elsewhere _ _ := ⟨rfl, rfl⟩
  bitset := rfl
  randomPos unfiltered := by rw [filtered] at unfiltered; contradiction
  cache := rfl
  request := rfl
  requestSuperp := rfl

theorem requestFrame_search {st st' : DiskStream} {processedBuf : Nat} {piece : Nat × Nat}
    (done : searchAndUpdateNextPositions cfg st s processedBuf = some (piece, st')) :
    RequestFrame s st st' := by
  unfold searchAndUpdateNextPositions at done
  split at done
  · rename_i test cur filtered found
    split at done
    · contradiction
    · simp only at done
      split at done
      · split at done
        · contradiction
        · obtain ⟨-, rfl⟩ := Prod.mk.inj (Option.some.inj done)
          exact requestFrame_move filtered _ _
      · split at done
        · obtain ⟨-, rfl⟩ := Prod.mk.inj (Option.some.inj done)
          exact requestFrame_move filtered _ _
        · obtain ⟨-, rfl⟩ := Prod.mk.inj (Option.some.inj done)
          exact requestFrame_move filtered _ _
  · contradiction

theorem requestFrame_randomReadFrom {fuel : Nat} {st st' : DiskStream} {processedBuf : Nat}
    {data : List Byte} {buffer : MemoryBuffer Byte}
    (done : randomReadFrom cfg s fuel st processedBuf data = some (buffer, st')) :
    RequestFrame s st st' := by
  induction fuel generalizing st processedBuf data with
  | zero => contradiction
  | succ fuel ih =>
    unfold randomReadFrom at done
    split at done
    · obtain ⟨next, found, more⟩ := Option.bind_eq_some_iff.mp done
      obtain ⟨units, -, rest⟩ := Option.bind_eq_some_iff.mp more
      exact (requestFrame_search found).trans (ih rest)
    · obtain ⟨-, rfl⟩ := Prod.mk.inj (Option.some.inj done)
      exact RequestFrame.refl s st

theorem requestFrame_readRequest {st st' : DiskStream} {buffer : MemoryBuffer Byte}
    (done : readRequest cfg st s = some (buffer, st')) : RequestFrame s st st' := by
  unfold readRequest at done
  split at done
  · split at done
    · exact requestFrame_randomReadFrom done
    · contradiction
  · have result := Option.some.inj done
    have after : (readOperator cfg st s).2 = st' := by rw [result]
    rw [← after]
    exact requestFrame_readOperator st

/-- What `read` and `do_stream` leave alone. A request is always for `s`, and none is pending
while a buffer is kept. -/
structure StreamFrame (cfg : StreamConfig) (s : Nat) (st st' : DiskStream) : Prop where
  contents : ∀ i, (st'.fds i).content = (st.fds i).content
  diskBytes : st'.diskBytes = st.diskBytes
  others : ∀ i, i ≠ s → st'.diskPos i = st.diskPos i
  elsewhere : ∀ i, i ≠ s → st'.fds i = st.fds i ∧ st'.diskPages i = st.diskPages i
  bitset : st'.randomBitset = st.randomBitset
  randomPos : st.randomBitset = none → st'.randomPos = st.randomPos
  appending : st'.requestSuperp = none → st.requestSuperp = none ∧ st'.diskPos = st.diskPos
  uncached : st'.cache = none → st.cache = none
  cached : cfg.superpCnt ≠ 1 → st'.cache = st.cache

theorem StreamFrame.refl (s : Nat) (st : DiskStream) : StreamFrame cfg s st st :=
  ⟨fun _ => rfl, rfl, fun _ _ => rfl, fun _ _ => ⟨rfl, rfl⟩, rfl, fun _ => rfl,
    fun appending => ⟨appending, rfl⟩, id, fun _ => rfl⟩

theorem StreamFrame.trans {s : Nat} {st st' st'' : DiskStream}
    (first : StreamFrame cfg s st st') (second : StreamFrame cfg s st' st'') :
    StreamFrame cfg s st st'' where
  contents i := (second.contents i).trans (first.contents i)
  diskBytes := second.diskBytes.trans first.diskBytes
  others i other := (second.others i other).trans (first.others i other)
  elsewhere i other :=
    ⟨(second.elsewhere i other).1.trans (first.elsewhere i other).1,
      (second.elsewhere i other).2.trans (first.elsewhere i other).2⟩
  bitset := second.bitset.trans first.bitset
  randomPos unfiltered :=
    (second.randomPos (first.bitset.trans unfiltered)).trans (first.randomPos unfiltered)
  appending none_ := by
    obtain ⟨none', same'⟩ := second.appending none_
    obtain ⟨none'', same''⟩ := first.appending none'
    exact ⟨none'', same'.trans same''⟩
  uncached none_ := first.uncached (second.uncached none_)
  cached several := (second.cached several).trans (first.cached several)

/-- What is under way on a stream that is read for `s`. -/
structure Underway (s : Nat) (st : DiskStream) : Prop where
  request : st.request.isSome → st.requestSuperp = some s
  cache : st.cache.isSome → st.request = none

/-- A request for `s`, as a step of the stream. -/
theorem RequestFrame.streamFrame (cfg : StreamConfig) {st st' : DiskStream}
    (frame : RequestFrame s st st') (named : st.requestSuperp = some s) : StreamFrame cfg s st st' where
  contents := frame.contents
  diskBytes := frame.diskBytes
  others := frame.others
  elsewhere := frame.elsewhere
  bitset := frame.bitset
  randomPos := frame.randomPos
  appending none_ := by
    rw [frame.requestSuperp, named] at none_
    contradiction
  uncached none_ := frame.cache.symm.trans none_
  cached _ := frame.cache

theorem awaited_of_noRequest {st : DiskStream} (noRequest : st.request = none) :
    awaited cfg st s = readRequest cfg { st with requestSuperp := some s } s := by
  unfold awaited
  split
  · rename_i isSome
    rw [noRequest] at isSome
    contradiction
  · rfl

theorem awaited_of_request {st : DiskStream} {buffer : MemoryBuffer Byte}
    (pending : st.request = some buffer) (named : st.requestSuperp = some s) :
    awaited cfg st s = some (buffer, st) := by
  unfold awaited
  split
  · rename_i other isOther
    rw [if_pos named, Option.some.inj (isOther.symm.trans pending)]
  · rename_i isNone
    rw [pending] at isNone
    contradiction

theorem read_of_uncached {st : DiskStream} (uncached : st.cache = none) :
    DiskStream.read cfg st s = (awaited cfg st s).bind fun done =>
      readAhead cfg s (st.diskPos s) done.1 done.2 := by
  unfold DiskStream.read
  split
  · rename_i isSome
    rw [uncached] at isSome
    contradiction
  · rfl

theorem frame_awaited {st st' : DiskStream} {buffer : MemoryBuffer Byte}
    (done : awaited cfg st s = some (buffer, st')) :
    StreamFrame cfg s st st' ∧ st'.requestSuperp = some s ∧ st'.cache = st.cache := by
  have named : StreamFrame cfg s st { st with requestSuperp := some s } :=
    ⟨fun _ => rfl, rfl, fun _ _ => rfl, fun _ _ => ⟨rfl, rfl⟩, rfl, fun _ => rfl,
      fun none_ => by contradiction, id, fun _ => rfl⟩
  have issued : readRequest cfg { st with requestSuperp := some s } s = some (buffer, st') →
      StreamFrame cfg s st st' ∧ st'.requestSuperp = some s ∧ st'.cache = st.cache := by
    intro issue
    have frame := requestFrame_readRequest issue
    exact ⟨named.trans (frame.streamFrame cfg rfl), frame.requestSuperp, frame.cache⟩
  unfold awaited at done
  split at done
  · rename_i pending isPending
    split at done
    · rename_i forS
      obtain ⟨-, rfl⟩ := Prod.mk.inj (Option.some.inj done)
      exact ⟨StreamFrame.refl s st, forS, rfl⟩
    · exact issued done
  · exact issued done

theorem frame_readAhead {st st' : DiskStream} {currentPos : Nat}
    {result buffer : MemoryBuffer Byte} (named : st.requestSuperp = some s)
    (uncached : st.cache = none)
    (done : readAhead cfg s currentPos result st = some (buffer, st')) :
    buffer = result ∧ StreamFrame cfg s st st' ∧ Underway s st' := by
  unfold readAhead at done
  split at done
  · obtain ⟨⟨ahead, st1⟩, issued, same⟩ := Option.map_eq_some_iff.mp done
    have frame := requestFrame_readRequest issued
    obtain ⟨rfl, rfl⟩ := Prod.mk.inj same
    have step := frame.streamFrame cfg named
    refine ⟨rfl, ⟨step.contents, step.diskBytes, step.others, step.elsewhere, step.bitset,
      step.randomPos, step.appending, step.uncached, step.cached⟩, fun _ => frame.requestSuperp.trans named, ?_⟩
    intro cached
    have kept : st1.cache = none := frame.cache.trans uncached
    change st1.cache.isSome = true at cached
    rw [kept] at cached
    contradiction
  · split at done
    · rename_i keeps
      obtain ⟨rfl, rfl⟩ := Prod.mk.inj (Option.some.inj done)
      exact ⟨rfl, ⟨fun _ => rfl, rfl, fun _ _ => rfl, fun _ _ => ⟨rfl, rfl⟩, rfl, fun _ => rfl,
        fun none_ => ⟨none_, rfl⟩, fun impossible => by contradiction,
        fun several => absurd keeps.1 several⟩, fun impossible => by contradiction, fun _ => rfl⟩
    · obtain ⟨rfl, rfl⟩ := Prod.mk.inj (Option.some.inj done)
      exact ⟨rfl, ⟨fun _ => rfl, rfl, fun _ _ => rfl, fun _ _ => ⟨rfl, rfl⟩, rfl, fun _ => rfl,
        fun none_ => ⟨none_, rfl⟩, id, fun _ => rfl⟩, fun impossible => by contradiction,
        fun _ => rfl⟩

theorem frame_read {st st' : DiskStream} {buffer : MemoryBuffer Byte} (underway : Underway s st)
    (done : read cfg st s = some (buffer, st')) : StreamFrame cfg s st st' ∧ Underway s st' := by
  cases cached : st.cache with
  | some kept =>
    unfold read at done
    rw [cached] at done
    simp only at done
    split at done
    · contradiction
    · obtain ⟨-, rfl⟩ := Prod.mk.inj (Option.some.inj done)
      exact ⟨⟨fun _ => rfl, rfl, fun _ _ => rfl, fun _ _ => ⟨rfl, rfl⟩, rfl, fun _ => rfl,
        fun none_ => ⟨none_, rfl⟩, fun impossible => cached.trans impossible,
        fun _ => cached.symm⟩,
        underway.request, fun _ => underway.cache (by rw [cached]; rfl)⟩
  | none =>
    rw [read_of_uncached cached] at done
    obtain ⟨⟨result, st1⟩, first, second⟩ := Option.bind_eq_some_iff.mp done
    obtain ⟨frame, named, sameCache⟩ := frame_awaited first
    obtain ⟨-, frame', underway'⟩ := frame_readAhead named (sameCache.trans cached) second
    exact ⟨frame.trans frame', underway'⟩

/-- When `do_stream` is through, it has left everything else alone and no request is pending. -/
theorem frame_doStream {fuel : Nat} {st st' : DiskStream} {buffers : List (List Byte)}
    (underway : Underway s st) (done : doStream cfg s fuel st = some (buffers, st')) :
    StreamFrame cfg s st st' ∧ st'.request = none := by
  induction fuel generalizing st buffers with
  | zero => contradiction
  | succ fuel ih =>
    unfold doStream at done
    split at done
    · rename_i atEnd
      obtain ⟨-, rfl⟩ := Prod.mk.inj (Option.some.inj done)
      refine ⟨StreamFrame.refl s st, ?_⟩
      cases pending : st.request with
      | none => rfl
      | some buffer =>
        -- a pending request is for `s`, so the stream is not at its end
        have forS := underway.request (by rw [pending]; rfl)
        have uncached : st.cache.isSome = false := by
          cases cached : st.cache with
          | none => rfl
          | some kept =>
            have none_ := underway.cache (by rw [cached]; rfl)
            rw [pending] at none_
            contradiction
        unfold streamEof at atEnd
        rw [uncached, pending, forS] at atEnd
        simp at atEnd
    · obtain ⟨⟨buffer, st1⟩, isRead, more⟩ := Option.bind_eq_some_iff.mp done
      obtain ⟨frame, underway'⟩ := frame_read underway isRead
      obtain ⟨⟨results, st2⟩, rest, same⟩ := Option.map_eq_some_iff.mp more
      obtain ⟨-, rfl⟩ := Prod.mk.inj same
      obtain ⟨frame', none_⟩ := ih underway' rest
      exact ⟨frame.trans frame', none_⟩

end DiskStream

end MBFGraph
