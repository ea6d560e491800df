import MBFGraph.Algorithms.Reverse
import MBFGraph.Core.Proofs.SplitWork
import MBFGraph.Core.Proofs.StreamPieces

/-!
# What reversal leaves on disk

An input buffer gives one output buffer, since the output of a buffer fits in a buffer. The first
output buffer is kept in memory and never written unless there is a second one.
-/

namespace MBFGraph

open ByteBits Overwrite Groups Records

namespace Type2

/-- What `write_edge` puts into a record, `read_edge` gets back. -/
theorem readEdge_writeEdge (buffer : List Byte) (edge : SimpleEdge) :
    readEdge (writeEdge buffer edge) = edge := by
  have src : load 32 (writeEdge buffer edge) 0 = edge.src := by
    unfold writeEdge
    rw [load_overwrite_of_disjoint (Or.inl (by decide)), load_overwrite_self (by decide)]
  have dst : load 32 (writeEdge buffer edge) sizeofVertexT = edge.dst :=
    load_overwrite_self (by decide) _ _ _
  unfold readEdge
  rw [src, dst]

theorem length_edgeBytes (edge : SimpleEdge) : (edgeBytes edge).length = splitSizeBytes := by
  unfold edgeBytes writeEdge
  rw [length_overwrite_inside, length_overwrite_inside, List.length_replicate]
  all_goals simp [splitSizeBytes, sizeofVertexT, length_overwrite_inside]

/-- Records that are written are read back. -/
theorem fileEdges_flatMap (edges : List SimpleEdge) :
    fileEdges (edges.flatMap edgeBytes) = edges := by
  have groups_eq : recordsOf splitSizeBytes (edges.flatMap edgeBytes) = edges.map edgeBytes :=
    fullGroups_flatMap (by decide) length_edgeBytes edges
  unfold fileEdges
  rw [groups_eq, List.map_map]
  exact List.map_id'' (readEdge_writeEdge _) edges

theorem length_flatMap_edgeBytes (edges : List SimpleEdge) :
    (edges.flatMap edgeBytes).length = edges.length * splitSizeBytes :=
  length_flatMap_const length_edgeBytes edges

theorem length_fileEdges (bytes : List Byte) :
    (fileEdges bytes).length = bytes.length / splitSizeBytes := by
  unfold fileEdges
  rw [List.length_map, DiskStream.length_recordsOf]

/-- Areas of whole records, one behind the other. -/
theorem fileEdges_flatten {areas : List (List Byte)}
    (whole : ∀ area ∈ areas, area.length % splitSizeBytes = 0) :
    fileEdges areas.flatten = areas.flatMap fileEdges := by
  induction areas with
  | nil => rfl
  | cons area areas ih =>
    rw [List.flatten_cons, List.flatMap_cons,
      ← ih fun area' member => whole area' (List.mem_cons_of_mem _ member)]
    unfold fileEdges
    rw [DiskStream.recordsOf_append (by decide) (whole area List.mem_cons_self), List.map_append]

end Type2

/-- An index in records covers the bytes. -/
theorem MemoryBuffer.Indexed.toBytes {processors : Nat} {b : MemoryBuffer SimpleEdge}
    (indexed : b.Indexed processors 1) : b.toBytes.Indexed processors 1 where
  indexEntries := indexed.indexEntries
  slices p below := by
    unfold MemoryBuffer.toBytes
    simp only
    rw [indexed.slices p below, List.sum_map_mul_right]
  total := by
    unfold MemoryBuffer.toBytes
    simp only
    rw [List.sum_map_mul_right, indexed.total, Type2.length_flatMap_edgeBytes]

namespace Reverse

section Work

/-- The pieces of a substream are its edges, exchanged. -/
theorem flatten_executeCallback (edges : List SimpleEdge) :
    (executeCallback edges).flatten = edges.map swapEnds := by
  fun_induction executeCallback edges with
  | case1 => rfl
  | case2 edges some_ ih => rw [List.flatten_cons, ih, partitionCallback_split]

variable {cfg : StreamConfig} {force : Bool}

/-- The pieces of all processors are all edges, exchanged. -/
theorem perm_workPieces {key : SimpleEdge → Nat} {partitions : Nat} {b b' : SplitBuffers SimpleEdge}
    (partitioned : Partitioned key cfg.processors partitions b b') (positive : 0 < cfg.processors)
    (keys : ∀ e ∈ b.stream.buffer, key e < partitions) :
    (workPieces cfg b').flatten.Perm (b.stream.buffer.map swapEnds) := by
  have flat : (workPieces cfg b').flatten =
      (b'.workq.flatMap fun k => (List.range cfg.processors).flatMap fun p =>
        b'.stream.getSubstream p k).map swapEnds := by
    unfold workPieces
    rw [← List.flatMap_id, List.flatMap_assoc, List.map_flatMap]
    refine List.flatMap_congr fun k _ => ?_
    rw [List.flatMap_assoc, List.map_flatMap]
    refine List.flatMap_congr fun p _ => ?_
    rw [List.flatMap_id, flatten_executeCallback]
  rw [flat]
  exact (partitioned.perm_workq positive keys).map swapEnds

/-- While there is room no buffer is flushed. -/
theorem appendBuffer_of_room {fuel : Nat} {records held : List SimpleEdge}
    {flushed : List (List SimpleEdge)} (enough : 0 < fuel)
    (room : (held.length + records.length) * Type2.splitSizeBytes ≤ cfg.bufbytes) :
    appendBuffer cfg force fuel records ⟨some held, flushed⟩ =
      some ⟨some (held ++ records), flushed⟩ := by
  obtain ⟨fuel, rfl⟩ : ∃ n, fuel = n + 1 := ⟨fuel - 1, by omega⟩
  cases records with
  | nil => rw [List.append_nil]; rfl
  | cons edge edges =>
    have record : 0 < Type2.splitSizeBytes := by decide
    rw [Nat.add_mul] at room
    unfold appendBuffer
    simp only [Option.bind_some]
    rw [Nat.min_eq_right (by omega), Nat.mul_div_cancel _ record, List.take_length,
      List.drop_length, if_neg (by simp)]
    cases fuel <;> rfl

/-- The pieces that arrive are put one behind the other. -/
theorem appendPieces_of_room {fuel : Nat} (pieces : List (List SimpleEdge)) {held : List SimpleEdge}
    {flushed : List (List SimpleEdge)} (enough : 0 < fuel)
    (room : (held.length + pieces.flatten.length) * Type2.splitSizeBytes ≤ cfg.bufbytes) :
    appendPieces cfg force fuel pieces ⟨some held, flushed⟩ =
      some ⟨some (held ++ pieces.flatten), flushed⟩ := by
  induction pieces generalizing held with
  | nil => simp [appendPieces]
  | cons piece pieces ih =>
    rw [List.flatten_cons, List.length_append, ← Nat.add_assoc] at room
    have first : appendBuffer cfg force fuel piece ⟨some held, flushed⟩ =
        some ⟨some (held ++ piece), flushed⟩ := appendBuffer_of_room enough
      (show (held.length + piece.length) * Type2.splitSizeBytes ≤ cfg.bufbytes from
        (Nat.mul_le_mul_right _ (Nat.le_add_right _ _)).trans room)
    have rest : appendPieces cfg force fuel pieces ⟨some (held ++ piece), flushed⟩ =
        some ⟨some (held ++ piece ++ pieces.flatten), flushed⟩ := ih (by rwa [List.length_append])
    unfold appendPieces at rest ⊢
    rw [List.foldlM_cons, first, Option.bind_eq_bind, Option.bind_some, rest, List.flatten_cons,
      List.append_assoc]

/-- Without fuel only empty pieces get through. -/
theorem appendPieces_zero {pieces : List (List SimpleEdge)} {start out : WorkOutput}
    (done : appendPieces cfg force 0 pieces start = some out) :
    pieces.flatten = [] ∧ out = start := by
  unfold appendPieces at done
  induction pieces with
  | nil => exact ⟨rfl, (Option.some.inj done).symm⟩
  | cons piece pieces ih =>
    rw [List.foldlM_cons, Option.bind_eq_bind] at done
    cases piece with
    | nil => exact ih done
    | cons edge edges => contradiction

/-- Whatever fuel was enough: nothing was flushed. -/
theorem eq_of_appendPieces {fuel : Nat} {pieces : List (List SimpleEdge)} {out : WorkOutput}
    (room : pieces.flatten.length * Type2.splitSizeBytes ≤ cfg.bufbytes)
    (done : appendPieces cfg force fuel pieces ⟨some [], []⟩ = some out) :
    out = ⟨some pieces.flatten, []⟩ := by
  rcases Nat.eq_zero_or_pos fuel with rfl | enough
  · obtain ⟨empty, rfl⟩ := appendPieces_zero done
    rw [empty]
  · have filled : appendPieces cfg force fuel pieces ⟨some [], []⟩ =
        some ⟨some ([] ++ pieces.flatten), []⟩ :=
      appendPieces_of_room pieces enough (by rwa [List.length_nil, Nat.zero_add])
    exact (Option.some.inj (filled.symm.trans done)).symm

variable {m : Mapping} {fanout : Nat}

/-- `make_index` splits every buffer. -/
theorem exists_splits {key : SimpleEdge → Nat} {k : Nat}
    (power : 2 ^ k = 1 ∨ ∃ d, 0 < d ∧ fanout = 2 ^ d) (records : List SimpleEdge) :
    ∃ b', Splits cfg fanout key (2 ^ k) records b' := by
  have ends : ∃ fuel, ∀ items (st : SplitState SimpleEdge),
      (xSplit key fanout (2 ^ k) items fuel st).isSome := by
    rcases power with one | ⟨d, bits, rfl⟩
    · refine ⟨0, fun items st => ?_⟩
      unfold xSplit
      rw [if_pos one]
      rfl
    · exact ⟨k + 1, fun items st => xSplit_isSome key bits items st⟩
  obtain ⟨fuel, ends⟩ := ends
  have returns : (makeIndex key cfg.processors fanout (2 ^ k) fuel ⟨MemoryBuffer.unindexed records,
      List.replicate records.length default, fun _ _ => 0, []⟩).isSome := makeIndex_isSome key ends
  obtain ⟨b', split⟩ := Option.isSome_iff_exists.mp returns
  exact ⟨b', fuel, _, List.length_replicate, split⟩

/-- The configuration that reversal runs with. -/
structure Configured (cfg : StreamConfig) (m : Mapping) (fanout : Nat) : Prop where
  sizes : DiskStream.Sizes cfg
  oneStream : cfg.superpCnt = 1
  onePartition : m.superPartitions = 1
  unit : cfg.streamUnitBytes = Type2.splitSizeBytes
  processors : 0 < cfg.processors
  fanout : m.cachedPartitions = 1 ∨ ∃ d, 0 < d ∧ fanout = 2 ^ d

theorem Configured.power (configured : Configured cfg m fanout) :
    2 ^ m.partitionShift = 1 ∨ ∃ d, 0 < d ∧ fanout = 2 ^ d := by
  rw [← m.cachedPartitions_eq]
  exact configured.fanout

/-- The pieces of an input buffer are its edges, exchanged. -/
theorem perm_of_splits (configured : Configured cfg m fanout) {records : List SimpleEdge}
    {split : SplitBuffers SimpleEdge}
    (splits : Splits cfg fanout (fun e => m.mapCachedPartition (type2.splitKey e 0))
      m.cachedPartitions records split) :
    (workPieces cfg split).flatten.Perm (records.map swapEnds) := by
  obtain ⟨fuel, aux, lengthAux, isSplit⟩ := splits
  rw [m.cachedPartitions_eq] at isSplit
  have keys : ∀ e ∈ records, m.mapCachedPartition (type2.splitKey e 0) < 2 ^ m.partitionShift := by
    intro e _
    rw [← m.cachedPartitions_eq]
    exact m.mapCachedPartition_lt _
  have partitioned := partitioned_of_makeIndex configured.processors configured.power keys rfl
    lengthAux (fun _ _ _ => rfl) isSplit
  exact perm_workPieces partitioned configured.processors keys

/-- A buffer with the edges of `bytes`, exchanged. -/
structure Swapped (cfg : StreamConfig) (bytes : List Byte) (buffer : MemoryBuffer Byte) : Prop where
  indexed : buffer.Indexed cfg.processors 1
  length : buffer.buffer.length = bytes.length
  edges : (Type2.fileEdges buffer.buffer).Perm ((Type2.fileEdges bytes).map swapEnds)

/-- An input buffer gives one output buffer. -/
theorem swapped_of_works (configured : Configured cfg m fanout) {bytes : List Byte}
    {outs : List (MemoryBuffer Byte)} (some_ : bytes ≠ [])
    (whole : bytes.length % Type2.splitSizeBytes = 0) (fits : bytes.length ≤ cfg.bufbytes)
    (works : Works cfg force m fanout bytes outs) :
    ∃ buffer, outs = [buffer] ∧ Swapped cfg bytes buffer := by
  obtain ⟨split, pieces, fuel, out, splits, order, filled, flushed⟩ := works
  have perm : pieces.flatten.Perm ((Type2.fileEdges bytes).map swapEnds) :=
    order.flatten.trans (perm_of_splits configured splits)
  have count : pieces.flatten.length * Type2.splitSizeBytes = bytes.length := by
    rw [perm.length_eq, List.length_map, Type2.length_fileEdges]
    exact Nat.div_mul_cancel (Nat.dvd_of_mod_eq_zero whole)
  have isOut := eq_of_appendPieces (by rw [count]; exact fits) filled
  have nonempty : pieces.flatten ≠ [] := by
    intro nothing
    rw [nothing] at count
    exact some_ (List.eq_nil_of_length_eq_zero (count.symm.trans (Nat.zero_mul _)))
  have flushes : (finalFlush force out).flushed = [pieces.flatten] := by
    rw [isOut]
    unfold finalFlush flushBuffer
    simp only [if_neg nonempty, List.nil_append]
  rw [flushes] at flushed
  obtain ⟨buffer, rest, ⟨indexed, ⟨fuel2, aux2, lengthAux2, isIndexed⟩, rfl⟩, nothing, rfl⟩ :=
    List.forall₂_cons_left_iff.mp flushed
  obtain rfl := List.forall₂_nil_left_iff.mp nothing
  rw [configured.onePartition] at isIndexed
  obtain ⟨covers, same⟩ := buffer_makeIndex_one configured.processors
    (fun e _ => by
      rw [m.mapSuperPartition_of_one configured.onePartition]
      exact Nat.one_pos)
    rfl lengthAux2 (fun _ _ _ => rfl) isIndexed
  refine ⟨_, rfl, covers.toBytes, ?_, ?_⟩
  · unfold MemoryBuffer.toBytes
    rw [same, Type2.length_flatMap_edgeBytes]
    exact count
  · unfold MemoryBuffer.toBytes
    rw [same, Type2.fileEdges_flatMap]
    exact perm

theorem exists_forall₂ {α β : Type} {R : α → β → Prop} (l : List α) (total : ∀ a ∈ l, ∃ b, R a b) :
    ∃ outs, List.Forall₂ R l outs := by
  induction l with
  | nil => exact ⟨[], .nil⟩
  | cons a l ih =>
    obtain ⟨b, related⟩ := total a List.mem_cons_self
    obtain ⟨outs, rest⟩ := ih fun a' member => total a' (List.mem_cons_of_mem a member)
    exact ⟨b :: outs, .cons related rest⟩

/-- Every input buffer is worked on. -/
theorem exists_works (configured : Configured cfg m fanout) {bytes : List Byte}
    (fits : bytes.length ≤ cfg.bufbytes) : ∃ outs, Works cfg force m fanout bytes outs := by
  obtain ⟨split, splits⟩ : ∃ b', Splits cfg fanout
      (fun e => m.mapCachedPartition (type2.splitKey e 0)) (2 ^ m.partitionShift)
      (Type2.fileEdges bytes) b' := exists_splits configured.power _
  rw [← m.cachedPartitions_eq] at splits
  have perm := perm_of_splits configured splits
  have room : (([] : List SimpleEdge).length + (workPieces cfg split).flatten.length) * Type2.splitSizeBytes ≤
      cfg.bufbytes := by
    rw [List.length_nil, Nat.zero_add, perm.length_eq, List.length_map, Type2.length_fileEdges]
    exact (Nat.div_mul_le_self _ _).trans fits
  have filled : appendPieces cfg force 1 (workPieces cfg split) ⟨some [], []⟩ =
      some ⟨some ([] ++ (workPieces cfg split).flatten), []⟩ :=
    appendPieces_of_room (workPieces cfg split) Nat.one_pos room
  obtain ⟨outs, flushed⟩ := exists_forall₂
    (R := fun records buffer => ∃ indexed : SplitBuffers SimpleEdge,
      Splits cfg fanout (fun e => m.mapSuperPartition (type2.splitKey e 0)) m.superPartitions
        records indexed ∧ buffer = indexed.stream.toBytes)
    (finalFlush force ⟨some ([] ++ (workPieces cfg split).flatten), []⟩).flushed fun records _ => by
      rw [configured.onePartition]
      obtain ⟨indexed, isIndexed⟩ : ∃ b', Splits cfg fanout
          (fun e => m.mapSuperPartition (type2.splitKey e 0)) (2 ^ 0) records b' :=
        exists_splits (Or.inl rfl) records
      exact ⟨_, indexed, isIndexed, rfl⟩
  exact ⟨outs, split, _, 1, _, splits, List.Perm.refl _, filled, flushed⟩

end Work

section Run

variable {cfg : StreamConfig} {force : Bool} {m : Mapping} {fanout : Nat}

/-- The output buffers hold the edges of the input buffers, exchanged. -/
theorem swapped_outs (configured : Configured cfg m fanout) {reads : List (List Byte)}
    {outs : List (List (MemoryBuffer Byte))}
    (pieces : ∀ bytes ∈ reads, bytes ≠ [] ∧ bytes.length % Type2.splitSizeBytes = 0 ∧
      bytes.length ≤ cfg.bufbytes)
    (works : List.Forall₂ (Works cfg force m fanout) reads outs) :
    List.Forall₂ (Swapped cfg) reads outs.flatten := by
  induction works with
  | nil => exact .nil
  | cons work _ ih =>
    obtain ⟨some_, whole, fits⟩ := pieces _ List.mem_cons_self
    obtain ⟨buffer, rfl, swapped⟩ := swapped_of_works configured some_ whole fits work
    exact .cons swapped (ih fun bytes member => pieces bytes (List.mem_cons_of_mem _ member))

/-- One output buffer behind the other holds all edges, exchanged. -/
theorem perm_of_swapped {reads : List (List Byte)} {buffers : List (MemoryBuffer Byte)}
    (swapped : List.Forall₂ (Swapped cfg) reads buffers) :
    (buffers.map MemoryBuffer.buffer).flatten.length = reads.flatten.length ∧
      ((buffers.map MemoryBuffer.buffer).flatMap Type2.fileEdges).Perm
        ((reads.flatMap Type2.fileEdges).map swapEnds) := by
  induction swapped with
  | nil => exact ⟨rfl, List.Perm.refl _⟩
  | cons first _ ih =>
    simp only [List.map_cons, List.flatten_cons, List.flatMap_cons, List.length_append,
      List.map_append]
    exact ⟨by rw [first.length, ih.1], first.edges.append ih.2⟩

/-- The pieces of a file of whole records. -/
theorem forall_mem_pieces (configured : Configured cfg m fanout) {file : List Byte}
    (whole : file.length % Type2.splitSizeBytes = 0) :
    ∀ bytes ∈ groups (DiskStream.wholeRecords cfg) file, bytes ≠ [] ∧
      bytes.length % Type2.splitSizeBytes = 0 ∧ bytes.length ≤ cfg.bufbytes := by
  intro bytes member
  have aligned : Type2.splitSizeBytes ∣ DiskStream.wholeRecords cfg := by
    unfold DiskStream.wholeRecords
    rw [configured.unit]
    exact Nat.dvd_mul_left _ _
  obtain ⟨some_, fits, isWhole⟩ := forall_mem_groups configured.sizes.wholeRecords_pos aligned
    (Nat.dvd_of_mod_eq_zero whole) bytes member
  exact ⟨some_, Nat.mod_eq_zero_of_dvd isWhole, fits.trans DiskStream.wholeRecords_le⟩

/-- Every buffer that is appended has an index, and some records. -/
theorem forall_mem_buffers {reads : List (List Byte)} {buffers : List (MemoryBuffer Byte)}
    (pieces : ∀ bytes ∈ reads, bytes ≠ [] ∧ bytes.length % Type2.splitSizeBytes = 0 ∧
      bytes.length ≤ cfg.bufbytes)
    (swapped : List.Forall₂ (Swapped cfg) reads buffers) :
    ∀ buffer ∈ buffers, buffer.Indexed cfg.processors 1 ∧ buffer.buffer ≠ [] ∧
      buffer.buffer.length % Type2.splitSizeBytes = 0 := by
  induction swapped with
  | nil => exact fun buffer absurd_ => absurd absurd_ List.not_mem_nil
  | cons first _ ih =>
    intro buffer member
    rcases List.mem_cons.mp member with rfl | later
    · obtain ⟨some_, whole, -⟩ := pieces _ List.mem_cons_self
      refine ⟨first.indexed, ?_, by rw [first.length]; exact whole⟩
      rw [← List.length_pos_iff, first.length]
      exact List.length_pos_iff.mpr some_
    · exact ih (fun bytes member => pieces bytes (List.mem_cons_of_mem _ member)) buffer later

theorem appended_eq_flatten {buffers : List (MemoryBuffer Byte)}
    (indexed : ∀ buffer ∈ buffers, buffer.Indexed cfg.processors 1) :
    DiskStream.appended cfg buffers 0 = (buffers.map MemoryBuffer.buffer).flatten := by
  unfold DiskStream.appended
  rw [← List.flatMap_def]
  exact List.flatMap_congr fun buffer member => (indexed buffer member).flatMap_getSubstream

/-- The bytes of the output buffers are the reversed graph. -/
theorem holdsReversed_of_swapped {reads : List (List Byte)} {buffers : List (MemoryBuffer Byte)}
    {outFile : List Byte}
    (pieces : ∀ bytes ∈ reads, bytes ≠ [] ∧ bytes.length % Type2.splitSizeBytes = 0 ∧
      bytes.length ≤ cfg.bufbytes)
    (swapped : List.Forall₂ (Swapped cfg) reads buffers)
    (written : (buffers.map MemoryBuffer.buffer).flatten <+: outFile) :
    HoldsReversed reads.flatten outFile := by
  obtain ⟨length, perm⟩ := perm_of_swapped swapped
  have whole : Type2.splitSizeBytes ∣ reads.flatten.length := by
    rw [List.length_flatten]
    refine List.dvd_sum fun n member => ?_
    obtain ⟨bytes, isRead, rfl⟩ := List.mem_map.mp member
    exact Nat.dvd_of_mod_eq_zero (pieces bytes isRead).2.1
  have front := List.prefix_iff_eq_take.mp written
  unfold HoldsReversed
  rw [Nat.div_mul_cancel whole, ← length, ← front,
    Type2.fileEdges_flatten fun bytes member => (pieces bytes member).2.1,
    Type2.fileEdges_flatten fun area member => ?_]
  · exact perm
  · obtain ⟨buffer, isBuffer, rfl⟩ := List.mem_map.mp member
    exact (forall_mem_buffers pieces swapped buffer isBuffer).2.2

variable (cfg force m fanout)

/-- Reversal runs to its end. -/
theorem exists_runs (configured : Configured cfg m fanout) {file : List Byte}
    (whole : file.length % Type2.splitSizeBytes = 0) :
    ∃ outFile, Runs cfg force m fanout file outFile := by
  have pieces := forall_mem_pieces configured whole
  rw [← configured.unit] at whole
  obtain ⟨fuel, inStream, inStream', reading, rewinds⟩ :=
    DiskStream.doStream_opened configured.sizes configured.oneStream whole
  obtain ⟨outs, works⟩ := exists_forall₂ (R := Works cfg force m fanout)
    (groups (DiskStream.wholeRecords cfg) file)
    fun bytes member => exists_works configured (pieces bytes member).2.2
  have swapped := swapped_outs configured pieces works
  obtain ⟨outStream, appends, appending⟩ := DiskStream.appending_appendAll
    configured.sizes.transfers (by rw [configured.oneStream]; exact Nat.one_pos) outs.flatten
    DiskStream.appending_opened fun buffer member => by
      rw [configured.oneStream]
      exact (forall_mem_buffers pieces swapped buffer member).1
  obtain ⟨outStream', rewinds', -⟩ := DiskStream.atStart_rewind appending
  exact ⟨_, fuel, _, inStream, inStream', outStream, outStream', outs, reading, works, appends,
    rewinds, rewinds', rfl⟩

variable {cfg force m fanout}

/-- Output that fits in one buffer is not written. -/
theorem outFile_of_short (configured : Configured cfg m fanout) {file outFile : List Byte}
    (whole : file.length % Type2.splitSizeBytes = 0) (some_ : file ≠ [])
    (short : file.length ≤ DiskStream.wholeRecords cfg)
    (runs : Runs cfg force m fanout file outFile) : outFile = [] := by
  obtain ⟨fuel, reads, inStream, -, outStream, outStream', outs, reading, works, appends,
    -, rewinds, rfl⟩ := runs
  have pieces := forall_mem_pieces configured whole
  rw [← configured.unit] at whole
  obtain rfl := DiskStream.eq_groups_of_doStream configured.sizes whole reading
  have swapped := swapped_outs configured pieces works
  have buffers := forall_mem_buffers pieces swapped
  rw [groups_of_length_le some_ short] at swapped
  obtain ⟨buffer, rest, -, nothing, isBuffers⟩ := List.forall₂_cons_left_iff.mp swapped
  obtain rfl := List.forall₂_nil_left_iff.mp nothing
  rw [isBuffers] at appends buffers
  exact DiskStream.content_of_single_buffer configured.oneStream
    (buffers buffer List.mem_cons_self).2.1 appends rewinds

/-- Output that needs several buffers is written. -/
theorem holdsReversed_of_long (configured : Configured cfg m fanout) {file outFile : List Byte}
    (whole : file.length % Type2.splitSizeBytes = 0)
    (long : DiskStream.wholeRecords cfg < file.length)
    (runs : Runs cfg force m fanout file outFile) : HoldsReversed file outFile := by
  obtain ⟨fuel, reads, inStream, -, outStream, outStream', outs, reading, works, appends,
    -, rewinds, rfl⟩ := runs
  have pieces := forall_mem_pieces configured whole
  rw [← configured.unit] at whole
  obtain rfl := DiskStream.eq_groups_of_doStream configured.sizes whole reading
  have swapped := swapped_outs configured pieces works
  have buffers := forall_mem_buffers pieces swapped
  have two := one_lt_length_groups configured.sizes.wholeRecords_pos long
  rw [swapped.length_eq] at two
  have written := DiskStream.prefix_of_two_buffers configured.sizes.transfers
    configured.oneStream two (fun buffer member => (buffers buffer member).1)
    (fun buffer member => (buffers buffer member).2.1) appends rewinds
  rw [appended_eq_flatten fun buffer member => (buffers buffer member).1] at written
  have holds := holdsReversed_of_swapped pieces swapped written
  rwa [flatten_groups] at holds

/-- An empty file has no edges. -/
theorem not_holdsReversed_nil {file : List Byte} (whole : file.length % Type2.splitSizeBytes = 0)
    (some_ : file ≠ []) : ¬ HoldsReversed file [] := by
  intro holds
  have count := holds.length_eq
  rw [List.take_nil, List.length_map, Type2.length_fileEdges, Type2.length_fileEdges,
    List.length_nil, Nat.zero_div] at count
  have positive := List.length_pos_iff.mpr some_
  have record : Type2.splitSizeBytes = 8 := rfl
  rw [record] at count whole
  omega

variable (cfg force m fanout)

/-- One processor, one partition, and buffers of two records. -/
def oneProcessor : StreamConfig where
  superpCnt := 1
  processors := 1
  streamUnitBytes := 8
  bufbytes := 16
  subBufSize := 512
  streamUnit := 8192

def onePartition : Mapping := ⟨1, 1, Mapping.isPow_one, Mapping.isPow_one⟩

theorem configured_oneProcessor : Configured oneProcessor onePartition 1 :=
  ⟨⟨⟨⟨13, rfl⟩, by decide⟩, by decide, by decide⟩, rfl, rfl, rfl, by decide, Or.inl rfl⟩

end Run

end Reverse

end MBFGraph
