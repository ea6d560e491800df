import MBFGraph.Core.DiskStream

/-!
# Whole pages on disk, the rest in memory

`do_write_IO` keeps the last, partial page of a stream in memory and writes whole pages;
`do_read_IO` reads whole pages and serves the tail of the last one from memory. Both go through
power-of-two transfers that end at the page size.
-/

namespace MBFGraph

open ByteBits Overwrite Stdio

namespace DiskStream

/-- The bytes of a run of `n` bytes that fill whole pages. -/
def wholePages (n : Nat) : Nat := n / diskPageSize * diskPageSize

theorem wholePages_le (n : Nat) : wholePages n ≤ n := Nat.div_mul_le_self _ _

theorem wholePages_add_mod (n : Nat) : wholePages n + n % diskPageSize = n := by
  unfold wholePages
  rw [Nat.mul_comm]
  exact Nat.div_add_mod n diskPageSize

theorem wholePages_mod (n : Nat) : wholePages n % diskPageSize = 0 := Nat.mul_mod_left _ _

theorem wholePages_of_lt {n : Nat} (small : n < diskPageSize) : wholePages n = 0 := by
  unfold wholePages
  rw [Nat.div_eq_of_lt small, Nat.zero_mul]

/-- Whole pages in front do not change how the rest is cut. -/
theorem wholePages_add {m : Nat} (aligned : m % diskPageSize = 0) (n : Nat) :
    wholePages (m + n) = m + wholePages n := by
  unfold wholePages diskPageSize at *
  omega

/-- Bytes that stay in the last page do not change how many pages are whole. -/
theorem wholePages_add_of_lt {n m : Nat} (fits : n % diskPageSize + m < diskPageSize) :
    wholePages (n + m) = wholePages n := by
  unfold wholePages diskPageSize at *
  omega

/-- A transfer size: a power of two, of a page at least. -/
def TransferSize (ioSize : Nat) : Prop := ∃ j, ioSize = 2 ^ j

theorem TransferSize.aligned {ioSize : Nat} (size : TransferSize ioSize)
    (large : diskPageSize ≤ ioSize) : ioSize % diskPageSize = 0 := by
  obtain ⟨j, rfl⟩ := size
  have page : diskPageSize = 2 ^ 13 := rfl
  rw [page] at large ⊢
  have exponent : 13 ≤ j := (Nat.pow_le_pow_iff_right (by decide)).mp large
  exact Nat.mod_eq_zero_of_dvd (Nat.pow_dvd_pow 2 exponent)

/-- Halving ends below a page, not in the middle of one. -/
theorem TransferSize.half {ioSize : Nat} (size : TransferSize ioSize)
    (large : diskPageSize ≤ ioSize) :
    TransferSize (ioSize / 2) ∧ (ioSize / 2 < diskPageSize → ioSize = diskPageSize) := by
  have aligned := size.aligned large
  obtain ⟨j, rfl⟩ := size
  cases j with
  | zero => exact absurd large (by decide)
  | succ j =>
    rw [Nat.pow_succ] at aligned large ⊢
    rw [Nat.mul_div_cancel _ (by decide)]
    refine ⟨⟨j, rfl⟩, fun small => ?_⟩
    unfold diskPageSize at *
    omega

/-- The `io_size` loop writes the whole pages of a buffer. -/
theorem writeChunks_eq {fd : File Byte} {buffer : List Byte} {ioSize : Nat}
    (size : TransferSize ioSize) (large : diskPageSize ≤ ioSize)
    (inside : fd.pos ≤ fd.content.length) :
    writeChunks fd buffer ioSize = (fwrite fd (buffer.take (wholePages buffer.length)),
      buffer.drop (wholePages buffer.length)) := by
  fun_induction writeChunks fd buffer ioSize with
  | case1 fd buffer ioSize large' tooMuch ih =>
    obtain ⟨halfSize, atPage⟩ := size.half large
    by_cases small : ioSize / 2 < diskPageSize
    · have short : buffer.length < diskPageSize := by
        rw [← atPage small]
        exact tooMuch
      have stops : writeChunks fd buffer (ioSize / 2) = (fd, buffer) := by
        unfold writeChunks
        rw [if_neg (Nat.not_le_of_lt small)]
      rw [stops, wholePages_of_lt short]
      simp
    · exact ih halfSize (Nat.le_of_not_lt small) inside
  | case2 fd buffer ioSize large' fits ih =>
    have taken : (buffer.take ioSize).length = ioSize := by
      rw [List.length_take]
      omega
    have behind : (fwrite fd (buffer.take ioSize)).pos ≤
        (fwrite fd (buffer.take ioSize)).content.length := by
      unfold fwrite
      rw [length_overwrite inside]
      exact Nat.le_max_right _ _
    have split : wholePages buffer.length = ioSize + wholePages (buffer.length - ioSize) := by
      rw [← wholePages_add (size.aligned large)]
      congr 1
      omega
    rw [ih size large behind, List.length_drop, fwrite_fwrite inside, split, List.take_add,
      List.drop_drop]
  | case3 fd buffer ioSize small => exact absurd large small

/-- The state of a stream that was written: whole pages in the file, the rest in the page. What the
file holds behind the position is of no account. -/
structure Written (fd : File Byte) (page written : List Byte) : Prop where
  content : fd.content.take (wholePages written.length) =
    written.take (wholePages written.length)
  pos : fd.pos = wholePages written.length
  length_page : page.length = diskPageSize
  tail : page.take (written.length % diskPageSize) = written.drop (wholePages written.length)

theorem Written.inside {fd : File Byte} {page written : List Byte} (w : Written fd page written) :
    fd.pos ≤ fd.content.length := by
  have lengths := congrArg List.length w.content
  rw [List.length_take, List.length_take, Nat.min_eq_left (wholePages_le _)] at lengths
  rw [w.pos]
  omega

/-- Bytes behind whole pages. -/
theorem written_writeWhole {streamUnit : Nat} (size : TransferSize streamUnit)
    (large : diskPageSize ≤ streamUnit) {fd : File Byte} {page written : List Byte}
    (w : Written fd page written) (aligned : written.length % diskPageSize = 0)
    (bytes : List Byte) :
    Written (writeWhole streamUnit fd bytes page).1 (writeWhole streamUnit fd bytes page).2
      (written ++ bytes) := by
  have whole : wholePages written.length = written.length := by
    have := wholePages_add_mod written.length
    omega
  have atEnd : fd.pos = written.length := by rw [w.pos, whole]
  have content : fd.content.take written.length = written := by
    have same := w.content
    rw [whole, List.take_length] at same
    exact same
  have total : wholePages (written ++ bytes).length = written.length + wholePages bytes.length := by
    rw [List.length_append, wholePages_add aligned]
  have le := wholePages_le bytes.length
  have rest : (written ++ bytes).length % diskPageSize = bytes.length % diskPageSize := by
    rw [List.length_append, Nat.add_mod, aligned, Nat.zero_add, Nat.mod_mod]
  have tailLength : (bytes.drop (wholePages bytes.length)).length = bytes.length % diskPageSize := by
    have := wholePages_add_mod bytes.length
    rw [List.length_drop]
    omega
  have small : bytes.length % diskPageSize < diskPageSize := Nat.mod_lt _ (by decide)
  unfold writeWhole
  have taken : (bytes.take (wholePages bytes.length)).length = wholePages bytes.length := by
    rw [List.length_take, Nat.min_eq_left le]
  have inside := w.inside
  simp only [writeChunks_eq size large inside]
  refine ⟨?_, ?_, ?_, ?_⟩
  · unfold fwrite
    rw [atEnd] at inside
    have upTo := take_overwrite_end (bytes.take (wholePages bytes.length)) inside
    rw [taken] at upTo
    rw [atEnd, total, upTo, content, List.take_length_add_append]
  · unfold fwrite
    rw [total, w.pos, whole, List.length_take, Nat.min_eq_left le]
  · rw [length_overwrite_inside, w.length_page]
    rw [w.length_page]
    omega
  · rw [rest, total, overwrite_zero, List.drop_length_add_append, ← tailLength,
      List.take_left]

/-- `do_write_IO` appends. -/
theorem written_doWriteIo {streamUnit : Nat} (size : TransferSize streamUnit)
    (large : diskPageSize ≤ streamUnit) {fd : File Byte} {page written : List Byte}
    (w : Written fd page written) (bytes : List Byte) :
    let done := doWriteIo streamUnit fd bytes written.length page
    Written done.1 done.2 (written ++ bytes) := by
  have small : written.length % diskPageSize < diskPageSize := Nat.mod_lt _ (by decide)
  have split := wholePages_add_mod written.length
  unfold doWriteIo
  simp only
  by_cases partial_ : 0 < written.length % diskPageSize
  · rw [if_pos partial_]
    generalize offsetEq : written.length % diskPageSize = offset at *
    generalize copyEq : min (diskPageSize - offset) bytes.length = copied
    have taken : (bytes.take copied).length = copied := by
      rw [List.length_take]
      omega
    have pageEq : overwrite page offset (bytes.take copied) =
        page.take offset ++ bytes.take copied ++ page.drop (offset + copied) := by
      rw [overwrite_of_le (by rw [w.length_page]; omega), taken]
    have pageLength : (overwrite page offset (bytes.take copied)).length = diskPageSize := by
      rw [length_overwrite_inside, w.length_page]
      rw [w.length_page, taken]
      omega
    have tail := w.tail
    rw [offsetEq] at tail
    by_cases full : diskPageSize - offset = copied
    · -- the page is full and goes to the file
      have filled : overwrite page offset (bytes.take copied) =
          written.drop (wholePages written.length) ++ bytes.take copied := by
        have past : page.drop (offset + copied) = [] :=
          List.drop_eq_nil_of_le (by rw [w.length_page]; omega)
        rw [pageEq, tail, past, List.append_nil]
      have aligned : (written ++ bytes.take copied).length % diskPageSize = 0 := by
        have total : (written ++ bytes.take copied).length =
            wholePages written.length + diskPageSize := by
          rw [List.length_append, taken]
          omega
        rw [total]
        unfold wholePages diskPageSize
        omega
      have w' : Written (fwrite fd (overwrite page offset (bytes.take copied)))
          (overwrite page offset (bytes.take copied)) (written ++ bytes.take copied) := by
        have whole : wholePages (written ++ bytes.take copied).length =
            (written ++ bytes.take copied).length := by
          have := wholePages_add_mod (written ++ bytes.take copied).length
          omega
        refine ⟨?_, ?_, pageLength, ?_⟩
        · have inside := w.inside
          have end_ : (written ++ bytes.take copied).length = fd.pos +
              (overwrite page offset (bytes.take copied)).length := by
            rw [List.length_append, taken, w.pos, pageLength]
            omega
          unfold fwrite
          rw [whole, end_, take_overwrite_end _ inside, ← end_, List.take_length, w.pos, w.content,
            filled, ← List.append_assoc, List.take_append_drop]
        · change fd.pos + (overwrite page offset (bytes.take copied)).length = _
          rw [w.pos, pageLength, whole, List.length_append, taken]
          omega
        · rw [aligned, whole, List.take_zero, List.drop_length]
      rw [if_pos full]
      by_cases all : bytes.length = copied
      · rw [if_pos all]
        rw [List.take_of_length_le (Nat.le_of_eq all)] at w' ⊢
        exact w'
      · rw [if_neg all]
        have rest := written_writeWhole size large w' aligned (bytes.drop copied)
        rw [List.append_assoc, List.take_append_drop] at rest
        exact rest
    · -- everything fits in the page
      have all : bytes.length = copied := by omega
      rw [if_neg full, if_pos all]
      have takeAll : bytes.take copied = bytes := List.take_of_length_le (Nat.le_of_eq all)
      have total : wholePages (written ++ bytes).length = wholePages written.length := by
        rw [List.length_append]
        exact wholePages_add_of_lt (by omega)
      refine ⟨?_, ?_, pageLength, ?_⟩
      · have le := wholePages_le written.length
        rw [total, List.take_append_of_le_length le]
        exact w.content
      · rw [total]
        exact w.pos
      · have rest : (written ++ bytes).length % diskPageSize = offset + copied := by
          have := wholePages_add_mod (written ++ bytes).length
          rw [total, List.length_append] at this
          rw [List.length_append]
          omega
        rw [rest, total, pageEq, List.take_append_of_le_length (by
          rw [List.length_append, List.length_take, w.length_page, taken]; omega),
          List.take_of_length_le (by
            rw [List.length_append, List.length_take, w.length_page, taken]; omega),
          tail, takeAll, List.drop_append_of_le_length (wholePages_le _)]
  · rw [if_neg partial_]
    exact written_writeWhole size large w (Nat.eq_zero_of_not_pos partial_) bytes

/-- The `io_size` loop reads the whole pages of a request. -/
theorem readChunks_eq {fd : File Byte} {bytes ioSize : Nat} (size : TransferSize ioSize)
    (large : diskPageSize ≤ ioSize) (inside : fd.pos + bytes ≤ fd.content.length) :
    readChunks fd bytes ioSize = ((fd.content.drop fd.pos).take (wholePages bytes),
      { fd with pos := fd.pos + wholePages bytes }, bytes % diskPageSize) := by
  fun_induction readChunks fd bytes ioSize with
  | case1 fd bytes ioSize large' tooMuch ih =>
    obtain ⟨halfSize, atPage⟩ := size.half large
    by_cases small : ioSize / 2 < diskPageSize
    · have short : bytes < diskPageSize := by
        rw [← atPage small]
        exact tooMuch
      have stops : readChunks fd bytes (ioSize / 2) = ([], fd, bytes) := by
        unfold readChunks
        rw [if_neg (Nat.not_le_of_lt small)]
      rw [stops, wholePages_of_lt short, Nat.mod_eq_of_lt short]
      simp
    · exact ih halfSize (Nat.le_of_not_lt small) inside
  | case2 fd bytes ioSize large' fits units rest ih =>
    have aligned := size.aligned large
    have taken : ((fd.content.drop fd.pos).take ioSize).length = ioSize := by
      rw [List.length_take, List.length_drop]
      omega
    have behind : units.2 = { fd with pos := fd.pos + ioSize } := by
      change { fd with pos := fd.pos + ((fd.content.drop fd.pos).take ioSize).length } = _
      rw [taken]
    have split : wholePages bytes = ioSize + wholePages (bytes - ioSize) := by
      rw [← wholePages_add aligned]
      congr 1
      omega
    have missing : bytes % diskPageSize = (bytes - ioSize) % diskPageSize := by
      have sum : bytes = ioSize + (bytes - ioSize) := by omega
      conv_lhs => rw [sum, Nat.add_mod, aligned, Nat.zero_add, Nat.mod_mod]
    have restEq := ih size large (by
      rw [behind]
      change fd.pos + ioSize + (bytes - ioSize) ≤ fd.content.length
      omega)
    rw [show rest = readChunks units.2 (bytes - ioSize) ioSize from rfl, restEq, behind]
    simp only [split, missing, List.take_add, List.drop_drop, Nat.add_assoc]
    rfl
  | case3 fd bytes ioSize small => exact absurd large small

/-- The state of a stream of which `pos` bytes were read: the file is at the next page boundary or
at its end, and the page that was begun is in memory. -/
structure Readable (fd : File Byte) (page content : List Byte) (pos : Nat) : Prop where
  file : fd.content = content
  filePos : fd.pos = min (wholePages (pos + (diskPageSize - 1))) content.length
  length_page : page.length = diskPageSize
  begun : 0 < pos % diskPageSize → (content.drop (wholePages pos)).take diskPageSize <+: page

/-- The next page boundary. -/
theorem wholePages_next (pos : Nat) : wholePages (pos + (diskPageSize - 1)) =
    if pos % diskPageSize = 0 then pos else wholePages pos + diskPageSize := by
  unfold wholePages diskPageSize
  split <;> omega

/-- Reading on in the page that was begun, up to its end. -/
theorem Readable.skip {fd : File Byte} {page content : List Byte} {pos n : Nat}
    (r : Readable fd page content pos) (begun : 0 < pos % diskPageSize)
    (inPage : pos % diskPageSize + n ≤ diskPageSize) : Readable fd page content (pos + n) := by
  have next := r.filePos
  rw [wholePages_next, if_neg (Nat.pos_iff_ne_zero.mp begun)] at next
  have split := wholePages_add_mod pos
  rcases Nat.lt_or_eq_of_le inPage with inside | atEnd
  · have same := wholePages_add_of_lt inside
    have sum := wholePages_add_mod (pos + n)
    have notBoundary : (pos + n) % diskPageSize ≠ 0 := by omega
    refine ⟨r.file, ?_, r.length_page, fun _ => ?_⟩
    · rw [wholePages_next, if_neg notBoundary, same, next]
    · rw [same]
      exact r.begun begun
  · have boundary : pos + n = wholePages pos + diskPageSize := by omega
    have aligned : (pos + n) % diskPageSize = 0 := by
      rw [boundary, Nat.add_mod_right, wholePages_mod]
    refine ⟨r.file, ?_, r.length_page, fun impossible => ?_⟩
    · rw [wholePages_next, if_pos aligned, next, boundary]
    · rw [aligned] at impossible
      contradiction

/-- What the page that was begun holds behind the position. -/
theorem Readable.drop_page {fd : File Byte} {page content : List Byte} {pos n : Nat}
    (r : Readable fd page content pos) (begun : 0 < pos % diskPageSize)
    (inPage : pos % diskPageSize + n ≤ diskPageSize) (inside : pos + n ≤ content.length) :
    (page.drop (pos % diskPageSize)).take n = (content.drop pos).take n := by
  obtain ⟨behind, pageEq⟩ := r.begun begun
  have split := wholePages_add_mod pos
  have chunk : pos % diskPageSize + n ≤
      ((content.drop (wholePages pos)).take diskPageSize).length := by
    rw [List.length_take, List.length_drop]
    omega
  rw [← pageEq, List.drop_append_of_le_length (by omega),
    List.take_append_of_le_length (by rw [List.length_drop]; omega), List.drop_take,
    List.drop_drop, split, List.take_take, Nat.min_eq_left (by omega)]

/-- A read from a page boundary. -/
theorem readable_readWhole {streamUnit : Nat} (size : TransferSize streamUnit)
    (large : diskPageSize ≤ streamUnit) {fd : File Byte} {page content : List Byte} {pos : Nat}
    (r : Readable fd page content pos) (aligned : pos % diskPageSize = 0) {bytes : Nat}
    (inside : pos + bytes ≤ content.length) :
    let done := readWhole streamUnit fd page bytes
    done.1 = (content.drop pos).take bytes ∧ Readable done.2.1 done.2.2 content (pos + bytes) := by
  obtain ⟨rfl, atPage, length_page, -⟩ := r
  rw [wholePages_next, if_pos aligned, Nat.min_eq_left (by omega)] at atPage
  have split := wholePages_add_mod bytes
  have total : wholePages (pos + bytes) = pos + wholePages bytes := wholePages_add aligned bytes
  have rest : (pos + bytes) % diskPageSize = bytes % diskPageSize := by
    rw [Nat.add_mod, aligned, Nat.zero_add, Nat.mod_mod]
  unfold readWhole
  simp only [readChunks_eq size large (show fd.pos + bytes ≤ fd.content.length by omega), atPage]
  by_cases missing : 0 < bytes % diskPageSize
  · rw [if_pos missing]
    -- the last page of the file can be a partial one
    generalize lastEq : (fd.content.drop (pos + wholePages bytes)).take diskPageSize = last
    have taken : last.length = min diskPageSize (fd.content.length - (pos + wholePages bytes)) := by
      rw [← lastEq, List.length_take, List.length_drop]
    have small : bytes % diskPageSize < diskPageSize := Nat.mod_lt _ (by decide)
    have pageEq : overwrite page 0 last = last ++ page.drop last.length := overwrite_zero page last
    simp only [fread, lastEq]
    refine ⟨?_, rfl, ?_, ?_, ?_⟩
    · rw [pageEq, List.take_append_of_le_length (by omega), ← lastEq, List.take_take,
        Nat.min_eq_left (Nat.le_of_lt small), ← List.drop_drop, ← List.take_add, split]
    · change pos + wholePages bytes + last.length = _
      rw [wholePages_next, rest, if_neg (Nat.pos_iff_ne_zero.mp missing), total, taken]
      omega
    · rw [length_overwrite_inside (by rw [length_page]; omega), length_page]
    · intro _
      rw [total, lastEq, pageEq]
      exact List.prefix_append _ _
  · have none_ : bytes % diskPageSize = 0 := Nat.eq_zero_of_not_pos missing
    rw [if_neg missing]
    refine ⟨?_, rfl, ?_, length_page, ?_⟩
    · rw [show wholePages bytes = bytes by omega]
    · change pos + wholePages bytes = _
      rw [wholePages_next, rest, if_pos none_, Nat.min_eq_left inside]
      omega
    · intro impossible
      rw [rest] at impossible
      omega

/-- `do_read_IO` reads on where the last read ended. -/
theorem readable_doReadIo {streamUnit : Nat} (size : TransferSize streamUnit)
    (large : diskPageSize ≤ streamUnit) {fd : File Byte} {page content : List Byte} {pos : Nat}
    (r : Readable fd page content pos) {bytes : Nat} (inside : pos + bytes ≤ content.length) :
    let done := doReadIo streamUnit fd page bytes pos
    done.1 = (content.drop pos).take bytes ∧ Readable done.2.1 done.2.2 content (pos + bytes) := by
  have small : pos % diskPageSize < diskPageSize := Nat.mod_lt _ (by decide)
  have split := wholePages_add_mod pos
  unfold doReadIo
  simp only
  by_cases begun : 0 < pos % diskPageSize
  · rw [if_pos begun]
    generalize copyEq : min bytes (diskPageSize - pos % diskPageSize) = copied
    have copiedEq := r.drop_page (n := copied) begun (by omega) (by omega)
    have r' := r.skip (n := copied) begun (by omega)
    by_cases all : bytes = copied
    · rw [if_pos all, copiedEq, all]
      exact ⟨rfl, r'⟩
    · rw [if_neg all]
      have boundary : pos + copied = wholePages pos + diskPageSize := by omega
      have aligned : (pos + copied) % diskPageSize = 0 := by
        rw [boundary, Nat.add_mod_right, wholePages_mod]
      have missing : pos + copied + (bytes - copied) ≤ content.length := by omega
      obtain ⟨rest, readable⟩ := readable_readWhole size large r' aligned missing
      have sum : pos + copied + (bytes - copied) = pos + bytes := by omega
      rw [sum] at readable
      refine ⟨?_, readable⟩
      have whole : copied + (bytes - copied) = bytes := by omega
      rw [copiedEq, rest, ← List.drop_drop, ← List.take_add, whole]
  · rw [if_neg begun]
    exact readable_readWhole size large r (Nat.eq_zero_of_not_pos begun) inside

end DiskStream

end MBFGraph
