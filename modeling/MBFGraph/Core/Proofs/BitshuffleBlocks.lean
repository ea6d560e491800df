import MBFGraph.Core.Proofs.BitshuffleInverse
import MBFGraph.Core.Proofs.MetaStream
import MBFGraph.Lib.Blockwise

/-!
# Shuffling in blocks

`bshuf_blocked_wrap_fun` walks over the input and the output with two chains of pointers. The blocks that it hands
out follow one another, and the elements behind the last multiple of eight are copied. So every build shuffles each
block as the plain transposition does, and what one build has shuffled every build un-shuffles.
-/

namespace MBFGraph

open Blockwise ByteBits Fills Overwrite

namespace Bshuf

/-! ## The sizes of the blocks -/

/-- The numbers of elements of the blocks that are not just copied. -/
def blockSizes (size blockSize : Nat) : List Nat :=
  List.replicate (size / blockSize) blockSize ++
    if size % blockSize - size % blockSize % blockedMult ≠ 0 then
      [size % blockSize - size % blockSize % blockedMult]
    else []

variable {size elemSize blockSize : Nat}

theorem sum_blockSizes (size : Nat) (aligned : blockSize % blockedMult = 0) :
    (blockSizes size blockSize).sum = size - size % blockedMult := by
  have last : (if size % blockSize - size % blockSize % blockedMult ≠ 0 then
      [size % blockSize - size % blockSize % blockedMult] else []).sum =
      size % blockSize - size % blockSize % blockedMult := by
    split
    · exact List.sum_singleton
    · rename_i none_
      rw [List.sum_nil, not_not.mp none_]
  have copied : size % blockSize % blockedMult = size % blockedMult :=
    Nat.mod_mod_of_dvd size (Nat.dvd_of_mod_eq_zero aligned)
  have blocks := Nat.div_add_mod' size blockSize
  have less := Nat.mod_le (size % blockSize) blockedMult
  unfold blockSizes
  rw [List.sum_append, List.sum_replicate, smul_eq_mul, last, copied]
  rw [copied] at less
  omega

theorem aligned_of_mem (aligned : blockSize % blockedMult = 0) {n : Nat} (member : n ∈ blockSizes size blockSize) :
    n % 8 = 0 := by
  unfold blockSizes at member
  rcases List.mem_append.mp member with full | last
  · rw [List.eq_of_mem_replicate full]
    exact aligned
  · split at last
    · rw [List.mem_singleton.mp last]
      unfold blockedMult
      omega
    · exact absurd last List.not_mem_nil

theorem pos_of_mem {n : Nat} (member : n ∈ blockSizes size blockSize) : 0 < n := by
  unfold blockSizes at member
  rcases List.mem_append.mp member with full | last
  · obtain ⟨some_, rfl⟩ := List.mem_replicate.mp full
    refine Nat.pos_of_ne_zero fun zero => some_ ?_
    rw [zero, Nat.div_zero]
  · split at last
    · rename_i some_
      rw [List.mem_singleton.mp last]
      exact Nat.pos_of_ne_zero some_
    · exact absurd last List.not_mem_nil

/-- The default size is a multiple of eight, and not zero. -/
theorem defaultBlockSize_aligned (elemSize : Nat) : defaultBlockSize elemSize % blockedMult = 0 := by
  unfold defaultBlockSize blockedMult
  omega

/-! ## The walk over the blocks -/

variable {fun_ : List Byte → List Byte → Nat → Nat → Int × List Byte} {f : Nat → List Byte → List Byte}
  {input out done : List Byte} {b : Blocks}

/-- What the routine for a block does: it fills the block of the output and counts its bytes. -/
def FillsBlock (fun_ : List Byte → List Byte → Nat → Nat → Int × List Byte) (f : Nat → List Byte → List Byte)
    (elemSize n : Nat) : Prop :=
  ∀ block place : List Byte, block.length = n * elemSize → place.length = n * elemSize →
    fun_ block place n elemSize = (((n * elemSize : Nat) : Int), f n block) ∧ (f n block).length = n * elemSize

/-- Where the walk is when it has written `done`: both chains hold the same distance for the next round. -/
structure Walked (out done : List Byte) (b : Blocks) : Prop where
  fromIn : b.C.inPl (b.C.next % iocSize) = done.length
  toOut : b.C.outPl (b.C.next % iocSize) = done.length
  written : b.out = done ++ out.drop done.length
  noError : b.err = 0
  counted : b.cumCount = done.length

theorem walked_init (out : List Byte) : Walked out [] ⟨iocInit, out, 0, 0⟩ where
  fromIn := rfl
  toOut := rfl
  written := rfl
  noError := rfl
  counted := rfl

/-- A block goes behind what is written. -/
theorem walked_wrapBlock {n : Nat} (routine : FillsBlock fun_ f elemSize n) (at_ : Walked out done b)
    (insideIn : done.length + n * elemSize ≤ input.length) (insideOut : done.length + n * elemSize ≤ out.length) :
    Walked out (done ++ f n (run (n * elemSize) input done.length)) (wrapBlock fun_ input n elemSize b) := by
  have place : done.length + n * elemSize ≤ b.out.length := by
    rw [at_.written, List.length_append, List.length_drop]
    omega
  obtain ⟨fills, image⟩ := routine (run (n * elemSize) input done.length) (run (n * elemSize) b.out done.length)
    (length_run insideIn) (length_run place)
  have total : (done ++ f n (run (n * elemSize) input done.length)).length = done.length + n * elemSize := by
    rw [List.length_append, image]
  have step : wrapBlock fun_ input n elemSize b =
      { C := ⟨b.C.next + 1, Function.update b.C.inPl ((b.C.next + 1) % iocSize) (done.length + n * elemSize),
          Function.update b.C.outPl ((b.C.next + 1) % iocSize) (done.length + n * elemSize)⟩
        out := overwrite b.out done.length (f n (run (n * elemSize) input done.length))
        err := b.err
        cumCount := b.cumCount + (n * elemSize : Nat) } := by
    have counted : ¬((n * elemSize : Nat) : Int) < 0 := not_lt.mpr (Int.natCast_nonneg _)
    simp only [wrapBlock, iocGetIn, iocSetNextIn, iocGetOut, iocSetNextOut, at_.fromIn, at_.toOut, fills,
      if_neg counted]
  rw [step]
  constructor
  · rw [total]
    exact Function.update_self _ _ _
  · rw [total]
    exact Function.update_self _ _ _
  · show overwrite b.out done.length _ = _
    rw [at_.written, total, overwrite_of_le (by rw [List.length_append]; omega), List.take_left, image,
      ← List.drop_drop, List.drop_left, List.drop_drop]
  · exact at_.noError
  · show b.cumCount + (n * elemSize : Nat) = _
    rw [at_.counted, total]
    exact (Nat.cast_add _ _).symm

/-- The blocks of a walk are those of `blockwise`. -/
theorem walked_blocks {sizes : List Nat} (routine : ∀ n ∈ sizes, FillsBlock fun_ f elemSize n)
    (at_ : Walked out done b) (insideIn : done.length + sizes.sum * elemSize ≤ input.length)
    (insideOut : done.length + sizes.sum * elemSize ≤ out.length) :
    ∃ blocks : List Byte, blocks.length = sizes.sum * elemSize ∧
      Walked out (done ++ blocks) (sizes.foldl (fun b n => wrapBlock fun_ input n elemSize b) b) ∧
      blockwise f elemSize sizes (input.drop done.length) =
        blocks ++ input.drop (done.length + sizes.sum * elemSize) := by
  induction sizes generalizing done b with
  | nil =>
    refine ⟨[], by simp, ?_, by simp [blockwise]⟩
    rw [List.append_nil]
    exact at_
  | cons n sizes ih =>
    rw [List.sum_cons, Nat.add_mul, ← Nat.add_assoc] at insideIn insideOut ⊢
    have hereIn : done.length + n * elemSize ≤ input.length := (Nat.le_add_right _ _).trans insideIn
    have hereOut : done.length + n * elemSize ≤ out.length := (Nat.le_add_right _ _).trans insideOut
    have next := walked_wrapBlock (routine n List.mem_cons_self) at_ hereIn hereOut
    have image := (routine n List.mem_cons_self _ _ (length_run hereIn) (length_run hereIn)).2
    have total : (done ++ f n (run (n * elemSize) input done.length)).length = done.length + n * elemSize := by
      rw [List.length_append, image]
    obtain ⟨blocks, whole, walked, rest⟩ := ih (fun m member => routine m (List.mem_cons_of_mem n member)) next
      (by rw [total]; exact insideIn) (by rw [total]; exact insideOut)
    refine ⟨f n (run (n * elemSize) input done.length) ++ blocks, ?_, ?_, ?_⟩
    · rw [List.length_append, image, whole]
    · rw [← List.append_assoc]
      exact walked
    · rw [total] at rest
      rw [blockwise_cons, List.drop_drop, rest, List.append_assoc, run]

theorem foldl_blockSizes (fun_ : List Byte → List Byte → Nat → Nat → Int × List Byte) (input : List Byte)
    (elemSize size blockSize : Nat) (b : Blocks) :
    (blockSizes size blockSize).foldl (fun b n => wrapBlock fun_ input n elemSize b) b =
      let b := (wrapBlock fun_ input blockSize elemSize)^[size / blockSize] b
      if size % blockSize - size % blockSize % blockedMult ≠ 0 then
        wrapBlock fun_ input (size % blockSize - size % blockSize % blockedMult) elemSize b
      else b := by
  have full (k : Nat) : (List.replicate k blockSize).foldl (fun b n => wrapBlock fun_ input n elemSize b) b =
      (wrapBlock fun_ input blockSize elemSize)^[k] b := by
    calc (List.replicate k blockSize).foldl (fun b n => wrapBlock fun_ input n elemSize b) b
        = ((List.range k).map fun _ => blockSize).foldl (fun b n => wrapBlock fun_ input n elemSize b) b := by
          rw [List.map_const', List.length_range]
      _ = (List.range k).foldl (fun b _ => wrapBlock fun_ input blockSize elemSize b) b := List.foldl_map
      _ = (wrapBlock fun_ input blockSize elemSize)^[k] b := by rw [List.foldl_const, List.length_range]
  unfold blockSizes
  rw [List.foldl_append, full]
  split
  · rfl
  · rfl

/-- The size that a caller's block size stands for. -/
def effectiveBlockSize (elemSize blockSize : Nat) : Nat :=
  if blockSize = 0 then defaultBlockSize elemSize else blockSize

theorem effectiveBlockSize_aligned (elemSize : Nat) (aligned : blockSize % blockedMult = 0) :
    effectiveBlockSize elemSize blockSize % blockedMult = 0 := by
  unfold effectiveBlockSize
  split
  · exact defaultBlockSize_aligned elemSize
  · exact aligned

/-- What `bshuf_blocked_wrap_fun` does behind the last block. -/
def copyLeftover (input : List Byte) (size elemSize : Nat) (b : Blocks) : Int × List Byte :=
  if b.err < 0 then (b.err, b.out)
  else (b.cumCount + (size % blockedMult * elemSize : Nat), overwrite b.out (b.C.outPl (b.C.next % iocSize))
    (run (size % blockedMult * elemSize) input (b.C.inPl (b.C.next % iocSize))))

theorem blockedWrapFun_eq (fun_ : List Byte → List Byte → Nat → Nat → Int × List Byte) (input out : List Byte)
    (aligned : effectiveBlockSize elemSize blockSize % blockedMult = 0) :
    blockedWrapFun fun_ input out size elemSize blockSize = copyLeftover input size elemSize
      ((blockSizes size (effectiveBlockSize elemSize blockSize)).foldl
        (fun b n => wrapBlock fun_ input n elemSize b) ⟨iocInit, out, 0, 0⟩) := by
  rw [foldl_blockSizes]
  exact if_neg (not_not.mpr aligned)

/-- The elements behind the blocks are copied. -/
theorem copyLeftover_of_walked {blocks : List Byte} (walked : Walked out blocks b)
    (wholeIn : input.length = blocks.length + size % blockedMult * elemSize) (wholeOut : out.length = input.length) :
    copyLeftover input size elemSize b = ((input.length : Int), blocks ++ input.drop blocks.length) := by
  have left : run (size % blockedMult * elemSize) input blocks.length = input.drop blocks.length := by
    unfold run
    refine List.take_of_length_le ?_
    rw [List.length_drop, wholeIn, Nat.add_sub_cancel_left]
  have fits : (out.drop blocks.length).length ≤ (input.drop blocks.length).length := by
    rw [List.length_drop, List.length_drop, wholeOut]
  unfold copyLeftover
  rw [walked.noError, if_neg (lt_irrefl _), walked.fromIn, walked.toOut, walked.written, walked.counted, left,
    overwrite_tail fits, wholeIn]
  exact Prod.ext (Nat.cast_add _ _).symm rfl

/-- The whole walk: the blocks, and the elements that are copied. -/
theorem blockedWrapFun_spec (aligned : blockSize % blockedMult = 0)
    (routine : ∀ n, n % 8 = 0 → FillsBlock fun_ f elemSize n) (wholeIn : input.length = size * elemSize)
    (wholeOut : out.length = size * elemSize) :
    blockedWrapFun fun_ input out size elemSize blockSize = (((size * elemSize : Nat) : Int),
      blockwise f elemSize (blockSizes size (effectiveBlockSize elemSize blockSize)) input) := by
  have multiple := effectiveBlockSize_aligned elemSize aligned
  have sum := sum_blockSizes size multiple
  have parts : size * elemSize = (size - size % blockedMult) * elemSize + size % blockedMult * elemSize := by
    rw [← Nat.add_mul, Nat.sub_add_cancel (Nat.mod_le _ _)]
  have fits (l : List Byte) (whole : l.length = size * elemSize) : ([] : List Byte).length +
      (blockSizes size (effectiveBlockSize elemSize blockSize)).sum * elemSize ≤ l.length := by
    rw [sum, List.length_nil, Nat.zero_add, whole]
    exact Nat.mul_le_mul_right elemSize (Nat.sub_le _ _)
  obtain ⟨blocks, whole, walked, result⟩ := walked_blocks
    (fun n member => routine n (aligned_of_mem multiple member)) (walked_init out) (fits input wholeIn)
    (fits out wholeOut)
  rw [List.nil_append] at walked
  rw [List.length_nil, List.drop_zero, Nat.zero_add, ← whole] at result
  rw [sum] at whole
  rw [blockedWrapFun_eq fun_ input out multiple, copyLeftover_of_walked walked (by rw [wholeIn, whole, ← parts])
    (wholeOut.trans wholeIn.symm), result, wholeIn]

/-! ## Every build -/

theorem length_bshufBitshuffle (input : List Byte) (size elemSize : Nat) :
    (bshufBitshuffle input size elemSize).1.length = size * elemSize := by
  simp only [bshufBitshuffle, length_ofBits]

theorem length_bshufBitunshuffle (input : List Byte) (size elemSize : Nat) :
    (bshufBitunshuffle input size elemSize).length = size * elemSize := by
  simp only [bshufBitunshuffle, length_ofBits]

variable (malloc : Malloc)

/-- `bshuf_bitshuffle` shuffles block by block. -/
theorem bitshuffle_spec (build : Build) (aligned : blockSize % blockedMult = 0)
    (wholeIn : input.length = size * elemSize) (wholeOut : out.length = size * elemSize) :
    bitshuffle malloc build input out size elemSize blockSize = (((size * elemSize : Nat) : Int),
      blockwise (fun n block => (bshufBitshuffle block n elemSize).1) elemSize
        (blockSizes size (effectiveBlockSize elemSize blockSize)) input) := by
  refine blockedWrapFun_spec aligned (fun n eights block place whole wholePlace => ⟨?_, ?_⟩) wholeIn wholeOut
  · rw [transBitElem_spec malloc build eights whole wholePlace, Nat.cast_mul]
  · exact length_bshufBitshuffle block n elemSize

/-- `bshuf_bitunshuffle` un-shuffles block by block. -/
theorem bitunshuffle_spec (build : Build) (aligned : blockSize % blockedMult = 0)
    (wholeIn : input.length = size * elemSize) (wholeOut : out.length = size * elemSize) :
    bitunshuffle malloc build input out size elemSize blockSize = (((size * elemSize : Nat) : Int),
      blockwise (fun n block => bshufBitunshuffle block n elemSize) elemSize
        (blockSizes size (effectiveBlockSize elemSize blockSize)) input) := by
  refine blockedWrapFun_spec aligned (fun n eights block place _ wholePlace => ⟨?_, ?_⟩) wholeIn wholeOut
  · rw [untransBitElem_spec malloc build eights wholePlace, Nat.cast_mul]
  · exact length_bshufBitunshuffle block n elemSize

theorem unshuffle_shuffle_blocks {sizes : List Nat} (fits : sizes.sum * elemSize ≤ input.length)
    (positive : ∀ n ∈ sizes, 0 < n) :
    blockwise (fun n block => bshufBitunshuffle block n elemSize) elemSize sizes
      (blockwise (fun n block => (bshufBitshuffle block n elemSize).1) elemSize sizes input) = input := by
  refine blockwise_blockwise (fun n block _ => length_bshufBitshuffle block n elemSize) fits ?_
  intro n member block whole
  exact bshufBitunshuffle_bshufBitshuffle whole (positive n member)

/-- Shuffling and un-shuffling are, in every build, the plain transpositions of the blocks. -/
theorem bitshuffle_sameBuilds (build : Build) (aligned : blockSize % blockedMult = 0)
    (wholeIn : input.length = size * elemSize) (wholeOut : out.length = size * elemSize) :
    bitshuffle malloc build input out size elemSize blockSize = (((size * elemSize : Nat) : Int),
      blockwise (fun n block => (bshufBitshuffle block n elemSize).1) elemSize
        (blockSizes size (effectiveBlockSize elemSize blockSize)) input) ∧
    bitunshuffle malloc build input out size elemSize blockSize = (((size * elemSize : Nat) : Int),
      blockwise (fun n block => bshufBitunshuffle block n elemSize) elemSize
        (blockSizes size (effectiveBlockSize elemSize blockSize)) input) :=
  ⟨bitshuffle_spec malloc build aligned wholeIn wholeOut, bitunshuffle_spec malloc build aligned wholeIn wholeOut⟩

/-- Memory full of zeros. -/
def zeroedMalloc : Malloc := ⟨fun size => List.replicate size 0, fun _ => List.length_replicate⟩

/-- Ten elements of four bytes: a block of eight, and two that are copied. -/
def tenElements : List Byte := (List.range 40).map (BitVec.ofNat 8)

theorem bitshuffle_sameBuilds_ten :
    bitshuffle zeroedMalloc .sse2 tenElements tenElements 10 4 8 = (((10 * 4 : Nat) : Int),
      blockwise (fun n block => (bshufBitshuffle block n 4).1) 4 (blockSizes 10 (effectiveBlockSize 4 8))
        tenElements) ∧
    bitunshuffle zeroedMalloc .sse2 tenElements tenElements 10 4 8 = (((10 * 4 : Nat) : Int),
      blockwise (fun n block => bshufBitunshuffle block n 4) 4 (blockSizes 10 (effectiveBlockSize 4 8))
        tenElements) :=
  bitshuffle_sameBuilds zeroedMalloc .sse2 rfl rfl rfl

/-- What any build has shuffled, any build un-shuffles. -/
theorem bitunshuffle_bitshuffle (malloc' : Malloc) (build build' : Build) {back : List Byte}
    (aligned : blockSize % blockedMult = 0) (wholeIn : input.length = size * elemSize)
    (wholeOut : out.length = size * elemSize) (wholeBack : back.length = size * elemSize) :
    bitunshuffle malloc' build' (bitshuffle malloc build input out size elemSize blockSize).2 back size elemSize
      blockSize = (((size * elemSize : Nat) : Int), input) := by
  have sum := sum_blockSizes size (effectiveBlockSize_aligned elemSize aligned)
  have fits : (blockSizes size (effectiveBlockSize elemSize blockSize)).sum * elemSize ≤ input.length := by
    rw [sum, wholeIn]
    exact Nat.mul_le_mul_right elemSize (Nat.sub_le _ _)
  have whole := length_blockwise (fun n block _ => length_bshufBitshuffle block n elemSize) fits
  rw [bitshuffle_spec malloc build aligned wholeIn wholeOut,
    bitunshuffle_spec malloc' build' aligned (whole.trans wholeIn) wholeBack,
    unshuffle_shuffle_blocks fits fun n member => pos_of_mem member]

theorem bitunshuffle_bitshuffle_ten :
    bitunshuffle zeroedMalloc .avx2 (bitshuffle zeroedMalloc .sse2 tenElements tenElements 10 4 8).2 tenElements 10 4
      8 = (((10 * 4 : Nat) : Int), tenElements) :=
  bitunshuffle_bitshuffle zeroedMalloc zeroedMalloc .sse2 .avx2 rfl rfl rfl rfl

/-! ## The call of the driver -/

section Driver

variable {E : Type} (F : FormatUtils E) {o : BloomOptions}

/-- The group of filters is one block. -/
theorem blockSizes_bfBufSize (fits : GroupFits o) :
    blockSizes simdLen (effectiveBlockSize (o.bitsPerBF / 8) o.bfBufSize) = [simdLen] := by
  have enough := o.bitsPerBF_min
  have large : simdLen < o.bfBufSize := by
    rw [← fits]
    unfold simdLen
    omega
  have block : effectiveBlockSize (o.bitsPerBF / 8) o.bfBufSize = o.bfBufSize :=
    if_neg (Nat.ne_of_gt (Nat.zero_lt_of_lt large))
  unfold blockSizes
  rw [block, Nat.div_eq_of_lt large, Nat.mod_eq_of_lt large]
  rfl

/-- Whatever the processor, the call of `bloom_filter_calculation` returns the size of the buffer, and writes the
group that the filter file gets. -/
theorem bloomOut_sameBuilds (build : Build) (fits : GroupFits o) (edgeBuf : List E)
    (wholeOut : out.length = o.bfBufSize) :
    bitshuffle malloc build (fillFilters F o edgeBuf edgeBuf.length 0 0 (List.replicate o.bfBufSize 0)) out simdLen
      (o.bitsPerBF / 8) o.bfBufSize = ((o.bfBufSize : Int), (bloomOut F o edgeBuf).1) := by
  have aligned : o.bfBufSize % blockedMult = 0 := by
    rw [← fits]
    unfold simdLen blockedMult
    omega
  have wholeIn : (fillFilters F o edgeBuf edgeBuf.length 0 0 (List.replicate o.bfBufSize 0)).length =
      simdLen * (o.bitsPerBF / 8) := by
    rw [length_fillFilters, List.length_replicate, fits]
  rw [bitshuffle_spec malloc build aligned wholeIn (wholeOut.trans fits.symm), blockSizes_bfBufSize fits,
    blockwise_single wholeIn, fits]
  rfl

theorem bloomOut_sameBuilds_small :
    bitshuffle zeroedMalloc .avx2 (fillFilters type2 smallOptions [⟨5#32, 7#32⟩] 1 0 0
      (List.replicate smallOptions.bfBufSize 0)) (List.replicate smallOptions.bfBufSize 0) simdLen
      (smallOptions.bitsPerBF / 8) smallOptions.bfBufSize =
        ((smallOptions.bfBufSize : Int), (bloomOut type2 smallOptions [⟨5#32, 7#32⟩]).1) :=
  bloomOut_sameBuilds zeroedMalloc type2 .avx2 (by decide) [⟨5#32, 7#32⟩] List.length_replicate

end Driver

end Bshuf

end MBFGraph
