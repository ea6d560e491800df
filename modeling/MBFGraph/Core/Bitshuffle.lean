import MBFGraph.Core.BloomFile
import MBFGraph.Lib.DeltaSwap
import MBFGraph.Lib.Fills
import MBFGraph.Lib.Lanes

/-!
# The routines of bitshuffle

`bshuf_bitshuffle` and `bshuf_bitunshuffle` (`bitshuffle_core.c`) in the builds without vector instructions, with
SSE2 and with AVX2, on a processor that stores the lowest byte first. A pointer is the list of the bytes behind it.
A routine returns the number of bytes that it processed, or a negative number, and what is in the output buffer.
-/

namespace MBFGraph

open ByteBits Fills Lanes Overwrite

namespace Bshuf

/-- `malloc`, which never fails: what is in the memory that it gives. -/
structure Malloc where
  bytes : Nat → List Byte
  length : ∀ size, (bytes size).length = size

variable (malloc : Malloc)

/-! ## Without vector instructions -/

/-- `TRANS_BIT_8X8`. -/
def transBit8x8 (x : BitVec 64) : BitVec 64 :=
  let x := DeltaSwap.deltaSwap 0x00AA00AA00AA00AA 7 x
  let x := DeltaSwap.deltaSwap 0x0000CCCC0000CCCC 14 x
  DeltaSwap.deltaSwap 0x00000000F0F0F0F0 28 x

/-- `bshuf_trans_byte_elem_remainder`. -/
def transByteElemRemainder (input out : List Byte) (size elemSize start : Nat) : Int × List Byte :=
  if start % 8 ≠ 0 then (-80, out)
  else if start < size then
    let out := applyWrites ((steps start size 8).flatMap fun ii => (List.range elemSize).flatMap fun jj =>
      (List.range 8).map fun kk =>
        (jj * size + ii + kk, [input.getD (ii * elemSize + kk * elemSize + jj) 0])) out
    let out := applyWrites ((steps (size - size % 8) size 1).flatMap fun ii => (List.range elemSize).map fun jj =>
      (jj * size + ii, [input.getD (ii * elemSize + jj) 0])) out
    (size * elemSize, out)
  else (size * elemSize, out)

/-- `bshuf_trans_byte_elem_scal`. -/
def transByteElemScal (input out : List Byte) (size elemSize : Nat) : Int × List Byte :=
  transByteElemRemainder input out size elemSize 0

/-- `bshuf_trans_bit_byte_remainder`. -/
def transBitByteRemainder (input out : List Byte) (size elemSize startByte : Nat) : Int × List Byte :=
  let nbyte := elemSize * size
  let nbyteBitrow := nbyte / 8
  if nbyte % 8 ≠ 0 then (-80, out)
  else if startByte % 8 ≠ 0 then (-80, out)
  else
    (size * elemSize, applyWrites ((steps (startByte / 8) nbyteBitrow 1).flatMap fun ii => (List.range 8).map fun kk =>
      (kk * nbyteBitrow + ii, [(transBit8x8 (load 64 input (8 * ii)) >>> (8 * kk)).setWidth 8])) out)

/-- `bshuf_trans_bit_byte_scal`. -/
def transBitByteScal (input out : List Byte) (size elemSize : Nat) : Int × List Byte :=
  transBitByteRemainder input out size elemSize 0

/-- `bshuf_trans_elem`. -/
def transElem (input out : List Byte) (lda ldb elemSize : Nat) : Int × List Byte :=
  (lda * ldb * elemSize, applyWrites ((List.range lda).flatMap fun ii => (List.range ldb).map fun jj =>
    ((jj * lda + ii) * elemSize, run elemSize input ((ii * ldb + jj) * elemSize))) out)

/-- `bshuf_trans_bitrow_eight`. -/
def transBitrowEight (input out : List Byte) (size elemSize : Nat) : Int × List Byte :=
  if size % 8 ≠ 0 then (-80, out) else transElem input out 8 elemSize (size / 8)

/-- `bshuf_trans_bit_elem_scal`, `_SSE` and `_AVX`, which transpose bytes, then bits, then rows. -/
def transBitElemBy (transByteElem transBitByte : List Byte → List Byte → Nat → Nat → Int × List Byte)
    (input out : List Byte) (size elemSize : Nat) : Int × List Byte :=
  if size % 8 ≠ 0 then (-80, out)
  else
    let tmpBuf := malloc.bytes (size * elemSize)
    let bytes := transByteElem input out size elemSize
    if bytes.1 < 0 then bytes
    else
      let bits := transBitByte bytes.2 tmpBuf size elemSize
      if bits.1 < 0 then (bits.1, bytes.2)
      else transBitrowEight bits.2 bytes.2 size elemSize

/-- `bshuf_trans_byte_bitrow_scal`. -/
def transByteBitrowScal (input out : List Byte) (size elemSize : Nat) : Int × List Byte :=
  let nbyteRow := size / 8
  if size % 8 ≠ 0 then (-80, out)
  else
    (size * elemSize, applyWrites ((List.range elemSize).flatMap fun jj => (List.range nbyteRow).flatMap fun ii =>
      (List.range 8).map fun kk =>
        (ii * 8 * elemSize + jj * 8 + kk, [input.getD ((jj * 8 + kk) * nbyteRow + ii) 0])) out)

/-- `bshuf_shuffle_bit_eightelem_scal`. -/
def shuffleBitEightelemScal (input out : List Byte) (size elemSize : Nat) : Int × List Byte :=
  if size % 8 ≠ 0 then (-80, out)
  else
    let nbyte := elemSize * size
    (size * elemSize, applyWrites ((steps 0 (8 * elemSize) 8).flatMap fun jj =>
      (steps 0 nbyte (8 * elemSize)).flatMap fun ii => (List.range 8).map fun kk =>
        (ii + jj / 8 + kk * elemSize, [(transBit8x8 (load 64 input (ii + jj)) >>> (8 * kk)).setWidth 8])) out)

/-- `bshuf_untrans_bit_elem_scal`, `_SSE` and `_AVX`. -/
def untransBitElemBy (transByteBitrow shuffleBitEightelem : List Byte → List Byte → Nat → Nat → Int × List Byte)
    (input out : List Byte) (size elemSize : Nat) : Int × List Byte :=
  if size % 8 ≠ 0 then (-80, out)
  else
    let tmpBuf := malloc.bytes (size * elemSize)
    let bytes := transByteBitrow input tmpBuf size elemSize
    if bytes.1 < 0 then (bytes.1, out)
    else shuffleBitEightelem bytes.2 out size elemSize

/-! ## SSE2 -/

/-- `_mm_loadu_si128`: the register with the bytes from `a` on. -/
def loadu (input : List Byte) (a t : Nat) : Byte := input.getD (a + t) 0

/-- `_mm_storeu_si128`: the bytes of a register of `n` bytes. -/
def storeu (n : Nat) (register : Nat → Byte) : List Byte := filled n register

section Registers

variable {α : Type}

/-- The registers of `bshuf_trans_byte_elem_SSE_16`: those loaded and those stored, lowest address first. -/
def trans16 (r : Nat → Nat → α) : List (Nat → α) :=
  let a0 := r 0
  let b0 := r 1
  let a1 := unpackLo 1 a0 b0
  let b1 := unpackHi 1 a0 b0
  let a0 := unpackLo 1 a1 b1
  let b0 := unpackHi 1 a1 b1
  let a1 := unpackLo 1 a0 b0
  let b1 := unpackHi 1 a0 b0
  let a0 := unpackLo 1 a1 b1
  let b0 := unpackHi 1 a1 b1
  [a0, b0]

/-- The registers of `bshuf_trans_byte_elem_SSE_32`. -/
def trans32 (r : Nat → Nat → α) : List (Nat → α) :=
  let a0 := r 0
  let b0 := r 1
  let c0 := r 2
  let d0 := r 3
  let a1 := unpackLo 1 a0 b0
  let b1 := unpackHi 1 a0 b0
  let c1 := unpackLo 1 c0 d0
  let d1 := unpackHi 1 c0 d0
  let a0 := unpackLo 1 a1 b1
  let b0 := unpackHi 1 a1 b1
  let c0 := unpackLo 1 c1 d1
  let d0 := unpackHi 1 c1 d1
  let a1 := unpackLo 1 a0 b0
  let b1 := unpackHi 1 a0 b0
  let c1 := unpackLo 1 c0 d0
  let d1 := unpackHi 1 c0 d0
  let a0 := unpackLo 8 a1 c1
  let b0 := unpackHi 8 a1 c1
  let c0 := unpackLo 8 b1 d1
  let d0 := unpackHi 8 b1 d1
  [a0, b0, c0, d0]

/-- The registers of `bshuf_trans_byte_elem_SSE_64`. -/
def trans64 (r : Nat → Nat → α) : List (Nat → α) :=
  let a0 := r 0
  let b0 := r 1
  let c0 := r 2
  let d0 := r 3
  let e0 := r 4
  let f0 := r 5
  let g0 := r 6
  let h0 := r 7
  let a1 := unpackLo 1 a0 b0
  let b1 := unpackHi 1 a0 b0
  let c1 := unpackLo 1 c0 d0
  let d1 := unpackHi 1 c0 d0
  let e1 := unpackLo 1 e0 f0
  let f1 := unpackHi 1 e0 f0
  let g1 := unpackLo 1 g0 h0
  let h1 := unpackHi 1 g0 h0
  let a0 := unpackLo 1 a1 b1
  let b0 := unpackHi 1 a1 b1
  let c0 := unpackLo 1 c1 d1
  let d0 := unpackHi 1 c1 d1
  let e0 := unpackLo 1 e1 f1
  let f0 := unpackHi 1 e1 f1
  let g0 := unpackLo 1 g1 h1
  let h0 := unpackHi 1 g1 h1
  let a1 := unpackLo 4 a0 c0
  let b1 := unpackHi 4 a0 c0
  let c1 := unpackLo 4 b0 d0
  let d1 := unpackHi 4 b0 d0
  let e1 := unpackLo 4 e0 g0
  let f1 := unpackHi 4 e0 g0
  let g1 := unpackLo 4 f0 h0
  let h1 := unpackHi 4 f0 h0
  let a0 := unpackLo 8 a1 e1
  let b0 := unpackHi 8 a1 e1
  let c0 := unpackLo 8 b1 f1
  let d0 := unpackHi 8 b1 f1
  let e0 := unpackLo 8 c1 g1
  let f0 := unpackHi 8 c1 g1
  let g0 := unpackLo 8 d1 h1
  let h0 := unpackHi 8 d1 h1
  [a0, b0, c0, d0, e0, f0, g0, h0]

end Registers

/-- `bshuf_trans_byte_elem_SSE_16`, `_32` and `_64`: elements of `n` bytes, sixteen at a time. -/
def transByteElemSse (n : Nat) (trans : (Nat → Nat → Byte) → List (Nat → Byte)) (input out : List Byte)
    (size : Nat) : Int × List Byte :=
  let out := applyWrites ((steps 0 size 16).flatMap fun ii =>
    ((trans fun q => loadu input (n * ii + q * 16)).zipIdx).map fun register =>
      (register.2 * size + ii, storeu 16 register.1)) out
  transByteElemRemainder input out size n (size - size % 16)

/-- `TRANS_ELEM_TYPE` for a type of `n` bytes. -/
def transElemType (n : Nat) (input out : List Byte) (lda ldb : Nat) : List Byte :=
  let out := applyWrites ((steps 0 lda 8).flatMap fun ii => (List.range ldb).flatMap fun jj =>
    (List.range 8).map fun kk =>
      (n * (jj * lda + ii + kk), run n input (n * (ii * ldb + kk * ldb + jj)))) out
  applyWrites ((steps (lda - lda % 8) lda 1).flatMap fun ii => (List.range ldb).map fun jj =>
    (n * (jj * lda + ii), run n input (n * (ii * ldb + jj)))) out

/-- `bshuf_trans_byte_elem_SSE`. The branch for chunks of two bytes is never taken. -/
def transByteElemSSE (input out : List Byte) (size elemSize : Nat) : Int × List Byte :=
  if elemSize = 1 then (size * elemSize, overwrite out 0 (run (size * elemSize) input 0))
  else if elemSize = 2 then transByteElemSse 2 trans16 input out size
  else if elemSize = 4 then transByteElemSse 4 trans32 input out size
  else if elemSize = 8 then transByteElemSse 8 trans64 input out size
  else if elemSize % 4 ≠ 0 then transByteElemScal input out size elemSize
  else if elemSize % 8 = 0 then
    let nchunkElem := elemSize / 8
    let out := transElemType 8 input out size nchunkElem
    let bytes := transByteElemSse 8 trans64 out (malloc.bytes (size * elemSize)) (size * nchunkElem)
    (bytes.1, (transElem bytes.2 out 8 nchunkElem size).2)
  else
    let nchunkElem := elemSize / 4
    let out := transElemType 4 input out size nchunkElem
    let bytes := transByteElemSse 4 trans32 out (malloc.bytes (size * elemSize)) (size * nchunkElem)
    (bytes.1, (transElem bytes.2 out 4 nchunkElem size).2)

/-- `bshuf_trans_bit_byte_SSE` and `_AVX`, with registers of `n` bytes. -/
def transBitByteVector (n : Nat) (input out : List Byte) (size elemSize : Nat) : Int × List Byte :=
  let nbyte := elemSize * size
  let out := applyWrites ((steps 0 nbyte n).flatMap fun ii => (List.range 8).map fun kk =>
    (((7 - kk) * nbyte + ii) / 8, bytesOf (n / 8) (movemask n (shiftUnits^[kk] (loadu input ii))))) out
  transBitByteRemainder input out size elemSize (nbyte - nbyte % n)

/-- `bshuf_trans_bit_byte_SSE`. -/
def transBitByteSSE (input out : List Byte) (size elemSize : Nat) : Int × List Byte :=
  if elemSize * size % 8 ≠ 0 then (-80, out) else transBitByteVector 16 input out size elemSize

section Registers

variable {α : Type}

/-- The registers of `bshuf_trans_byte_bitrow_SSE`, each of two rows of the output. -/
def transBitrow (r : Nat → Nat → α) : List (Nat → α) :=
  let a1 := unpackLo 1 (r 0) (r 1)
  let b1 := unpackLo 1 (r 2) (r 3)
  let c1 := unpackLo 1 (r 4) (r 5)
  let d1 := unpackLo 1 (r 6) (r 7)
  let e1 := unpackHi 1 (r 0) (r 1)
  let f1 := unpackHi 1 (r 2) (r 3)
  let g1 := unpackHi 1 (r 4) (r 5)
  let h1 := unpackHi 1 (r 6) (r 7)
  let a0 := unpackLo 2 a1 b1
  let b0 := unpackLo 2 c1 d1
  let c0 := unpackHi 2 a1 b1
  let d0 := unpackHi 2 c1 d1
  let e0 := unpackLo 2 e1 f1
  let f0 := unpackLo 2 g1 h1
  let g0 := unpackHi 2 e1 f1
  let h0 := unpackHi 2 g1 h1
  let a1 := unpackLo 4 a0 b0
  let b1 := unpackHi 4 a0 b0
  let c1 := unpackLo 4 c0 d0
  let d1 := unpackHi 4 c0 d0
  let e1 := unpackLo 4 e0 f0
  let f1 := unpackHi 4 e0 f0
  let g1 := unpackLo 4 g0 h0
  let h1 := unpackHi 4 g0 h0
  [a1, b1, c1, d1, e1, f1, g1, h1]

/-- A round over `hh` of `bshuf_trans_byte_bitrow_AVX`: what becomes of the registers that were loaded. -/
def avxStorage (ymm0 : Nat → Nat → α) : Nat → Nat → α :=
  let ymm1 := fun kk =>
    if kk < 4 then inHalves (unpackLo 1) (ymm0 (kk * 2)) (ymm0 (kk * 2 + 1))
    else inHalves (unpackHi 1) (ymm0 ((kk - 4) * 2)) (ymm0 ((kk - 4) * 2 + 1))
  let ymm0 := fun kk =>
    if kk % 4 < 2 then inHalves (unpackLo 2) (ymm1 (kk / 4 * 4 + kk % 4 * 2)) (ymm1 (kk / 4 * 4 + kk % 4 * 2 + 1))
    else inHalves (unpackHi 2) (ymm1 (kk / 4 * 4 + (kk % 4 - 2) * 2)) (ymm1 (kk / 4 * 4 + (kk % 4 - 2) * 2 + 1))
  fun kk =>
    if kk % 2 = 0 then inHalves (unpackLo 4) (ymm0 (kk / 2 * 2)) (ymm0 (kk / 2 * 2 + 1))
    else inHalves (unpackHi 4) (ymm0 (kk / 2 * 2)) (ymm0 (kk / 2 * 2 + 1))

/-- A round over `mm`, for the registers `8 * hh + kk` that were loaded: those that are stored. -/
def transBitrowAVX (mm : Nat) (r : Nat → Nat → α) : List (Nat → α) :=
  let ymm0 := fun hh => avxStorage (fun kk => r (8 * hh + kk)) mm
  let ymm1 := inHalves (unpackLo 8) (ymm0 0) (ymm0 1)
  let ymm2 := inHalves (unpackLo 8) (ymm0 2) (ymm0 3)
  let ymm3 := inHalves (unpackHi 8) (ymm0 0) (ymm0 1)
  let ymm4 := inHalves (unpackHi 8) (ymm0 2) (ymm0 3)
  [lowHalves ymm1 ymm2, lowHalves ymm3 ymm4, highHalves ymm1 ymm2, highHalves ymm3 ymm4]

end Registers

/-- `bshuf_trans_byte_bitrow_SSE`. -/
def transByteBitrowSSE (input out : List Byte) (size elemSize : Nat) : Int × List Byte :=
  if size % 8 ≠ 0 then (-80, out)
  else
    let nrows := 8 * elemSize
    let nbyteRow := size / 8
    (size * elemSize, applyWrites ((steps 0 nrows 8).flatMap fun ii =>
      ((steps 0 nbyteRow 16).flatMap fun jj =>
        ((transBitrow fun q => loadu input ((ii + q) * nbyteRow + jj)).zipIdx).flatMap fun register =>
          [((jj + 2 * register.2) * nrows + ii, storeu 8 register.1),
            ((jj + (2 * register.2 + 1)) * nrows + ii, storeu 8 fun t => register.1 (8 + t))]) ++
      (steps (nbyteRow - nbyteRow % 16) nbyteRow 1).flatMap fun jj => (List.range 8).map fun q =>
        (jj * nrows + ii + q, [input.getD ((ii + q) * nbyteRow + jj) 0])) out)

/-- `bshuf_shuffle_bit_eightelem_SSE`. -/
def shuffleBitEightelemSSE (input out : List Byte) (size elemSize : Nat) : Int × List Byte :=
  if size % 8 ≠ 0 then (-80, out)
  else if elemSize % 2 ≠ 0 then (size * elemSize, (shuffleBitEightelemScal input out size elemSize).2)
  else
    let nbyte := elemSize * size
    (size * elemSize, applyWrites ((steps 0 nbyte (8 * elemSize)).flatMap fun ii =>
      (steps 0 (8 * elemSize) 16).flatMap fun jj => (List.range 8).map fun kk =>
        let ind := ii + jj / 8 + (7 - kk) * elemSize
        (2 * (ind / 2), bytesOf 2 (movemask 16 (shiftUnits^[kk] (loadu input (ii + jj)))))) out)

/-! ## AVX2 -/

/-- `bshuf_trans_byte_bitrow_AVX`. -/
def transByteBitrowAVX (input out : List Byte) (size elemSize : Nat) : Int × List Byte :=
  if size % 8 ≠ 0 then (-80, out)
  else if elemSize % 4 ≠ 0 then transByteBitrowSSE input out size elemSize
  else
    let nrows := 8 * elemSize
    let nbyteRow := size / 8
    let out := applyWrites ((steps 0 nbyteRow 32).flatMap fun jj => (steps 0 elemSize 4).flatMap fun ii =>
      (List.range 8).flatMap fun mm =>
        ((transBitrowAVX mm fun q => loadu input ((ii * 8 + q) * nbyteRow + jj)).zipIdx).map fun register =>
          ((jj + mm * 2 + register.2 / 2 * 16 + register.2 % 2) * nrows + ii * 8, storeu 32 register.1)) out
    (size * elemSize, applyWrites ((List.range nrows).flatMap fun ii =>
      (steps (nbyteRow - nbyteRow % 32) nbyteRow 1).map fun jj =>
        (jj * nrows + ii, [input.getD (ii * nbyteRow + jj) 0])) out)

/-- `bshuf_shuffle_bit_eightelem_AVX`. -/
def shuffleBitEightelemAVX (input out : List Byte) (size elemSize : Nat) : Int × List Byte :=
  if size % 8 ≠ 0 then (-80, out)
  else if elemSize % 4 ≠ 0 then shuffleBitEightelemSSE input out size elemSize
  else
    let nbyte := elemSize * size
    (size * elemSize, applyWrites ((steps 0 (8 * elemSize) 32).flatMap fun jj =>
      (steps 0 nbyte (8 * elemSize)).flatMap fun ii => (List.range 8).map fun kk =>
        (ii + jj / 8 + (7 - kk) * elemSize,
          bytesOf 4 (movemask 32 (shiftUnits^[kk] (loadu input (ii + jj)))))) out)

/-! ## The builds -/

/-- The instruction sets that the compiler may target. -/
inductive Build where
  | scal
  | sse2
  | avx2
  deriving DecidableEq, Repr

/-- `bshuf_trans_bit_elem`. -/
def transBitElem : Build → List Byte → List Byte → Nat → Nat → Int × List Byte
  | .scal => transBitElemBy malloc transByteElemScal transBitByteScal
  | .sse2 => transBitElemBy malloc (transByteElemSSE malloc) transBitByteSSE
  | .avx2 => transBitElemBy malloc (transByteElemSSE malloc) (transBitByteVector 32)

/-- `bshuf_untrans_bit_elem`. -/
def untransBitElem : Build → List Byte → List Byte → Nat → Nat → Int × List Byte
  | .scal => untransBitElemBy malloc transByteBitrowScal shuffleBitEightelemScal
  | .sse2 => untransBitElemBy malloc transByteBitrowSSE shuffleBitEightelemSSE
  | .avx2 => untransBitElemBy malloc transByteBitrowAVX shuffleBitEightelemAVX

/-! ## Blocks -/

/-- `IOC_SIZE`. -/
def iocSize : Nat := 33

/-- `ioc_chain`: pointers as distances from the start of the buffers. -/
structure IocChain where
  next : Nat
  inPl : Nat → Nat
  outPl : Nat → Nat

/-- `ioc_init`. -/
def iocInit : IocChain := ⟨0, fun _ => 0, fun _ => 0⟩

/-- `ioc_get_in`: the iteration, and the pointer. -/
def iocGetIn (C : IocChain) : (Nat × Nat) × IocChain :=
  ((C.next, C.inPl (C.next % iocSize)), { C with next := C.next + 1 })

/-- `ioc_set_next_in`. -/
def iocSetNextIn (C : IocChain) (thisIter inPtr : Nat) : IocChain :=
  { C with inPl := Function.update C.inPl ((thisIter + 1) % iocSize) inPtr }

/-- `ioc_get_out`. -/
def iocGetOut (C : IocChain) (thisIter : Nat) : Nat := C.outPl (thisIter % iocSize)

/-- `ioc_set_next_out`. -/
def iocSetNextOut (C : IocChain) (thisIter outPtr : Nat) : IocChain :=
  { C with outPl := Function.update C.outPl ((thisIter + 1) % iocSize) outPtr }

/-- `BSHUF_BLOCKED_MULT`. -/
def blockedMult : Nat := 8

/-- `bshuf_default_block_size`. -/
def defaultBlockSize (elemSize : Nat) : Nat := max (8192 / elemSize / blockedMult * blockedMult) 128

/-- What `bshuf_blocked_wrap_fun` works on. -/
structure Blocks where
  C : IocChain
  out : List Byte
  err : Int
  cumCount : Int

/-- `bshuf_bitshuffle_block` and `bshuf_bitunshuffle_block`, and what the loop does with the count. -/
def wrapBlock (fun_ : List Byte → List Byte → Nat → Nat → Int × List Byte) (input : List Byte)
    (size elemSize : Nat) (b : Blocks) : Blocks :=
  let ((thisIter, inPtr), C) := iocGetIn b.C
  let C := iocSetNextIn C thisIter (inPtr + size * elemSize)
  let outPtr := iocGetOut C thisIter
  let C := iocSetNextOut C thisIter (outPtr + size * elemSize)
  let r := fun_ (run (size * elemSize) input inPtr) (run (size * elemSize) b.out outPtr) size elemSize
  { C
    out := overwrite b.out outPtr r.2
    err := if r.1 < 0 then r.1 else b.err
    cumCount := b.cumCount + r.1 }

/-- `bshuf_blocked_wrap_fun`. -/
def blockedWrapFun (fun_ : List Byte → List Byte → Nat → Nat → Int × List Byte) (input out : List Byte)
    (size elemSize blockSize : Nat) : Int × List Byte :=
  let blockSize := if blockSize = 0 then defaultBlockSize elemSize else blockSize
  if blockSize % blockedMult ≠ 0 then (-81, out)
  else
    let b := (wrapBlock fun_ input blockSize elemSize)^[size / blockSize] ⟨iocInit, out, 0, 0⟩
    let lastBlockSize := size % blockSize
    let lastBlockSize := lastBlockSize - lastBlockSize % blockedMult
    let b := if lastBlockSize ≠ 0 then wrapBlock fun_ input lastBlockSize elemSize b else b
    if b.err < 0 then (b.err, b.out)
    else
      let leftoverBytes := size % blockedMult * elemSize
      let ((thisIter, lastIn), C) := iocGetIn b.C
      let lastOut := iocGetOut C thisIter
      (b.cumCount + leftoverBytes, overwrite b.out lastOut (run leftoverBytes input lastIn))

/-- `bshuf_bitshuffle`. -/
def bitshuffle (build : Build) (input out : List Byte) (size elemSize blockSize : Nat) : Int × List Byte :=
  blockedWrapFun (transBitElem malloc build) input out size elemSize blockSize

/-- `bshuf_bitunshuffle`. -/
def bitunshuffle (build : Build) (input out : List Byte) (size elemSize blockSize : Nat) : Int × List Byte :=
  blockedWrapFun (untransBitElem malloc build) input out size elemSize blockSize

end Bshuf

end MBFGraph
