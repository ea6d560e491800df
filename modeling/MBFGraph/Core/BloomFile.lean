import MBFGraph.Lib.ByteBits
import MBFGraph.Lib.Groups
import MBFGraph.Lib.Stdio
import MBFGraph.Core.BloomHash

/-!
# Building the filter files

`bloom_filter_calculation`, `edge_distribution`, `sanity_check` and `partition_super_partition`
(`sg_driver.hpp:334-619`). The edge file is split over the super partitions; every `256`
filters' worth of edges of a super partition becomes one bit-shuffled group of its filter file.

An `Option` result is `none` where the program does not get to its end or has no defined result:
a failing assertion, an `int` product out of range, an access outside a buffer, or a loop that
makes no progress. Sizes that the source keeps in `unsigned int` are reduced modulo `2 ^ 32`.
-/

namespace MBFGraph

open ByteBits Stdio

/-- The filter options, as the `scatter_gather` constructor accepts them
(`sg_driver.hpp:660-662`, `685-689`). -/
structure BloomOptions where
  bfsPerPage : Nat
  bitsPerBF : Nat
  bfsPerPage_pos : 0 < bfsPerPage
  bfsPerPage_int : bfsPerPage < 2 ^ 31
  bitsPerBF_min : 32 ≤ bitsPerBF
  bitsPerBF_bytes : bitsPerBF % 8 = 0
  bitsPerBF_int : bitsPerBF < 2 ^ 31

/-- `SIMD_LEN`: the number of filters in a group. -/
def simdLen : Nat := 256

namespace BloomOptions

variable (o : BloomOptions)

/-- `unsigned int edges_per_buf = BFS_PER_PAGE * SIMD_LEN`. -/
def edgesPerBuf : Nat := (o.bfsPerPage * simdLen) % 2 ^ 32

/-- `unsigned int bf_buf_size = SIMD_LEN * BITS_PER_BF / 8` on unsigned operands. -/
def bfBufSize : Nat := (simdLen * o.bitsPerBF) % 2 ^ 32 / 8

/-- `sanity_check` computes both sizes from `int` operands (`sg_driver.hpp:516-519`); the
products have to stay in range. -/
def IntProducts : Prop := simdLen * o.bitsPerBF < 2 ^ 31 ∧ o.bfsPerPage * simdLen < 2 ^ 31

instance : Decidable o.IntProducts := inferInstanceAs (Decidable (_ ∧ _))

end BloomOptions

/-- One edge per filter, 32 bits per filter: a group has 1024 bytes. -/
def smallOptions : BloomOptions where
  bfsPerPage := 1
  bitsPerBF := 32
  bfsPerPage_pos := by decide
  bfsPerPage_int := by decide
  bitsPerBF_min := by decide
  bitsPerBF_bytes := by decide
  bitsPerBF_int := by decide

/-- `unsigned int edge_buf_size = edges_per_buf * F::split_size_bytes()`. -/
def edgeBufSize {E : Type} (F : FormatUtils E) (o : BloomOptions) : Nat :=
  (o.edgesPerBuf * F.splitSizeBytes) % 2 ^ 32

section Build

variable {E : Type} [Inhabited E] [DecidableEq E] (m : Mapping) (F : FormatUtils E) (o : BloomOptions)

/-- The body of the loop over `k`: one edge sets its four bits in filter `filter` of
`bloom_in`. The words of the source are 64 bits wide, so word `hash >> 6`, bit `hash & 0x3F`. -/
def fillFilter (filter : Nat) (bloomIn : List Byte) (edge : E) : List Byte :=
  (builderHash o.bitsPerBF (F.splitKey edge 0)).foldl
    (fun bloomIn hash =>
      setBit bloomIn (8 * (filter * o.bitsPerBF / 8) + (64 * (hash >>> 6) + (hash &&& 0x3F))))
    bloomIn

/-- The loop over `j` and its filter number; `fuel` bounds the number of rounds. -/
def fillFilters (edgeBuf : List E) : Nat → Nat → Nat → List Byte → List Byte
  | 0, _, _, bloomIn => bloomIn
  | fuel + 1, j, filter, bloomIn =>
      if j < edgeBuf.length then
        fillFilters edgeBuf fuel (j + o.bfsPerPage) (filter + 1)
          (((edgeBuf.drop j).take o.bfsPerPage).foldl (fillFilter F o filter) bloomIn)
      else bloomIn

/-- `bshuf_bitshuffle`: the bit matrix of `size` elements transposed, and the number of bytes
processed. Row `b / size` of the output holds bit `b / size` of every element. -/
def bshufBitshuffle (input : List Byte) (size elemSize : Nat) : List Byte × Nat :=
  (ofBits (size * elemSize) fun b => bitAt input (b % size * (8 * elemSize) + b / size),
    size * elemSize)

/-- `bloom_out` for the edges of one group, and what `bshuf_bitshuffle` returned. -/
def bloomOut (edgeBuf : List E) : List Byte × Nat :=
  let bloomIn := fillFilters F o edgeBuf edgeBuf.length 0 0 (List.replicate o.bfBufSize 0)
  bshufBitshuffle bloomIn simdLen (o.bitsPerBF / 8)

/-- `bloom_filter_calculation` (`sg_driver.hpp:334-375`) for the first `read_edge` records of
a buffer. -/
def bloomFilterCalculation (edgeBuf : List E) (bfFp : File Byte) (isVerify : Bool) :
    Option (File Byte) :=
  let out := bloomOut F o edgeBuf
  if out.2 ≠ o.bfBufSize then none
  else if isVerify then
    let read := fread bfFp o.bfBufSize
    if read.1 = out.1 then some read.2 else none
  else some (fwrite bfFp out.1)

/-- What `edge_distribution` keeps for one super partition: its two files and the records of
`edge_bufs[i]`, of which there are `num_edges[i]`. -/
structure SuperBuf (E : Type) where
  edgeFp : File E
  bfFp : File Byte
  edgeBuf : List E

/-- A group is complete or the input is over: `bloom_filter_calculation`, then the records
themselves unless there is one super partition only (`sg_driver.hpp:445-464`, `473-490`). -/
def flushBuf (isVerify : Bool) (sb : SuperBuf E) : Option (SuperBuf E) :=
  match bloomFilterCalculation F o sb.edgeBuf sb.bfFp isVerify with
  | none => none
  | some bfFp =>
      if 1 < m.superPartitions then
        if isVerify then
          let read := fread sb.edgeFp sb.edgeBuf.length
          if read.1 = sb.edgeBuf then some ⟨read.2, bfFp, []⟩ else none
        else some ⟨fwrite sb.edgeFp sb.edgeBuf, bfFp, []⟩
      else some ⟨sb.edgeFp, bfFp, []⟩

/-- One record goes to the buffer of its super partition (`sg_driver.hpp:437-466`). -/
def distributeEdge (isVerify : Bool) (bufs : Nat → SuperBuf E) (edge : E) :
    Option (Nat → SuperBuf E) :=
  let superp := m.mapSuperPartition (F.splitKey edge 0)
  if F.splitKey edge 0 = tombstone then none
  else
    let sb := bufs superp
    -- the `memcpy` has to stay inside the buffer
    if edgeBufSize F o < (sb.edgeBuf.length + 1) * F.splitSizeBytes then none
    else
      let sb := { sb with edgeBuf := sb.edgeBuf ++ [edge] }
      if sb.edgeBuf.length = o.edgesPerBuf then
        (flushBuf m F o isVerify sb).map (Function.update bufs superp)
      else some (Function.update bufs superp sb)

/-- `while (i < num_edge)`: read the next buffer of records and distribute them. -/
def distributeLoop (isVerify : Bool) :
    Nat → List E → (Nat → SuperBuf E) → Option (Nat → SuperBuf E)
  | _, [], bufs => some bufs
  | 0, _ :: _, _ => none
  | fuel + 1, edge :: edges, bufs =>
      let chunk := (edge :: edges).take o.edgesPerBuf
      if edgeBufSize F o < chunk.length * F.splitSizeBytes then none
      else
        match chunk.foldlM (distributeEdge m F o isVerify) bufs with
        | none => none
        | some bufs => distributeLoop isVerify fuel ((edge :: edges).drop o.edgesPerBuf) bufs

/-- The loop that ships the partial groups (`sg_driver.hpp:471-491`). -/
def flushRest (isVerify : Bool) (bufs : Nat → SuperBuf E) (superp : Nat) :
    Option (Nat → SuperBuf E) :=
  if (bufs superp).edgeBuf = [] then some bufs
  else (flushBuf m F o isVerify (bufs superp)).map (Function.update bufs superp)

/-- The buffers that an incremental run resumes with, several super partitions
(`sg_driver.hpp:403-426`). -/
def resumeSuper (numEdges : Nat) (sb : SuperBuf E) : Option (SuperBuf E) :=
  if numEdges = 0 then some sb
  else
    let previousEdges := numEdges % o.edgesPerBuf
    let edgeFp := fseek sb.edgeFp (numEdges - previousEdges)
    let read := fread edgeFp previousEdges
    -- `ret` counts records; the assertion compares it with a number of bytes
    if previousEdges ≠ 0 ∧ read.1.length ≠ previousEdges * F.splitSizeBytes then none
    else
      some
        { edgeFp := edgeFp
          bfFp := fseek sb.bfFp (numEdges / o.edgesPerBuf * o.bfBufSize)
          edgeBuf := read.1 }

/-- `resumeSuper` for super partitions `0`, …, `n - 1`. -/
def resumeSupers (numEdges : Nat → Nat) : Nat → (Nat → SuperBuf E) → Option (Nat → SuperBuf E)
  | 0, bufs => some bufs
  | n + 1, bufs =>
      match resumeSupers numEdges n bufs with
      | none => none
      | some bufs => (resumeSuper F o (numEdges n) (bufs n)).map (Function.update bufs n)

/-- The two loops of `edge_distribution` behind the seeks (`sg_driver.hpp:431-491`). -/
def distributeEdges (isVerify : Bool) (edges : List E) (bufs : Nat → SuperBuf E) :
    Option (Nat → SuperBuf E) :=
  match distributeLoop m F o isVerify edges.length edges bufs with
  | none => none
  | some bufs => (List.range m.superPartitions).foldlM (flushRest m F o isVerify) bufs

/-- `edge_distribution` (`sg_driver.hpp:377-501`). -/
def edgeDistribution (efile : List E) (numEdges : Nat → Nat) (startEdge : Nat)
    (bufs : Nat → SuperBuf E) (isVerify : Bool) : Option (Nat → SuperBuf E) :=
  let resumed :=
    if m.superPartitions = 1 then
      if startEdge ≠ efile.length then
        some (Function.update bufs 0 { bufs 0 with
          bfFp := fseek (bufs 0).bfFp (startEdge / o.edgesPerBuf * o.bfBufSize) })
      else some bufs
    else resumeSupers F o numEdges m.superPartitions bufs
  match resumed with
  | none => none
  | some bufs => distributeEdges m F o isVerify (efile.drop startEdge) bufs

/-- The values of the option `bf_mode`. -/
inductive BfMode where
  | create
  | verify
  | update
  | use
  deriving DecidableEq, Repr

/-- `filter_group`: the number of groups that `n` edges fill, rounded up. -/
def filterGroup (n perGroup : Nat) : Nat :=
  if n % perGroup ≠ 0 then n / perGroup + 1 else n / perGroup

/-- The contents of the files `edges.N` and `bf` or `bf.N`, by super partition. -/
structure BloomFiles (E : Type) where
  edges : Nat → List E
  bf : Nat → List Byte

/-- `sanity_check` (`sg_driver.hpp:513-568`): the number of edges per super partition and the
first edge to distribute. -/
def sanityCheck (mode : BfMode) (efile : List E) (files : BloomFiles E) :
    Option ((Nat → Nat) × Nat) :=
  if ¬ o.IntProducts then none
  else if m.superPartitions = 1 then
    let bfSize := (files.bf 0).length
    let group := filterGroup efile.length o.edgesPerBuf
    match mode with
    | .create => some (fun _ => 0, 0)
    | .use | .verify => if group * o.bfBufSize = bfSize then some (fun _ => 0, 0) else none
    | .update =>
        if bfSize ≤ group * o.bfBufSize then
          -- unsigned arithmetic: the difference wraps when the filter file is empty
          some (fun _ => 0,
            (bfSize / o.bfBufSize + (2 ^ 64 - 1)) % 2 ^ 64 * o.edgesPerBuf % 2 ^ 64)
        else none
  else
    let numEdges := fun i => (files.edges i).length
    let numEdgeSum := ((List.range m.superPartitions).map numEdges).sum
    let groupsOf := fun i => filterGroup (numEdges i) o.edgesPerBuf * o.bfBufSize
    match mode with
    | .create => some (numEdges, 0)
    | .use | .verify =>
        if (∀ i < m.superPartitions, groupsOf i = (files.bf i).length) ∧
            efile.length = numEdgeSum then
          some (fun _ => 0, 0)
        else none
    | .update =>
        if (∀ i < m.superPartitions, (files.bf i).length ≤ groupsOf i) ∧
            numEdgeSum ≤ efile.length then
          some (numEdges, numEdgeSum)
        else none

/-- `partition_super_partition` (`sg_driver.hpp:570-619`). Mode `create` truncates the files,
the other modes open them as they are. -/
def partitionSuperPartition (mode : BfMode) (efile : List E) (files : BloomFiles E) :
    Option (BloomFiles E) :=
  let files := if mode = .create then ⟨fun _ => [], fun _ => []⟩ else files
  match sanityCheck m o mode efile files with
  | none => none
  | some (numEdges, startEdge) =>
      if mode = .use then some files
      else
        let bufs := fun i => ⟨File.opened (files.edges i), File.opened (files.bf i), []⟩
        (edgeDistribution m F o efile numEdges startEdge bufs (mode = .verify)).map fun bufs =>
          ⟨fun i => (bufs i).edgeFp.content, fun i => (bufs i).bfFp.content⟩

/-- The files as they are on disk: `edgesRest` is what is behind the last whole record of
`edges.N`. -/
structure DiskFiles (E : Type) extends BloomFiles E where
  edgesRest : Nat → List Byte

/-- `partition_super_partition` on such files. `file_size` asserts that a file has whole records;
mode `create` has truncated the files before. -/
def partitionDiskFiles (mode : BfMode) (efile : List E) (files : DiskFiles E) : Option (DiskFiles E) :=
  let rests := if mode = .create then fun _ => [] else files.edgesRest
  if 1 < m.superPartitions ∧ ∃ s < m.superPartitions, rests s ≠ [] then none
  else (partitionSuperPartition m F o mode efile files.toBloomFiles).map fun after =>
    ⟨after, rests⟩

end Build

end MBFGraph
