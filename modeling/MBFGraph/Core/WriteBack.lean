import MBFGraph.Core.StateIter
import MBFGraph.Core.PageSelect
import MBFGraph.Lib.Writes

/-!
# Differential write-back of the vertex state

With more than one super partition the vertex state lives in one file per super partition. A
superstep visits the super partitions in turn (`sg_driver.hpp:755-893`): load the state into the
one state buffer, change records, mark the 512-byte sectors of the records that
`check_reset_changed` reports in `ver_buf_chg`, and store the marked sectors
(`disk_io.hpp:470-542`).
-/

namespace MBFGraph

open ByteBits BitScan Overwrite

/-- What the write-back sees of a vertex program: the size of a record, and
`check_reset_changed`, which may also change the record (it resets a flag). -/
structure VertexProgram where
  vertexStateBytes : Nat
  checkResetChanged : List Byte → Nat → Nat → Bool × List Byte
  vertexStateBytes_pos : 0 < vertexStateBytes
  length_checkResetChanged : ∀ vertex index phase,
    (checkResetChanged vertex index phase).2.length = vertex.length

/-- What a processor has at hand while it iterates over the vertices in `phase_scatter`. -/
structure ChangeScan where
  buffer : List Byte
  verBufChg : List Byte
  previousPos : Option Nat

section

variable (A : VertexProgram) (c : Configuration)

/-- `vertex_state_buffer_size`. -/
def stateBufsize : Nat := c.vertexStateBufferSize A.vertexStateBytes

/-- The record that `state_iter_work` visits at an index of a cached partition. -/
def recordOf (superp : Nat) (v : Nat × Nat) : Nat := c.firstRecord superp v.1 + v.2

/-- `state_iter_callback` in `phase_scatter` (`sg_driver.hpp:281-291`). The sector numbers are
`unsigned int`. -/
def stateIterCallback (superp phase : Nat) (s : ChangeScan) (v : Nat × Nat) : ChangeScan :=
  let L := A.vertexStateBytes
  let vertex := recordOf c superp v * L
  let checked := A.checkResetChanged (block L s.buffer (recordOf c superp v))
    (c.mapInverse superp v.1 v.2) phase
  let buffer := overwrite s.buffer vertex checked.2
  if checked.1 then
    let pos := vertex / 512 % 2 ^ 32
    let tPos := (vertex + L - 1) / 512 % 2 ^ 32
    -- the marks of a record inside one sector are skipped if the record before it left them
    if s.previousPos ≠ some pos ∨ s.previousPos ≠ some tPos then
      { buffer, verBufChg := setBit (setBit s.verBufChg pos) tPos, previousPos := some pos }
    else { s with buffer }
  else { s with buffer }

/-- One processor: `previous_pos` was reset by `do_cpu_callback`. -/
def stateIterProcessor (superp phase : Nat) (s : ChangeScan) (processorId : Nat) : ChangeScan :=
  (c.stateIter superp processorId).foldl (stateIterCallback A c superp phase)
    { s with previousPos := none }

/-- `ver_buf_chg` after `std::fill` and `ver_buf_chg[0] |= 1`. -/
def clearedVerBufChg : List Byte :=
  setBit (List.replicate ((stateBufsize A c / 512 + 1) / 8 + 1) 0) 0

/-- `do_state_iter` in `phase_scatter`. The processors touch disjoint records and mark sectors
with atomic operations, so they may as well run one after the other. -/
def markChanged (superp phase : Nat) (buffer : List Byte) : ChangeScan :=
  (List.range c.processors).foldl (stateIterProcessor A c superp phase)
    ⟨buffer, clearedVerBufChg A c, none⟩

end

/-- `search_and_update_next_w_positions` for `random_pos = cur`: offset and length of the next
write, and the new `random_pos`. -/
def searchAndUpdateNextWPositions (test : List Byte) (bufbytes cur : Nat) :
    (Nat × Nat) × Option Nat :=
  let run := extendRun (findNext test) (fun n => decide (n * 512 < 2 ^ 30)) cur
    (8 * test.length + 1) 1 (findNext test cur)
  let offset := cur * 512
  let length := run.1 * 512
  ((offset, if offset + length > bufbytes then bufbytes - offset else length), run.2)

/-- The writes that `random_write_internal` submits until `random_pos` is `-1`. -/
def randomWritesFrom (test buffer : List Byte) (bufbytes : Nat) :
    Nat → Option Nat → List (Nat × List Byte)
  | 0, _ => []
  | _ + 1, none => []
  | fuel + 1, some cur =>
      let next := searchAndUpdateNextWPositions test bufbytes cur
      (next.1.1, (buffer.drop next.1.1).take next.1.2) ::
        randomWritesFrom test buffer bufbytes fuel next.2

/-- `random_write_internal` behind `set_bitset`. -/
def randomWrites (test buffer : List Byte) (bufbytes : Nat) : List (Nat × List Byte) :=
  randomWritesFrom test buffer bufbytes (8 * test.length + 1) (findFirst test)

/-- `read_operator` of a one-shot read: the file from its start on, as far as it goes. -/
def readOneShot (buffer file : List Byte) (bufsize : Nat) : List Byte :=
  overwrite buffer 0 (file.take bufsize)

/-- The driver between two visits. `stored` is no part of the program: it remembers the state
buffer at the last `state_store` of each super partition. -/
structure WriteBackState where
  phase : Nat
  superp : Nat
  buffer : List Byte
  files : Nat → List Byte
  stored : Nat → Option (List Byte)

/-- The steps of a visit that modify records (`init`, `apply_one_update`, `generate_update`): each
names a record and what it leaves there. -/
abbrev Changes := List (Nat × List Byte)

section

variable (A : VertexProgram) (c : Configuration)

/-- `state_load`, which the first superstep leaves out. -/
def stateLoad (st : WriteBackState) : List Byte :=
  if 0 < st.phase then readOneShot st.buffer (st.files st.superp) (stateBufsize A c) else st.buffer

/-- The state buffer when the scatter phase is over. -/
def scattered (st : WriteBackState) (changes : Changes) : List Byte :=
  applyWrites (changes.map fun change => (change.1 * A.vertexStateBytes, change.2))
    (stateLoad A c st)

/-- The state buffer and the change bitmap when `state_store` is called. -/
def marked (st : WriteBackState) (changes : Changes) : ChangeScan :=
  markChanged A c st.superp st.phase (scattered A c st changes)

/-- The requests of `state_store`. -/
def storeWrites (st : WriteBackState) (changes : Changes) : List (Nat × List Byte) :=
  randomWrites (marked A c st changes).verBufChg (marked A c st changes).buffer (stateBufsize A c)

/-- One turn of the loop over the super partitions. `fuse` is the option with which `refreshWRfd`
opens the file with `O_TRUNC`; the requests are completed in the order `order`. -/
def visit (fuse : Bool) (st : WriteBackState) (changes : Changes)
    (order : List (Nat × List Byte)) : WriteBackState :=
  let last := decide (st.superp + 1 = c.superPartitions)
  let file := if fuse then [] else st.files st.superp
  { phase := if last then st.phase + 1 else st.phase
    superp := if last then 0 else st.superp + 1
    buffer := (marked A c st changes).buffer
    files := Function.update st.files st.superp (applyWrites order file)
    stored := Function.update st.stored st.superp (some (marked A c st changes).buffer) }

/-- The changes lie in the super partition and have the size of a record. -/
def ChangesFit (st : WriteBackState) (changes : Changes) : Prop :=
  ∀ change ∈ changes, change.1 < c.records st.superp ∧ change.2.length = A.vertexStateBytes

/-- The runs of the driver from empty files whose visits all satisfy `ok`. -/
inductive WriteBackRun (fuse : Bool) (ok : WriteBackState → Changes → Prop) :
    WriteBackState → Prop
  | start {buffer : List Byte} (whole : buffer.length = stateBufsize A c) :
      WriteBackRun fuse ok ⟨0, 0, buffer, fun _ => [], fun _ => none⟩
  | visit {st : WriteBackState} {changes : Changes} {order : List (Nat × List Byte)}
      (run : WriteBackRun fuse ok st) (fit : ChangesFit A c st changes) (good : ok st changes)
      (perm : order.Perm (storeWrites A c st changes)) :
      WriteBackRun fuse ok (visit A c fuse st changes order)

/-- What `check_reset_changed` says of a record when `phase_scatter` visits it. -/
def checked (st : WriteBackState) (changes : Changes) (v : Nat × Nat) : Bool × List Byte :=
  A.checkResetChanged
    (block A.vertexStateBytes (scattered A c st changes) (recordOf c st.superp v))
    (c.mapInverse st.superp v.1 v.2) st.phase

/-- The vertices that are visited. -/
def IsVertex (superp : Nat) (v : Nat × Nat) : Prop :=
  v.1 < c.cachedPartitions ∧ v.2 < c.stateCount superp v.1

/-- Every step that modifies a record makes `check_reset_changed` return true for it, and
`check_reset_changed` itself modifies no record that it does not report. -/
def ReportsChanges (st : WriteBackState) (changes : Changes) : Prop :=
  ∀ v, IsVertex c st.superp v →
    ((∃ change ∈ changes, change.1 = recordOf c st.superp v) →
        (checked A c st changes v).1 = true) ∧
      ((checked A c st changes v).1 = false → (checked A c st changes v).2 =
        block A.vertexStateBytes (scattered A c st changes) (recordOf c st.superp v))

/-- After a store the file starts with the records that were stored, and the next load of the
super partition brings them back. -/
def Lossless (st : WriteBackState) : Prop :=
  ∀ s buffer, st.stored s = some buffer →
    (st.files s).take (c.records s * A.vertexStateBytes) =
        buffer.take (c.records s * A.vertexStateBytes) ∧
      (readOneShot st.buffer (st.files s) (stateBufsize A c)).take
          (c.records s * A.vertexStateBytes) =
        buffer.take (c.records s * A.vertexStateBytes)

end

end MBFGraph
