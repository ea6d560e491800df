import MBFGraph.Core.OutputBuffer
import MBFGraph.Algorithms.Scan
import MBFGraph.Algorithms.HyperLogLog

/-!
# The buffer of a thread

A substream is worked off, and with the effect of going through its edges one after the other, if an
update has at least one byte and fits into the buffer (`worksOff_iff`). An update without bytes is a
division by zero, and one that is too large is waited for without end.
-/

namespace MBFGraph

namespace StreamCallback

variable {σ υ δ γ E W : Type} {c : Configuration} {A : SgAlgorithm σ υ δ γ W} {F : FormatUtils E W}
  {updateBytes superp processor partition max : Nat}

/-- The driver's state when the updates in the buffer are handed over. -/
def flushed (cb : StreamCallback σ υ δ γ E) : SgState σ υ δ γ :=
  { cb.sg with updatesOut := cb.sg.updatesOut ++ cb.bufout }

/-- `bytes_out` counts the updates in the buffer. -/
def Counts (updateBytes : Nat) (cb : StreamCallback σ υ δ γ E) : Prop :=
  cb.bytesOut = cb.bufout.length * updateBytes

theorem bytesIn_eq_zero {cb : StreamCallback σ υ δ γ E} : cb.bytesIn F = 0 ↔ cb.bufin = [] := by
  have positive := F.holdsTwoIds
  rw [bytesIn, Nat.mul_eq_zero, List.length_eq_zero_iff]
  exact or_iff_left (by omega)

section Edge

variable (c A F superp processor partition) (cb : StreamCallback σ υ δ γ E) (e : E)

/-- An edge has the same effect with the buffer as without. -/
theorem flushed_scatterEdge :
    (scatterEdge c A F updateBytes superp processor partition cb e).flushed =
      ScatterGather.scatterRecord c A F superp processor partition cb.flushed e := by
  unfold scatterEdge ScatterGather.scatterRecord
  split
  · rfl
  · simp [flushed]

theorem counts_scatterEdge (counts : cb.Counts updateBytes) :
    (scatterEdge c A F updateBytes superp processor partition cb e).Counts updateBytes := by
  unfold scatterEdge
  split
  · exact counts
  · unfold Counts at counts ⊢
    dsimp only
    cases (A.generateUpdate _ _ _ _ _ _).1 with
    | none => simpa using counts
    | some u => simp [counts, Nat.succ_mul]

/-- `generate_update` is called unless the edge is deleted. -/
theorem calls_scatterEdge :
    (scatterEdge c A F updateBytes superp processor partition cb e).calls =
      cb.calls ++ if F.splitKey e 0 = tombstone then [] else [(e, cb.bytesOut)] := by
  unfold scatterEdge
  split
  · exact (List.append_nil _).symm
  · rfl

end Edge

/-- What the callback has done with the first edges of the substream. -/
structure Consumes (c : Configuration) (A : SgAlgorithm σ υ δ γ W) (F : FormatUtils E W)
    (updateBytes superp processor partition : Nat) (records : List E)
    (cb after : StreamCallback σ υ δ γ E) : Prop where
  counts : after.Counts updateBytes
  sg : after.flushed =
    records.foldl (ScatterGather.scatterRecord c A F superp processor partition) cb.flushed
  calls : ∃ made, after.calls = cb.calls ++ made ∧
    made.map Prod.fst = records.filter (fun e => F.splitKey e 0 ≠ tombstone) ∧
    ∀ call ∈ made, call.2 + updateBytes ≤ outbufSize

/-- Some edges, if there is room for one, and the rest is left for the next time. -/
theorem partitionCallback_spec (c : Configuration) (A : SgAlgorithm σ υ δ γ W)
    (F : FormatUtils E W) (superp processor partition : Nat) (inside : max ≤ outbufSize) (records : List E)
    (cb : StreamCallback σ υ δ γ E) (counts : cb.Counts updateBytes) :
    ∃ first rest, records = first ++ rest ∧
      (cb.bytesOut + updateBytes ≤ max → records ≠ [] → first ≠ []) ∧
      (partitionCallback c A F updateBytes superp processor partition max records cb).bufin = rest ∧
      Consumes c A F updateBytes superp processor partition first cb
        (partitionCallback c A F updateBytes superp processor partition max records cb) := by
  induction records generalizing cb with
  | nil =>
    exact ⟨[], [], rfl, fun _ some_ => absurd rfl some_, rfl,
      counts, rfl, [], (List.append_nil _).symm, rfl, by simp⟩
  | cons e records ih =>
    by_cases full : max < cb.bytesOut + updateBytes
    · rw [partitionCallback, if_pos full]
      exact ⟨[], e :: records, rfl, fun room => absurd full (not_lt.mpr room), rfl,
        counts, rfl, [], (List.append_nil _).symm, rfl, by simp⟩
    · rw [partitionCallback, if_neg full]
      obtain ⟨first, rest, split_, -, left, did⟩ :=
        ih (scatterEdge c A F updateBytes superp processor partition cb e)
          (counts_scatterEdge c A F superp processor partition cb e counts)
      obtain ⟨made, calls, edges, places⟩ := did.calls
      refine ⟨e :: first, rest, by rw [split_]; rfl, fun _ _ => List.cons_ne_nil _ _, left,
        did.counts, ?_, (if F.splitKey e 0 = tombstone then [] else [(e, cb.bytesOut)]) ++ made,
        ?_, ?_, ?_⟩
      · rw [did.sg, flushed_scatterEdge]
        rfl
      · rw [calls, calls_scatterEdge, List.append_assoc]
      · rw [List.map_append, edges, List.filter_cons]
        by_cases deleted : F.splitKey e 0 = tombstone
        · rw [if_pos deleted, if_neg (by simpa using deleted)]
          rfl
        · rw [if_neg deleted, if_pos (by simpa using deleted)]
          rfl
      · intro call mem
        obtain here | later := List.mem_append.mp mem
        · split at here
          · exact absurd here List.not_mem_nil
          · rw [List.mem_singleton.mp here]
            dsimp only
            omega
        · exact places call later

theorem Consumes.trans {first rest : List E} {cb mid mid' after : StreamCallback σ υ δ γ E}
    (did : Consumes c A F updateBytes superp processor partition first cb mid)
    (flushed : mid'.flushed = mid.flushed) (calls : mid'.calls = mid.calls)
    (does : Consumes c A F updateBytes superp processor partition rest mid' after) :
    Consumes c A F updateBytes superp processor partition (first ++ rest) cb after := by
  obtain ⟨made, madeCalls, edges, places⟩ := did.calls
  obtain ⟨made', madeCalls', edges', places'⟩ := does.calls
  refine ⟨does.counts, ?_, made ++ made', ?_, ?_, ?_⟩
  · rw [does.sg, flushed, did.sg, List.foldl_append]
  · rw [madeCalls', calls, madeCalls, List.append_assoc]
  · rw [List.map_append, edges, edges', List.filter_append]
  · intro call mem
    exact (List.mem_append.mp mem).elim (places call) (places' call)

/-- The buffer at the start of a pass. -/
def Emptied (cb : StreamCallback σ υ δ γ E) : Prop := cb.bytesOut = 0 ∧ cb.bufout = []

theorem Emptied.flushed {cb : StreamCallback σ υ δ γ E} (empty : cb.Emptied) :
    cb.flushed = cb.sg := by
  rw [StreamCallback.flushed, empty.2, List.append_nil]

/-- Behind the callback the buffer is emptied, if there is something in it. -/
theorem emptied_append (positive : 0 < updateBytes) {cb : StreamCallback σ υ δ γ E}
    (counts : cb.Counts updateBytes) :
    (if 0 < cb.bytesOut then appendBuffer cb else cb).Emptied ∧
      (if 0 < cb.bytesOut then appendBuffer cb else cb).flushed = cb.flushed ∧
      (if 0 < cb.bytesOut then appendBuffer cb else cb).calls = cb.calls ∧
      (if 0 < cb.bytesOut then appendBuffer cb else cb).bufin = cb.bufin := by
  split
  · refine ⟨⟨rfl, rfl⟩, ?_, rfl, rfl⟩
    simp [StreamCallback.flushed, appendBuffer]
  · rename_i nothing
    have bytes : cb.bytesOut = 0 := Nat.eq_zero_of_not_pos nothing
    unfold Counts at counts
    rw [bytes, eq_comm, Nat.mul_eq_zero, List.length_eq_zero_iff] at counts
    exact ⟨⟨bytes, counts.resolve_right (Nat.ne_of_gt positive)⟩, rfl, rfl, rfl⟩

/-- With room for one update every pass takes an edge, and the loop ends. -/
theorem executeCallback_spec (c : Configuration) (A : SgAlgorithm σ υ δ γ W)
    (F : FormatUtils E W) (superp processor partition : Nat) (positive : 0 < updateBytes) (room : updateBytes ≤ max)
    (inside : max ≤ outbufSize) (cb : StreamCallback σ υ δ γ E) (empty : cb.Emptied) :
    ∃ after, (∀ fuel, cb.bufin.length < fuel →
        executeCallback c A F updateBytes superp processor partition max fuel cb = some after) ∧
      after.bufin = [] ∧ after.Emptied ∧
      Consumes c A F updateBytes superp processor partition cb.bufin cb after := by
  induction size : cb.bufin.length using Nat.strong_induction_on generalizing cb with
  | _ n ih =>
    subst n
    have counts : cb.Counts updateBytes := by simp [Counts, empty.1, empty.2]
    by_cases done : cb.bufin = []
    · refine ⟨cb, fun fuel more => ?_, done, empty, ?_⟩
      · obtain ⟨fuel, rfl⟩ := Nat.exists_eq_add_one_of_ne_zero (by omega : fuel ≠ 0)
        rw [executeCallback, if_pos (bytesIn_eq_zero.mpr done)]
      · rw [done]
        exact ⟨counts, rfl, [], (List.append_nil _).symm, rfl, by simp⟩
    · obtain ⟨first, rest, split_, takes, left, did⟩ :=
        partitionCallback_spec c A F superp processor partition inside cb.bufin cb counts
      have some_ : first ≠ [] := takes (by rw [empty.1, Nat.zero_add]; exact room) done
      obtain ⟨emptied, same, calls, bufin⟩ := emptied_append positive did.counts
      generalize next : (if 0 < (partitionCallback c A F updateBytes superp processor partition max
        cb.bufin cb).bytesOut then appendBuffer _ else _) = cb' at emptied same calls bufin
      rw [left] at bufin
      have less : cb'.bufin.length < cb.bufin.length := by
        rw [bufin, split_, List.length_append]
        have := List.length_pos_iff.mpr some_
        omega
      obtain ⟨after, returns, out, emptied', does⟩ := ih _ less cb' emptied rfl
      refine ⟨after, fun fuel more => ?_, out, emptied', ?_⟩
      · obtain ⟨fuel, rfl⟩ := Nat.exists_eq_add_one_of_ne_zero (by omega : fuel ≠ 0)
        rw [executeCallback, if_neg (fun zero => done (bytesIn_eq_zero.mp zero))]
        dsimp only
        rw [next]
        exact returns fuel (by omega)
      · rw [split_]
        rw [bufin] at does
        exact did.trans same calls does

/-- Without room for one update the callback returns at once, and is called again. -/
theorem executeCallback_stuck (c : Configuration) (A : SgAlgorithm σ υ δ γ W)
    (F : FormatUtils E W) (superp processor partition : Nat) (tight : max < updateBytes) (fuel : Nat)
    {cb : StreamCallback σ υ δ γ E} (empty : cb.Emptied) (more : cb.bufin ≠ []) :
    executeCallback c A F updateBytes superp processor partition max fuel cb = none := by
  induction fuel with
  | zero => rfl
  | succ fuel ih =>
    have same : partitionCallback c A F updateBytes superp processor partition max cb.bufin cb =
        cb := by
      obtain ⟨e, rest, bufin⟩ := List.exists_cons_of_ne_nil more
      rw [bufin, partitionCallback, if_pos (by rw [empty.1]; omega), ← bufin]
    rw [executeCallback, if_neg (fun zero => more (bytesIn_eq_zero.mp zero))]
    simpa only [same, empty.1, lt_irrefl, if_false] using ih

theorem bytesOutMax_room (positive : 0 < updateBytes) (fits : updateBytes ≤ outbufSize) :
    updateBytes ≤ outbufSize / updateBytes * updateBytes :=
  Nat.le_mul_of_pos_left _ (Nat.div_pos fits positive)

theorem WorksOff.pos {records : List E} {sg : SgState σ υ δ γ}
    (works : WorksOff c A F updateBytes superp processor partition records sg) :
    0 < updateBytes := by
  obtain ⟨max, defined, -⟩ := works
  refine Nat.pos_of_ne_zero ?_
  rintro rfl
  exact absurd defined (by simp [bytesOutMax])

theorem WorksOff.fits {records : List E} {sg : SgState σ υ δ γ}
    (works : WorksOff c A F updateBytes superp processor partition records sg) :
    updateBytes ≤ outbufSize ∨ records = [] := by
  have positive := works.pos
  obtain ⟨max, defined, n, after, returns, -⟩ := works
  rw [bytesOutMax, if_neg (Nat.ne_of_gt positive), Option.some.injEq] at defined
  by_contra stuck
  obtain ⟨large, more⟩ := not_or.mp stuck
  have tight : max < updateBytes := by
    rw [← defined, Nat.div_eq_of_lt (not_le.mp large), Nat.zero_mul]
    exact positive
  have never : executeCallback c A F updateBytes superp processor partition max (n + 1)
      (enter records sg) = none :=
    executeCallback_stuck c A F superp processor partition tight (n + 1) ⟨rfl, rfl⟩ more
  rw [returns (n + 1) (Nat.lt_succ_self n)] at never
  exact absurd never (Option.some_ne_none after)

/-- A substream without edges is worked off already. -/
theorem worksOff_nil (positive : 0 < updateBytes) (sg : SgState σ υ δ γ) :
    WorksOff c A F updateBytes superp processor partition [] sg := by
  refine ⟨_, if_neg (Nat.ne_of_gt positive), 0, enter [] sg, fun fuel more => ?_, Nat.zero_mul _,
    rfl, by simp [enter], rfl⟩
  obtain ⟨fuel, rfl⟩ := Nat.exists_eq_add_one_of_ne_zero (Nat.ne_of_gt more)
  rw [executeCallback, if_pos (bytesIn_eq_zero.mpr rfl)]

theorem worksOff_of_le (positive : 0 < updateBytes) (fits : updateBytes ≤ outbufSize)
    (records : List E) (sg : SgState σ υ δ γ) :
    WorksOff c A F updateBytes superp processor partition records sg := by
  refine ⟨_, if_neg (Nat.ne_of_gt positive), ?_⟩
  have emptied : (enter records sg).Emptied := ⟨rfl, rfl⟩
  obtain ⟨after, returns, out, empty, did⟩ := executeCallback_spec c A F superp processor partition
    positive (bytesOutMax_room positive fits) (Nat.div_mul_le_self _ _) (enter records sg) emptied
  obtain ⟨made, calls, edges, places⟩ := did.calls
  have calls : after.calls = made := calls
  refine ⟨records.length, after, returns, bytesIn_eq_zero.mpr out, ?_, ?_, ?_⟩
  · rw [calls]
    exact edges
  · rw [calls]
    exact places
  · rw [← empty.flushed, did.sg, emptied.flushed]
    rfl

end StreamCallback

open StreamCallback HyperAnf

/-- `bytes_out_max` has a value, and a substream is worked off, if and only if an update has at least
one byte, and fits into the buffer or there is no edge. -/
theorem worksOff_iff {σ υ δ γ E W : Type} (c : Configuration) (A : SgAlgorithm σ υ δ γ W)
    (F : FormatUtils E W) (updateBytes superp processor partition : Nat) (records : List E)
    (sg : SgState σ υ δ γ) :
    WorksOff c A F updateBytes superp processor partition records sg ↔
      0 < updateBytes ∧ (updateBytes ≤ outbufSize ∨ records = []) := by
  constructor
  · intro works
    exact ⟨works.pos, works.fits⟩
  · rintro ⟨positive, fits | rfl⟩
    · exact worksOff_of_le positive fits records sg
    · exact worksOff_nil positive sg

/-- Updates of `degree_cnt` have no bytes, and with 2^14 registers those of hyperanf have more than
the buffer: an edge is not worked off. -/
theorem not_worksOff :
    ¬ WorksOff (Configuration.single 0 2 (by decide)) degreeCnt type2 degreeCntSplitSizeBytes 0 0 0
        [⟨0, 1⟩] (ScatterGather.start (fun _ => 0) (fun _ => ()) ()) ∧
      ¬ WorksOff (Configuration.single 0 2 (by decide))
        (hyperanfProgram 32 (fun _ : HllCounter 14 => ()) fun total data _ => (total, data, false))
        type2 (hyperanfSplitSizeBytes 14) 0 0 0 [⟨0, 1⟩]
        (ScatterGather.start (fun _ => ⟨false, (), initialCounter 14 0⟩) (fun _ => ()) ()) := by
  constructor
  · intro works
    exact absurd works.pos (by decide)
  · intro works
    obtain small | empty := works.fits
    · exact absurd small (by decide)
    · exact absurd empty (List.cons_ne_nil _ _)

end MBFGraph
