import MBFGraph.Core.Feed
import Mathlib.Data.List.Flatten
import Mathlib.Algebra.Order.Group.Nat
import Mathlib.Tactic.Ring

/-!
# The feed protocol

However the feeder and the process that ingests take turns, the batches that are taken are the
records of the file, in order, and no call returns true before the last one is taken
(`feedsFile`). While `avail` is not 0 the feeder only waits, so the segment belongs to the other
process.
-/

namespace MBFGraph

open ByteBits Interleaving

/-- The buffer begins with the `n` bytes of the file from `pos` on. -/
def IngestSegment.Holds (file : List Byte) (segment : IngestSegment) (pos n : Nat) : Prop :=
  ∀ i < n, file[pos + i]? = some (segment.buffer i)

/-- The feeder after `taken` bytes of `total` have been taken from the segment. -/
def Feeder.Fits (file : List Byte) (align total taken : Nat) (segment : IngestSegment)
    (f : Feeder) : Prop :=
  align ∣ f.bytes ∧
  match f.pc with
  | .whileBytes =>
    segment.avail = 0 ∧ segment.eof = false ∧ f.pos = taken ∧ taken + f.bytes = total
  | .readFromFile n done =>
    segment.avail = 0 ∧ segment.eof = false ∧ f.pos = taken + done ∧ taken + f.bytes = total ∧
      (align ∣ n ∧ 0 < n ∧ n ≤ f.bytes ∧ done ≤ n) ∧ segment.Holds file taken done
  | .setAvail n =>
    segment.avail = 0 ∧ segment.eof = false ∧ f.pos = taken + n ∧ f.pos + f.bytes = total ∧
      (align ∣ n ∧ 0 < n) ∧ segment.Holds file taken n
  | .whileAvail =>
    segment.eof = false ∧ f.pos = taken + segment.avail ∧ f.pos + f.bytes = total ∧
      align ∣ segment.avail ∧ segment.Holds file taken segment.avail
  | .setEof => segment.avail = 0 ∧ segment.eof = false ∧ taken = total
  | .returned => segment.avail = 0 ∧ segment.eof = true ∧ taken = total

/-- The call of `ingest`: where it has left the first loop, there is a batch or the end, and what it
has copied is still in the segment. -/
def Ingester.Fits (segment : IngestSegment) (c : Ingester) : Prop :=
  match c.pc with
  | .outside | .whileAvail | .whileEof => True
  | .ifEof => segment.avail ≠ 0 ∨ segment.eof = true
  | .memcpy size done =>
    segment.avail ≠ 0 ∧ size = segment.avail ∧ done ≤ size ∧ ∀ i < done, c.buffer i = segment.buffer i
  | .setBufsize => segment.avail ≠ 0 ∧ ∀ i < segment.avail, c.buffer i = segment.buffer i
  | .clearAvail =>
    segment.avail ≠ 0 ∧ c.bufsize = segment.avail ∧ ∀ i < segment.avail, c.buffer i = segment.buffer i

namespace FeedState

/-- The bytes that have been taken. -/
def taken (s : FeedState) : List Byte := s.ingester.batches.flatten

/-- What holds after every turn. -/
structure Feeds (file : List Byte) (align total : Nat) (s : FeedState) : Prop where
  room : align ≤ s.segment.max
  feeder : s.feeder.Fits file align total s.taken.length s.segment
  ingester : s.ingester.Fits s.segment
  records : ∀ batch ∈ s.ingester.batches, align ∣ batch.length
  prefix_ : s.taken = file.take s.taken.length
  eof : s.ingester.eof = true → s.segment.eof = true

end FeedState

/-! ## The feeder -/

namespace Feeder

variable {file : List Byte} {align total taken : Nat} {segment : IngestSegment} {f : Feeder}

/-- A batch in the segment is left alone. -/
theorem Fits.waits (fits : f.Fits file align total taken segment) (batch : segment.avail ≠ 0) :
    f.pc = .whileAvail := by
  obtain ⟨-, fits⟩ := fits
  cases pc : f.pc with
  | whileAvail => rfl
  | _ =>
    rw [pc] at fits
    exact absurd fits.1 batch

/-- Who has set `eof` makes no more steps. -/
theorem Fits.returned (fits : f.Fits file align total taken segment) (eof : segment.eof = true) :
    f.pc = .returned := by
  obtain ⟨-, fits⟩ := fits
  cases pc : f.pc with
  | returned => rfl
  | whileAvail =>
    rw [pc] at fits
    exact absurd eof (by simp [fits.1])
  | _ =>
    rw [pc] at fits
    exact absurd eof (by simp [fits.2.1])

theorem Fits.all_taken (fits : f.Fits file align total taken segment) (eof : segment.eof = true) :
    segment.avail = 0 ∧ taken = total := by
  have pc := fits.returned eof
  obtain ⟨-, fits⟩ := fits
  rw [pc] at fits
  exact ⟨fits.1, fits.2.2⟩

theorem Fits.taken_le (fits : f.Fits file align total taken segment) :
    taken + segment.avail ≤ total := by
  obtain ⟨-, fits⟩ := fits
  cases pc : f.pc <;> rw [pc] at fits <;> dsimp only at fits <;> omega

/-- A whole number of records that is not 0. -/
theorem batch_size {max : Nat} (records : 0 < align) (room : align ≤ max) (whole : align ∣ f.bytes)
    (more : f.bytes ≠ 0) :
    align ∣ min max f.bytes / align * align ∧ 0 < min max f.bytes / align * align ∧
      min max f.bytes / align * align ≤ f.bytes := by
  have fits : align ≤ min max f.bytes :=
    Nat.le_min.mpr ⟨room, Nat.le_of_dvd (Nat.pos_of_ne_zero more) whole⟩
  refine ⟨Nat.dvd_mul_left _ _, Nat.mul_pos (Nat.div_pos fits records) records, ?_⟩
  exact (Nat.div_mul_le_self _ _).trans (Nat.min_le_right _ _)

theorem holds_update {done : Nat} {byte : Byte} (holds : segment.Holds file taken done)
    (read : file[taken + done]? = some byte) :
    IngestSegment.Holds file { segment with buffer := Function.update segment.buffer done byte }
      taken (done + 1) := by
  intro i small
  by_cases last : i = done
  · subst last
    simpa using read
  · simpa [Function.update_of_ne last] using holds i (by omega)

theorem step_fits (records : 0 < align) (room : align ≤ segment.max) (whole : total ≤ file.length)
    (fits : f.Fits file align total taken segment) :
    (f.step file align segment).2.Fits file align total taken (f.step file align segment).1 := by
  obtain ⟨aligned, fits⟩ := fits
  unfold step
  cases pc : f.pc with
  | whileBytes =>
    rw [pc] at fits
    obtain ⟨avail, eof, pos, left⟩ := fits
    dsimp only
    split
    · exact ⟨aligned, avail, eof, by omega⟩
    · rename_i more
      obtain ⟨whole, positive, below⟩ := batch_size records room aligned more
      exact ⟨aligned, avail, eof, pos, left, ⟨whole, positive, below, Nat.zero_le _⟩,
        fun i small => absurd small (Nat.not_lt_zero i)⟩
  | readFromFile n done =>
    rw [pc] at fits
    obtain ⟨avail, eof, pos, left, ⟨batch, positive, below, bound⟩, holds⟩ := fits
    dsimp only
    by_cases more : done < n
    · have inside : f.pos < file.length := by omega
      rw [if_pos more, List.getElem?_eq_getElem inside]
      refine ⟨aligned, avail, eof, by simp only; omega, left, ⟨batch, positive, below, more⟩, ?_⟩
      exact holds_update holds (by rw [← pos, List.getElem?_eq_getElem inside])
    · rw [if_neg more]
      have all : done = n := by omega
      subst all
      exact ⟨Nat.dvd_sub aligned batch, avail, eof, pos, by simp only; omega,
        ⟨batch, positive⟩, holds⟩
  | setAvail n =>
    rw [pc] at fits
    obtain ⟨avail, eof, pos, left, ⟨batch, -⟩, holds⟩ := fits
    exact ⟨aligned, eof, pos, left, batch, holds⟩
  | whileAvail =>
    rw [pc] at fits
    dsimp only
    split
    · rename_i cleared
      obtain ⟨eof, pos, left, -, -⟩ := fits
      rw [cleared] at pos
      exact ⟨aligned, cleared, eof, pos, by simp only; omega⟩
    · refine ⟨aligned, ?_⟩
      rw [pc]
      exact fits
  | setEof =>
    rw [pc] at fits
    obtain ⟨avail, -, all⟩ := fits
    exact ⟨aligned, avail, rfl, all⟩
  | returned =>
    rw [pc] at fits
    refine ⟨aligned, ?_⟩
    rw [pc]
    exact fits

/-- Nothing changes while there is a batch in the segment. -/
theorem step_waits (fits : f.Fits file align total taken segment) (batch : segment.avail ≠ 0) :
    f.step file align segment = (segment, f) := by
  simp [step, fits.waits batch, batch]

theorem step_returned (fits : f.Fits file align total taken segment) (eof : segment.eof = true) :
    f.step file align segment = (segment, f) := by
  simp [step, fits.returned eof]

theorem step_max : (f.step file align segment).1.max = segment.max := by
  unfold step
  split
  all_goals (try split) <;> rfl

end Feeder

/-! ## The process that ingests -/

namespace Ingester

variable {file : List Byte} {align total taken : Nat} {segment : IngestSegment} {c : Ingester}

/-- While there is nothing in the segment, the call has not come further than the first loop. -/
theorem Fits.polls (fits : c.Fits segment) (avail : segment.avail = 0) (eof : segment.eof = false)
    (segment' : IngestSegment) : c.Fits segment' := by
  unfold Fits at fits ⊢
  cases pc : c.pc with
  | outside | whileAvail | whileEof => trivial
  | ifEof =>
    rw [pc] at fits
    simp [avail, eof] at fits
  | memcpy | setBufsize | clearAvail =>
    rw [pc] at fits
    exact absurd avail fits.1

theorem step_max : (c.step segment).1.max = segment.max := by
  unfold step
  split
  all_goals (try split) <;> rfl

theorem step_eof : (c.step segment).1.eof = segment.eof := by
  unfold step
  split
  all_goals (try split) <;> rfl

/-- A call returns true where it has read `eof`. -/
theorem eof_of_step (ended : (c.step segment).2.eof = true) :
    c.eof = true ∨ segment.eof = true := by
  unfold step at ended
  split at ended
  case h_4 =>
    split at ended
    · rename_i eof
      exact Or.inr eof
    · exact Or.inl ended
  all_goals (try split at ended) <;> exact Or.inl ended

/-- Only the last statement changes the segment, or what has been taken. -/
theorem step_before (segment : IngestSegment) (pc : c.pc ≠ .clearAvail) :
    (c.step segment).1 = segment ∧ (c.step segment).2.batches = c.batches := by
  unfold step
  split
  case h_7 clear => exact absurd clear pc
  all_goals (try split) <;> exact ⟨rfl, rfl⟩

/-- What `clearAvail` takes stood in the segment. -/
theorem Fits.batch (fits : c.Fits segment) (pc : c.pc = .clearAvail)
    (holds : segment.Holds file taken segment.avail) :
    (List.range c.bufsize).map c.buffer = (file.drop taken).take segment.avail := by
  unfold Fits at fits
  rw [pc] at fits
  obtain ⟨-, size, copied⟩ := fits
  apply List.ext_getElem?
  intro i
  rw [size, List.getElem?_take, List.getElem?_drop, List.getElem?_map]
  split
  · rename_i small
    rw [holds i small, List.getElem?_range small, Option.map_some, copied i small]
  · rename_i large
    rw [List.getElem?_eq_none (by simpa using large), Option.map_none]

/-- Each statement leaves what the next one relies on. -/
theorem step_fits (fits : c.Fits segment) : (c.step segment).2.Fits (c.step segment).1 := by
  unfold step
  unfold Fits at fits
  cases pc : c.pc with
  | outside => trivial
  | whileAvail =>
    by_cases batch : segment.avail = 0
    · simp [Fits, batch]
    · simp [Fits, batch]
  | whileEof =>
    cases eof : segment.eof with
    | false => simp [Fits]
    | true => simp [Fits, eof]
  | ifEof =>
    rw [pc] at fits
    dsimp only
    split
    · trivial
    · rename_i more
      exact ⟨fits.resolve_right more, rfl, Nat.zero_le _,
        fun i small => absurd small (Nat.not_lt_zero i)⟩
  | memcpy size done =>
    rw [pc] at fits
    obtain ⟨batch, same, below, copied⟩ := fits
    dsimp only
    split
    · rename_i more
      refine ⟨batch, same, more, fun i small => ?_⟩
      by_cases last : i = done
      · subst last
        simp
      · simpa [Function.update_of_ne last] using copied i (by omega)
    · exact ⟨batch, fun i small => copied i (by simp only at small; omega)⟩
  | setBufsize =>
    rw [pc] at fits
    exact ⟨fits.1, rfl, fits.2⟩
  | clearAvail => trivial

end Ingester

/-! ## Both -/

namespace FeedState

variable {file : List Byte} {align total : Nat} {s : FeedState}

/-- The batch in the segment, when it is about to be taken. -/
theorem batch_clear (feeds : s.Feeds file align total) (pc : s.ingester.pc = .clearAvail)
    (whole : total ≤ file.length) :
    s.segment.avail ≠ 0 ∧ align ∣ s.segment.avail ∧
      (List.range s.ingester.bufsize).map s.ingester.buffer =
        (file.drop s.taken.length).take s.segment.avail ∧
      ((file.drop s.taken.length).take s.segment.avail).length = s.segment.avail := by
  have batch : s.segment.avail ≠ 0 := by
    have fits := feeds.ingester
    unfold Ingester.Fits at fits
    rw [pc] at fits
    exact fits.1
  have waits := feeds.feeder.waits batch
  have below := feeds.feeder.taken_le
  obtain ⟨-, fits⟩ := feeds.feeder
  rw [waits] at fits
  obtain ⟨-, -, -, aligned, holds⟩ := fits
  refine ⟨batch, aligned, feeds.ingester.batch pc holds, ?_⟩
  rw [List.length_take, List.length_drop]
  omega

/-- The last statement of a call that returns false. -/
theorem step_clear (feeds : s.Feeds file align total) (pc : s.ingester.pc = .clearAvail)
    (whole : total ≤ file.length) :
    s.step file align .ingester =
      { s with
        segment := { s.segment with avail := 0 }
        ingester := { s.ingester with
          pc := .outside
          batches := s.ingester.batches ++ [(file.drop s.taken.length).take s.segment.avail] } } := by
  obtain ⟨-, -, batch, -⟩ := batch_clear feeds pc whole
  simp only [step, Ingester.step, pc, batch]

theorem taken_clear (feeds : s.Feeds file align total) (pc : s.ingester.pc = .clearAvail)
    (whole : total ≤ file.length) :
    (s.step file align .ingester).taken = file.take (s.taken.length + s.segment.avail) ∧
      (s.step file align .ingester).taken.length = s.taken.length + s.segment.avail := by
  obtain ⟨-, -, -, length⟩ := batch_clear feeds pc whole
  have taken : (s.step file align .ingester).taken =
      s.taken ++ (file.drop s.taken.length).take s.segment.avail := by
    rw [step_clear feeds pc whole]
    simp [FeedState.taken]
  refine ⟨?_, by rw [taken, List.length_append, length]⟩
  rw [taken, List.take_add, ← feeds.prefix_]

theorem step_feeder (records : 0 < align) (whole : total ≤ file.length)
    (feeds : s.Feeds file align total) : (s.step file align .feeder).Feeds file align total where
  room := (Feeder.step_max (f := s.feeder)).symm ▸ feeds.room
  feeder := Feeder.step_fits records feeds.room whole feeds.feeder
  ingester := by
    by_cases batch : s.segment.avail = 0
    · cases eof : s.segment.eof with
      | false => exact feeds.ingester.polls batch eof _
      | true =>
        simpa only [step, Feeder.step_returned feeds.feeder eof] using feeds.ingester
    · simpa only [step, Feeder.step_waits feeds.feeder batch] using feeds.ingester
  records := feeds.records
  prefix_ := feeds.prefix_
  eof ended := by
    have eof := feeds.eof ended
    simpa only [step, Feeder.step_returned feeds.feeder eof] using eof

theorem step_ingester (whole : total ≤ file.length) (feeds : s.Feeds file align total) :
    (s.step file align .ingester).Feeds file align total := by
  have room : align ≤ (s.step file align .ingester).segment.max :=
    (Ingester.step_max (c := s.ingester)).symm ▸ feeds.room
  have fits : (s.step file align .ingester).ingester.Fits (s.step file align .ingester).segment :=
    Ingester.step_fits feeds.ingester
  by_cases pc : s.ingester.pc = .clearAvail
  · obtain ⟨left, aligned, -, length⟩ := batch_clear feeds pc whole
    have stepped := step_clear feeds pc whole
    obtain ⟨taken, takenLength⟩ := taken_clear feeds pc whole
    refine ⟨room, ?_, fits, ?_, by rw [takenLength, taken], ?_⟩
    · have waits := feeds.feeder.waits left
      obtain ⟨bytes, fits⟩ := feeds.feeder
      rw [waits] at fits
      obtain ⟨eof, pos, total, -, -⟩ := fits
      rw [takenLength, stepped]
      refine ⟨bytes, ?_⟩
      simp only [waits]
      exact ⟨eof, pos, total, Nat.dvd_zero _, fun i small => absurd small (Nat.not_lt_zero i)⟩
    · rw [stepped]
      intro batch mem
      obtain old | new := List.mem_append.mp mem
      · exact feeds.records batch old
      · rw [List.mem_singleton.mp new, length]
        exact aligned
    · rw [stepped]
      exact feeds.eof
  · obtain ⟨segment, batches⟩ := Ingester.step_before s.segment pc
    have same : (s.step file align .ingester).segment = s.segment := segment
    have taken : (s.step file align .ingester).taken = s.taken := congrArg List.flatten batches
    refine ⟨room, ?_, fits, batches.symm ▸ feeds.records, ?_, fun ended => ?_⟩
    · rw [taken, same]
      exact feeds.feeder
    · rw [taken]
      exact feeds.prefix_
    · rw [same]
      obtain before | now := Ingester.eof_of_step ended
      · exact feeds.eof before
      · exact now

theorem step_feeds (records : 0 < align) (whole : total ≤ file.length) (s : FeedState)
    (party : FeedParty) (feeds : s.Feeds file align total) :
    (s.step file align party).Feeds file align total := by
  cases party with
  | feeder => exact step_feeder records whole feeds
  | ingester => exact step_ingester whole feeds

theorem start_feeds {max recordSize edges : Nat} (room : recordSize ≤ max)
    (small : recordSize * edges < 2 ^ 64) (old pool : Nat → Byte) :
    (start max recordSize edges old pool).Feeds file recordSize (recordSize * edges) where
  room := room
  feeder := by
    simp only [start, Nat.mod_eq_of_lt small]
    exact ⟨Nat.dvd_mul_right _ _, rfl, rfl, rfl, Nat.zero_add _⟩
  ingester := trivial
  records _ mem := absurd mem List.not_mem_nil
  prefix_ := rfl
  eof ended := absurd ended Bool.false_ne_true

/-! ## The end is always near -/

/-- The turns until the batch in the segment is taken, or `eof` is read. -/
def ingesterTurns (s : FeedState) : Nat :=
  match s.ingester.pc with
  | .outside => s.segment.avail + 7
  | .whileAvail => s.segment.avail + 6
  | .whileEof => s.segment.avail + if s.segment.eof then 5 else 7
  | .ifEof => s.segment.avail + 4
  | .memcpy size done => size - done + 3
  | .setBufsize => 2
  | .clearAvail => 1

/-- The turns until the next batch is in the segment, or `eof`. -/
def feederTurns (s : FeedState) : Nat :=
  match s.feeder.pc with
  | .whileAvail => s.feeder.bytes + 6
  | .whileBytes => s.feeder.bytes + 5
  | .readFromFile n done => n - done + 4
  | .setAvail _ => 3
  | .setEof => 2
  | .returned => 1

/-- Who can go on, the feeder or the other process, and how far it is from letting the other one. -/
def phase (total : Nat) (s : FeedState) : Nat :=
  if s.segment.avail = 0 ∧ s.segment.eof = false then total + 8 + s.feederTurns
  else s.ingesterTurns

/-- A measure of what is still to be done. -/
def turns (total : Nat) (s : FeedState) : Nat :=
  if s.ingester.eof then 0 else (total - s.taken.length) * (2 * total + 20) + s.phase total

theorem ingesterTurns_le (feeds : s.Feeds file align total) : s.ingesterTurns ≤ total + 7 := by
  have below := feeds.feeder.taken_le
  have fits := feeds.ingester
  unfold Ingester.Fits at fits
  unfold ingesterTurns
  cases pc : s.ingester.pc with
  | outside | whileAvail | ifEof | setBufsize | clearAvail => dsimp only; omega
  | whileEof => dsimp only; split <;> omega
  | memcpy size done =>
    rw [pc] at fits
    dsimp only
    omega

theorem feederTurns_le (feeds : s.Feeds file align total) : s.feederTurns ≤ total + 6 := by
  obtain ⟨-, fits⟩ := feeds.feeder
  unfold feederTurns
  cases pc : s.feeder.pc <;> rw [pc] at fits <;> dsimp only at fits ⊢ <;> omega

theorem phase_le (feeds : s.Feeds file align total) : s.phase total ≤ 2 * total + 14 := by
  have ingester := ingesterTurns_le feeds
  have feeder := feederTurns_le feeds
  unfold phase
  split <;> omega

/-- The feeder comes to the end, or to a batch that the other process can take. -/
theorem feeder_nearer (records : 0 < align) (whole : total ≤ file.length)
    (feeds : s.Feeds file align total) (empty : s.segment.avail = 0) (eof : s.segment.eof = false) :
    (s.step file align .feeder).phase total < s.phase total := by
  have after := ingesterTurns_le (step_feeder records whole feeds)
  obtain ⟨aligned, fits⟩ := feeds.feeder
  have before : s.phase total = total + 8 + s.feederTurns := if_pos ⟨empty, eof⟩
  rw [before]
  have still (segment : (s.step file align .feeder).segment.avail = 0 ∧
      (s.step file align .feeder).segment.eof = false)
      (less : (s.step file align .feeder).feederTurns < s.feederTurns) :
      (s.step file align .feeder).phase total < total + 8 + s.feederTurns := by
    rw [phase, if_pos segment]
    omega
  have handedOver (segment : ¬ ((s.step file align .feeder).segment.avail = 0 ∧
      (s.step file align .feeder).segment.eof = false)) :
      (s.step file align .feeder).phase total < total + 8 + s.feederTurns := by
    rw [phase, if_neg segment]
    omega
  cases pc : s.feeder.pc with
  | whileBytes =>
    by_cases more : s.feeder.bytes = 0
    · apply still <;> simp [step, Feeder.step, feederTurns, pc, more, empty, eof]
    · have below := (Feeder.batch_size records feeds.room aligned more).2.2
      apply still <;> simp [step, Feeder.step, feederTurns, pc, more, empty, eof]
      omega
  | readFromFile n done =>
    by_cases more : done < n
    · cases read : file[s.feeder.pos]? with
      | none => apply still <;> simp [step, Feeder.step, feederTurns, pc, more, read, empty, eof]
      | some byte =>
        apply still <;> simp [step, Feeder.step, feederTurns, pc, more, read, empty, eof]
        omega
    · apply still <;> simp [step, Feeder.step, feederTurns, pc, more, empty, eof]
  | setAvail n =>
    rw [pc] at fits
    obtain ⟨-, -, -, -, ⟨-, positive⟩, -⟩ := fits
    apply handedOver
    simp [step, Feeder.step, pc, Nat.ne_of_gt positive]
  | whileAvail => apply still <;> simp [step, Feeder.step, feederTurns, pc, empty, eof]
  | setEof =>
    apply handedOver
    simp [step, Feeder.step, pc]
  | returned =>
    rw [pc] at fits
    exact absurd fits.2.1 (by simp [eof])

/-- The other process comes to its last statement, or to the end. -/
theorem ingester_nearer (feeds : s.Feeds file align total)
    (busy : ¬ (s.segment.avail = 0 ∧ s.segment.eof = false)) (pc : s.ingester.pc ≠ .clearAvail) :
    (s.step file align .ingester).ingester.eof = true ∨
      (s.step file align .ingester).phase total < s.phase total := by
  have same : (s.step file align .ingester).segment = s.segment :=
    (Ingester.step_before s.segment pc).1
  rw [phase, phase, same, if_neg busy, if_neg busy]
  have busy : s.segment.avail ≠ 0 ∨ s.segment.eof = true := by
    by_cases empty : s.segment.avail = 0
    · exact Or.inr (by simpa [empty] using busy)
    · exact Or.inl empty
  have fits := feeds.ingester
  unfold Ingester.Fits at fits
  cases pc' : s.ingester.pc with
  | outside => exact Or.inr (by simp [step, Ingester.step, ingesterTurns, pc'])
  | whileAvail =>
    right
    obtain batch | eof := busy
    · simp [step, Ingester.step, ingesterTurns, pc', batch]
    · by_cases batch : s.segment.avail = 0 <;>
        simp [step, Ingester.step, ingesterTurns, pc', batch, eof]
  | whileEof =>
    right
    cases eof : s.segment.eof <;> simp [step, Ingester.step, ingesterTurns, pc', eof]
  | ifEof =>
    cases eof : s.segment.eof with
    | true => exact Or.inl (by simp [step, Ingester.step, pc', eof])
    | false => exact Or.inr (by simp [step, Ingester.step, ingesterTurns, pc', eof])
  | memcpy size done =>
    right
    by_cases more : done < size
    · simp [step, Ingester.step, ingesterTurns, pc', more]
      omega
    · simp [step, Ingester.step, ingesterTurns, pc', more]
  | setBufsize => exact Or.inr (by simp [step, Ingester.step, ingesterTurns, pc'])
  | clearAvail => exact absurd pc' pc

theorem phase_pos (s : FeedState) (total : Nat) : 0 < s.phase total := by
  unfold phase ingesterTurns
  repeat' split
  all_goals omega

theorem turns_lt {s' : FeedState} (going : s.ingester.eof = false)
    (less : s'.ingester.eof = true ∨
      (total - s'.taken.length) * (2 * total + 20) + s'.phase total <
        (total - s.taken.length) * (2 * total + 20) + s.phase total) :
    s'.turns total < s.turns total := by
  have positive := phase_pos s total
  unfold turns
  rw [going]
  obtain ended | less := less
  · simp only [ended, if_true, Bool.false_eq_true, if_false]
    omega
  · simp only [Bool.false_eq_true, if_false]
    split <;> omega

/-- Somebody can come nearer to the end. -/
theorem nearer (records : 0 < align) (whole : total ≤ file.length)
    (feeds : s.Feeds file align total) :
    s.ingester.eof = true ∨ ∃ p, (s.step file align p).turns total < s.turns total := by
  cases going : s.ingester.eof with
  | true => exact Or.inl rfl
  | false =>
    right
    by_cases free : s.segment.avail = 0 ∧ s.segment.eof = false
    · have less := feeder_nearer records whole feeds free.1 free.2
      have taken : (s.step file align .feeder).taken = s.taken := rfl
      exact ⟨.feeder, turns_lt going (Or.inr (by rw [taken]; omega))⟩
    · refine ⟨.ingester, turns_lt going ?_⟩
      by_cases pc : s.ingester.pc = .clearAvail
      · -- a batch is taken, which counts more than any phase
        right
        have more := (batch_clear feeds pc whole).1
        have taken := (taken_clear feeds pc whole).2
        have below := feeds.feeder.taken_le
        have after := phase_le (step_ingester whole feeds)
        have left : total - (s.step file align .ingester).taken.length + 1 ≤
            total - s.taken.length := by omega
        have := Nat.mul_le_mul_right (2 * total + 20) left
        rw [Nat.succ_mul] at this
        omega
      · obtain ended | less := ingester_nearer feeds free pc
        · exact Or.inl ended
        · have batches := (Ingester.step_before s.segment pc).2
          have taken : (s.step file align .ingester).taken = s.taken :=
            congrArg List.flatten batches
          exact Or.inr (by rw [taken]; omega)

end FeedState

open FeedState

/-- However the processes take turns: each batch is a whole number of records; the batches are, one
behind the other, the beginning of the file, and all its records when `ingest` returns true; and it
can always come to that. -/
theorem feedsFile {file : List Byte} {max recordSize edges : Nat} (records : 0 < recordSize)
    (room : recordSize ≤ max) (whole : recordSize * edges ≤ file.length)
    (small : file.length < 2 ^ 64) (old pool : Nat → Byte) (schedule : List FeedParty) :
    let s := run (step file recordSize) (start max recordSize edges old pool) schedule
    (∀ batch ∈ s.ingester.batches, recordSize ∣ batch.length) ∧
      s.taken <+: file.take (recordSize * edges) ∧
      (s.ingester.eof = true → s.taken = file.take (recordSize * edges)) ∧
      ∃ rest, (run (step file recordSize) s rest).ingester.eof = true := by
  intro s
  have feeds : s.Feeds file recordSize (recordSize * edges) :=
    run_keeps (step_feeds records whole)
      (start_feeds room (Nat.lt_of_le_of_lt whole small) old pool) schedule
  refine ⟨feeds.records, ?_, fun ended => ?_, ?_⟩
  · rw [feeds.prefix_]
    have below := feeds.feeder.taken_le
    exact List.take_prefix_take_left (by omega)
  · have all := (feeds.feeder.all_taken (feeds.eof ended)).2
    rw [feeds.prefix_, all]
  · exact exists_run (turns (recordSize * edges)) (step_feeds records whole)
      (fun s => nearer records whole) feeds

/-- Two records of two bytes, in a segment with room for three bytes. -/
theorem feedsFile_two :
    let file : List Byte := [1, 2, 3, 4]
    let s := run (step file 2) (start 3 2 2 (fun _ => 0) (fun _ => 0))
      ((List.replicate 30 [FeedParty.feeder, .ingester]).flatten)
    (∀ batch ∈ s.ingester.batches, 2 ∣ batch.length) ∧ s.taken <+: file.take (2 * 2) ∧
      (s.ingester.eof = true → s.taken = file.take (2 * 2)) ∧
      ∃ rest, (run (step file 2) s rest).ingester.eof = true :=
  feedsFile (by decide) (by decide) (by decide) (by decide) _ _ _

end MBFGraph
