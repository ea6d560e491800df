import MBFGraph.Core.BufferPool
import Mathlib.Algebra.BigOperators.Group.Finset.Piecewise
import Mathlib.Data.List.Nodup
import Mathlib.Tactic.Abel

/-!
# The buffer pool never runs dry

A reference count is the number of references to the buffer, by streams, by the work item or by a
function that is running (`Counted`). At each moment only two streams hold buffers, one each: the one
that is read and one more. With the input of the work item these are three buffers, so a fourth one is
free when it is asked for (`poolNeverRunsDry`).
-/

namespace MBFGraph

/-! ## References -/

namespace PoolStream

/-- A stream refers to a buffer. -/
def Holds (s : PoolStream) (b : Nat) : Prop := s.request = some b ∨ s.cache = some b

/-- How often it does. -/
def refs (s : PoolStream) (b : Nat) : Nat :=
  (if s.request = some b then 1 else 0) + (if s.cache = some b then 1 else 0)

theorem refs_eq_zero_iff {s : PoolStream} {b : Nat} : s.refs b = 0 ↔ ¬ s.Holds b := by
  unfold refs Holds
  split <;> split <;> simp_all

/-- What a stream refers to, if its request or its cache is NULL. -/
def held (s : PoolStream) : List Nat := (s.request.or s.cache).toList

theorem length_held_le (s : PoolStream) : s.held.length ≤ 1 := by
  unfold held
  cases s.request.or s.cache <;> simp

theorem mem_held {s : PoolStream} {b : Nat} (slim : s.request = none ∨ s.cache = none)
    (holds : s.Holds b) : b ∈ s.held := by
  unfold held
  obtain holds | holds := holds <;> rw [holds] at slim ⊢ <;> simp_all

end PoolStream

namespace BufferPool

variable {ι : Type} {p q : BufferPool ι} {d : ι} {b : Nat} {s : PoolStream} {buffer : PoolBuffer}

@[simp] theorem setBuffer_streams : (p.setBuffer b buffer).streams = p.streams := rfl

@[simp] theorem setBuffer_input : (p.setBuffer b buffer).input = p.input := rfl

@[simp] theorem setBuffer_output : (p.setBuffer b buffer).output = p.output := rfl

@[simp] theorem setBuffer_buffers :
    (p.setBuffer b buffer).buffers = Function.update p.buffers b buffer := rfl

/-- The references of the work item. -/
def workRefs (p : BufferPool ι) (b : Nat) : Nat :=
  (if p.input = some b then 1 else 0) + (if p.output = some b then 1 else 0)

@[simp] theorem waitUptodate_streams : (p.waitUptodate d).streams = p.streams := by
  unfold waitUptodate
  split
  · split <;> rfl
  · rfl

@[simp] theorem waitUptodate_input : (p.waitUptodate d).input = p.input := by
  unfold waitUptodate
  split
  · split <;> rfl
  · rfl

@[simp] theorem waitUptodate_output : (p.waitUptodate d).output = p.output := by
  unfold waitUptodate
  split
  · split <;> rfl
  · rfl

theorem uptodate_waitUptodate (request : (p.streams d).request = some b) :
    ((p.waitUptodate d).buffers b).uptodate = true := by
  unfold waitUptodate
  rw [request]
  dsimp only
  split
  · rename_i uptodate
    exact uptodate
  · rw [setBuffer_buffers, Function.update_self]

section

variable [DecidableEq ι]

@[simp] theorem setStream_buffers : (p.setStream d s).buffers = p.buffers := rfl

@[simp] theorem setStream_input : (p.setStream d s).input = p.input := rfl

@[simp] theorem setStream_output : (p.setStream d s).output = p.output := rfl

@[simp] theorem setStream_streams :
    (p.setStream d s).streams = Function.update p.streams d s := rfl

/-- Of the references, only those of one stream have changed. -/
structure Turns (p : BufferPool ι) (d : ι) (s : PoolStream) (q : BufferPool ι) : Prop where
  streams : q.streams = Function.update p.streams d s
  input : q.input = p.input
  output : q.output = p.output

theorem turns_setStream (p : BufferPool ι) (d : ι) (s : PoolStream) :
    Turns p d s (p.setStream d s) := ⟨rfl, rfl, rfl⟩

theorem Turns.at (turns : Turns p d s q) (d' : ι) :
    q.streams d' = if d' = d then s else p.streams d' := by
  rw [turns.streams, Function.update_apply]

theorem Turns.trans {r : BufferPool ι} {s' : PoolStream} (first : Turns p d s q)
    (second : Turns q d s' r) : Turns p d s' r := by
  refine ⟨?_, second.input.trans first.input, second.output.trans first.output⟩
  rw [second.streams, first.streams, Function.update_idem]

/-- What may be in use, when this stream is only given `b`. -/
theorem Turns.inUse {used : List Nat} (turns : Turns p d s q) (output : q.output = none)
    (only : ∀ b', s.Holds b' → b' = b) (all : ∀ d' b, (p.streams d').Holds b → d' = d ∨ b ∈ used) :
    ∀ b', q.Refers b' ∨ b' = b → b' ∈ b :: (p.input.toList ++ used) := by
  rintro b' ((⟨d', holds⟩ | input | output') | rfl)
  · rw [turns.at] at holds
    split at holds
    · exact List.mem_cons.mpr (Or.inl (only b' holds))
    · rename_i other
      exact List.mem_cons_of_mem b
        (List.mem_append_right _ ((all d' b' holds).resolve_left other))
  · refine List.mem_cons_of_mem b (List.mem_append_left _ ?_)
    rw [turns.input] at input
    rw [input]
    exact List.mem_singleton_self b'
  · exact absurd (output.symm.trans output') (by simp)
  · exact List.mem_cons_self

end

variable [Fintype ι]

/-- All references to a buffer. -/
def refs (p : BufferPool ι) (b : Nat) : Nat := ∑ d, (p.streams d).refs b + p.workRefs b

theorem refs_eq_zero_iff : p.refs b = 0 ↔ ¬ p.Refers b := by
  unfold refs workRefs Refers
  rw [Nat.add_eq_zero_iff, Finset.sum_eq_zero_iff]
  simp only [Finset.mem_univ, true_implies, PoolStream.refs_eq_zero_iff, PoolStream.Holds]
  split <;> split <;> simp_all

theorem refs_setStream [DecidableEq ι] (p : BufferPool ι) (d : ι) (s : PoolStream) (b : Nat) :
    (p.setStream d s).refs b + (p.streams d).refs b = p.refs b + s.refs b := by
  have apply_ (d' : ι) := Function.apply_update (fun _ (s : PoolStream) => s.refs b) p.streams d s d'
  unfold refs
  rw [setStream_streams, Finset.sum_congr rfl fun d' _ => apply_ d',
    Finset.sum_update_of_mem (Finset.mem_univ d), ← Finset.sum_erase_add _ _ (Finset.mem_univ d),
    Finset.sdiff_singleton_eq_erase]
  have same : (p.setStream d s).workRefs b = p.workRefs b := rfl
  omega

/-- One reference to `b`. -/
def one (b : Nat) : Nat → Nat := fun x => if x = b then 1 else 0

/-- The reference counts, when there are `locals` more references, and what is known of buffers that
are not free. The streams of `written` are appended to; `marked` is a buffer that is about to be. -/
structure Counted (written : ι → Prop) (locals : Nat → Nat) (marked : Option Nat)
    (p : BufferPool ι) : Prop where
  count : ∀ b, (p.buffers b).refcount = p.refs b + locals b
  inside : ∀ b, maxBuffers ≤ b → (p.buffers b).refcount = 0
  slim : ∀ d, (p.streams d).request = none ∨ (p.streams d).cache = none
  alone : ∀ d d' b, (p.streams d).Holds b → (p.streams d').Holds b → d = d'
  busy : ∀ b, (p.buffers b).uptodate = false → ∃ d, (p.streams d).request = some b
  dirty : ∀ b, (p.buffers b).dirty = true → marked = some b ∨ ∃ d, written d ∧
    ((p.streams d).cache = some b ∨ (p.streams d).request = some b ∧
      (p.streams d).writeOp = true ∧ (p.buffers b).uptodate = false)

variable {written : ι → Prop} {locals : Nat → Nat} {marked : Option Nat}

/-- A free buffer is up to date and clean, and nobody refers to it. -/
theorem Counted.free (counted : Counted written locals marked p) (free : (p.buffers b).refcount = 0) :
    ¬ p.Refers b ∧ (p.buffers b).uptodate = true ∧
      (marked ≠ some b → (p.buffers b).dirty = false) := by
  have count := counted.count b
  have unreferred : ¬ p.Refers b := refs_eq_zero_iff.mp (by omega)
  refine ⟨unreferred, ?_, fun other => ?_⟩
  · by_contra notUptodate
    obtain ⟨d, request⟩ := counted.busy b (by simpa using notUptodate)
    exact unreferred (Or.inl ⟨d, Or.inl request⟩)
  · by_contra dirty
    obtain isMarked | ⟨d, -, cache | ⟨request, -⟩⟩ := counted.dirty b (by simpa using dirty)
    · exact other isMarked
    · exact unreferred (Or.inl ⟨d, Or.inr cache⟩)
    · exact unreferred (Or.inl ⟨d, Or.inl request⟩)

/-- A buffer is free if at most three are known to be in use. -/
theorem Counted.exists_free (counted : Counted written locals marked p) (used : List Nat)
    (few : used.length < maxBuffers) (all : ∀ b, p.Refers b ∨ locals b ≠ 0 → b ∈ used) :
    ∃ b < maxBuffers, (p.buffers b).refcount = 0 := by
  by_contra none_
  push Not at none_
  have subset : List.range maxBuffers ⊆ used := by
    intro b mem
    have busy := none_ b (List.mem_range.mp mem)
    have count := counted.count b
    refine all b ?_
    by_contra unused
    push Not at unused
    have noRefs := refs_eq_zero_iff.mpr unused.1
    omega
  have length := (List.nodup_range.subperm subset).length_le
  rw [List.length_range] at length
  omega

/-! ## Single steps -/

/-- What is not looked at by `Counted` may change. -/
theorem Counted.congr (counted : Counted written locals marked p)
    (refcount : ∀ b, (q.buffers b).refcount = (p.buffers b).refcount)
    (uptodate : ∀ b, (q.buffers b).uptodate = (p.buffers b).uptodate)
    (dirty : ∀ b, (q.buffers b).dirty = (p.buffers b).dirty)
    (request : ∀ d, (q.streams d).request = (p.streams d).request)
    (cache : ∀ d, (q.streams d).cache = (p.streams d).cache)
    (writeOp : ∀ d, (q.streams d).writeOp = (p.streams d).writeOp)
    (input : q.input = p.input) (output : q.output = p.output) :
    Counted written locals marked q := by
  have refs (b : Nat) : q.refs b = p.refs b := by
    unfold BufferPool.refs PoolStream.refs workRefs
    simp only [request, cache, input, output]
  refine ⟨fun b => ?_, fun b large => ?_, fun d => ?_, fun d d' b => ?_, fun b => ?_, fun b => ?_⟩
  · rw [refcount, refs, counted.count]
  · rw [refcount, counted.inside b large]
  · rw [request, cache]
    exact counted.slim d
  · unfold PoolStream.Holds
    simp only [request, cache]
    exact counted.alone d d' b
  · simp only [uptodate, request]
    exact counted.busy b
  · simp only [uptodate, dirty, request, cache, writeOp]
    exact counted.dirty b

/-- The reference count and the size of a buffer change. -/
theorem Counted.setRefcount (counted : Counted written locals marked p) {locals' : Nat → Nat}
    (b refcount bufsize : Nat) (count : refcount = p.refs b + locals' b)
    (others : ∀ b', b' ≠ b → locals' b' = locals b') (inside : maxBuffers ≤ b → refcount = 0) :
    Counted written locals' marked
      (p.setBuffer b { p.buffers b with refcount, bufsize }) := by
  have flags (b' : Nat) :
      (Function.update p.buffers b { p.buffers b with refcount, bufsize } b').uptodate =
          (p.buffers b').uptodate ∧
        (Function.update p.buffers b { p.buffers b with refcount, bufsize } b').dirty =
          (p.buffers b').dirty := by
    rw [Function.update_apply]
    split
    · rename_i own
      rw [own]
      exact ⟨rfl, rfl⟩
    · exact ⟨rfl, rfl⟩
  refine ⟨fun b' => ?_, fun b' large => ?_, counted.slim, counted.alone, fun b' => ?_, fun b' => ?_⟩
  · have same : (p.setBuffer b { p.buffers b with refcount, bufsize }).refs b' = p.refs b' := rfl
    rw [same, setBuffer_buffers, Function.update_apply]
    split
    · rename_i own
      rw [own]
      exact count
    · rename_i other
      rw [others b' other]
      exact counted.count b'
  · rw [setBuffer_buffers, Function.update_apply]
    split
    · rename_i own
      exact inside (own ▸ large)
    · exact counted.inside b' large
  · rw [setBuffer_buffers, (flags b').1]
    exact counted.busy b'
  · rw [setBuffer_buffers, (flags b').1, (flags b').2]
    exact counted.dirty b'

theorem add_one_self (locals : Nat → Nat) (b : Nat) : (locals + one b) b = locals b + 1 := by
  rw [Pi.add_apply, one, if_pos rfl]

theorem add_one_other (locals : Nat → Nat) {b b' : Nat} (other : b' ≠ b) :
    (locals + one b) b' = locals b' := by
  rw [Pi.add_apply, one, if_neg other, Nat.add_zero]

/-- `get_buffer`: the new buffer was free, and there is a local reference to it. -/
theorem Counted.getBuffer (counted : Counted written locals marked p)
    (room : ∃ b < maxBuffers, (p.buffers b).refcount = 0) :
    ∃ b q, p.getBuffer = .ok (b, q) ∧ (p.buffers b).refcount = 0 ∧ q.streams = p.streams ∧
      q.input = p.input ∧ q.output = p.output ∧ Counted written (locals + one b) marked q := by
  obtain ⟨free, below, isFree⟩ := room
  unfold BufferPool.getBuffer
  cases found : (List.range maxBuffers).find? fun b => decide ((p.buffers b).refcount = 0) with
  | none =>
    have none_ := List.find?_eq_none.mp found free (List.mem_range.mpr below)
    exact absurd (decide_eq_true isFree) none_
  | some b =>
    have zero : (p.buffers b).refcount = 0 := by
      simpa using List.find?_some found
    have inRange := List.mem_range.mp (List.mem_of_find?_eq_some found)
    have count := counted.count b
    refine ⟨b, _, rfl, zero, rfl, rfl, rfl, counted.setRefcount b 1 0 ?_ ?_ ?_⟩
    · rw [add_one_self]
      omega
    · exact fun b' other => add_one_other locals other
    · omega

theorem Counted.incref (counted : Counted written locals marked p) (some_ : (p.buffers b).refcount ≠ 0) :
    Counted written (locals + one b) marked (p.incref b) := by
  have count := counted.count b
  refine counted.setRefcount b _ _ ?_ (fun b' other => add_one_other locals other) fun large => ?_
  · rw [add_one_self]
    omega
  · exact absurd (counted.inside b large) some_

/-- A local reference is given up. -/
theorem Counted.decref [DecidableEq ι] (counted : Counted written (locals + one b) marked p)
    (other : marked ≠ some b) :
    ∃ q, p.decref b = .ok q ∧ q.streams = p.streams ∧ q.input = p.input ∧ q.output = p.output ∧
      Counted written locals marked q := by
  have count := counted.count b
  rw [add_one_self] at count
  have freed : Counted written locals marked
      (p.setBuffer b { p.buffers b with refcount := (p.buffers b).refcount - 1 }) := by
    refine counted.setRefcount b _ _ (by omega) (fun b' other => (add_one_other locals other).symm)
      fun large => ?_
    rw [counted.inside b large]
  refine ⟨p.setBuffer b { p.buffers b with refcount := (p.buffers b).refcount - 1 }, ?_, rfl, rfl,
    rfl, freed⟩
  unfold BufferPool.decref
  rw [if_neg (by omega)]
  split
  · rfl
  · rename_i last
    have free : ((p.setBuffer b { p.buffers b with
        refcount := (p.buffers b).refcount - 1 }).buffers b).refcount = 0 := by
      rw [setBuffer_buffers, Function.update_self]
      dsimp only
      omega
    obtain ⟨unreferred, uptodate, clean⟩ := freed.free free
    have uptodate' : (p.buffers b).uptodate = true := by
      rw [setBuffer_buffers, Function.update_self] at uptodate
      exact uptodate
    have clean' : (p.buffers b).dirty = false := by
      have clean := clean other
      rw [setBuffer_buffers, Function.update_self] at clean
      exact clean
    have unreferred' : ¬ p.Refers b := unreferred
    rw [if_neg (by rw [uptodate']; decide), if_neg (by rw [clean']; decide), if_neg unreferred']

/-- References move between the work item and local variables. -/
theorem Counted.setWork (counted : Counted written locals marked p) {locals' : Nat → Nat}
    (input output : Option Nat)
    (same : ∀ b, { p with input, output }.workRefs b + locals' b = p.workRefs b + locals b) :
    Counted written locals' marked { p with input, output } := by
  refine ⟨fun b => ?_, counted.inside, counted.slim, counted.alone, counted.busy, counted.dirty⟩
  have count := counted.count b
  have same := same b
  unfold BufferPool.refs at count ⊢
  dsimp only at same ⊢
  omega

theorem Counted.setInput (counted : Counted written (locals + one b) marked p)
    (none_ : p.input = none) : Counted written locals marked { p with input := some b } := by
  refine counted.setWork (some b) p.output fun b' => ?_
  simp only [workRefs, none_, Pi.add_apply, one, Option.some.injEq, eq_comm (a := b), reduceCtorEq,
    if_false]
  omega

theorem Counted.clearInput (counted : Counted written locals marked p) (input : p.input = some b) :
    Counted written (locals + one b) marked { p with input := none } := by
  refine counted.setWork none p.output fun b' => ?_
  simp only [workRefs, input, Pi.add_apply, one, Option.some.injEq, eq_comm (a := b), reduceCtorEq,
    if_false]
  omega

theorem Counted.setOutput (counted : Counted written (locals + one b) marked p)
    (none_ : p.output = none) : Counted written locals marked { p with output := some b } := by
  refine counted.setWork p.input (some b) fun b' => ?_
  simp only [workRefs, none_, Pi.add_apply, one, Option.some.injEq, eq_comm (a := b), reduceCtorEq,
    if_false]
  omega

theorem Counted.clearOutput (counted : Counted written locals marked p)
    (output : p.output = some b) :
    Counted written (locals + one b) marked { p with output := none } := by
  refine counted.setWork p.input none fun b' => ?_
  simp only [workRefs, output, Pi.add_apply, one, Option.some.injEq, eq_comm (a := b), reduceCtorEq,
    if_false]
  omega

/-- The buffer of the output belongs to the work item alone. -/
def Fresh (p : BufferPool ι) : Prop :=
  ∀ b, p.output = some b → (∀ d, ¬ (p.streams d).Holds b) ∧ p.input ≠ some b

/-- `SETUP_STREAMOUT`. -/
theorem Counted.setupStreamOut (counted : Counted written 0 none p) (output : p.output = none)
    {used : List Nat} (few : used.length < maxBuffers) (all : ∀ b, p.Refers b → b ∈ used) :
    ∃ q, p.setupStreamOut = .ok q ∧ q.streams = p.streams ∧ q.input = p.input ∧
      Counted written 0 none q ∧ q.Fresh := by
  have room := counted.exists_free used few fun b inUse => all b (inUse.resolve_right (by simp))
  obtain ⟨b, q, got, free, streams, input, output', counted'⟩ := counted.getBuffer room
  have unreferred := (counted.free free).1
  refine ⟨{ q with output := some b }, ?_, streams, input, counted'.setOutput (output'.trans output),
    fun b' same => ?_⟩
  · unfold BufferPool.setupStreamOut
    rw [got]
    rfl
  · obtain rfl := Option.some.inj same
    dsimp only
    rw [streams, input]
    exact ⟨fun d holds => unreferred (Or.inl ⟨d, holds⟩),
      fun isInput => unreferred (Or.inr (Or.inl isInput))⟩

/-! ## Steps of a stream -/

/-- What is known of a buffer changes. -/
theorem Counted.setBuffer (counted : Counted written locals marked p) {marked' : Option Nat}
    (refcount : buffer.refcount = (p.buffers b).refcount)
    (marks : ∀ b', b' ≠ b → marked = some b' → marked' = some b')
    (busy : buffer.uptodate = false → ∃ d, (p.streams d).request = some b)
    (dirty : buffer.dirty = true → marked' = some b ∨ ∃ d, written d ∧
      ((p.streams d).cache = some b ∨ (p.streams d).request = some b ∧
        (p.streams d).writeOp = true ∧ buffer.uptodate = false)) :
    Counted written locals marked' (p.setBuffer b buffer) := by
  have at_ (b' : Nat) : (p.setBuffer b buffer).buffers b' = if b' = b then buffer else p.buffers b' :=
    Function.update_apply ..
  have sameCount (b' : Nat) :
      ((p.setBuffer b buffer).buffers b').refcount = (p.buffers b').refcount := by
    rw [at_]
    split
    · rename_i own
      rw [own, refcount]
    · rfl
  have sameRefs (b' : Nat) : (p.setBuffer b buffer).refs b' = p.refs b' := rfl
  refine ⟨fun b' => ?_, fun b' large => ?_, counted.slim, counted.alone, fun b' => ?_, fun b' => ?_⟩
  · rw [sameCount, sameRefs]
    exact counted.count b'
  · rw [sameCount]
    exact counted.inside b' large
  · rw [at_]
    split
    · rename_i own
      rw [own]
      exact busy
    · exact counted.busy b'
  · rw [at_]
    split
    · rename_i own
      rw [own]
      exact dirty
    · rename_i other
      exact fun isDirty => (counted.dirty b' isDirty).imp_left (marks b' other)

/-- `wait_uptodate`. -/
theorem Counted.waitUptodate (counted : Counted written locals marked p) (d : ι) :
    Counted written locals marked (p.waitUptodate d) := by
  unfold BufferPool.waitUptodate
  split
  · rename_i b request
    split
    · exact counted
    · refine counted.setBuffer rfl (fun _ _ => id) (fun impossible => by contradiction)
        fun stillDirty => ?_
      simp only [Bool.and_eq_true, Bool.not_eq_true'] at stillDirty
      refine (counted.dirty b stillDirty.1).imp_right fun ⟨d', isWritten, witness⟩ =>
        ⟨d', isWritten, Or.inl (witness.resolve_right fun request' => ?_)⟩
      obtain rfl := counted.alone d d' b (Or.inl request) (Or.inl request'.1)
      rw [request'.2.1] at stillDirty
      exact Bool.noConfusion stillDirty.2
  · exact counted

/-- A request that has been executed has a clean buffer. -/
theorem Counted.clean_request (counted : Counted written locals marked p)
    (request : (p.streams d).request = some b) (uptodate : (p.buffers b).uptodate = true)
    (unmarked : marked ≠ some b) : (p.buffers b).dirty = false := by
  by_contra dirty
  obtain isMarked | ⟨d', -, cache | ⟨-, -, notUptodate⟩⟩ := counted.dirty b (by simpa using dirty)
  · exact unmarked isMarked
  · obtain rfl := counted.alone d d' b (Or.inl request) (Or.inr cache)
    have slim := counted.slim d
    rw [request, cache] at slim
    simp at slim
  · rw [uptodate] at notUptodate
    contradiction

/-- A buffer is appended as soon as a stream that is written keeps it. -/
theorem Counted.unmark (counted : Counted written locals (some b) p)
    (cache : (p.streams d).cache = some b) (isWritten : written d) :
    Counted written locals none p :=
  ⟨counted.count, counted.inside, counted.slim, counted.alone, counted.busy, fun b' dirty =>
    Or.inr ((counted.dirty b' dirty).elim
      (fun same => ⟨d, isWritten, Or.inl (cache.trans same)⟩) id)⟩

section

variable [DecidableEq ι]

/-- A stream gives up its buffer. -/
theorem Counted.drop (counted : Counted written locals marked p) (holds : (p.streams d).Holds b)
    (uptodate : (p.buffers b).uptodate = true) (clean : (p.buffers b).dirty = false)
    {s : PoolStream} (request : s.request = none) (cache : s.cache = none) :
    Counted written (locals + one b) marked (p.setStream d s) := by
  have nothing (b' : Nat) : ¬ s.Holds b' := by
    unfold PoolStream.Holds
    simp [request, cache]
  have before (b' : Nat) : (p.streams d).refs b' = one b b' := by
    have slim := counted.slim d
    unfold PoolStream.refs one
    obtain holds | holds := holds <;> rw [holds] at slim ⊢ <;>
      simp_all [eq_comm (a := b')]
  have only {b' : Nat} (holds' : (p.streams d).Holds b') : b' = b := by
    by_contra other
    have none_ := before b'
    rw [one, if_neg other, PoolStream.refs_eq_zero_iff] at none_
    exact none_ holds'
  have at_ (d' : ι) : (p.setStream d s).streams d' = if d' = d then s else p.streams d' :=
    Function.update_apply ..
  refine ⟨fun b' => ?_, counted.inside, fun d' => ?_, fun d' d'' b' => ?_, fun b' busy => ?_,
    fun b' dirty => ?_⟩
  · have count := counted.count b'
    have moved := refs_setStream p d s b'
    rw [before, PoolStream.refs_eq_zero_iff.mpr (nothing b')] at moved
    rw [setStream_buffers, Pi.add_apply]
    omega
  · rw [at_]
    split
    · exact Or.inl request
    · exact counted.slim d'
  · rw [at_, at_]
    split
    · exact fun impossible => absurd impossible (nothing b')
    · split
      · exact fun _ impossible => absurd impossible (nothing b')
      · exact counted.alone d' d'' b'
  · obtain ⟨d', request'⟩ := counted.busy b' busy
    refine ⟨d', ?_⟩
    rw [at_]
    split
    · rename_i own
      subst own
      obtain rfl := only (Or.inl request')
      rw [setStream_buffers, uptodate] at busy
      contradiction
    · exact request'
  · refine (counted.dirty b' dirty).imp_right fun ⟨d', isWritten, witness⟩ => ⟨d', isWritten, ?_⟩
    rw [at_]
    split
    · rename_i own
      subst own
      obtain rfl := only (witness.elim Or.inr fun request' => Or.inl request'.1)
      rw [setStream_buffers, clean] at dirty
      contradiction
    · exact witness

/-- A local reference goes to a stream that holds no buffer. -/
theorem Counted.put (counted : Counted written (locals + one b) marked p)
    (empty : (p.streams d).request = none ∧ (p.streams d).cache = none)
    (unheld : ∀ d, ¬ (p.streams d).Holds b) {s : PoolStream}
    (holds : s.request = some b ∧ s.cache = none ∨ s.request = none ∧ s.cache = some b) :
    Counted written locals marked (p.setStream d s) := by
  have nothing (b' : Nat) : ¬ (p.streams d).Holds b' := by
    unfold PoolStream.Holds
    simp [empty]
  have after (b' : Nat) : s.refs b' = one b b' := by
    unfold PoolStream.refs one
    obtain ⟨request, cache⟩ | ⟨request, cache⟩ := holds <;> rw [request, cache] <;>
      simp [eq_comm (a := b')]
  have only {b' : Nat} (holds' : s.Holds b') : b' = b := by
    by_contra other
    have none_ := after b'
    rw [one, if_neg other, PoolStream.refs_eq_zero_iff] at none_
    exact none_ holds'
  have at_ (d' : ι) : (p.setStream d s).streams d' = if d' = d then s else p.streams d' :=
    Function.update_apply ..
  refine ⟨fun b' => ?_, counted.inside, fun d' => ?_, fun d' d'' b' => ?_, fun b' busy => ?_,
    fun b' dirty => ?_⟩
  · have count := counted.count b'
    have moved := refs_setStream p d s b'
    rw [after, PoolStream.refs_eq_zero_iff.mpr (nothing b')] at moved
    rw [setStream_buffers]
    rw [Pi.add_apply] at count
    omega
  · rw [at_]
    split
    · exact holds.elim (fun h => Or.inr h.2) fun h => Or.inl h.1
    · exact counted.slim d'
  · rw [at_, at_]
    split
    · rename_i own
      split
      · rename_i own'
        exact fun _ _ => own.trans own'.symm
      · intro holds' holds''
        obtain rfl := only holds'
        exact absurd holds'' (unheld d'')
    · split
      · intro holds' holds''
        obtain rfl := only holds''
        exact absurd holds' (unheld d')
      · exact counted.alone d' d'' b'
  · obtain ⟨d', request'⟩ := counted.busy b' busy
    refine ⟨d', ?_⟩
    rw [at_]
    split
    · rename_i own
      subst own
      exact absurd (Or.inl request') (nothing b')
    · exact request'
  · refine (counted.dirty b' dirty).imp_right fun ⟨d', isWritten, witness⟩ => ⟨d', isWritten, ?_⟩
    rw [at_]
    split
    · rename_i own
      subst own
      exact absurd (witness.elim Or.inr fun request' => Or.inl request'.1) (nothing b')
    · exact witness

/-- Other fields of a stream change. -/
theorem Counted.setFlags (counted : Counted written locals marked p) {s : PoolStream}
    (request : s.request = (p.streams d).request) (cache : s.cache = (p.streams d).cache)
    (writeOp : s.writeOp = (p.streams d).writeOp) :
    Counted written locals marked (p.setStream d s) := by
  have at_ (d' : ι) : (p.setStream d s).streams d' = if d' = d then s else p.streams d' :=
    Function.update_apply ..
  refine counted.congr (fun _ => rfl) (fun _ => rfl) (fun _ => rfl) (fun d' => ?_) (fun d' => ?_)
    (fun d' => ?_) rfl rfl <;> rw [at_] <;> split <;> simp_all

/-- `add_work` of a buffer that no stream holds. -/
theorem Counted.addWork (counted : Counted written (locals + one b) marked p)
    (empty : (p.streams d).request = none ∧ (p.streams d).cache = none)
    (unheld : ∀ d, ¬ (p.streams d).Holds b) {writeOp : Bool}
    (isWritten : marked = some b → written d ∧ writeOp = true) (others : ∀ b', marked = some b' → b' = b) :
    Counted written locals none (p.addWork d b writeOp) := by
  have put := counted.put (s := { p.streams d with request := some b, writeOp }) empty unheld
    (Or.inl ⟨rfl, empty.2⟩)
  have requested : ((p.setStream d { p.streams d with request := some b, writeOp }).streams d) =
      { p.streams d with request := some b, writeOp } := Function.update_self ..
  refine put.setBuffer rfl (fun b' other isMarked => absurd (others b' isMarked) other)
    (fun _ => ⟨d, by rw [requested]⟩) fun dirty => ?_
  obtain isMarked | ⟨d', isWritten', witness⟩ := put.dirty b dirty
  · refine Or.inr ⟨d, (isWritten isMarked).1, Or.inr ?_⟩
    rw [requested]
    exact ⟨rfl, (isWritten isMarked).2, rfl⟩
  · exact Or.inr ⟨d', isWritten', witness.imp_right fun request => ⟨request.1, request.2.1, rfl⟩⟩

/-! ## Operations of a stream -/

/-- The pending request is given up. -/
theorem Counted.releaseRequest (counted : Counted written locals marked p)
    (unmarked : ∀ b, marked = some b → ¬ (p.streams d).Holds b) :
    ∃ q, p.releaseRequest d = .ok q ∧ Turns p d { p.streams d with request := none } q ∧
      Counted written locals marked q := by
  unfold BufferPool.releaseRequest
  cases request : (p.streams d).request with
  | none =>
    have same : { p.streams d with request := none } = p.streams d := by rw [← request]
    exact ⟨p, rfl, ⟨by rw [same, Function.update_eq_self], rfl, rfl⟩, counted⟩
  | some b =>
    have waited := counted.waitUptodate d
    have request' : ((p.waitUptodate d).streams d).request = some b := by
      rw [waitUptodate_streams, request]
    have uptodate := uptodate_waitUptodate request
    have other : marked ≠ some b := fun isMarked => unmarked b isMarked (Or.inl request)
    have cache : (p.streams d).cache = none :=
      (counted.slim d).resolve_left (by rw [request]; simp)
    have dropped := waited.drop (Or.inl request') uptodate
      (waited.clean_request request' uptodate other)
      (s := { p.streams d with request := none }) rfl cache
    obtain ⟨q, freed, streams, input, output, counted'⟩ := dropped.decref other
    refine ⟨q, freed, ⟨?_, ?_, ?_⟩, counted'⟩
    · rw [streams, setStream_streams, waitUptodate_streams]
    · rw [input, setStream_input, waitUptodate_input]
    · rw [output, setStream_output, waitUptodate_output]

/-- The cached block is written and given up. -/
theorem Counted.writeCache (counted : Counted written locals marked p)
    (cache : (p.streams d).cache = some b) (unmarked : marked ≠ some b) :
    ∃ q, p.writeCache d b = .ok q ∧
      Turns p d { p.streams d with request := none, cache := none, writeOp := true } q ∧
      Counted written locals marked q := by
  have clean : Counted written locals marked
      (p.setBuffer b { p.buffers b with uptodate := true, dirty := false }) :=
    counted.setBuffer rfl (fun _ _ => id) (fun impossible => by contradiction)
      fun impossible => by contradiction
  have dropped := clean.drop (Or.inr cache) (b := b) (by rw [setBuffer_buffers, Function.update_self])
    (by rw [setBuffer_buffers, Function.update_self])
    (s := { p.streams d with request := none, cache := none, writeOp := true }) rfl rfl
  obtain ⟨q, freed, streams, input, output, counted'⟩ := dropped.decref unmarked
  refine ⟨q, ?_, ⟨streams, input, output⟩, counted'⟩
  rw [← freed]
  unfold BufferPool.writeCache BufferPool.addWork BufferPool.waitUptodate
  simp [BufferPool.setBuffer, BufferPool.setStream]

/-- A request for a buffer that a stream without one gets. -/
theorem Counted.addWork_turns {q : BufferPool ι} {s : PoolStream} (writeOp : Bool)
    (turns : Turns p d s q) (counted : Counted written (locals + one b) marked q)
    (empty : s.request = none ∧ s.cache = none) (unheld : ∀ d, ¬ (p.streams d).Holds b)
    (isWritten : marked = some b → written d ∧ writeOp = true) (others : ∀ b', marked = some b' → b' = b) :
    Turns p d { s with request := some b, writeOp } (q.addWork d b writeOp) ∧
      Counted written locals none (q.addWork d b writeOp) := by
  have own : q.streams d = s := by rw [turns.at, if_pos rfl]
  have requested : Turns q d { s with request := some b, writeOp } (q.addWork d b writeOp) := by
    rw [← own]
    exact ⟨rfl, rfl, rfl⟩
  refine ⟨turns.trans requested, counted.addWork (by rw [own]; exact empty) (fun d' => ?_) isWritten
    others⟩
  rw [turns.at]
  split
  · unfold PoolStream.Holds
    simp [empty]
  · exact unheld d'

/-- `append` hands the buffer over to the stream. -/
theorem Counted.append (counted : Counted written (locals + one b) none p)
    (nonempty : (p.buffers b).bufsize ≠ 0) (unheld : ∀ d, ¬ (p.streams d).Holds b)
    (isWritten : written d) (diskEmpty : Bool) :
    p.append d b diskEmpty = .error .assertion ∨
      ∃ q s, p.append d b diskEmpty = .ok q ∧ Turns p d s q ∧ Counted written locals none q ∧
        s.superpCnt = (p.streams d).superpCnt ∧ (∀ b', s.Holds b' → b' = b) ∧
        (s.cache = none ∨ s.superpCnt = 1) := by
  have dirtied : Counted written (locals + one b) (some b)
      (p.setBuffer b { p.buffers b with dirty := true }) :=
    counted.setBuffer rfl (fun _ _ impossible => by contradiction) (counted.busy b)
      fun _ => Or.inl rfl
  have marked := dirtied.waitUptodate d
  have streams : ((p.setBuffer b { p.buffers b with dirty := true }).waitUptodate d).streams =
    p.streams := by rw [waitUptodate_streams, setBuffer_streams]
  have input : ((p.setBuffer b { p.buffers b with dirty := true }).waitUptodate d).input =
    p.input := by rw [waitUptodate_input, setBuffer_input]
  have output : ((p.setBuffer b { p.buffers b with dirty := true }).waitUptodate d).output =
    p.output := by rw [waitUptodate_output, setBuffer_output]
  unfold BufferPool.append
  rw [if_neg nonempty]
  dsimp only
  generalize (p.setBuffer b { p.buffers b with dirty := true }).waitUptodate d = m at *
  have unheld' (d : ι) : ¬ (m.streams d).Holds b := by
    rw [streams]
    exact unheld d
  have turns {s : PoolStream} {q : BufferPool ι} (turns : Turns m d s q) : Turns p d s q :=
    ⟨by rw [turns.streams, streams], turns.input.trans input, turns.output.trans output⟩
  split
  · rename_i first
    split
    · exact Or.inl rfl
    · rename_i request
      have empty := Option.not_isSome_iff_eq_none.mp request
      have put := marked.put (s := { m.streams d with cache := some b }) ⟨empty, first.2.1⟩ unheld'
        (Or.inr ⟨empty, rfl⟩)
      refine Or.inr ⟨_, { m.streams d with cache := some b }, rfl, turns ⟨rfl, rfl, rfl⟩,
        put.unmark (d := d) (by rw [setStream_streams, Function.update_self]) isWritten,
        by rw [streams], fun b' holds => ?_, Or.inr first.2.2⟩
      obtain request' | cache' := holds
      · exact absurd (empty.symm.trans request') (by simp)
      · exact (Option.some.inj cache').symm
  · right
    cases cache : (m.streams d).cache with
    | some c =>
      obtain ⟨q, given, turns', counted'⟩ := marked.writeCache cache fun same =>
        unheld' d (Or.inr (cache.trans same.symm))
      obtain ⟨requested, counted''⟩ := counted'.addWork_turns true turns' ⟨rfl, rfl⟩ unheld' (fun _ => ⟨isWritten, rfl⟩) fun b' same => (Option.some.inj same).symm
      dsimp only
      rw [given]
      refine ⟨_, _, rfl, turns requested, counted'', by rw [streams], fun b' holds => ?_, Or.inl rfl⟩
      exact (Option.some.inj (holds.resolve_right (by simp))).symm
    | none =>
      obtain ⟨q, given, turns', counted'⟩ := marked.releaseRequest (d := d) fun b' same holds => by
        rw [← Option.some.inj same] at holds
        exact unheld' d holds
      obtain ⟨requested, counted''⟩ := counted'.addWork_turns true turns' ⟨rfl, cache⟩ unheld' (fun _ => ⟨isWritten, rfl⟩) fun b' same => (Option.some.inj same).symm
      dsimp only
      rw [given]
      refine ⟨_, _, rfl, turns requested, counted'', by rw [streams], fun b' holds => ?_, Or.inl cache⟩
      obtain request' | cache' := holds
      · exact (Option.some.inj request').symm
      · exact absurd (cache.symm.trans cache') (by simp)

/-- `rewind`. The cache is dropped only if the stream is not appended to. -/
theorem Counted.rewind (counted : Counted written locals none p) (d : ι) (dropCache : Bool)
    (onlyRead : dropCache = true → ¬ written d) :
    ∃ q s, p.rewind d dropCache = .ok q ∧ Turns p d s q ∧ Counted written locals none q ∧
      s.superpCnt = (p.streams d).superpCnt ∧ s.request = none ∧
      (s.cache = none ∨ dropCache = false ∧ s.cache = (p.streams d).cache) := by
  unfold BufferPool.rewind
  dsimp only
  cases cache : (p.streams d).cache with
  | none =>
    have flagged := counted.setFlags (d := d)
      (s := { p.streams d with eofFlag := false, cache := none }) rfl cache.symm rfl
    obtain ⟨q, given, turns, counted'⟩ := flagged.releaseRequest (d := d) fun b same => by contradiction
    have turns' : Turns p d _ q := (turns_setStream p d _).trans turns
    rw [setStream_streams, Function.update_self] at turns'
    have own := turns'.at d
    rw [if_pos rfl] at own
    dsimp only
    rw [given]
    refine ⟨_, { q.streams d with requestSuperp := none }, rfl, turns'.trans (turns_setStream q d _),
      counted'.setFlags rfl rfl rfl, ?_, ?_, Or.inl ?_⟩ <;> rw [own]
  | some b =>
    have request := (counted.slim d).resolve_right (by rw [cache]; simp)
    dsimp only
    rw [if_neg (by rw [request]; simp)]
    split
    · rename_i drops
      have uptodate : (p.buffers b).uptodate = true := by
        by_contra notUptodate
        obtain ⟨d', request'⟩ := counted.busy b (by simpa using notUptodate)
        obtain rfl := counted.alone d d' b (Or.inr cache) (Or.inl request')
        exact absurd (request.symm.trans request') (by simp)
      have clean : (p.buffers b).dirty = false := by
        by_contra dirty
        obtain impossible | ⟨d', isWritten, witness⟩ := counted.dirty b (by simpa using dirty)
        · contradiction
        · obtain rfl := counted.alone d d' b (Or.inr cache)
            (witness.elim Or.inr fun request' => Or.inl request'.1)
          exact onlyRead drops isWritten
      have dropped := counted.drop (Or.inr cache) uptodate clean (s := { p.streams d with
        eofFlag := false, requestSuperp := none, cache := none }) request rfl
      obtain ⟨q, freed, streams, input, output, counted'⟩ := dropped.decref (by simp)
      exact ⟨q, _, freed, ⟨streams, input, output⟩, counted', rfl, request, Or.inl rfl⟩
    · rename_i keeps
      refine ⟨_, _, rfl, ⟨rfl, rfl, rfl⟩, counted.setFlags rfl cache.symm rfl, rfl, request,
        Or.inr ⟨by simpa using keeps, rfl⟩⟩

/-- `reset`. -/
theorem Counted.reset (counted : Counted written locals none p) (d : ι) :
    ∃ q s, p.reset d = .ok q ∧ Turns p d s q ∧ Counted written locals none q ∧
      s.superpCnt = (p.streams d).superpCnt ∧ s.request = none ∧ s.cache = none := by
  unfold BufferPool.reset
  dsimp only
  cases cache : (p.streams d).cache with
  | some b =>
    have request := (counted.slim d).resolve_right (by rw [cache]; simp)
    have clean : Counted written locals none
        (p.setBuffer b { p.buffers b with dirty := false }) :=
      counted.setBuffer rfl (fun _ _ => id) (counted.busy b) fun impossible => by contradiction
    have uptodate : (p.buffers b).uptodate = true := by
      by_contra notUptodate
      obtain ⟨d', request'⟩ := counted.busy b (by simpa using notUptodate)
      obtain rfl := counted.alone d d' b (Or.inr cache) (Or.inl request')
      exact absurd (request.symm.trans request') (by simp)
    have dropped := clean.drop (Or.inr cache) (b := b)
      (by rw [setBuffer_buffers, Function.update_self]; exact uptodate)
      (by rw [setBuffer_buffers, Function.update_self])
      (s := { p.streams d with eofFlag := false, requestSuperp := none, cache := none }) request rfl
    obtain ⟨q, freed, streams, input, output, counted'⟩ := dropped.decref (by simp)
    refine ⟨q, _, ?_, ⟨streams, input, output⟩, counted', rfl, request, rfl⟩
    dsimp only
    rw [freed]
    exact if_neg (by rw [request]; simp)
  | none =>
    have flagged := counted.setFlags (d := d)
      (s := { p.streams d with eofFlag := false, requestSuperp := none, cache := none }) rfl cache.symm
      rfl
    obtain ⟨q, given, turns, counted'⟩ := flagged.releaseRequest (d := d) fun b same => by contradiction
    have turns' : Turns p d _ q := (turns_setStream p d _).trans turns
    rw [setStream_streams, Function.update_self] at turns'
    exact ⟨q, _, given, turns', counted', rfl, rfl, rfl⟩

/-- The first half of `read`, if there is no request for another super partition. -/
theorem Counted.readRequest (counted : Counted written 0 none p) {superp : Nat}
    (ahead : ∀ b, (p.streams d).request = some b → (p.streams d).requestSuperp = some superp)
    (cache : (p.streams d).cache = none) {used : List Nat} (few : used.length < maxBuffers)
    (all : ∀ b, p.Refers b → (p.streams d).Holds b ∨ b ∈ used) :
    ∃ q s b, p.readRequest d superp = .ok q ∧ Turns p d s q ∧ Counted written 0 none q ∧
      s.superpCnt = (p.streams d).superpCnt ∧ s.requestSuperp = some superp ∧ s.request = some b ∧
      s.cache = none := by
  unfold BufferPool.readRequest
  cases request : (p.streams d).request with
  | some b =>
    rw [if_neg (by simp [ahead b request])]
    refine ⟨p, p.streams d, b, rfl, ⟨(Function.update_eq_self d p.streams).symm, rfl, rfl⟩, counted, rfl,
      ahead b request, request, cache⟩
  | none =>
    have released : p.releaseRequest d = .ok p := by
      unfold BufferPool.releaseRequest
      rw [request]
    have unheld (b : Nat) : ¬ (p.streams d).Holds b := by
      unfold PoolStream.Holds
      simp [request, cache]
    have room := counted.exists_free used few fun b inUse =>
      (all b (inUse.resolve_right (by simp))).resolve_left (unheld b)
    obtain ⟨b, q, got, free, streams, input, output, counted'⟩ := counted.getBuffer room
    have turns : Turns p d { p.streams d with requestSuperp := some superp }
        (q.setStream d { q.streams d with requestSuperp := some superp }) := by
      refine ⟨?_, input, output⟩
      rw [setStream_streams, streams]
    have unheld' (d : ι) : ¬ (p.streams d).Holds b := fun holds =>
      (counted.free free).1 (Or.inl ⟨d, holds⟩)
    have flagged := counted'.setFlags (d := d)
      (s := { q.streams d with requestSuperp := some superp }) rfl rfl rfl
    obtain ⟨requested, counted''⟩ := flagged.addWork_turns false turns ⟨request, cache⟩ unheld'
      (by simp) (by simp)
    rw [if_pos (Or.inl rfl), released]
    dsimp only [Except.bind]
    rw [got]
    exact ⟨_, _, b, rfl, requested, counted'', rfl, rfl, rfl, cache⟩

/-- The second half. -/
theorem Counted.readAhead (counted : Counted written 0 none p) {result : Nat}
    (empty : (p.streams d).request = none ∧ (p.streams d).cache = none)
    (unheld : ∀ d, ¬ (p.streams d).Holds result) (some_ : (p.buffers result).refcount ≠ 0)
    {used : List Nat} (few : used.length < maxBuffers) (all : ∀ b, p.Refers b → b ∈ used)
    (eof first : Bool) :
    ∃ q s, p.readAhead d result eof first = .ok q ∧ Turns p d s q ∧ Counted written 0 none q ∧
      s.superpCnt = (p.streams d).superpCnt ∧ s.requestSuperp = (p.streams d).requestSuperp ∧
      (s.cache = none ∨ s.superpCnt = 1) := by
  have same : Turns p d (p.streams d) p := ⟨(Function.update_eq_self d p.streams).symm, rfl, rfl⟩
  unfold BufferPool.readAhead
  dsimp only
  split
  · have room := counted.exists_free used few fun b inUse => all b (inUse.resolve_right (by simp))
    obtain ⟨b, q, got, free, streams, input, output, counted'⟩ := counted.getBuffer room
    have turns : Turns p d (p.streams d) q :=
      ⟨streams.trans same.streams, input, output⟩
    have unheld' (d : ι) : ¬ (p.streams d).Holds b := fun holds =>
      (counted.free free).1 (Or.inl ⟨d, holds⟩)
    obtain ⟨requested, counted''⟩ := counted'.addWork_turns false turns empty unheld' (by simp) (by simp)
    rw [got]
    exact ⟨_, _, rfl, requested, counted'', rfl, rfl, Or.inl empty.2⟩
  · split
    · rename_i single
      have put := (counted.incref some_).put empty unheld
        (s := { p.streams d with cache := some result, eofFlag := true }) (Or.inr ⟨empty.1, rfl⟩)
      exact ⟨_, _, rfl, ⟨rfl, rfl, rfl⟩, put, rfl, rfl, Or.inr single.1⟩
    · exact ⟨p, _, rfl, same, counted, rfl, rfl, Or.inl empty.2⟩

/-- `read`, if at most one other buffer is in use. -/
theorem Counted.read (counted : Counted written 0 none p) (idle : p.input = none ∧ p.output = none)
    {superp : Nat}
    (ahead : ∀ b, (p.streams d).request = some b → (p.streams d).requestSuperp = some superp)
    {used : List Nat} (few : used.length ≤ 1)
    (all : ∀ d' b, (p.streams d').Holds b → d' = d ∨ b ∈ used) (eof first : Bool) :
    p.read d superp eof first = .error .assertion ∨
      ∃ q s b, p.read d superp eof first = .ok q ∧ Turns { p with input := some b } d s q ∧
        Counted written 0 none q ∧ s.superpCnt = (p.streams d).superpCnt ∧
        (∀ b, s.request = some b → s.requestSuperp = some superp) ∧
        (s.cache = none ∨ s.superpCnt = 1 ∨ s.cache = (p.streams d).cache) := by
  unfold BufferPool.read
  cases cache : (p.streams d).cache with
  | some b =>
    dsimp only
    split
    · exact Or.inl rfl
    · right
      have request := (counted.slim d).resolve_right (by rw [cache]; simp)
      have some_ : (p.buffers b).refcount ≠ 0 := by
        intro zero
        exact (counted.free zero).1 (Or.inl ⟨d, Or.inr cache⟩)
      have flagged := counted.setFlags (d := d) (s := { p.streams d with eofFlag := true }) rfl rfl rfl
      refine ⟨_, _, b, rfl, ⟨rfl, rfl, rfl⟩, (flagged.incref some_).setInput idle.1, rfl,
        fun b' request' => ?_, Or.inr (Or.inr cache)⟩
      exact absurd (request.symm.trans request') (by simp)
  | none =>
    right
    have others (b : Nat) : p.Refers b → (p.streams d).Holds b ∨ b ∈ used := by
      rintro (⟨d', holds⟩ | input | output)
      · refine (all d' b holds).imp_left fun own => ?_
        rw [← own]
        exact holds
      · exact absurd (idle.1.symm.trans input) (by simp)
      · exact absurd (idle.2.symm.trans output) (by simp)
    obtain ⟨q, s, b, requested, turns, counted', cnt, superp', request, cache'⟩ :=
      counted.readRequest ahead cache (Nat.lt_of_le_of_lt few (by decide)) others
    have own : q.streams d = s := by rw [turns.at, if_pos rfl]
    have waited := counted'.waitUptodate d
    have uptodate := uptodate_waitUptodate (p := q) (d := d) (b := b) (by rw [own, request])
    have turns' : Turns p d s (q.waitUptodate d) :=
      ⟨waitUptodate_streams.trans turns.streams, waitUptodate_input.trans turns.input,
        waitUptodate_output.trans turns.output⟩
    dsimp only
    rw [requested]
    dsimp only [Except.bind]
    generalize q.waitUptodate d = m at *
    have own' : m.streams d = s := by rw [turns'.at, if_pos rfl]
    have clean := waited.clean_request (d := d) (by rw [own', request]) uptodate (by simp)
    have holds : (m.streams d).Holds b := Or.inl (by rw [own', request])
    have dropped := (waited.drop holds uptodate clean (s := { s with request := none }) rfl
      cache').setInput (turns'.input.trans idle.1)
    have given : Turns { p with input := some b } d { s with request := none }
        { m.setStream d { s with request := none } with input := some b } := by
      refine ⟨?_, rfl, turns'.output⟩
      dsimp only
      rw [setStream_streams, turns'.streams, Function.update_idem]
    have rest (d' : ι) (b' : Nat)
        (holds' : ({ m.setStream d { s with request := none } with input := some b }.streams d').Holds
          b') : d' ≠ d ∧ (p.streams d').Holds b' := by
      rw [given.at] at holds'
      split at holds'
      · simp [PoolStream.Holds, cache'] at holds'
      · rename_i other
        exact ⟨other, holds'⟩
    rw [own', request]
    dsimp only
    generalize { m.setStream d { s with request := none } with input := some b } = g at *
    have ownGiven : g.streams d = { s with request := none } := by rw [given.at, if_pos rfl]
    have unheld (d' : ι) : ¬ (g.streams d').Holds b := by
      intro holds'
      obtain ⟨other, holds''⟩ := rest d' b holds'
      refine other (waited.alone d' d b ?_ holds)
      rw [turns'.at, if_neg other]
      exact holds''
    have inUse (b' : Nat) : g.Refers b' → b' ∈ b :: used := by
      rintro (⟨d', holds'⟩ | input | output)
      · obtain ⟨other, holds''⟩ := rest d' b' holds'
        exact List.mem_cons_of_mem b ((all d' b' holds'').resolve_left other)
      · rw [given.input] at input
        exact List.mem_cons.mpr (Or.inl (Option.some.inj input).symm)
      · exact absurd ((given.output.trans idle.2).symm.trans output) (by simp)
    have room : (b :: used).length < maxBuffers :=
      Nat.lt_of_le_of_lt (Nat.succ_le_succ few) (by decide)
    obtain ⟨r, s', read, turnsRead, countedRead, cntRead, superpRead, cacheRead⟩ :=
      dropped.readAhead (d := d) (by rw [ownGiven]; exact ⟨rfl, cache'⟩) unheld
        (fun zero => (dropped.free zero).1 (Or.inr (Or.inl given.input))) room inUse eof first
    rw [ownGiven] at cntRead superpRead
    refine ⟨r, s', b, read, given.trans turnsRead, countedRead, cntRead.trans cnt, fun b' _ => ?_,
      cacheRead.imp_right Or.inl⟩
    rw [superpRead, superp']

/-! ## The work item -/

/-- A buffer is looped back: there is a temporary one, then both are given up. -/
theorem Counted.loopback (counted : Counted written (0 + one b) none p) (output : p.output = none)
    {used : List Nat} (few : used.length < maxBuffers) (all : ∀ b', p.Refers b' ∨ b' = b → b' ∈ used) :
    ∃ q, (p.getBuffer.bind fun (temp, p) =>
        ({ p with output := some temp }.decref b).bind fun p => { p with output := none }.decref temp) =
          .ok q ∧
      q.streams = p.streams ∧ q.input = p.input ∧ q.output = none ∧ Counted written 0 none q := by
  have room := counted.exists_free used few fun b' inUse => all b' <| inUse.imp_right fun local_ => by
    by_contra other
    exact local_ (add_one_other 0 other)
  obtain ⟨temp, q, got, -, streams, input, output', counted'⟩ := counted.getBuffer room
  obtain ⟨q', freed, streams', input', outputTemp, counted''⟩ :=
    (counted'.setOutput (output'.trans output)).decref (by simp)
  obtain ⟨r, freedTemp, streams'', input'', outputNone, countedNone⟩ :=
    (counted''.clearOutput outputTemp).decref (by simp)
  refine ⟨r, ?_, streams''.trans (streams'.trans streams), input''.trans (input'.trans input), outputNone,
    countedNone⟩
  rw [got]
  dsimp only [Except.bind]
  rw [freed]
  exact freedTemp

/-- What `flush_buffer` does to its stream. -/
structure Flushed (written : ι → Prop) (p : BufferPool ι) (d : ι) (s : PoolStream) (q : BufferPool ι) :
    Prop where
  turns : Turns { p with output := q.output } d s q
  counted : Counted written 0 none q
  fresh : q.Fresh
  superpCnt : s.superpCnt = (p.streams d).superpCnt
  cache : s.cache = none ∨ s.superpCnt = 1 ∨ s.cache = (p.streams d).cache

/-- `flush_buffer`, if at most one other stream holds a buffer. What is only looped back is not given to
the stream. -/
theorem Counted.flushBuffer (counted : Counted written 0 none p) (fresh : p.Fresh)
    (isWritten : written d) {used : List Nat} (few : used.length ≤ 1)
    (all : ∀ d' b, (p.streams d').Holds b → d' = d ∨ b ∈ used) {loopback several : Bool}
    (direct : loopback = true → several = false → ∀ b, ¬ (p.streams d).Holds b) (diskEmpty : Bool) :
    p.flushBuffer d loopback several diskEmpty = .error .assertion ∨
      ∃ q s, p.flushBuffer d loopback several diskEmpty = .ok q ∧ Flushed written p d s q ∧
        (loopback = true → several = false → s = p.streams d) := by
  have unchanged : Flushed written p d (p.streams d) p :=
    ⟨⟨(Function.update_eq_self d p.streams).symm, rfl, rfl⟩, counted, fresh, rfl, Or.inr (Or.inr rfl)⟩
  unfold BufferPool.flushBuffer
  cases output : p.output with
  | none => exact Or.inr ⟨p, _, rfl, unchanged, fun _ _ => rfl⟩
  | some b =>
    dsimp only
    by_cases empty : (p.buffers b).bufsize = 0
    · rw [if_pos empty]
      exact Or.inr ⟨p, _, rfl, unchanged, fun _ _ => rfl⟩
    · obtain ⟨unheld, notInput⟩ := fresh b output
      have cleared := counted.clearOutput output
      have room : (b :: (p.input.toList ++ used)).length < maxBuffers := by
        have inputs : p.input.toList.length ≤ 1 := by cases p.input <;> simp
        rw [List.length_cons, List.length_append, maxBuffers]
        omega
      rw [if_neg empty]
      -- the end: a new buffer for the output
      have finish {q : BufferPool ι} {s : PoolStream} (turns : Turns { p with output := none } d s q)
          (counted' : Counted written 0 none q) (only : ∀ b', s.Holds b' → b' = b)
          (superpCnt : s.superpCnt = (p.streams d).superpCnt)
          (cache : s.cache = none ∨ s.superpCnt = 1 ∨ s.cache = (p.streams d).cache) :
          ∃ r, q.setupStreamOut = .ok r ∧ Flushed written p d s r := by
        have inUse := turns.inUse turns.output only all
        obtain ⟨r, got, streams, input, counted'', fresh'⟩ :=
          counted'.setupStreamOut turns.output room fun b' refers => inUse b' (Or.inl refers)
        exact ⟨r, got, ⟨streams.trans turns.streams, input.trans turns.input, rfl⟩, counted'', fresh',
          superpCnt, cache⟩
      cases loopback with
      | false =>
        rw [if_neg (by decide)]
        obtain failed | ⟨q, s, appended, turns, counted', cnt, only, cache⟩ :=
          cleared.append empty unheld isWritten diskEmpty
        · left
          rw [failed]
          rfl
        · right
          obtain ⟨r, got, flushed⟩ := finish turns counted' only cnt (cache.imp_right Or.inl)
          refine ⟨r, s, ?_, flushed, fun impossible => by contradiction⟩
          rw [appended]
          exact got
      | true =>
        rw [if_pos rfl]
        cases several with
        | false =>
          right
          rw [if_neg (by decide)]
          have nothing := direct rfl rfl
          have same : Turns { p with output := none } d (p.streams d) { p with output := none } :=
            ⟨(Function.update_eq_self d p.streams).symm, rfl, rfl⟩
          obtain ⟨q, looped, streams, input, output', counted'⟩ := cleared.loopback rfl room
            (same.inUse rfl (fun b' holds => absurd holds (nothing b')) all)
          obtain ⟨r, got, flushed⟩ := finish ⟨streams.trans same.streams, input, output'⟩ counted'
            (fun b' holds => absurd holds (nothing b')) rfl (Or.inr (Or.inr rfl))
          refine ⟨r, p.streams d, ?_, flushed, fun _ _ => rfl⟩
          dsimp only [Except.bind] at looped ⊢
          rw [looped]
          exact got
        | true =>
          rw [if_pos rfl]
          have some_ : (p.buffers b).refcount ≠ 0 := fun zero =>
            (counted.free zero).1 (Or.inr (Or.inr output))
          have sized : (({ p with output := none }.incref b).buffers b).bufsize ≠ 0 := by
            unfold BufferPool.incref
            rw [setBuffer_buffers, Function.update_self]
            exact empty
          obtain failed | ⟨q, s, appended, turns, counted', cnt, only, cache⟩ :=
            (cleared.incref some_).append sized unheld isWritten diskEmpty
          · left
            rw [failed]
            rfl
          · right
            have turns' : Turns { p with output := none } d s q :=
              ⟨turns.streams, turns.input, turns.output⟩
            obtain ⟨q', looped, streams, input, output', counted''⟩ := counted'.loopback turns.output room
              (turns'.inUse turns.output only all)
            obtain ⟨r, got, flushed⟩ := finish ⟨streams.trans turns.streams, input.trans turns.input,
              output'⟩ counted'' only cnt (cache.imp_right Or.inl)
            refine ⟨r, s, ?_, flushed, fun _ impossible => by contradiction⟩
            rw [appended]
            dsimp only [Except.bind] at looped ⊢
            rw [looped]
            exact got

/-- The end of a work item. -/
theorem Counted.finishWork (counted : Counted written 0 none p) :
    ∃ q, p.finishWork = .ok q ∧ q.streams = p.streams ∧ q.input = none ∧ q.output = none ∧
      Counted written 0 none q := by
  -- what is done where no output buffer is held
  have input {q : BufferPool ι} (streams : q.streams = p.streams) (output : q.output = none)
      (counted' : Counted written 0 none q) :
      ∃ r, q.finishWork = .ok r ∧ r.streams = p.streams ∧ r.input = none ∧ r.output = none ∧
        Counted written 0 none r := by
    unfold BufferPool.finishWork
    rw [output]
    dsimp only [Except.bind]
    cases input : q.input with
    | some b =>
      obtain ⟨r, freed, streams', input', output', counted''⟩ :=
        (counted'.clearInput input).decref (by simp)
      exact ⟨r, freed, streams'.trans streams, input', output'.trans output, counted''⟩
    | none => exact ⟨q, rfl, streams, input, output, counted'⟩
  cases output : p.output with
  | some b =>
    obtain ⟨q, freed, streams, -, output', counted'⟩ := (counted.clearOutput output).decref (by simp)
    obtain ⟨r, finished, others⟩ := input streams output' counted'
    refine ⟨r, ?_, others⟩
    rw [← finished]
    unfold BufferPool.finishWork
    rw [output, output']
    dsimp only
    rw [freed]
  | none => exact input rfl output counted

end

end BufferPool

/-! ## The drivers -/

namespace PoolRun

variable {c : PoolDriver} {r : PoolRun}

/-- The stream that may hold a buffer besides the one that is read. -/
def resident (c : PoolDriver) (r : PoolRun) : Option StreamName :=
  match r.phase with
  | .edgeSplit => some .edges
  | .gather | .bfChecking => if 1 < c.superPartitions then some r.updatesOut else some .edges
  | .scatter => if c.async = false ∨ 1 < c.superPartitions then some r.updatesOut else none

/-- The streams as they are opened. Only streams of one super partition have a cache. -/
def Shaped (c : PoolDriver) (p : BufferPool StreamName) : Prop :=
  ∀ d, (p.streams d).superpCnt = (if d = .init then 1 else c.superPartitions) ∧
    ((p.streams d).cache = none ∨ (p.streams d).superpCnt = 1)

/-- What is true of the pool whenever a driver runs. -/
structure Fits (c : PoolDriver) (r : PoolRun) : Prop where
  counted : r.pool.Counted (· ≠ .init) 0 none
  shaped : Shaped c r.pool
  fresh : r.pool.Fresh
  idle : r.working = false → r.pool.input = none ∧ r.pool.output = none
  holders : ∀ d b, (r.pool.streams d).Holds b → d = r.streamIn ∨ r.resident c = some d
  ahead : ∀ b, (r.pool.streams r.streamIn).request = some b →
    (r.pool.streams r.streamIn).requestSuperp = some r.superp
  edges : r.phase = .gather ∨ r.phase = .bfChecking → (r.pool.streams .edges).request = none
  split : r.phase = .edgeSplit → 1 < c.superPartitions

theorem Shaped.update {p q : BufferPool StreamName} {d : StreamName} {s : PoolStream}
    (shaped : Shaped c p) (streams : q.streams = Function.update p.streams d s)
    (superpCnt : s.superpCnt = (p.streams d).superpCnt)
    (cache : s.cache = none ∨ s.superpCnt = 1 ∨ s.cache = (p.streams d).cache) : Shaped c q := by
  intro d'
  rw [streams, Function.update_apply]
  split
  · rename_i own
    subst own
    refine ⟨superpCnt.trans (shaped d').1, ?_⟩
    obtain none_ | single | same := cache
    · exact Or.inl none_
    · exact Or.inr single
    · rw [same, superpCnt]
      exact (shaped d').2
  · exact shaped d'

/-- What the other stream holds. -/
def residentHeld (c : PoolDriver) (r : PoolRun) : List Nat :=
  (r.resident c).elim [] fun d => (r.pool.streams d).held

theorem length_residentHeld_le (c : PoolDriver) (r : PoolRun) : (r.residentHeld c).length ≤ 1 := by
  unfold residentHeld
  cases r.resident c with
  | none => exact Nat.zero_le 1
  | some d => exact PoolStream.length_held_le _

theorem Fits.inUse (fits : Fits c r) (d : StreamName) (b : Nat) (holds : (r.pool.streams d).Holds b) :
    d = r.streamIn ∨ b ∈ r.residentHeld c := by
  refine (fits.holders d b holds).imp_right fun resident => ?_
  unfold residentHeld
  rw [resident]
  exact PoolStream.mem_held (fits.counted.slim d) holds

/-- One of the two streams changes, in a work item. -/
theorem Fits.change (fits : Fits c r) {q : BufferPool StreamName} {d : StreamName} {s : PoolStream}
    (streams : q.streams = Function.update r.pool.streams d s)
    (counted : q.Counted (· ≠ .init) 0 none) (fresh : q.Fresh)
    (superpCnt : s.superpCnt = (r.pool.streams d).superpCnt)
    (cache : s.cache = none ∨ s.superpCnt = 1 ∨ s.cache = (r.pool.streams d).cache)
    (holders : d = r.streamIn ∨ r.resident c = some d ∨ s = r.pool.streams d)
    (ahead : d = r.streamIn → ∀ b, s.request = some b → s.requestSuperp = some r.superp)
    (edges : d = .edges → r.phase ≠ .gather ∧ r.phase ≠ .bfChecking) :
    Fits c { r with pool := q, working := true } := by
  have at_ (d' : StreamName) : q.streams d' = if d' = d then s else r.pool.streams d' := by
    rw [streams, Function.update_apply]
  refine ⟨counted, fits.shaped.update streams superpCnt cache, fresh, fun impossible => by contradiction,
    fun d' b => ?_, fun b => ?_, fun phase => ?_, fits.split⟩
  · change (q.streams d').Holds b → _
    rw [at_]
    split
    · rename_i own
      intro holds
      obtain isIn | isResident | same := holders
      · exact Or.inl (own.trans isIn)
      · exact Or.inr (own ▸ isResident)
      · exact fits.holders d' b (by rw [own, ← same]; exact holds)
    · exact fits.holders d' b
  · change (q.streams r.streamIn).request = some b →
      (q.streams r.streamIn).requestSuperp = some r.superp
    rw [at_]
    split
    · rename_i own
      exact ahead own.symm b
    · exact fits.ahead b
  · change (q.streams .edges).request = none
    rw [at_]
    split
    · rename_i own
      exact absurd phase (not_or.mpr (edges own.symm))
    · exact fits.edges phase

theorem streamIn_ne_edges (phase : r.phase = .gather ∨ r.phase = .bfChecking) : r.streamIn ≠ .edges := by
  unfold streamIn updatesIn
  obtain phase | phase := phase <;> rw [phase] <;> dsimp only
  · split <;> decide
  · decide

theorem Fits.read (fits : Fits c r) (idle : r.working = false) (eofAhead first : Bool) :
    PoolRun.read r eofAhead first = .error .assertion ∨
      ∃ r', PoolRun.read r eofAhead first = .ok r' ∧ Fits c r' := by
  unfold PoolRun.read
  obtain failed | ⟨q, s, b, read, turns, counted, superpCnt, ahead, cache⟩ :=
    fits.counted.read (fits.idle idle) fits.ahead (length_residentHeld_le c r) fits.inUse eofAhead first
  · left
    rw [failed]
    rfl
  · right
    rw [read]
    dsimp only [Except.bind]
    have output' : q.output = none := turns.output.trans (fits.idle idle).2
    have changed {q' : BufferPool StreamName} (streams : q'.streams = q.streams)
        (counted' : q'.Counted (· ≠ .init) 0 none) (fresh : q'.Fresh) :
        Fits c { r with pool := q', working := true } := by
      refine fits.change (streams.trans turns.streams) counted' fresh superpCnt cache (Or.inl rfl)
        (fun _ => ahead) fun own => ?_
      have other := mt (streamIn_ne_edges (r := r)) (not_not.mpr own)
      exact not_or.mp other
    split
    · have room : (b :: (s.held ++ r.residentHeld c)).length < maxBuffers := by
        have few := length_residentHeld_le c r
        have few' := PoolStream.length_held_le s
        rw [List.length_cons, List.length_append, maxBuffers]
        omega
      have inUse (b' : Nat) : q.Refers b' → b' ∈ b :: (s.held ++ r.residentHeld c) := by
        rintro (⟨d', holds⟩ | input | output)
        · refine List.mem_cons_of_mem b (List.mem_append.mpr ?_)
          have slim := counted.slim d'
          rw [turns.at] at holds slim
          split at holds
          · rename_i own
            rw [if_pos own] at slim
            exact Or.inl (PoolStream.mem_held slim holds)
          · rename_i other
            exact Or.inr ((fits.inUse d' b' holds).resolve_left other)
        · rw [turns.input] at input
          exact List.mem_cons.mpr (Or.inl (Option.some.inj input).symm)
        · exact absurd (output'.symm.trans output) (by simp)
      obtain ⟨q', got, streams, -, counted', fresh⟩ := counted.setupStreamOut output' room inUse
      rw [got]
      exact ⟨_, rfl, changed streams counted' fresh⟩
    · refine ⟨_, rfl, changed rfl counted fun b' output => ?_⟩
      exact absurd (output'.symm.trans output) (by simp)

/-- All that is appended is looped back. -/
def Direct (c : PoolDriver) (r : PoolRun) : Prop :=
  (c.async && decide (r.phase = .scatter)) = true ∧ decide (1 < c.superPartitions) = false

/-- The stream that is written is not the one that is read, and it may hold a buffer, unless it gets
none. -/
theorem streamOut_cases (c : PoolDriver) {d : StreamName} (streamOut : r.streamOut = some d) :
    d ≠ .init ∧ d ≠ r.streamIn ∧ (r.phase ≠ .gather ∧ r.phase ≠ .bfChecking) ∧
      (¬ Direct c r → r.resident c = some d) ∧ (Direct c r → r.resident c = none) := by
  unfold PoolRun.streamOut updatesOut at streamOut
  unfold Direct streamIn resident updatesOut
  cases phase : r.phase with
  | gather | bfChecking => simp [phase] at streamOut
  | edgeSplit =>
    simp only [phase, Option.some.injEq] at streamOut
    subst streamOut
    simp
  | scatter =>
    simp only [phase, Option.some.injEq] at streamOut
    subst streamOut
    cases r.swapped <;> cases c.async <;> simp

theorem Fits.flush (fits : Fits c r) (working : r.working = true) (diskEmpty : Bool) :
    r.flush c diskEmpty = .error .assertion ∨ ∃ r', r.flush c diskEmpty = .ok r' ∧ Fits c r' := by
  unfold PoolRun.flush
  cases streamOut : r.streamOut with
  | none => exact Or.inr ⟨r, rfl, fits⟩
  | some d =>
    obtain ⟨isWritten, other, phase, indirect, direct⟩ := streamOut_cases c streamOut
    have all (d' : StreamName) (b : Nat) (holds : (r.pool.streams d').Holds b) :
        d' = d ∨ b ∈ (r.pool.streams r.streamIn).held := by
      obtain rfl | isResident := fits.holders d' b holds
      · exact Or.inr (PoolStream.mem_held (fits.counted.slim _) holds)
      · refine Or.inl (Option.some.inj (isResident.symm.trans (indirect fun isDirect => ?_)))
        exact absurd ((direct isDirect).symm.trans isResident) (by simp)
    have nothing (isDirect : Direct c r) (b : Nat) : ¬ (r.pool.streams d).Holds b := by
      intro holds
      have isResident := (fits.holders d b holds).resolve_left other
      exact absurd ((direct isDirect).symm.trans isResident) (by simp)
    dsimp only
    obtain failed | ⟨q, s, flushed, ⟨turns, counted, fresh, superpCnt, cache⟩, looped⟩ :=
      fits.counted.flushBuffer fits.fresh isWritten (PoolStream.length_held_le _) all
        (fun loopback single => nothing ⟨loopback, single⟩) diskEmpty
    · left
      rw [failed]
      rfl
    · right
      have holders : d = r.streamIn ∨ r.resident c = some d ∨ s = r.pool.streams d := by
        by_cases isDirect : Direct c r
        · exact Or.inr (Or.inr (looped isDirect.1 isDirect.2))
        · exact Or.inr (Or.inl (indirect isDirect))
      have changed := fits.change turns.streams counted fresh superpCnt cache holders
        (fun own => absurd own other) fun _ => phase
      rw [flushed]
      rw [← working] at changed
      exact ⟨_, rfl, changed⟩

/-- Only the sizes of buffers change. -/
theorem Fits.fill (fits : Fits c r) (b bytes : Nat) :
    let buffer := r.pool.buffers b
    Fits c { r with pool := r.pool.setBuffer b { buffer with bufsize := buffer.bufsize + bytes } } := by
  have count := fits.counted.count b
  have counted := fits.counted.setRefcount b (r.pool.buffers b).refcount
    ((r.pool.buffers b).bufsize + bytes) count (fun _ _ => rfl) (fits.counted.inside b)
  exact ⟨counted, fits.shaped, fits.fresh, fits.idle, fits.holders, fits.ahead, fits.edges, fits.split⟩

theorem Fits.finish (fits : Fits c r) :
    ∃ q, r.pool.finishWork = .ok q ∧ Fits c { r with pool := q, working := false } := by
  obtain ⟨q, finished, streams, input, output, counted⟩ := fits.counted.finishWork
  have same : q.streams r.streamIn = r.pool.streams r.streamIn := by rw [streams]
  refine ⟨q, finished, counted, ?_, fun b some_ => ?_, fun _ => ⟨input, output⟩, fun d b holds => ?_,
    fun b request => ?_, fun phase => ?_, fits.split⟩
  · unfold Shaped
    rw [streams]
    exact fits.shaped
  · exact absurd (output.symm.trans some_) (by simp)
  · exact fits.holders d b (by rw [← streams]; exact holds)
  · refine (congrArg PoolStream.requestSuperp same).trans (fits.ahead b ?_)
    rw [← same]
    exact request
  · refine Eq.trans ?_ (fits.edges phase)
    exact congrArg (fun s => (s .edges).request) streams

theorem updatesIn_ne (r : PoolRun) :
    r.updatesIn ≠ .edges ∧ r.updatesIn ≠ .bloom ∧ r.updatesIn ≠ r.updatesOut := by
  unfold updatesIn updatesOut
  cases r.swapped <;> decide

theorem updatesOut_ne (r : PoolRun) : r.updatesOut ≠ .edges ∧ r.updatesOut ≠ .bloom := by
  unfold updatesOut
  cases r.swapped <;> decide

/-- At the end of a stream there is no request. -/
theorem Fits.request_of_atEof (fits : Fits c r) {eof : Bool} (atEof : r.atEof eof = true) :
    (r.pool.streams r.streamIn).request = none := by
  unfold PoolRun.atEof BufferPool.streamEof at atEof
  cases request : (r.pool.streams r.streamIn).request with
  | none => rfl
  | some b =>
    have cache := (fits.counted.slim r.streamIn).resolve_left (by rw [request]; simp)
    rw [if_neg (by simp [cache]), if_pos ⟨by simp [request], fits.ahead b request⟩] at atEof
    contradiction

/-- The next superstep begins with at most one buffer in `edges` and in the updates that are read. -/
theorem fits_superstep (c : PoolDriver) {p : BufferPool StreamName} (swapped : Bool)
    (counted : p.Counted (· ≠ .init) 0 none) (shaped : Shaped c p)
    (idle : p.input = none ∧ p.output = none)
    (holders : ∀ d b, (p.streams d).Holds b →
      d = .edges ∨ d = (if swapped then .updates0 else .updates1) ∧ (p.streams d).request = none) :
    ∃ r, superstep p swapped = .ok r ∧ Fits c r := by
  obtain ⟨q, s, rewound, turns, counted', superpCnt, request, cache⟩ :=
    counted.rewind .edges false (by simp)
  unfold superstep
  rw [rewound]
  have shaped' := shaped.update turns.streams superpCnt (cache.imp_right fun same => Or.inr same.2)
  have own : q.streams .edges = s := by rw [turns.at, if_pos rfl]
  have others {d : StreamName} {b : Nat} (holds : (q.streams d).Holds b) :
      d = .edges ∨ d = (if swapped then .updates0 else .updates1) ∧ (q.streams d).request = none := by
    by_cases isEdges : d = .edges
    · exact Or.inl isEdges
    · rw [turns.at, if_neg isEdges] at holds ⊢
      exact holders d b holds
  refine ⟨_, rfl, counted', shaped', fun b output => ?_, fun _ => ?_, fun d b holds => ?_,
    fun b request' => ?_, fun _ => ?_, fun impossible => by contradiction⟩
  · exact absurd ((turns.output.trans idle.2).symm.trans output) (by simp)
  · exact ⟨turns.input.trans idle.1, turns.output.trans idle.2⟩
  · obtain rfl | ⟨isIn, -⟩ := others holds
    · right
      have cached : (q.streams .edges).cache = some b :=
        holds.resolve_left (by rw [own, request]; simp)
      have single := (shaped' .edges).2.resolve_left (by rw [cached]; simp)
      rw [(shaped' .edges).1, if_neg (by decide)] at single
      unfold resident
      dsimp only
      rw [single, if_neg (by decide)]
    · exact Or.inl isIn
  · obtain impossible | ⟨-, none_⟩ := others (Or.inl request')
    · exact absurd impossible (updatesIn_ne _).1
    · exact absurd (none_.symm.trans request') (by simp)
  · rw [own, request]

/-- The stream that has been read is reset, and another one is read. -/
theorem Fits.reset (fits : Fits c r) (idle : r.working = false)
    (phase : r.phase = .gather ∨ r.phase = .bfChecking) :
    ∃ q, r.pool.reset r.streamIn = .ok q ∧ ∀ next, next = .bfChecking ∨ next = .scatter →
      Fits c { r with pool := q, phase := next } := by
  obtain ⟨q, s, given, turns, counted, superpCnt, request, cache⟩ := fits.counted.reset r.streamIn
  have shaped := fits.shaped.update turns.streams superpCnt (Or.inl cache)
  have idle' : q.input = none ∧ q.output = none :=
    ⟨turns.input.trans (fits.idle idle).1, turns.output.trans (fits.idle idle).2⟩
  have edges : (q.streams .edges).request = none := by
    rw [turns.at, if_neg (streamIn_ne_edges phase).symm]
    exact fits.edges phase
  have resident_ : r.resident c = if 1 < c.superPartitions then some r.updatesOut else some .edges := by
    unfold resident
    obtain phase | phase := phase <;> rw [phase]
  have holders {d : StreamName} {b : Nat} (holds : (q.streams d).Holds b) : r.resident c = some d := by
    rw [turns.at] at holds
    split at holds
    · simp [PoolStream.Holds, request, cache] at holds
    · rename_i other
      exact (fits.holders d b holds).resolve_left other
  refine ⟨q, given, fun next isNext => ⟨counted, shaped, fun b output => ?_, fun _ => idle',
    fun d b holds => ?_, fun b request' => ?_, fun _ => edges, fun impossible => ?_⟩⟩
  · exact absurd (idle'.2.symm.trans output) (by simp)
  · have isResident := holders holds
    obtain rfl | rfl := isNext
    · refine Or.inr (Eq.trans ?_ (resident_.symm.trans isResident))
      rfl
    · rw [resident_] at isResident
      unfold resident streamIn
      dsimp only
      split at isResident
      · rename_i several
        right
        rw [if_pos (Or.inr several)]
        exact isResident
      · exact Or.inl (Option.some.inj isResident).symm
  · obtain rfl | rfl := isNext
    · have isResident := holders (d := .bloom) (Or.inl request')
      rw [resident_] at isResident
      split at isResident
      · exact absurd (Option.some.inj isResident) (updatesOut_ne r).2
      · exact absurd (Option.some.inj isResident) (by decide)
    · exact absurd (edges.symm.trans request') (by simp)
  · obtain rfl | rfl := isNext <;> contradiction

/-- The next super partition. -/
theorem Fits.nextSuperp (fits : Fits c r) (phase : r.phase = .scatter)
    (request : (r.pool.streams .edges).request = none) (below : r.superp + 1 < c.superPartitions) :
    Fits c { r with phase := .gather, superp := r.superp + 1 } := by
  have several : 1 < c.superPartitions := by omega
  have cache : (r.pool.streams .edges).cache = none := by
    refine (fits.shaped .edges).2.resolve_right ?_
    rw [(fits.shaped .edges).1, if_neg (by decide)]
    omega
  have holders {d : StreamName} {b : Nat} (holds : (r.pool.streams d).Holds b) : d = r.updatesOut := by
    have before := fits.holders d b holds
    unfold streamIn resident at before
    rw [phase] at before
    dsimp only at before
    rw [if_pos (Or.inr several)] at before
    obtain rfl | same := before
    · simp [PoolStream.Holds, request, cache] at holds
    · exact (Option.some.inj same).symm
  refine ⟨fits.counted, fits.shaped, fits.fresh, fits.idle, fun d b holds => Or.inr ?_,
    fun b request' => ?_, fun _ => request, fun impossible => by contradiction⟩
  · unfold resident
    dsimp only
    rw [if_pos several, holders holds]
    rfl
  · exact absurd (holders (d := r.updatesIn) (Or.inl request')) (updatesIn_ne r).2.2

theorem Fits.leave (fits : Fits c r) (idle : r.working = false) {eof : Bool}
    (atEof : r.atEof eof = true) (check : Bool) :
    ∃ r', r.leave c check = .ok r' ∧ Fits c r' := by
  have request := fits.request_of_atEof atEof
  unfold PoolRun.leave
  cases phase : r.phase with
  | edgeSplit =>
    obtain ⟨q, s, rewound, turns, counted, superpCnt, request', cache⟩ :=
      fits.counted.rewind .init true (by simp)
    have cache' : s.cache = none := cache.resolve_right fun keeps => Bool.noConfusion keeps.1
    dsimp only
    rw [rewound]
    refine fits_superstep c r.swapped counted
      (fits.shaped.update turns.streams superpCnt (Or.inl cache'))
      ⟨turns.input.trans (fits.idle idle).1, turns.output.trans (fits.idle idle).2⟩
      fun d b holds => Or.inl ?_
    rw [turns.at] at holds
    split at holds
    · simp [PoolStream.Holds, request', cache'] at holds
    · rename_i other
      have before := fits.holders d b holds
      unfold streamIn resident at before
      rw [phase] at before
      exact (Option.some.inj (before.resolve_left other)).symm
  | gather =>
    obtain ⟨q, given, next⟩ := fits.reset idle (Or.inl phase)
    have streamIn_ : r.streamIn = r.updatesIn := by
      unfold streamIn
      rw [phase]
    rw [streamIn_] at given
    dsimp only
    rw [given]
    refine ⟨_, rfl, next _ ?_⟩
    split
    · exact Or.inl rfl
    · exact Or.inr rfl
  | bfChecking =>
    obtain ⟨q, given, next⟩ := fits.reset idle (Or.inr phase)
    have streamIn_ : r.streamIn = .bloom := by
      unfold streamIn
      rw [phase]
    rw [streamIn_] at given
    dsimp only
    rw [given]
    exact ⟨_, rfl, next _ (Or.inr rfl)⟩
  | scatter =>
    have streamIn_ : r.streamIn = .edges := by
      unfold streamIn
      rw [phase]
    rw [streamIn_] at request
    dsimp only
    split
    · rename_i below
      exact ⟨_, rfl, fits.nextSuperp phase request below⟩
    · obtain ⟨q, s, rewound, turns, counted, superpCnt, request', cache⟩ :=
        fits.counted.rewind r.updatesOut false (by simp)
      rw [rewound]
      refine fits_superstep c (!r.swapped) counted
        (fits.shaped.update turns.streams superpCnt (cache.imp_right fun same => Or.inr same.2))
        ⟨turns.input.trans (fits.idle idle).1, turns.output.trans (fits.idle idle).2⟩
        fun d b holds => ?_
      by_cases isOut : d = r.updatesOut
      · refine Or.inr ⟨?_, by rw [turns.at, if_pos isOut, request']⟩
        rw [isOut]
        unfold updatesOut
        cases r.swapped <;> rfl
      · left
        rw [turns.at, if_neg isOut] at holds
        have before := fits.holders d b holds
        unfold streamIn resident at before
        rw [phase] at before
        dsimp only at before
        obtain isEdges | isResident := before
        · exact isEdges
        · split at isResident
          · exact absurd (Option.some.inj isResident).symm isOut
          · contradiction

/-- A step of a driver. -/
theorem Fits.step (fits : Fits c r) (action : PoolAction) :
    r.step c action = .error .assertion ∨ ∃ r', r.step c action = .ok r' ∧ Fits c r' := by
  cases action with
  | read eof eofAhead first =>
    unfold PoolRun.step
    dsimp only
    split
    · rename_i enabled
      simp only [Bool.and_eq_true, Bool.not_eq_true'] at enabled
      exact fits.read enabled.1 eofAhead first
    · exact Or.inr ⟨r, rfl, fits⟩
  | fill bytes =>
    unfold PoolRun.step
    cases r.pool.output with
    | some b => exact Or.inr ⟨_, rfl, fits.fill b bytes⟩
    | none => exact Or.inr ⟨r, rfl, fits⟩
  | flush diskEmpty =>
    unfold PoolRun.step
    dsimp only
    split
    · rename_i working
      exact fits.flush working diskEmpty
    · exact Or.inr ⟨r, rfl, fits⟩
  | finish =>
    unfold PoolRun.step
    dsimp only
    split
    · obtain ⟨q, finished, fits'⟩ := fits.finish
      rw [finished]
      exact Or.inr ⟨_, rfl, fits'⟩
    · exact Or.inr ⟨r, rfl, fits⟩
  | leave eof check =>
    unfold PoolRun.step
    dsimp only
    split
    · rename_i enabled
      simp only [Bool.and_eq_true, Bool.not_eq_true'] at enabled
      exact Or.inr (fits.leave enabled.1 enabled.2 check)
    · exact Or.inr ⟨r, rfl, fits⟩

theorem fits_start (c : PoolDriver) : Fits c (start c) := by
  have unheld (d : StreamName) (b : Nat) : ¬ ((start c).pool.streams d).Holds b := by
    simp [PoolStream.Holds, start]
  have unreferred (b : Nat) : ¬ (start c).pool.Refers b := by
    simp [BufferPool.Refers, start]
  refine ⟨⟨fun b => ?_, fun _ _ => rfl, fun _ => Or.inl rfl, fun d _ b holds => absurd holds (unheld d b),
      fun _ impossible => ?_, fun _ impossible => ?_⟩,
    fun d => ⟨rfl, Or.inl rfl⟩, fun _ impossible => ?_, fun _ => ⟨rfl, rfl⟩,
    fun d b holds => absurd holds (unheld d b), fun b request => absurd (Or.inl request) (unheld _ b),
    fun _ => rfl, fun phase => ?_⟩
  · rw [BufferPool.refs_eq_zero_iff.mpr (unreferred b)]
    rfl
  · contradiction
  · contradiction
  · contradiction
  · unfold start at phase
    by_contra single
    simp [single] at phase

theorem Fits.runFrom (fits : Fits c r) (actions : List PoolAction) :
    r.runFrom c actions = .error .assertion ∨ ∃ r', r.runFrom c actions = .ok r' ∧ Fits c r' := by
  induction actions generalizing r with
  | nil => exact Or.inr ⟨r, rfl, fits⟩
  | cons action actions ih =>
    unfold PoolRun.runFrom
    obtain failed | ⟨r', stepped, fits'⟩ := fits.step action
    · left
      rw [failed]
      rfl
    · rw [stepped]
      exact ih fits'

end PoolRun

/-- In no run of a driver `get_buffer` fails, a reference count gets below 0 or a buffer is freed that is
not up to date, is dirty or is referred to: an assertion about a stream is the only other thing that can
end it. Whenever a driver is in its loop, this is true of all buffers that are free. -/
theorem poolNeverRunsDry (c : PoolDriver) (actions : List PoolAction) :
    match (PoolRun.start c).runFrom c actions with
    | .error e => e = .assertion
    | .ok r => ∀ b, (r.pool.buffers b).refcount = 0 →
        (r.pool.buffers b).uptodate = true ∧ (r.pool.buffers b).dirty = false ∧ ¬ r.pool.Refers b := by
  obtain failed | ⟨r, done, fits⟩ := (PoolRun.fits_start c).runFrom actions
  · rw [failed]
  · rw [done]
    intro b free
    obtain ⟨unreferred, uptodate, clean⟩ := fits.counted.free free
    exact ⟨uptodate, clean (by simp), unreferred⟩

end MBFGraph
