import Mathlib

/-!
# Scanning a set of positions

`nextBit f bound start` is the least position from `start` on, below `bound`, where `f` holds. A
scan that joins neighbouring positions into runs (`extendRun`, up to a limit of its own) and goes
on behind each run meets every position exactly once; `Runs` is the list of runs it leaves.
-/

namespace BitScan

variable (f : Nat → Bool) (bound : Nat)

/-- The least position from `start` on where `f` holds. -/
def nextBit (start : Nat) : Option Nat := (List.range' start (bound - start)).find? f

variable {f bound}

theorem nextBit_eq_some_iff {start p : Nat} :
    nextBit f bound start = some p ↔
      f p = true ∧ start ≤ p ∧ p < bound ∧ ∀ q, start ≤ q → q < p → f q = false := by
  unfold nextBit
  rw [List.find?_range'_eq_some]
  simp only [List.mem_range'_1, Bool.not_eq_true', and_congr_right_iff]
  intro _
  constructor
  · rintro ⟨⟨above, below⟩, clear⟩
    exact ⟨above, by omega, clear⟩
  · rintro ⟨above, below, clear⟩
    exact ⟨⟨above, by omega⟩, clear⟩

theorem nextBit_eq_none_iff {start : Nat} :
    nextBit f bound start = none ↔ ∀ q, start ≤ q → q < bound → f q = false := by
  unfold nextBit
  rw [List.find?_eq_none]
  simp only [List.mem_range'_1, Bool.not_eq_true]
  constructor
  · intro clear q above below
    exact clear q ⟨above, by omega⟩
  · rintro clear q ⟨above, below⟩
    exact clear q above (by omega)

/-- A set position is found at once. -/
theorem nextBit_self {start : Nat} (set : f start = true) (inside : start < bound) :
    nextBit f bound start = some start :=
  nextBit_eq_some_iff.mpr ⟨set, Nat.le_refl _, inside, fun _ above below => by omega⟩

/-- Clear positions are skipped. -/
theorem nextBit_skip {start later : Nat} (ahead : start ≤ later)
    (clear : ∀ q, start ≤ q → q < later → f q = false) :
    nextBit f bound start = nextBit f bound later := by
  cases found : nextBit f bound later with
  | none =>
    rw [nextBit_eq_none_iff] at found ⊢
    intro q above below
    rcases Nat.lt_or_ge q later with before | behind
    · exact clear q above before
    · exact found q behind below
  | some p =>
    rw [nextBit_eq_some_iff] at found ⊢
    obtain ⟨set, above, below, first⟩ := found
    refine ⟨set, Nat.le_trans ahead above, below, fun q qAbove qBelow => ?_⟩
    rcases Nat.lt_or_ge q later with before | behind
    · exact clear q qAbove before
    · exact first q behind qBelow

/-- The loop that lengthens a run: `cur` is its first position, `n` its length so far and `pos` the
position found behind it. It stops where `more` says so or where there is a gap. -/
def extendRun (next : Nat → Option Nat) (more : Nat → Bool) (cur : Nat) :
    Nat → Nat → Option Nat → Nat × Option Nat
  | 0, n, pos => (n, pos)
  | _ + 1, n, none => (n, none)
  | fuel + 1, n, some p =>
      if more n = true ∧ p = cur + n then extendRun next more cur fuel (n + 1) (next p)
      else (n, some p)

/-- What is known of a run of `n` positions from `cur` on: all are set, and the position found
next is the first one behind it. -/
structure IsRun (f : Nat → Bool) (bound cur n : Nat) (pos : Option Nat) : Prop where
  inside : cur + n ≤ bound
  set : ∀ q, cur ≤ q → q < cur + n → f q = true
  behind : pos = nextBit f bound (cur + n)

/-- A single position is a run. -/
theorem isRun_one {cur : Nat} (set : f cur = true) (inside : cur < bound) :
    IsRun f bound cur 1 (nextBit f bound (cur + 1)) where
  inside := inside
  set q above below := by
    obtain rfl : q = cur := by omega
    exact set
  behind := rfl

/-- Lengthening a run gives a run, not a shorter one, and with enough fuel it stops for a
reason. -/
theorem isRun_extendRun (more : Nat → Bool) {cur : Nat} (fuel n : Nat) (pos : Option Nat)
    (run : IsRun f bound cur n pos) :
    let result := extendRun (fun p => nextBit f bound (p + 1)) more cur fuel n pos
    IsRun f bound cur result.1 result.2 ∧ n ≤ result.1 ∧
      (bound - (cur + n) < fuel →
        result.2 = none ∨ more result.1 = false ∨ f (cur + result.1) = false) := by
  induction fuel generalizing n pos with
  | zero => exact ⟨run, Nat.le_refl _, fun enough => absurd enough (Nat.not_lt_zero _)⟩
  | succ fuel ih =>
    cases pos with
    | none => exact ⟨run, Nat.le_refl _, fun _ => Or.inl rfl⟩
    | some p =>
      have found := nextBit_eq_some_iff.mp run.behind.symm
      by_cases goesOn : more n = true ∧ p = cur + n
      · obtain ⟨moreRoom, rfl⟩ := goesOn
        obtain ⟨set, -, below, -⟩ := found
        have longer : IsRun f bound cur (n + 1) (nextBit f bound (cur + n + 1)) := by
          refine ⟨by omega, fun q qAbove qBelow => ?_, by rw [Nat.add_assoc]⟩
          rcases Nat.lt_or_ge q (cur + n) with old | new
          · exact run.set q qAbove old
          · obtain rfl : q = cur + n := by omega
            exact set
        obtain ⟨isRun, le, stops⟩ := ih (n + 1) _ longer
        simp only [extendRun, moreRoom, and_self, if_true]
        exact ⟨isRun, by omega, fun enough => stops (by omega)⟩
      · simp only [extendRun, goesOn, if_false]
        refine ⟨run, Nat.le_refl _, fun _ => ?_⟩
        rcases Bool.eq_false_or_eq_true (more n) with more_ | stop
        · have gap : p ≠ cur + n := fun same => goesOn ⟨more_, same⟩
          exact Or.inr (Or.inr (found.2.2.2 _ (Nat.le_refl _) (by omega)))
        · exact Or.inr (Or.inl stop)

/-- A run is only lengthened while `more` allows it. -/
theorem more_of_extendRun (next : Nat → Option Nat) (more : Nat → Bool) (cur : Nat)
    (fuel n : Nat) (pos : Option Nat) {m : Nat} (above : n ≤ m)
    (below : m < (extendRun next more cur fuel n pos).1) : more m = true := by
  induction fuel generalizing n pos with
  | zero =>
    simp only [extendRun] at below
    omega
  | succ fuel ih =>
    cases pos with
    | none =>
      simp only [extendRun] at below
      omega
    | some p =>
      by_cases goesOn : more n = true ∧ p = cur + n
      · simp only [extendRun, goesOn, and_self, if_true] at below
        rcases Nat.lt_or_eq_of_le above with later | rfl
        · exact ih (n + 1) _ later below
        · exact goesOn.1
      · simp only [extendRun, goesOn, if_false] at below
        omega

/-- The set positions from `start` on. -/
def setFrom (f : Nat → Bool) (bound start : Nat) : List Nat :=
  (List.range' start (bound - start)).filter f

theorem setFrom_of_none {start : Nat} (none_ : nextBit f bound start = none) :
    setFrom f bound start = [] := by
  unfold setFrom
  rw [List.filter_eq_nil_iff]
  intro q member
  rw [List.mem_range'_1] at member
  rw [nextBit_eq_none_iff.mp none_ q member.1 (by omega)]
  exact Bool.false_ne_true

/-- They start with the run at the position found first. -/
theorem setFrom_of_isRun {start cur n : Nat} {pos : Option Nat}
    (found : nextBit f bound start = some cur) (run : IsRun f bound cur n pos) :
    setFrom f bound start = List.range' cur n ++ setFrom f bound (cur + n) := by
  obtain ⟨-, above, -, first⟩ := nextBit_eq_some_iff.mp found
  have inside := run.inside
  have split : List.range' start (bound - start) =
      List.range' start (cur - start) ++ (List.range' cur n ++
        List.range' (cur + n) (bound - (cur + n))) := by
    rw [show bound - start = (cur - start) + (n + (bound - (cur + n))) by omega,
      ← List.range'_append_1, ← List.range'_append_1, Nat.add_sub_cancel' above]
  have gap : (List.range' start (cur - start)).filter f = [] := by
    rw [List.filter_eq_nil_iff]
    intro q member
    rw [List.mem_range'_1] at member
    rw [first q member.1 (by omega)]
    exact Bool.false_ne_true
  have whole : (List.range' cur n).filter f = List.range' cur n := by
    rw [List.filter_eq_self]
    intro q member
    rw [List.mem_range'_1] at member
    exact run.set q member.1 member.2
  unfold setFrom
  rw [split, List.filter_append, List.filter_append, gap, whole, List.nil_append]

/-- All runs from the position found first. -/
def scanRuns (f : Nat → Bool) (bound : Nat) (more : Nat → Bool) :
    Nat → Option Nat → List (Nat × Nat)
  | 0, _ => []
  | _ + 1, none => []
  | fuel + 1, some cur =>
      let run := extendRun (fun p => nextBit f bound (p + 1)) more cur (bound + 1) 1
        (nextBit f bound (cur + 1))
      (cur, run.1) :: scanRuns f bound more fuel run.2

/-- A scan meets exactly the set positions. -/
theorem mem_scanRuns_iff {more : Nat → Bool} (fuel start : Nat) (enough : bound - start ≤ fuel)
    (x : Nat) :
    (∃ run ∈ scanRuns f bound more fuel (nextBit f bound start), run.1 ≤ x ∧ x < run.1 + run.2) ↔
      start ≤ x ∧ x < bound ∧ f x = true := by
  induction fuel generalizing start with
  | zero =>
    simp only [scanRuns, List.not_mem_nil, false_and, exists_false, false_iff]
    omega
  | succ fuel ih =>
    cases found : nextBit f bound start with
    | none =>
      simp only [scanRuns, List.not_mem_nil, false_and, exists_false, false_iff]
      rintro ⟨above, below, set⟩
      rw [nextBit_eq_none_iff.mp found x above below] at set
      contradiction
    | some cur =>
      obtain ⟨set, above, below, first⟩ := nextBit_eq_some_iff.mp found
      obtain ⟨run, longer, -⟩ := isRun_extendRun more (bound + 1) 1 _ (isRun_one set below)
      simp only [scanRuns, List.mem_cons, exists_eq_or_imp]
      generalize extendRun (fun p => nextBit f bound (p + 1)) more cur (bound + 1) 1
        (nextBit f bound (cur + 1)) = result at run longer
      have inside := run.inside
      rw [run.behind, ih (cur + result.1) (by omega)]
      constructor
      · rintro (⟨le, lt⟩ | ⟨le, lt, xSet⟩)
        · exact ⟨by omega, by omega, run.set x le lt⟩
        · exact ⟨by omega, lt, xSet⟩
      · rintro ⟨le, lt, xSet⟩
        rcases Nat.lt_or_ge x cur with before | notBefore
        · rw [first x le before] at xSet
          contradiction
        · rcases Nat.lt_or_ge x (cur + result.1) with inRun | later
          · exact Or.inl ⟨notBefore, inRun⟩
          · exact Or.inr ⟨later, lt, xSet⟩

end BitScan
