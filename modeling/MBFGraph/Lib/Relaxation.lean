import MBFGraph.Lib.Bsp
import Mathlib.Order.Bounds.Basic
import Mathlib.Data.Finset.Card
import Mathlib.Data.Finset.Range

/-!
# Relaxation

Every vertex of a graph has a label, and an edge carries the label of its source, changed on the
way, to its head. A round lets every vertex take the best of its own label and of what its edges
bring. Behind `k` rounds a label is the best that walks of at most `k` edges bring (`Best`), and
labels that a round leaves alone are the best that any walks bring.

A vertex program computes these rounds although a vertex sends only when its label has just
changed (`Relaxes.round`): what the others would send has been taken before.
-/

namespace Relaxation

universe u

variable {V X : Type u} {L S M : Type*}

/-- A graph whose edges carry labels. The vertices are those that are `known`. -/
structure Problem (V X : Type u) (L : Type*) where
  known : V → Prop
  edges : List (V × X)
  head : X → V
  carry : X → L → L
  first : V → L

/-- A walk of so many edges brings a label to a vertex. -/
inductive Brings (P : Problem V X L) : Nat → V → L → Prop
  | first {v : V} (known : P.known v) : Brings P 0 v (P.first v)
  | along {k : Nat} {e : V × X} {l : L} (walk : Brings P k e.1 l) (edge : e ∈ P.edges) :
      Brings P (k + 1) (P.head e.2) (P.carry e.2 l)

/-- Edges join vertices. -/
def Problem.Inside (P : Problem V X L) : Prop :=
  ∀ e ∈ P.edges, P.known e.1 ∧ P.known (P.head e.2)

section Rounds

variable [SemilatticeInf L] {P : Problem V X L} {l l' : V → L} {k : Nat}

/-- A property of labels that the better of two labels has if both have it. -/
def InfClosed (C : L → Prop) : Prop := ∀ a b, C a → C b → C (a ⊓ b)

/-- The labels in front of a round and behind it. -/
structure Round (P : Problem V X L) (l l' : V → L) : Prop where
  le : ∀ v, P.known v → l' v ≤ l v
  le_carry : ∀ e ∈ P.edges, l' (P.head e.2) ≤ P.carry e.2 (l e.1)
  closed : ∀ v, P.known v → ∀ C : L → Prop, InfClosed C → C (l v) →
    (∀ e ∈ P.edges, P.head e.2 = v → C (P.carry e.2 (l e.1))) → C (l' v)

/-- The labels are the best that walks of at most `k` edges bring. -/
structure Best (P : Problem V X L) (k : Nat) (l : V → L) : Prop where
  le : ∀ v j b, j ≤ k → Brings P j v b → l v ≤ b
  closed : ∀ v, P.known v → ∀ C : L → Prop, InfClosed C →
    (∀ j ≤ k, ∀ b, Brings P j v b → C b) → C (l v)

theorem Best.zero (starts : ∀ v, P.known v → l v = P.first v) : Best P 0 l where
  le v j b le walk := by
    cases walk with
    | first known => exact (starts v known).le
    | along _ _ => omega
  closed v known C _ all := by
    rw [starts v known]
    exact all 0 (Nat.le_refl 0) _ (.first known)

theorem monotone_of_carry_inf (carry_inf : ∀ x a b, P.carry x (a ⊓ b) = P.carry x a ⊓ P.carry x b)
    (x : X) : Monotone (P.carry x) := by
  intro a b less
  have := carry_inf x a b
  rw [inf_eq_left.mpr less] at this
  exact inf_eq_left.mp this.symm

/-- A round looks at walks that are one edge longer. -/
theorem Best.succ (inside : P.Inside)
    (carry_inf : ∀ x a b, P.carry x (a ⊓ b) = P.carry x a ⊓ P.carry x b)
    (best : Best P k l) (round : Round P l l') : Best P (k + 1) l' where
  le v j b le walk := by
    cases walk with
    | first known =>
      exact (round.le v known).trans (best.le v 0 _ (Nat.zero_le k) (.first known))
    | along walk edge =>
      exact (round.le_carry _ edge).trans
        (monotone_of_carry_inf carry_inf _ (best.le _ _ _ (Nat.le_of_succ_le_succ le) walk))
  closed v known C infClosed all := by
    refine round.closed v known C infClosed ?_ ?_
    · exact best.closed v known C infClosed fun j le b walk => all j (Nat.le_succ_of_le le) b walk
    · rintro e edge rfl
      refine best.closed e.1 (inside e edge).1 (fun b => C (P.carry e.2 b)) ?_ ?_
      · intro a b ofA ofB
        simp only [carry_inf]
        exact infClosed _ _ ofA ofB
      · exact fun j le b walk => all (j + 1) (Nat.succ_le_succ le) _ (walk.along edge)

/-- The greatest lower bound of everything that is brought. -/
theorem Best.isGLB (best : Best P k l) {v : V} (known : P.known v) :
    IsGLB {b | ∃ j ≤ k, Brings P j v b} (l v) := by
  constructor
  · rintro b ⟨j, le, walk⟩
    exact best.le v j b le walk
  · intro b lower
    refine best.closed v known (fun a => b ≤ a) (fun a a' => le_inf) fun j le a walk => ?_
    exact lower ⟨j, le, walk⟩

/-- When a round changes nothing, no walk brings a better label. -/
theorem Best.le_of_round (carry_mono : ∀ x, Monotone (P.carry x)) (best : Best P k l)
    (round : Round P l l) {v : V} {j : Nat} {b : L} (walk : Brings P j v b) : l v ≤ b := by
  induction walk with
  | first known => exact best.le _ 0 _ (Nat.zero_le k) (.first known)
  | along _ edge ih => exact (round.le_carry _ edge).trans (carry_mono _ ih)

end Rounds

section Linear

variable [LinearOrder L] {P : Problem V X L} {l l' : V → L} {k : Nat}

/-- In a linear order a monotone edge keeps the better of two labels. -/
theorem carry_inf_of_monotone (carry_mono : ∀ x, Monotone (P.carry x)) (x : X) (a b : L) :
    P.carry x (a ⊓ b) = P.carry x a ⊓ P.carry x b :=
  (carry_mono x).map_inf a b

/-- In a linear order the best label is one that a walk brings. -/
theorem Best.exists_walk (best : Best P k l) {v : V} (known : P.known v) :
    ∃ j ≤ k, Brings P j v (l v) := by
  refine best.closed v known (fun b => ∃ j ≤ k, Brings P j v b) ?_ fun j le b walk => ⟨j, le, walk⟩
  intro a b ofA ofB
  rcases min_choice a b with left | right
  · rwa [left]
  · rwa [right]

/-- Labels that a round leaves alone are the best. -/
theorem Best.isLeast (carry_mono : ∀ x, Monotone (P.carry x)) (best : Best P k l)
    (round : Round P l l) {v : V} (known : P.known v) :
    IsLeast {b | ∃ j, Brings P j v b} (l v) := by
  obtain ⟨j, _, walk⟩ := best.exists_walk known
  refine ⟨⟨j, walk⟩, ?_⟩
  rintro b ⟨j', walk'⟩
  exact best.le_of_round carry_mono round walk'

/-- A label that no shorter walk brings, nor a better one. -/
def Needs (P : Problem V X L) (k : Nat) (v : V) (b : L) : Prop :=
  Brings P k v b ∧ ∀ j < k, ∀ b', Brings P j v b' → ¬ b' ≤ b

/-- In front of the last edge no shorter walk would do either. -/
theorem Needs.exists_before (carry_mono : ∀ x, Monotone (P.carry x))
    (carry_le : ∀ e ∈ P.edges, ∀ a, a ≤ P.carry e.2 a) {v : V} {b : L}
    (needs : Needs P (k + 1) v b) : ∃ u b', Needs P k u b' ∧ b' ≤ b := by
  obtain ⟨walk, shortest⟩ := needs
  cases walk with
  | @along _ e a walk edge =>
    refine ⟨e.1, a, ⟨walk, fun j less b' walk' le => ?_⟩, carry_le e edge a⟩
    exact shortest (j + 1) (Nat.succ_lt_succ less) _ (walk'.along edge) (carry_mono _ le)

/-- The vertices of a walk that cannot be shortened. -/
theorem Needs.exists_vertices (carry_mono : ∀ x, Monotone (P.carry x))
    (carry_le : ∀ e ∈ P.edges, ∀ a, a ≤ P.carry e.2 a) {v : V} {b : L} (needs : Needs P k v b) :
    ∃ (at_ : Nat → V) (label : Nat → L), (∀ i ≤ k, Needs P i (at_ i) (label i)) ∧
      (∀ i j, i ≤ j → j ≤ k → label i ≤ label j) ∧ label k = b := by
  induction k generalizing v b with
  | zero =>
    refine ⟨fun _ => v, fun _ => b, fun i le => ?_, fun _ _ _ _ => le_refl b, rfl⟩
    rw [Nat.le_zero.mp le]
    exact needs
  | succ k ih =>
    obtain ⟨u, b', before, better⟩ := needs.exists_before carry_mono carry_le
    obtain ⟨at_, label, all, ordered, last⟩ := ih before
    refine ⟨fun i => if i = k + 1 then v else at_ i, fun i => if i = k + 1 then b else label i,
      fun i le => ?_, fun i j le le' => ?_, if_pos rfl⟩
    · by_cases isLast : i = k + 1
      · simp only [isLast, if_true]
        exact needs
      · simp only [isLast, if_false]
        exact all i (by omega)
    · by_cases isLast : j = k + 1
      · by_cases both : i = k + 1
        · simp only [isLast, both, if_true]
          exact le_refl b
        · simp only [isLast, both, if_true, if_false]
          exact (ordered i k (by omega) (Nat.le_refl k)).trans (last.trans_le better)
      · have notLast : i ≠ k + 1 := by omega
        simp only [isLast, notLast, if_false]
        exact ordered i j le (by omega)

/-- A walk that cannot be shortened does not come to a vertex twice. -/
theorem Needs.le_card (carry_mono : ∀ x, Monotone (P.carry x))
    (carry_le : ∀ e ∈ P.edges, ∀ a, a ≤ P.carry e.2 a) {v : V} {b : L} (heads : Finset V)
    (inside : ∀ e ∈ P.edges, P.head e.2 ∈ heads) (needs : Needs P k v b) : k ≤ heads.card := by
  obtain ⟨at_, label, all, ordered, _⟩ := needs.exists_vertices carry_mono carry_le
  have isHead : ∀ i < k, at_ (i + 1) ∈ heads := by
    intro i less
    have walk := (all (i + 1) less).1
    generalize at_ (i + 1) = u, label (i + 1) = a at walk
    cases walk with
    | along _ edge => exact inside _ edge
  have card := Finset.card_le_card_of_injOn (fun i => at_ (i + 1)) (s := Finset.range k) (t := heads)
    (fun i member => isHead i (Finset.mem_range.mp (Finset.mem_coe.mp member)))
    (fun i memberI j memberJ same => by
      have leI : i + 1 ≤ k := Finset.mem_range.mp (Finset.mem_coe.mp memberI)
      have leJ : j + 1 ≤ k := Finset.mem_range.mp (Finset.mem_coe.mp memberJ)
      have equal : at_ (i + 1) = at_ (j + 1) := same
      rcases Nat.lt_trichotomy i j with less | rfl | more
      · exact absurd (ordered (i + 1) (j + 1) (by omega) leJ)
          ((all _ leJ).2 (i + 1) (by omega) _ (equal ▸ (all _ leI).1))
      · rfl
      · exact absurd (ordered (j + 1) (i + 1) (by omega) leI)
          ((all _ leI).2 (j + 1) (by omega) _ (equal ▸ (all _ leJ).1)))
  rw [Finset.card_range] at card
  exact card

/-- A label that has just fallen is brought by a walk that cannot be shortened. -/
theorem Best.needs_of_lt (before : Best P k l) (best : Best P (k + 1) l') {v : V}
    (known : P.known v) (fell : l' v < l v) : Needs P (k + 1) v (l' v) := by
  have short : ∀ j < k + 1, ∀ b, Brings P j v b → ¬ b ≤ l' v := fun j less b walk le =>
    absurd (before.le v j b (Nat.lt_succ_iff.mp less) walk) (not_le.mpr (le.trans_lt fell))
  obtain ⟨j, le, walk⟩ := best.exists_walk known
  rcases Nat.lt_or_eq_of_le le with less | rfl
  · exact absurd (le_refl _) (short j less _ walk)
  · exact ⟨walk, short⟩

end Linear

/-! ## Programs that send only what has changed -/

/-- The messages of the program are labels: a vertex takes a message if it improves its label, and
then it is active; it sends its label along its edges if it is active. -/
structure Relaxes [SemilatticeInf L] (R : Bsp.Rules V S M X) (P : Problem V X L) (label : S → L)
    (value : M → L) : Prop where
  apply_label : ∀ k s m, label (R.apply k s m) = label s ⊓ value m
  apply_same : ∀ k s m, label s ≤ value m → R.apply k s m = s
  activates_iff : ∀ k s m, R.activates k s m = true ↔ ¬ label s ≤ value m
  apply_active : ∀ k s m, R.active k s = true ∨ ¬ label s ≤ value m →
    R.active k (R.apply k s m) = true
  start_zero : ∀ v s, P.known v → label (R.start 0 v s) = P.first v
  start_succ : ∀ k v s, label (R.start (k + 1) v s) = label s
  send_active : ∀ k s, ∀ e ∈ P.edges, R.active k s = true → ∃ m, R.send k s e.1 e.2 = some m ∧
    value m = P.carry e.2 (label s) ∧ R.target m = P.head e.2
  send_inactive : ∀ k s v x, R.active k s = false → R.send k s v x = none
  silent : ∀ v s x b, R.active 0 (R.start 0 v s) = false → P.known v → b ≤ P.carry x (P.first v)

section Gathering

variable [SemilatticeInf L] {R : Bsp.Rules V S M X} {P : Problem V X L} {label : S → L}
  {value : M → L} {k : Nat}

theorem Relaxes.gather_le (relaxes : Relaxes R P label value) (s : S) (mail : List M) :
    label (R.gather k s mail) ≤ label s := by
  induction mail generalizing s with
  | nil => exact le_refl _
  | cons m mail ih =>
    rw [Bsp.Rules.gather_cons]
    refine (ih _).trans ?_
    rw [relaxes.apply_label]
    exact inf_le_left

theorem Relaxes.gather_le_value (relaxes : Relaxes R P label value) (s : S) {mail : List M} {m : M}
    (member : m ∈ mail) : label (R.gather k s mail) ≤ value m := by
  induction mail generalizing s with
  | nil => exact absurd member List.not_mem_nil
  | cons m' mail ih =>
    rw [Bsp.Rules.gather_cons]
    rcases List.mem_cons.mp member with rfl | later
    · refine (relaxes.gather_le _ _).trans ?_
      rw [relaxes.apply_label]
      exact inf_le_right
    · exact ih _ later

theorem Relaxes.gather_closed (relaxes : Relaxes R P label value) (s : S) {mail : List M}
    {C : L → Prop} (infClosed : InfClosed C) (own : C (label s)) (all : ∀ m ∈ mail, C (value m)) :
    C (label (R.gather k s mail)) := by
  induction mail generalizing s with
  | nil => exact own
  | cons m mail ih =>
    rw [Bsp.Rules.gather_cons]
    refine ih _ ?_ fun m' member => all m' (List.mem_cons_of_mem _ member)
    rw [relaxes.apply_label]
    exact infClosed _ _ own (all m List.mem_cons_self)

/-- A vertex that is not active has not changed. -/
theorem Relaxes.gather_of_inactive (relaxes : Relaxes R P label value) (s : S) (mail : List M)
    (inactive : R.active k (R.gather k s mail) = false) : R.gather k s mail = s := by
  have stays : ∀ (mail : List M) (s : S), R.active k s = true →
      R.active k (R.gather k s mail) = true := fun mail s isActive =>
    Bsp.Rules.gather_induction (P := fun s => R.active k s = true)
      (fun s m before => relaxes.apply_active k s m (.inl before)) isActive mail
  induction mail with
  | nil => rfl
  | cons m mail ih =>
    rw [Bsp.Rules.gather_cons] at inactive ⊢
    by_cases worse : label s ≤ value m
    · rw [relaxes.apply_same k s m worse] at inactive ⊢
      exact ih inactive
    · have now := stays mail _ (relaxes.apply_active k s m (.inr worse))
      rw [now] at inactive
      exact absurd inactive Bool.noConfusion

/-- No message asks for another superstep exactly if the label stays, and then the vertex does. -/
theorem Relaxes.activated_iff (relaxes : Relaxes R P label value) (s : S) (mail : List M) :
    R.activated k s mail = false ↔ label (R.gather k s mail) = label s := by
  induction mail generalizing s with
  | nil => exact iff_of_true rfl rfl
  | cons m mail ih =>
    rw [Bsp.Rules.activated, Bool.or_eq_false_iff, Bsp.Rules.gather_cons]
    by_cases worse : label s ≤ value m
    · have notYet : R.activates k s m = false := by
        rw [← Bool.not_eq_true, relaxes.activates_iff, not_not]
        exact worse
      rw [relaxes.apply_same k s m worse, ih]
      exact and_iff_right notYet
    · have now : R.activates k s m = true := (relaxes.activates_iff k s m).mpr worse
      refine iff_of_false (fun both => ?_) fun same => worse ?_
      · rw [now] at both
        exact absurd both.1 Bool.noConfusion
      · rw [← same]
        refine (relaxes.gather_le _ _).trans ?_
        rw [relaxes.apply_label]
        exact inf_le_right

theorem Relaxes.gather_eq_iff (relaxes : Relaxes R P label value) (s : S) (mail : List M) :
    R.gather k s mail = s ↔ label (R.gather k s mail) = label s := by
  refine ⟨fun same => by rw [same], fun same => ?_⟩
  induction mail generalizing s with
  | nil => rfl
  | cons m mail ih =>
    rw [Bsp.Rules.gather_cons] at same ⊢
    by_cases worse : label s ≤ value m
    · rw [relaxes.apply_same k s m worse] at same ⊢
      exact ih s same
    · refine absurd ?_ worse
      rw [← same]
      refine (relaxes.gather_le _ _).trans ?_
      rw [relaxes.apply_label]
      exact inf_le_right

/-- A message names the head of its edge and carries the label of the source. -/
theorem Relaxes.of_sent (relaxes : Relaxes R P label value) {s : S} {e : V × X} {m : M}
    (edge : e ∈ P.edges) (sent : R.send k s e.1 e.2 = some m) :
    value m = P.carry e.2 (label s) ∧ R.target m = P.head e.2 := by
  cases isActive : R.active k s with
  | false =>
    rw [relaxes.send_inactive _ _ _ _ isActive] at sent
    exact absurd sent (by simp)
  | true =>
    obtain ⟨m', sent', isValue, isHead⟩ := relaxes.send_active k s e edge isActive
    rw [sent, Option.some.injEq] at sent'
    rw [sent']
    exact ⟨isValue, isHead⟩

end Gathering

/-- What holds behind superstep `k`: the messages are those of the active vertices, and what the
others would send has been taken. -/
structure Settled [SemilatticeInf L] (R : Bsp.Rules V S M X) (P : Problem V X L) (label : S → L)
    (k : Nat) (s : V → S) (inbox : List M) : Prop where
  inbox : ∀ m, m ∈ inbox ↔ ∃ e ∈ P.edges, R.send k (s e.1) e.1 e.2 = some m
  settled : ∀ e ∈ P.edges, R.active k (s e.1) = false →
    label (s (P.head e.2)) ≤ P.carry e.2 (label (s e.1))

section Supersteps

variable [SemilatticeInf L] [DecidableEq V] {R : Bsp.Rules V S M X} {P : Problem V X L}
  {label : S → L} {value : M → L} {k : Nat} {mail : V → List M} {s s' : V → S}
  {inbox outbox : List M} {quiet : Prop}

/-- The first superstep. -/
theorem Relaxes.settled_zero (relaxes : Relaxes R P label value) (inside : P.Inside)
    (step : Bsp.Superstep R P.edges 0 mail s [] s' outbox quiet) :
    Settled R P label 0 s' outbox ∧ (∀ v, s' v = R.start 0 v (s v)) ∧
      Best P 0 fun v => label (s' v) := by
  have state : ∀ v, s' v = R.start 0 v (s v) := by
    intro v
    have empty : mail v = [] := List.perm_nil.mp (step.delivered v)
    rw [step.gathered, empty, Bsp.Rules.gather_nil]
  refine ⟨⟨fun m => step.mem_outbox_iff, fun e edge inactive => ?_⟩, state, ?_⟩
  · rw [state] at inactive
    have known := (inside e edge).1
    rw [state e.1, relaxes.start_zero e.1 (s e.1) known]
    exact relaxes.silent _ _ _ _ inactive known
  · refine Best.zero fun v known => ?_
    rw [state]
    exact relaxes.start_zero v _ known

/-- A message of a further superstep comes along an edge. -/
theorem Relaxes.mem_mail_iff (relaxes : Relaxes R P label value)
    (settled : Settled R P label k s inbox)
    (step : Bsp.Superstep R P.edges (k + 1) mail s inbox s' outbox quiet) {v : V} {m : M} :
    m ∈ mail v ↔ ∃ e ∈ P.edges, P.head e.2 = v ∧ R.send k (s e.1) e.1 e.2 = some m := by
  rw [step.mem_mail_iff, settled.inbox]
  constructor
  · rintro ⟨⟨e, edge, sent⟩, isTarget⟩
    exact ⟨e, edge, (relaxes.of_sent edge sent).2.symm.trans isTarget, sent⟩
  · rintro ⟨e, edge, isHead, sent⟩
    exact ⟨⟨e, edge, sent⟩, (relaxes.of_sent edge sent).2.trans isHead⟩

/-- A further superstep is a round, although only the active vertices send. -/
theorem Relaxes.round (relaxes : Relaxes R P label value) (settled : Settled R P label k s inbox)
    (step : Bsp.Superstep R P.edges (k + 1) mail s inbox s' outbox quiet) :
    Round P (fun v => label (s v)) (fun v => label (s' v)) where
  le v _ := by
    rw [step.gathered, ← relaxes.start_succ k v (s v)]
    exact relaxes.gather_le _ _
  le_carry e edge := by
    rw [step.gathered]
    cases isActive : R.active k (s e.1) with
    | true =>
      -- the source has just changed and has sent its label
      obtain ⟨m, sent, isValue, _⟩ := relaxes.send_active k (s e.1) e edge isActive
      rw [← isValue]
      exact relaxes.gather_le_value _ ((relaxes.mem_mail_iff settled step).mpr ⟨e, edge, rfl, sent⟩)
    | false =>
      refine (relaxes.gather_le _ _).trans ?_
      rw [relaxes.start_succ]
      exact settled.settled e edge isActive
  closed v _ C infClosed own all := by
    rw [step.gathered]
    refine relaxes.gather_closed _ infClosed (by rwa [relaxes.start_succ]) fun m member => ?_
    obtain ⟨e, edge, isHead, sent⟩ := (relaxes.mem_mail_iff settled step).mp member
    rw [(relaxes.of_sent edge sent).1]
    exact all e edge isHead

/-- Behind a further superstep the messages are those of the active vertices again. -/
theorem Relaxes.settled_succ (relaxes : Relaxes R P label value)
    (settled : Settled R P label k s inbox)
    (step : Bsp.Superstep R P.edges (k + 1) mail s inbox s' outbox quiet) :
    Settled R P label (k + 1) s' outbox where
  inbox m := step.mem_outbox_iff
  settled e edge inactive := by
    rw [step.gathered] at inactive
    have same := relaxes.gather_of_inactive _ _ inactive
    have label_eq : label (s' e.1) = label (s e.1) := by
      rw [step.gathered, same, relaxes.start_succ]
    rw [label_eq]
    exact (relaxes.round settled step).le_carry e edge

/-- A vertex whose label changes has got a message. -/
theorem Relaxes.known_of_changed (relaxes : Relaxes R P label value) (inside : P.Inside)
    (settled : Settled R P label k s inbox)
    (step : Bsp.Superstep R P.edges (k + 1) mail s inbox s' outbox quiet) {v : V}
    (changed : label (s' v) ≠ label (s v)) : P.known v := by
  cases isMail : mail v with
  | nil =>
    rw [step.gathered, isMail, Bsp.Rules.gather_nil, relaxes.start_succ] at changed
    exact absurd rfl changed
  | cons m rest =>
    have member : m ∈ mail v := by rw [isMail]; exact List.mem_cons_self
    obtain ⟨e, edge, rfl, _⟩ := (relaxes.mem_mail_iff settled step).mp member
    exact (inside e edge).2

/-- A superstep is quiet if no label falls. -/
theorem Relaxes.quiet_iff (relaxes : Relaxes R P label value)
    (step : Bsp.Superstep R P.edges (k + 1) mail s inbox s' outbox quiet) :
    quiet ↔ ∀ v, label (s' v) = label (s v) := by
  rw [step.quiet_iff]
  refine forall_congr' fun v => ?_
  rw [relaxes.activated_iff, step.gathered, relaxes.start_succ]

end Supersteps

/-! ## Predecessors -/

/-- A vertex keeps the sender of the message that it took last. -/
structure Names [SemilatticeInf L] (R : Bsp.Rules V S M X) (P : Problem V X L) (label : S → L)
    (value : M → L) (pred : S → V) (sender : M → V) : Prop where
  apply_pred : ∀ k s m, ¬ label s ≤ value m → pred (R.apply k s m) = sender m
  start_pred : ∀ k v s, pred (R.start (k + 1) v s) = pred s
  send_sender : ∀ k s m, ∀ e ∈ P.edges, R.send k s e.1 e.2 = some m → sender m = e.1

/-- A label that is not the first one came along an edge from the predecessor, whose label may have
fallen since. -/
def Explained [LE L] (P : Problem V X L) (label : S → L) (pred : S → V) (s : V → S) : Prop :=
  ∀ v, P.known v → label (s v) = P.first v ∨
    ∃ e ∈ P.edges, e.1 = pred (s v) ∧ P.head e.2 = v ∧ P.carry e.2 (label (s e.1)) ≤ label (s v)

section Predecessors

variable [LinearOrder L] {R : Bsp.Rules V S M X} {P : Problem V X L} {label : S → L} {value : M → L}
  {pred : S → V} {sender : M → V} {k : Nat}

/-- The label behind some messages is the old one, or that of a message. -/
theorem Names.gather_eq_or (names : Names R P label value pred sender)
    (relaxes : Relaxes R P label value) (s : S) (mail : List M) :
    R.gather k s mail = s ∨ ∃ m ∈ mail, label (R.gather k s mail) = value m ∧
      pred (R.gather k s mail) = sender m := by
  induction mail generalizing s with
  | nil => exact .inl rfl
  | cons m mail ih =>
    rw [Bsp.Rules.gather_cons]
    by_cases worse : label s ≤ value m
    · rw [relaxes.apply_same k s m worse]
      rcases ih s with same | ⟨m', member, taken⟩
      · exact .inl same
      · exact .inr ⟨m', List.mem_cons_of_mem _ member, taken⟩
    · right
      rcases ih (R.apply k s m) with same | ⟨m', member, taken⟩
      · rw [same, relaxes.apply_label, names.apply_pred k s m worse]
        exact ⟨m, List.mem_cons_self, inf_eq_right.mpr (not_le.mp worse).le, rfl⟩
      · exact ⟨m', List.mem_cons_of_mem _ member, taken⟩

/-- When a round changes nothing, the label is exactly that of the predecessor, carried along. -/
theorem Explained.exists_edge {s : V → S} (explained : Explained P label pred s)
    (round : Round P (fun v => label (s v)) fun v => label (s v)) {v : V} (known : P.known v)
    (other : label (s v) ≠ P.first v) : ∃ e ∈ P.edges, e.1 = pred (s v) ∧ P.head e.2 = v ∧
      label (s v) = P.carry e.2 (label (s e.1)) := by
  rcases explained v known with same | ⟨e, edge, isPred, rfl, le⟩
  · exact absurd same other
  · exact ⟨e, edge, isPred, rfl, le_antisymm (round.le_carry e edge) le⟩

variable [DecidableEq V] {mail : V → List M} {s s' : V → S} {inbox outbox : List M} {quiet : Prop}

theorem Names.explained_succ (names : Names R P label value pred sender)
    (relaxes : Relaxes R P label value) (carry_mono : ∀ x, Monotone (P.carry x))
    (inside : P.Inside) (settled : Settled R P label k s inbox)
    (explained : Explained P label pred s)
    (step : Bsp.Superstep R P.edges (k + 1) mail s inbox s' outbox quiet) :
    Explained P label pred s' := by
  intro v known
  have falls := (relaxes.round settled step).le
  rcases names.gather_eq_or relaxes (k := k + 1) (R.start (k + 1) v (s v)) (mail v) with
    same | ⟨m, member, isValue, isSender⟩
  · -- the vertex has kept its label, and that of its predecessor has only fallen
    have label_eq : label (s' v) = label (s v) := by
      rw [step.gathered, same, relaxes.start_succ]
    have pred_eq : pred (s' v) = pred (s v) := by
      rw [step.gathered, same, names.start_pred]
    rw [label_eq, pred_eq]
    refine (explained v known).imp id ?_
    rintro ⟨e, edge, isPred, isHead, le⟩
    exact ⟨e, edge, isPred, isHead, (carry_mono _ (falls e.1 (inside e edge).1)).trans le⟩
  · right
    obtain ⟨e, edge, isHead, sent⟩ := (relaxes.mem_mail_iff settled step).mp member
    rw [← step.gathered] at isValue isSender
    refine ⟨e, edge, ?_, isHead, ?_⟩
    · rw [isSender, names.send_sender _ _ _ e edge sent]
    · rw [isValue, (relaxes.of_sent edge sent).1]
      exact carry_mono _ (falls e.1 (inside e edge).1)

end Predecessors

end Relaxation
