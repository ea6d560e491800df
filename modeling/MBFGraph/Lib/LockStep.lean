import MBFGraph.Lib.Bsp
import MBFGraph.Lib.NondetLoop

/-!
# Runs in lock step

Two loops run in lock step if their bodies keep a relation between their states, and the relation says that
both tests come out the same. Then they make the same number of passes (`EndsAfter.passes_eq`). For vertex
programs that do not depend on the order of their messages (`OrderFree`), what is observed of the states is such
a relation.
-/

namespace NondetLoop

variable {S T : Type*}

/-- So many passes of a loop with its test behind the body. -/
inductive Passes (step : S → S → Prop) (stop : S → Prop) (s : S) : Nat → S → Prop
  | none : Passes step stop s 0 s
  | next {n : Nat} {mid after : S} (before : Passes step stop s n mid) (goesOn : 0 < n → ¬ stop mid)
      (pass : step mid after) : Passes step stop s (n + 1) after

/-- The loop comes to its end behind so many passes. -/
def EndsAfter (step : S → S → Prop) (stop : S → Prop) (s : S) (n : Nat) (after : S) : Prop :=
  0 < n ∧ Passes step stop s n after ∧ stop after

/-- The bodies keep a relation, which says that the tests come out the same. -/
structure LockStep (step : S → S → Prop) (stop : S → Prop) (step' : T → T → Prop) (stop' : T → Prop)
    (R : S → T → Prop) : Prop where
  keeps : ∀ {s t s' t'}, R s t → step s s' → step' t t' → R s' t' ∧ (stop s' ↔ stop' t')
  forth : ∀ {s t s'}, R s t → step s s' → ∃ t', step' t t'
  back : ∀ {s t t'}, R s t → step' t t' → ∃ s', step s s'

variable {step : S → S → Prop} {stop : S → Prop} {step' : T → T → Prop} {stop' : T → Prop}
  {R : S → T → Prop} {s s' : S} {t t' : T} {n m : Nat}

/-- The first of some passes. -/
theorem Passes.first (passes : Passes step stop s m s') (le : n ≤ m) :
    ∃ mid, Passes step stop s n mid ∧ (0 < n → n < m → ¬ stop mid) := by
  induction passes with
  | none => exact ⟨s, Nat.le_zero.mp le ▸ .none, fun _ less => absurd less (Nat.not_lt_zero _)⟩
  | @next k mid after before goesOn pass ih =>
    rcases Nat.lt_or_eq_of_le le with less | rfl
    · obtain ⟨early, run, goesOn'⟩ := ih (Nat.le_of_lt_succ less)
      rcases Nat.lt_or_eq_of_le (Nat.le_of_lt_succ less) with earlier | rfl
      · exact ⟨early, run, fun positive _ => goesOn' positive earlier⟩
      · exact ⟨mid, before, fun positive _ => goesOn positive⟩
    · exact ⟨after, .next before goesOn pass, fun _ same => absurd same (Nat.lt_irrefl _)⟩

/-- The first pass, and the others. -/
theorem Passes.uncons (passes : Passes step stop s n s') (positive : 0 < n) :
    ∃ mid, step s mid ∧ (n = 1 ∧ mid = s' ∨ ¬ stop mid ∧ Passes step stop mid (n - 1) s') := by
  induction passes with
  | none => exact absurd positive (Nat.lt_irrefl _)
  | @next k mid after before goesOn pass ih =>
    rcases Nat.eq_zero_or_pos k with rfl | positive'
    · cases before with
      | none => exact ⟨after, pass, .inl ⟨rfl, rfl⟩⟩
    · have lasts := goesOn positive'
      obtain ⟨early, first, ⟨isOne, rfl⟩ | ⟨goesOn', rest⟩⟩ := ih positive'
      · subst isOne
        exact ⟨early, first, .inr ⟨lasts, .next .none (fun none_ => absurd none_ (Nat.lt_irrefl _)) pass⟩⟩
      · refine ⟨early, first, .inr ⟨goesOn', ?_⟩⟩
        have count : k + 1 - 1 = k - 1 + 1 := by omega
        rw [count]
        exact .next rest (fun _ => lasts) pass

/-- What holds at every end holds behind every number of passes that leads to one. -/
theorem AlwaysEnds.post_of_endsAfter {post : S → Prop} (always : AlwaysEnds step stop post s)
    (ends : EndsAfter step stop s n s') : post s' := by
  induction always generalizing n with
  | loop _ done _ ih =>
    obtain ⟨positive, passes, stopped⟩ := ends
    obtain ⟨mid, first, ⟨_, rfl⟩ | ⟨goesOn, rest⟩⟩ := passes.uncons positive
    · exact done _ first stopped
    · rcases Nat.eq_zero_or_pos (n - 1) with isZero | positive'
      · rw [isZero] at rest
        cases rest with
        | none => exact absurd stopped goesOn
      · exact ih mid first goesOn ⟨positive', rest, stopped⟩

namespace LockStep

theorem symm (both : LockStep step stop step' stop' R) :
    LockStep step' stop' step stop (fun t s => R s t) where
  keeps related pass pass' := by
    obtain ⟨kept, same⟩ := both.keeps related pass' pass
    exact ⟨kept, same.symm⟩
  forth := both.back
  back := both.forth

/-- The states behind the same number of passes are related. -/
theorem of_passes (both : LockStep step stop step' stop' R) (related : R s t)
    (passes : Passes step stop s n s') (passes' : Passes step' stop' t n t') :
    R s' t' ∧ (0 < n → (stop s' ↔ stop' t')) := by
  induction passes generalizing t' with
  | none =>
    cases passes' with
    | none => exact ⟨related, fun positive => absurd positive (Nat.lt_irrefl _)⟩
  | next before goesOn pass ih =>
    cases passes' with
    | next before' goesOn' pass' =>
      obtain ⟨kept, same⟩ := both.keeps (ih before').1 pass pass'
      exact ⟨kept, fun _ => same⟩

/-- What one loop can do, the other can do. -/
theorem exists_passes (both : LockStep step stop step' stop' R) (related : R s t)
    (passes : Passes step stop s n s') : ∃ t', Passes step' stop' t n t' := by
  induction passes with
  | none => exact ⟨t, .none⟩
  | next before goesOn pass ih =>
    obtain ⟨mid, before'⟩ := ih
    obtain ⟨kept, same⟩ := both.of_passes related before before'
    obtain ⟨t', pass'⟩ := both.forth kept pass
    exact ⟨t', .next before' (fun positive stopped => goesOn positive ((same positive).mpr stopped)) pass'⟩

/-- If both loops end, they do so behind the same number of passes. -/
theorem le_of_endsAfter (both : LockStep step stop step' stop' R) (related : R s t)
    (ends : EndsAfter step stop s n s') (ends' : EndsAfter step' stop' t m t') : m ≤ n := by
  obtain ⟨positive, passes, stopped⟩ := ends
  by_contra more
  obtain ⟨mid, early, goesOn⟩ := ends'.2.1.first (Nat.le_of_lt (Nat.lt_of_not_le more))
  have same := (both.of_passes related passes early).2 positive
  exact goesOn positive (Nat.lt_of_not_le more) (same.mp stopped)

theorem endsAfter_eq (both : LockStep step stop step' stop' R) (related : R s t)
    (ends : EndsAfter step stop s n s') (ends' : EndsAfter step' stop' t m t') : n = m ∧ R s' t' := by
  have same : n = m := Nat.le_antisymm (both.symm.le_of_endsAfter related ends' ends)
    (both.le_of_endsAfter related ends ends')
  subst same
  exact ⟨rfl, (both.of_passes related ends.2.1 ends'.2.1).1⟩

theorem exists_endsAfter (both : LockStep step stop step' stop' R) (related : R s t)
    (ends : EndsAfter step stop s n s') : ∃ t', EndsAfter step' stop' t n t' := by
  obtain ⟨positive, passes, stopped⟩ := ends
  obtain ⟨t', passes'⟩ := both.exists_passes related passes
  exact ⟨t', positive, passes', ((both.of_passes related passes passes').2 positive).mp stopped⟩

/-- If one loop always ends, so does the other, in a state that is related to an end of the first. -/
theorem alwaysEnds {post : T → Prop} (both : LockStep step stop step' stop' R) (related : R s t)
    (ends : AlwaysEnds step' stop' post t) : AlwaysEnds step stop (fun s' => ∃ t', R s' t' ∧ post t') s := by
  induction ends generalizing s with
  | loop can done _ ih =>
    obtain ⟨t', pass'⟩ := can
    refine .loop (both.back related pass') (fun s' pass stopped => ?_) fun s' pass goesOn => ?_
    · obtain ⟨t'', pass''⟩ := both.forth related pass
      obtain ⟨kept, same⟩ := both.keeps related pass pass''
      exact ⟨t'', kept, done t'' pass'' (same.mp stopped)⟩
    · obtain ⟨t'', pass''⟩ := both.forth related pass
      obtain ⟨kept, same⟩ := both.keeps related pass pass''
      exact ih t'' pass'' (fun stopped => goesOn (same.mpr stopped)) kept

end LockStep

end NondetLoop

namespace Bsp

universe u

variable {V X : Type u} {S M Q : Type*}

/-- What is observed of a state behind some messages does not depend on their order, and what is sent depends
on what is observed. -/
structure OrderFree (R : Rules V S M X) (good : M → Prop) (obs : S → Q) : Prop where
  start : ∀ k v s s', obs s = obs s' → obs (R.start k v s) = obs (R.start k v s')
  apply : ∀ k s s' m, good m → obs s = obs s' → obs (R.apply k s m) = obs (R.apply k s' m)
  swap : ∀ k s m m', good m → good m' →
    obs (R.apply k (R.apply k s m) m') = obs (R.apply k (R.apply k s m') m)
  activates : ∀ k s s' m, good m → obs s = obs s' → R.activates k s m = R.activates k s' m
  activates_swap : ∀ k s m m', good m → good m' →
    (R.activates k s m || R.activates k (R.apply k s m) m') =
      (R.activates k s m' || R.activates k (R.apply k s m') m)
  send : ∀ k s s' v x, obs s = obs s' → R.send k s v x = R.send k s' v x

namespace OrderFree

variable {R : Rules V S M X} {good : M → Prop} {obs : S → Q} {k : Nat} {s s' : S} {mail mail' : List M}

theorem gather_congr (free : OrderFree R good obs) (all : ∀ m ∈ mail, good m) (same : obs s = obs s') :
    obs (R.gather k s mail) = obs (R.gather k s' mail) := by
  induction mail generalizing s s' with
  | nil => exact same
  | cons m mail ih =>
    exact ih (fun m' later => all m' (List.mem_cons_of_mem _ later))
      (free.apply k s s' m (all m List.mem_cons_self) same)

theorem gather_perm (free : OrderFree R good obs) (all : ∀ m ∈ mail, good m) (perm : mail.Perm mail') :
    obs (R.gather k s mail) = obs (R.gather k s mail') := by
  induction perm generalizing s with
  | nil => rfl
  | cons m _ ih => exact ih fun m' later => all m' (List.mem_cons_of_mem _ later)
  | swap m m' mail =>
    exact free.gather_congr (fun m'' later => all m'' (by simp [later]))
      (free.swap k s m' m (all m' (by simp)) (all m (by simp)))
  | trans perm _ ih ih' => exact (ih all).trans (ih' fun m member => all m (perm.mem_iff.mpr member))

theorem activated_congr (free : OrderFree R good obs) (all : ∀ m ∈ mail, good m) (same : obs s = obs s') :
    R.activated k s mail = R.activated k s' mail := by
  induction mail generalizing s s' with
  | nil => rfl
  | cons m mail ih =>
    have isGood := all m List.mem_cons_self
    unfold Rules.activated
    rw [free.activates k s s' m isGood same, ih (fun m' later => all m' (List.mem_cons_of_mem _ later))
      (free.apply k s s' m isGood same)]

theorem activated_perm (free : OrderFree R good obs) (all : ∀ m ∈ mail, good m) (perm : mail.Perm mail') :
    R.activated k s mail = R.activated k s mail' := by
  induction perm generalizing s with
  | nil => rfl
  | cons m _ ih =>
    unfold Rules.activated
    rw [ih fun m' later => all m' (List.mem_cons_of_mem _ later)]
  | swap m m' mail =>
    have good' : good m' := all m' (by simp)
    have good_ : good m := all m (by simp)
    have rest : R.activated k (R.apply k (R.apply k s m') m) mail =
        R.activated k (R.apply k (R.apply k s m) m') mail :=
      free.activated_congr (fun m'' later => all m'' (by simp [later])) (free.swap k s m' m good' good_)
    simp only [Rules.activated]
    rw [← Bool.or_assoc, ← Bool.or_assoc, rest, free.activates_swap k s m' m good' good_]
  | trans perm _ ih ih' => exact (ih all).trans (ih' fun m member => all m (perm.mem_iff.mpr member))

/-- Supersteps from states that look the same lead to states that look the same. -/
theorem superstep [DecidableEq V] (free : OrderFree R good obs) {edges : List (V × X)}
    {mail mail' : V → List M} {s s' t t' : V → S} {inbox inbox' outbox outbox' : List M} {quiet quiet' : Prop}
    (step : Superstep R edges k mail s inbox t outbox quiet)
    (step' : Superstep R edges k mail' s' inbox' t' outbox' quiet')
    (same : ∀ v, obs (s v) = obs (s' v)) (perm : inbox.Perm inbox') (all : ∀ m ∈ inbox, good m) :
    (∀ v, obs (t v) = obs (t' v)) ∧ outbox.Perm outbox' ∧ (quiet ↔ quiet') := by
  have mails (v : V) : (mail v).Perm (mail' v) :=
    (step.delivered v).trans ((perm.filter _).trans (step'.delivered v).symm)
  have goods (v : V) : ∀ m ∈ mail v, good m := fun m member => all m (step.mem_mail_iff.mp member).1
  have states (v : V) : obs (t v) = obs (t' v) := by
    rw [step.gathered, step'.gathered, free.gather_congr (goods v) (free.start k v _ _ (same v)),
      free.gather_perm (goods v) (mails v)]
  refine ⟨states, step.sent.trans (List.Perm.trans (List.Perm.of_eq ?_) step'.sent.symm), ?_⟩
  · exact List.filterMap_congr fun e _ => free.send k _ _ e.1 e.2 (states e.1)
  · rw [step.quiet_iff, step'.quiet_iff]
    refine forall_congr' fun v => ?_
    rw [free.activated_congr (goods v) (free.start k v _ _ (same v)), free.activated_perm (goods v) (mails v)]

end OrderFree

end Bsp
