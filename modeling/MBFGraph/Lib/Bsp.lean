import Mathlib.Data.List.Perm.Basic
import Mathlib.Logic.Function.Basic

/-!
# Supersteps

A vertex program computes in supersteps. In superstep `k` every vertex takes the messages that
were sent to it in the superstep before, in any order, and then the vertices send messages along
their edges. `Rules` is the program, `Superstep` says what one superstep may do. An edge is a source
together with what it leads to: a vertex, or a vertex and a weight.
-/

namespace Bsp

universe u

/-- A vertex program: vertices `V`, states `S`, messages `M`, and what edges lead to, `X`. The number
is the superstep. -/
structure Rules (V : Type u) (S M : Type*) (X : Type u := V) where
  /-- The state of a vertex in front of its messages. -/
  start : Nat → V → S → S
  /-- A message is taken. -/
  apply : Nat → S → M → S
  /-- Whether the message asks for another superstep. -/
  activates : Nat → S → M → Bool
  /-- Whether the vertex may send. -/
  active : Nat → S → Bool
  /-- What a source sends along an edge. -/
  send : Nat → S → V → X → Option M
  target : M → V

variable {V X : Type u} {S M : Type*}

namespace Rules

variable (R : Rules V S M X)

/-- The state of a vertex behind its messages. -/
def gather (k : Nat) (s : S) (mail : List M) : S := mail.foldl (R.apply k) s

/-- Whether one of its messages asks for another superstep. -/
def activated (k : Nat) : S → List M → Bool
  | _, [] => false
  | s, m :: mail => R.activates k s m || activated k (R.apply k s m) mail

variable {R}

@[simp] theorem gather_nil (k : Nat) (s : S) : R.gather k s [] = s := rfl

@[simp] theorem gather_cons (k : Nat) (s : S) (m : M) (mail : List M) :
    R.gather k s (m :: mail) = R.gather k (R.apply k s m) mail := rfl

theorem gather_append (k : Nat) (s : S) (front back : List M) :
    R.gather k s (front ++ back) = R.gather k (R.gather k s front) back := List.foldl_append

theorem activated_append (k : Nat) (s : S) (front back : List M) :
    R.activated k s (front ++ back) =
      (R.activated k s front || R.activated k (R.gather k s front) back) := by
  induction front generalizing s with
  | nil => rfl
  | cons m front ih => simp only [List.cons_append, activated, gather_cons, ih, Bool.or_assoc]

/-- A property that taking a message keeps is kept by all messages. -/
theorem gather_induction {P : S → Prop} {k : Nat} (keeps : ∀ s m, P s → P (R.apply k s m)) {s : S}
    (holds : P s) (mail : List M) : P (R.gather k s mail) := by
  induction mail generalizing s with
  | nil => exact holds
  | cons m mail ih => exact ih (keeps s m holds)

/-- Messages that leave the state alone. -/
theorem gather_eq_self {k : Nat} {s : S} {mail : List M}
    (same : ∀ m ∈ mail, R.apply k s m = s) : R.gather k s mail = s := by
  induction mail with
  | nil => rfl
  | cons m mail ih =>
    rw [gather_cons, same m List.mem_cons_self]
    exact ih fun m' member => same m' (List.mem_cons_of_mem _ member)

end Rules

/-- Superstep `k` from the states `s` and the messages `inbox`. `mail` are the messages of a
vertex, in the order in which it took them. `quiet` says that no message asked for another
superstep. -/
structure Superstep [DecidableEq V] (R : Rules V S M X) (edges : List (V × X)) (k : Nat)
    (mail : V → List M) (s : V → S) (inbox : List M) (s' : V → S) (outbox : List M)
    (quiet : Prop) : Prop where
  delivered : ∀ v, (mail v).Perm (inbox.filter fun m => R.target m = v)
  gathered : ∀ v, s' v = R.gather k (R.start k v (s v)) (mail v)
  sent : outbox.Perm (edges.filterMap fun e => R.send k (s' e.1) e.1 e.2)
  quiet_iff : quiet ↔ ∀ v, R.activated k (R.start k v (s v)) (mail v) = false

namespace Superstep

variable [DecidableEq V] {R : Rules V S M X} {edges : List (V × X)} {k : Nat} {mail : V → List M}
  {s s' : V → S} {inbox outbox : List M} {quiet : Prop}

theorem mem_mail_iff (step : Superstep R edges k mail s inbox s' outbox quiet) {v : V} {m : M} :
    m ∈ mail v ↔ m ∈ inbox ∧ R.target m = v := by
  rw [(step.delivered v).mem_iff, List.mem_filter, decide_eq_true_eq]

theorem mem_outbox_iff (step : Superstep R edges k mail s inbox s' outbox quiet) {m : M} :
    m ∈ outbox ↔ ∃ e ∈ edges, R.send k (s' e.1) e.1 e.2 = some m := by
  rw [step.sent.mem_iff, List.mem_filterMap]

end Superstep

end Bsp
