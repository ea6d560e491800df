import Mathlib.Data.List.Lex
import Mathlib.Order.Lattice

/-!
# Blocks of a list in lexicographic order

In a list that ascends lexicographically, the elements that agree in a front part of their keys stand side
by side.
-/

namespace Lexicographic

variable {α β : Type*} [LinearOrder α] {as bs xs ys : List α}

theorem append_lt_append (sameLength : as.length = bs.length) (less : as < bs) :
    as ++ xs < bs ++ ys := by
  induction as generalizing bs with
  | nil =>
    obtain rfl := List.eq_nil_of_length_eq_zero sameLength.symm
    exact absurd less (List.not_lt_nil _)
  | cons a as ih =>
    cases bs with
    | nil => exact absurd less (List.not_lt_nil _)
    | cons b bs =>
      rw [List.cons_append, List.cons_append, List.cons_lt_cons_iff]
      exact (List.cons_lt_cons_iff.mp less).imp_right fun ⟨same, rest⟩ =>
        ⟨same, ih (Nat.succ.inj sameLength) rest⟩

theorem le_of_append_le_append (sameLength : as.length = bs.length) (le : as ++ xs ≤ bs ++ ys) :
    as ≤ bs := by
  by_contra greater
  exact absurd le (not_le.mpr (append_lt_append sameLength.symm (not_le.mp greater)))

/-- Elements that are related to each other stand side by side: what is between two of them is related
to them too. -/
def InOneBlock (R : β → β → Prop) (l : List β) : Prop :=
  ∀ a b c, [a, b, c].Sublist l → R a c → R a b

theorem inOneBlock_of_sorted {l : List β} {front rest : β → List α}
    (sameLength : ∀ a b, (front a).length = (front b).length)
    (sorted : l.Pairwise fun a b => front a ++ rest a ≤ front b ++ rest b) :
    InOneBlock (fun a b => front a = front b) l := by
  intro a b c three same
  have ordered := sorted.sublist three
  simp only [List.pairwise_cons, List.mem_cons, List.not_mem_nil, or_false, forall_eq_or_imp,
    forall_eq] at ordered
  have first := le_of_append_le_append (sameLength a b) ordered.1.1
  have second := le_of_append_le_append (sameLength b c) ordered.2.1
  exact le_antisymm first (same ▸ second)

end Lexicographic
