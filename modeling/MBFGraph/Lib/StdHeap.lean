import MBFGraph.Lib.KWayMerge

/-!
# The heap functions of the standard library

What `std::make_heap`, `std::pop_heap` and `std::push_heap` promise about a range, whatever else they do. No element
of a heap is less than one above it in the tree, so none is above its first one (`IsHeap.front`).
-/

namespace KWayMerge

variable {ι : Type*} {comp : ι → ι → Bool}

/-- The range is a heap: the elements below position `i` are at `2 * i + 1` and `2 * i + 2`. -/
def IsHeap (comp : ι → ι → Bool) (l : List ι) : Prop :=
  ∀ i j a b, j = 2 * i + 1 ∨ j = 2 * i + 2 → l[i]? = some a → l[j]? = some b → comp a b = false

/-- The functions, with what is documented about them for a strict weak order. -/
structure StdHeap (ι : Type*) where
  makeHeap : (ι → ι → Bool) → List ι → List ι
  popHeap : (ι → ι → Bool) → List ι → List ι
  pushHeap : (ι → ι → Bool) → List ι → List ι
  makeHeap_spec : ∀ comp l, StrictWeak comp → (makeHeap comp l).Perm l ∧ IsHeap comp (makeHeap comp l)
  popHeap_spec : ∀ comp a l, StrictWeak comp → IsHeap comp (a :: l) →
    ∃ heap, popHeap comp (a :: l) = heap ++ [a] ∧ heap.Perm l ∧ IsHeap comp heap
  pushHeap_spec : ∀ comp l a, StrictWeak comp → IsHeap comp l →
    (pushHeap comp (l ++ [a])).Perm (l ++ [a]) ∧ IsHeap comp (pushHeap comp (l ++ [a]))

/-- The first element of a heap is a greatest one. -/
theorem IsHeap.front (weak : StrictWeak comp) {a : ι} {l : List ι} (heap : IsHeap comp (a :: l)) {b : ι}
    (member : b ∈ a :: l) : comp a b = false := by
  obtain ⟨i, at_⟩ := List.getElem?_of_mem member
  induction i using Nat.strong_induction_on generalizing b with
  | _ i ih =>
    cases i with
    | zero =>
      obtain rfl : a = b := by simpa using at_
      exact weak.irrefl a
    | succ i =>
      -- the element above it
      have inside : i / 2 < (a :: l).length := by
        have bound := (List.getElem?_eq_some_iff.mp at_).1
        omega
      have above := List.getElem?_eq_getElem inside
      have first := ih (i / 2) (by omega) (List.getElem_mem inside) above
      have second := heap (i / 2) (i + 1) _ b (by omega) above at_
      exact weak.negTrans a _ b first second

/-- Only the comparisons between elements of the range matter. -/
theorem IsHeap.congr {comp' : ι → ι → Bool} {l : List ι} (heap : IsHeap comp l)
    (same : ∀ a ∈ l, ∀ b ∈ l, comp' a b = comp a b) : IsHeap comp' l := by
  intro i j a b below first second
  rw [same a (List.mem_of_getElem? first) b (List.mem_of_getElem? second)]
  exact heap i j a b below first second

/-- A range in descending order is a heap. -/
theorem isHeap_of_pairwise {l : List ι} (descending : l.Pairwise fun a b => comp a b = false) : IsHeap comp l := by
  intro i j a b below first second
  obtain ⟨inFirst, rfl⟩ := List.getElem?_eq_some_iff.mp first
  obtain ⟨inSecond, rfl⟩ := List.getElem?_eq_some_iff.mp second
  exact List.pairwise_iff_getElem.mp descending i j inFirst inSecond (by omega)

/-- Heaps that are kept in descending order. -/
def descending (comp : ι → ι → Bool) (l : List ι) : List ι := l.insertionSort fun a b => comp a b = false

theorem isHeap_descending (weak : StrictWeak comp) (l : List ι) : IsHeap comp (descending comp l) := by
  have total : Std.Total fun a b => comp a b = false := ⟨weak.total⟩
  have trans : IsTrans ι fun a b => comp a b = false := ⟨weak.negTrans⟩
  exact isHeap_of_pairwise (List.pairwise_insertionSort _ l)

/-- The functions can be implemented so. -/
def descendingHeap (ι : Type*) : StdHeap ι where
  makeHeap := descending
  popHeap comp l := match l with
    | [] => []
    | a :: l => descending comp l ++ [a]
  pushHeap := descending
  makeHeap_spec _ l weak := ⟨List.perm_insertionSort _ l, isHeap_descending weak l⟩
  popHeap_spec _ _ l weak _ := ⟨_, rfl, List.perm_insertionSort _ l, isHeap_descending weak l⟩
  pushHeap_spec _ _ _ weak _ := ⟨List.perm_insertionSort _ _, isHeap_descending weak _⟩

end KWayMerge
