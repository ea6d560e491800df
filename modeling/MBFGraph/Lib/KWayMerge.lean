import Mathlib

/-!
# Merging sorted streams

Streams hold what is still to be read from them. A merge puts out the front of a stream that has no smaller front
beside it, again and again (`Merging.take`), forgets streams that are at their end (`Merging.erase`), and copies the
last one (`Merging.copy`). Whatever it takes among equal fronts, its output is sorted, and loses nothing.
-/

namespace KWayMerge

variable {α : Type*} {less : α → α → Bool}

/-- What a comparison must satisfy: a strict order in which being incomparable is transitive. -/
structure StrictWeak (less : α → α → Bool) : Prop where
  asymm : ∀ a b, less a b = true → less b a = false
  negTrans : ∀ a b c, less a b = false → less b c = false → less a c = false

theorem StrictWeak.irrefl (weak : StrictWeak less) (a : α) : less a a = false := by
  cases h : less a a with
  | false => rfl
  | true => exact (weak.asymm a a h).symm.trans h |>.symm

theorem StrictWeak.total (weak : StrictWeak less) (a b : α) : less a b = false ∨ less b a = false := by
  cases h : less a b with
  | false => exact Or.inl rfl
  | true => exact Or.inr (weak.asymm a b h)

/-- No element is less than one in front of it. -/
def Sorted (less : α → α → Bool) (l : List α) : Prop := l.Pairwise fun a b => less b a = false

variable {ι : Type*} {mem : ι → List α} {streams : List ι} {out all rest : List α} {x : α} {s : ι}

/-- What was put out, and what is still to come from the streams. -/
structure Merging (less : α → α → Bool) (all : List α) (mem : ι → List α) (streams : List ι) (out : List α) :
    Prop where
  sorted : Sorted less out
  runs : ∀ s ∈ streams, Sorted less (mem s)
  behind : ∀ a ∈ out, ∀ s ∈ streams, ∀ b ∈ mem s, less b a = false
  content : (out ++ streams.flatMap mem).Perm all

/-- Nothing was put out yet. -/
theorem Merging.start (runs : ∀ s ∈ streams, Sorted less (mem s)) (content : (streams.flatMap mem).Perm all) :
    Merging less all mem streams [] where
  sorted := List.Pairwise.nil
  runs := runs
  behind _ member := absurd member List.not_mem_nil
  content := content

/-- A front that no other is less than is not behind anything that is still to come. -/
theorem least_of_fronts (weak : StrictWeak less) (runs : ∀ s ∈ streams, Sorted less (mem s))
    (least : ∀ t ∈ streams, ∀ y, (mem t).head? = some y → less y x = false) {t : ι} (member : t ∈ streams) {b : α}
    (later : b ∈ mem t) : less b x = false := by
  have sorted := runs t member
  have front := least t member
  cases stream : mem t with
  | nil =>
    rw [stream] at later
    exact absurd later List.not_mem_nil
  | cons y ys =>
    rw [stream] at later sorted front
    have first := front y rfl
    rcases List.mem_cons.mp later with rfl | inside
    · exact first
    · exact weak.negTrans b y x ((List.pairwise_cons.mp sorted).1 b inside) first

theorem flatMap_perm_of_mem (mem : ι → List α) [DecidableEq ι] (member : s ∈ streams) :
    (streams.flatMap mem).Perm (mem s ++ (streams.erase s).flatMap mem) :=
  (List.perm_cons_erase member).flatMap_right mem

theorem flatMap_update [DecidableEq ι] (others : s ∉ streams) (l : List α) :
    streams.flatMap (Function.update mem s l) = streams.flatMap mem := by
  refine List.flatMap_congr fun t member => ?_
  have other : t ≠ s := fun same => others (same ▸ member)
  exact Function.update_of_ne other l mem

/-- The step of a merge: a least front is put out. -/
theorem Merging.take [DecidableEq ι] (weak : StrictWeak less) (merging : Merging less all mem streams out)
    (distinct : streams.Nodup) (member : s ∈ streams) (front : mem s = x :: rest)
    (least : ∀ t ∈ streams, ∀ y, (mem t).head? = some y → less y x = false) :
    Merging less all (Function.update mem s rest) streams (out ++ [x]) := by
  have fewer : ∀ t ∈ streams, ∀ b ∈ Function.update mem s rest t, b ∈ mem t := by
    intro t _ b inside
    by_cases same : t = s
    · subst same
      rw [Function.update_self] at inside
      rw [front]
      exact List.mem_cons_of_mem x inside
    · rwa [Function.update_of_ne same] at inside
  refine ⟨?_, fun t isStream => ?_, fun a before t isStream b later => ?_, ?_⟩
  · refine List.pairwise_append.mpr ⟨merging.sorted, List.pairwise_singleton _ _, fun a before b isLast => ?_⟩
    rw [List.mem_singleton.mp isLast]
    exact merging.behind a before s member x (by rw [front]; exact List.mem_cons_self)
  · by_cases same : t = s
    · subst same
      rw [Function.update_self]
      have run := merging.runs t member
      rw [front] at run
      exact (List.pairwise_cons.mp run).2
    · rw [Function.update_of_ne same]
      exact merging.runs t isStream
  · have here := fewer t isStream b later
    rcases List.mem_append.mp before with earlier | last
    · exact merging.behind a earlier t isStream b here
    · rw [List.mem_singleton.mp last]
      exact least_of_fronts weak merging.runs least isStream here
  · have others : s ∉ streams.erase s := distinct.not_mem_erase
    refine List.Perm.trans ?_ merging.content
    rw [List.append_assoc]
    refine List.Perm.append_left out ?_
    have before := flatMap_perm_of_mem mem member
    have after := flatMap_perm_of_mem (Function.update mem s rest) member
    rw [Function.update_self, flatMap_update others] at after
    rw [front] at before
    exact (after.append_left [x]).trans before.symm

/-- A stream at its end is forgotten. -/
theorem Merging.erase [DecidableEq ι] (merging : Merging less all mem streams out) (ended : mem s = []) :
    Merging less all mem (streams.erase s) out := by
  refine ⟨merging.sorted, fun t member => merging.runs t (List.mem_of_mem_erase member),
    fun a before t member => merging.behind a before t (List.mem_of_mem_erase member), ?_⟩
  by_cases member : s ∈ streams
  · have split := flatMap_perm_of_mem mem member
    rw [ended, List.nil_append] at split
    exact (split.symm.append_left out).trans merging.content
  · rw [List.erase_of_not_mem member]
    exact merging.content

/-- The last stream is put out as it is. -/
theorem Merging.copy (merging : Merging less all mem [s] out) :
    Sorted less (out ++ mem s) ∧ (out ++ mem s).Perm all := by
  refine ⟨List.pairwise_append.mpr ⟨merging.sorted, merging.runs s List.mem_cons_self, fun a before b later => ?_⟩, ?_⟩
  · exact merging.behind a before s List.mem_cons_self b later
  · have content := merging.content
    rwa [List.flatMap_cons, List.flatMap_nil, List.append_nil] at content

end KWayMerge
