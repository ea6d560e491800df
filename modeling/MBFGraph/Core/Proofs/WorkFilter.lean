import MBFGraph.Core.WorkFilter
import MBFGraph.Lib.LinkedList
import Mathlib.Algebra.Order.BigOperators.Group.Finset
import Mathlib.Data.Fintype.BigOperators

/-!
# The filter hands out each partition once

Between two phases the stacks hold the queued ids (`FilterSettled`). While ids are queued, an id is in its
stack, or its pointer says that it is free, or exactly one processor is about to push it. While ids are taken
out, the pointers do not change, so that the visible heads go through the stacks.
-/

namespace MBFGraph

open Interleaving LinkedList

variable {items processors : Nat} {queued : List (Fin items)} {lists : Nat → List (Fin items)}

theorem queueOf_lt (p : Fin processors) (id : Fin items) : queueOf processors id < processors := by
  have le : queueOf processors id ≤ processors - 1 := Nat.and_le_right
  have := Fin.pos p
  omega

/-- A processor is at a statement: it has just come there, or it is another one. -/
theorem update_eq_cases {α β : Type*} [DecidableEq α] {g : α → β} {a a' : α} {b x : β}
    (here : Function.update g a b a' = x) : a' = a ∧ b = x ∨ a' ≠ a ∧ g a' = x := by
  obtain rfl | other := eq_or_ne a' a
  · exact Or.inl ⟨rfl, by rwa [Function.update_self] at here⟩
  · exact Or.inr ⟨other, by rwa [Function.update_of_ne other] at here⟩

/-- The queues are the lists. -/
structure Stacks (processors : Nat) (f : Filter items) (lists : Nat → List (Fin items)) : Prop where
  chain : ∀ q, Chain f.next (f.workQ q) (lists q)
  nodup : ∀ q, (lists q).Nodup
  home : ∀ q, ∀ i ∈ lists q, queueOf processors i = q ∧ q < processors

/-- Between two phases: what is queued is in the stacks, and the rest is free. -/
structure FilterSettled (processors : Nat) (f : Filter items) (queued : List (Fin items))
    (lists : Nat → List (Fin items)) : Prop extends Stacks processors f lists where
  mem : ∀ i, i ∈ queued ↔ i ∈ lists (queueOf processors i)
  free : ∀ i, i ∉ queued → f.next i = some i

theorem settled_new : FilterSettled processors (Filter.new items) [] fun _ => [] where
  chain _ := rfl
  nodup _ := List.nodup_nil
  home _ _ member := nomatch member
  mem _ := Iff.rfl
  free _ _ := rfl

theorem Stacks.next_ne_self {f : Filter items} (linked : Stacks processors f lists) {i : Fin items}
    (member : i ∈ lists (queueOf processors i)) : f.next i ≠ some i :=
  (linked.chain _).next_ne_self (linked.nodup _) member

/-- A change of the pointer of an id that is in no stack. -/
theorem Stacks.update {f : Filter items} (linked : Stacks processors f lists) {id : Fin items}
    (absent : id ∉ lists (queueOf processors id)) (pointer : Option (Fin items)) :
    Stacks processors { f with next := Function.update f.next id pointer } lists := by
  refine ⟨fun q => (linked.chain q).congr fun i member => ?_, linked.nodup, linked.home⟩
  refine Function.update_of_ne (fun same => absent ?_) _ _
  subst same
  rwa [(linked.home q i member).1]

/-! ## Queueing -/

/-- The id that the processor pushes. -/
def QPc.pushing : QPc items → Option (Fin items)
  | .outside | .casSelf _ => none
  | .readWorkQ id | .writeNext id _ | .readNext id | .casWorkQ id _ => some id

namespace Queueing

variable {s : Queueing items processors}

/-- While ids are queued. -/
structure Sound (s : Queueing items processors) (queued : List (Fin items))
    (lists : Nat → List (Fin items)) : Prop extends Stacks processors s.filter lists where
  mem : ∀ i ∈ lists (queueOf processors i), i ∈ s.called ++ queued
  /-- A processor pushes an id that is in no stack, and is not free. -/
  pushed : ∀ p i, (s.pc p).pushing = some i → i ∈ s.called ++ queued ∧
    i ∉ lists (queueOf processors i) ∧ s.filter.next i ≠ some i
  alone : ∀ p p' i, (s.pc p).pushing = some i → (s.pc p').pushing = some i → p = p'
  calls : ∀ p i, s.pc p = .casSelf i → i ∈ s.called ++ queued
  /-- Somebody will find an id that is queued and still free. -/
  found : ∀ i ∈ s.called ++ queued, s.filter.next i = some i → ∃ p, s.pc p = .casSelf i
  /-- An id that is not free is in its stack, or will be. -/
  taken : ∀ i, s.filter.next i ≠ some i →
    i ∈ lists (queueOf processors i) ∨ ∃ p, (s.pc p).pushing = some i
  head : ∀ p i h, s.pc p = .writeNext i h → h ≠ some i
  prev : ∀ p i h, s.pc p = .casWorkQ i h → s.filter.next i = h

theorem start_sound {f : Filter items} (settled : FilterSettled processors f queued lists) :
    Sound (start f : Queueing items processors) queued lists where
  toStacks := settled.toStacks
  mem i member := (settled.mem i).mpr member
  pushed _ _ pushing := nomatch pushing
  alone _ _ _ pushing := nomatch pushing
  calls _ _ here := nomatch here
  found i member isFree :=
    absurd isFree (settled.next_ne_self ((settled.mem i).mp member))
  taken i notFree := Or.inl ((settled.mem i).mp (not_imp_comm.mp (settled.free i) notFree))
  head _ _ _ here := nomatch here
  prev _ _ _ here := nomatch here

theorem Sound.settled (sound : Sound s queued lists) (finished : s.Over) :
    FilterSettled processors s.filter (s.called ++ queued) lists := by
  have inStack (i : Fin items) (notFree : s.filter.next i ≠ some i) :
      i ∈ lists (queueOf processors i) := by
    obtain inside | ⟨p, pushing⟩ := sound.taken i notFree
    · exact inside
    · rw [finished p] at pushing
      exact nomatch pushing
  refine ⟨sound.toStacks, fun i => ⟨fun member => inStack i fun isFree => ?_, sound.mem i⟩,
    fun i absent => ?_⟩
  · obtain ⟨p, here⟩ := sound.found i member isFree
    rw [finished p] at here
    exact nomatch here
  · exact not_imp_comm.mp (inStack i) (mt (sound.mem i) absent)

/-- A processor goes on in its call, or begins one; the filter stays. -/
theorem Sound.moves (sound : Sound s queued lists) {p : Fin processors} {pc : QPc items}
    {called : List (Fin items)} (same : pc.pushing = (s.pc p).pushing)
    (keeps : ∀ i ∈ s.called, i ∈ called) (more : ∀ i ∈ called, i ∈ s.called ∨ pc = .casSelf i)
    (calls : ∀ i, pc = .casSelf i → i ∈ called)
    (leaves : ∀ i, s.pc p = .casSelf i → s.filter.next i ≠ some i)
    (head : ∀ i h, pc = .writeNext i h → h ≠ some i)
    (prev : ∀ i h, pc = .casWorkQ i h → s.filter.next i = h) :
    Sound ⟨s.filter, Function.update s.pc p pc, called⟩ queued lists := by
  have pushing (p' : Fin processors) :
      (Function.update s.pc p pc p').pushing = (s.pc p').pushing := by
    obtain rfl | other := eq_or_ne p' p
    · rw [Function.update_self, same]
    · rw [Function.update_of_ne other]
  have known (i : Fin items) (member : i ∈ s.called ++ queued) : i ∈ called ++ queued :=
    List.mem_append.mpr ((List.mem_append.mp member).imp_left (keeps i))
  refine ⟨sound.toStacks, fun i inside => known i (sound.mem i inside), ?_, ?_, ?_, ?_, ?_, ?_, ?_⟩
  all_goals simp only [pushing]
  · intro p' i here
    obtain ⟨member, rest⟩ := sound.pushed p' i here
    exact ⟨known i member, rest⟩
  · exact sound.alone
  · intro p' i here
    obtain rfl | other := eq_or_ne p' p
    · rw [Function.update_self] at here
      exact List.mem_append_left _ (calls i here)
    · rw [Function.update_of_ne other] at here
      exact known i (sound.calls p' i here)
  · intro i member isFree
    by_cases begins : pc = .casSelf i
    · exact ⟨p, by rw [Function.update_self, begins]⟩
    · have old : i ∈ s.called ++ queued := List.mem_append.mpr
        ((List.mem_append.mp member).imp_left fun new => (more i new).resolve_right begins)
      obtain ⟨p', here⟩ := sound.found i old isFree
      have other : p' ≠ p := fun same => leaves i (same ▸ here) isFree
      exact ⟨p', by rw [Function.update_of_ne other, here]⟩
  · exact sound.taken
  · intro p' i h here
    obtain rfl | other := eq_or_ne p' p
    · exact head i h (by rwa [Function.update_self] at here)
    · exact sound.head p' i h (by rwa [Function.update_of_ne other] at here)
  · intro p' i h here
    obtain rfl | other := eq_or_ne p' p
    · exact prev i h (by rwa [Function.update_self] at here)
    · exact sound.prev p' i h (by rwa [Function.update_of_ne other] at here)

/-- A processor goes on in its call. -/
theorem Sound.goesOn (sound : Sound s queued lists) {p : Fin processors} {pc : QPc items}
    (same : pc.pushing = (s.pc p).pushing) (calls : ∀ i, pc ≠ .casSelf i)
    (leaves : ∀ i, s.pc p = .casSelf i → s.filter.next i ≠ some i)
    (head : ∀ i h, pc = .writeNext i h → h ≠ some i)
    (prev : ∀ i h, pc = .casWorkQ i h → s.filter.next i = h) :
    Sound ⟨s.filter, Function.update s.pc p pc, s.called⟩ queued lists :=
  sound.moves same (fun _ member => member) (fun _ => Or.inl) (fun i begins => absurd begins (calls i))
    leaves head prev

/-- A processor writes the pointer of an id that only it pushes. -/
theorem Sound.points (sound : Sound s queued lists) {p : Fin processors} {pc : QPc items}
    {id : Fin items} {pointer : Option (Fin items)} (member : id ∈ s.called ++ queued)
    (absent : id ∉ lists (queueOf processors id)) (ne : pointer ≠ some id)
    (only : ∀ p', (s.pc p').pushing = some id → p' = p)
    (before : s.pc p = .casSelf id ∨ (s.pc p).pushing = some id)
    (after : pc = .readWorkQ id ∨ pc = .readNext id) :
    Sound ⟨{ s.filter with next := Function.update s.filter.next id pointer },
      Function.update s.pc p pc, s.called⟩ queued lists := by
  have pushes : pc.pushing = some id := by
    obtain rfl | rfl := after <;> rfl
  have others {i : Fin items} (before' : (s.pc p).pushing = some i) : i = id := by
    obtain here | here := before
    · rw [here] at before'
      exact nomatch before'
    · exact Option.some.inj (before'.symm.trans here)
  -- which processor pushes what
  have pushing (p' : Fin processors) (i : Fin items)
      (here : (Function.update s.pc p pc p').pushing = some i) :
      p' = p ∧ i = id ∨ p' ≠ p ∧ i ≠ id ∧ (s.pc p').pushing = some i := by
    obtain rfl | other := eq_or_ne p' p
    · rw [Function.update_self, pushes] at here
      exact Or.inl ⟨rfl, (Option.some.inj here).symm⟩
    · rw [Function.update_of_ne other] at here
      exact Or.inr ⟨other, fun same => other (only p' (same ▸ here)), here⟩
  refine ⟨Stacks.update sound.toStacks absent pointer, sound.mem, ?_, ?_, ?_, ?_, ?_, ?_, ?_⟩
  all_goals dsimp only
  · intro p' i here
    obtain ⟨-, rfl⟩ | ⟨-, other, here⟩ := pushing p' i here
    · exact ⟨member, absent, by simpa using ne⟩
    · obtain ⟨known, outside, notFree⟩ := sound.pushed p' i here
      exact ⟨known, outside, by simpa [Function.update_of_ne other] using notFree⟩
  · intro p' p'' i here here'
    obtain ⟨rfl, rfl⟩ | ⟨-, other, here⟩ := pushing p' i here
    · obtain ⟨rfl, -⟩ | ⟨-, other, -⟩ := pushing p'' _ here'
      · rfl
      · exact absurd rfl other
    · obtain ⟨-, same⟩ | ⟨-, -, here'⟩ := pushing p'' i here'
      · exact absurd same other
      · exact sound.alone p' p'' i here here'
  · intro p' i here
    obtain rfl | other := eq_or_ne p' p
    · rw [Function.update_self] at here
      rw [here] at pushes
      exact nomatch pushes
    · rw [Function.update_of_ne other] at here
      exact sound.calls p' i here
  · intro i known isFree
    obtain rfl | other := eq_or_ne i id
    · exact absurd (by simpa using isFree) ne
    · simp only [Function.update_of_ne other] at isFree
      obtain ⟨p', here⟩ := sound.found i known isFree
      have moved : p' ≠ p := by
        rintro rfl
        obtain same | here' := before
        · exact other (QPc.casSelf.inj (here.symm.trans same))
        · rw [here] at here'
          exact nomatch here'
      exact ⟨p', by rw [Function.update_of_ne moved, here]⟩
  · intro i notFree
    obtain rfl | other := eq_or_ne i id
    · exact Or.inr ⟨p, by rw [Function.update_self, pushes]⟩
    · simp only [Function.update_of_ne other] at notFree
      refine (sound.taken i notFree).imp_right fun ⟨p', here⟩ => ⟨p', ?_⟩
      have moved : p' ≠ p := fun same => other (others (same ▸ here))
      rw [Function.update_of_ne moved, here]
  · intro p' i h here
    obtain rfl | other := eq_or_ne p' p
    · rw [Function.update_self] at here
      obtain rfl | rfl := after <;> exact nomatch here
    · exact sound.head p' i h (by rwa [Function.update_of_ne other] at here)
  · intro p' i h here
    obtain rfl | other := eq_or_ne p' p
    · rw [Function.update_self] at here
      obtain rfl | rfl := after <;> exact nomatch here
    · rw [Function.update_of_ne other] at here
      have apart : i ≠ id := by
        rintro rfl
        exact other (only p' (by rw [here]; rfl))
      simpa [Function.update_of_ne apart] using sound.prev p' i h here

/-- A processor puts its id on top of the stack. -/
theorem Sound.pushes (sound : Sound s queued lists) {p : Fin processors} {id : Fin items}
    {prev : Option (Fin items)} (here : s.pc p = .casWorkQ id prev)
    (same : s.filter.workQ (queueOf processors id) = prev) :
    Sound ⟨{ s.filter with
        workQ := Function.update s.filter.workQ (queueOf processors id) (some id) },
      Function.update s.pc p .outside, s.called⟩ queued
      (Function.update lists (queueOf processors id) (id :: lists (queueOf processors id))) := by
  have mine : (s.pc p).pushing = some id := by rw [here]; rfl
  obtain ⟨member, absent, -⟩ := sound.pushed p id mine
  have inStack (i : Fin items) :
      i ∈ Function.update lists (queueOf processors id) (id :: lists (queueOf processors id))
        (queueOf processors i) ↔ i = id ∨ i ∈ lists (queueOf processors i) := by
    by_cases sameQueue : queueOf processors i = queueOf processors id
    · rw [sameQueue, Function.update_self, List.mem_cons]
    · rw [Function.update_of_ne sameQueue]
      exact (or_iff_right fun same => sameQueue (by rw [same])).symm
  -- the other processors push other ids
  have pushing (p' : Fin processors) (i : Fin items)
      (here' : (Function.update s.pc p .outside p').pushing = some i) :
      i ≠ id ∧ (s.pc p').pushing = some i := by
    obtain rfl | other := eq_or_ne p' p
    · rw [Function.update_self] at here'
      exact nomatch here'
    · rw [Function.update_of_ne other] at here'
      exact ⟨fun same => other (sound.alone p' p id (same ▸ here') mine), here'⟩
  have elsewhere {p' : Fin processors} {pc : QPc items} (ne : pc ≠ .outside)
      (here' : Function.update s.pc p .outside p' = pc) : s.pc p' = pc := by
    obtain rfl | other := eq_or_ne p' p
    · rw [Function.update_self] at here'
      exact absurd here'.symm ne
    · rwa [Function.update_of_ne other] at here'
  refine ⟨⟨fun q => ?_, fun q => ?_, fun q i inside => ?_⟩, ?_, ?_, ?_, ?_, ?_, ?_, ?_, ?_⟩
  all_goals try dsimp only
  · obtain rfl | other := eq_or_ne q (queueOf processors id)
    · rw [Function.update_self, Function.update_self, chain_cons, sound.prev p id prev here, ← same]
      exact ⟨rfl, sound.chain _⟩
    · rw [Function.update_of_ne other, Function.update_of_ne other]
      exact sound.chain q
  · obtain rfl | other := eq_or_ne q (queueOf processors id)
    · rw [Function.update_self]
      exact List.nodup_cons.mpr ⟨absent, sound.nodup _⟩
    · rw [Function.update_of_ne other]
      exact sound.nodup q
  · obtain rfl | other := eq_or_ne q (queueOf processors id)
    · rw [Function.update_self] at inside
      obtain rfl | inside := List.mem_cons.mp inside
      · exact ⟨rfl, queueOf_lt p i⟩
      · exact sound.home _ i inside
    · rw [Function.update_of_ne other] at inside
      exact sound.home q i inside
  · intro i inside
    obtain rfl | inside := (inStack i).mp inside
    · exact member
    · exact sound.mem i inside
  · intro p' i here'
    obtain ⟨other, here'⟩ := pushing p' i here'
    obtain ⟨known, outside, notFree⟩ := sound.pushed p' i here'
    exact ⟨known, fun inside => ((inStack i).mp inside).elim other outside, notFree⟩
  · intro p' p'' i here' here''
    exact sound.alone p' p'' i (pushing p' i here').2 (pushing p'' i here'').2
  · intro p' i here'
    exact sound.calls p' i (elsewhere (by simp) here')
  · intro i known isFree
    obtain ⟨p', here'⟩ := sound.found i known isFree
    have other : p' ≠ p := by
      rintro rfl
      exact nomatch here.symm.trans here'
    exact ⟨p', by rw [Function.update_of_ne other, here']⟩
  · intro i notFree
    obtain inside | ⟨p', here'⟩ := sound.taken i notFree
    · exact Or.inl ((inStack i).mpr (Or.inr inside))
    · obtain rfl | other := eq_or_ne p' p
      · exact Or.inl ((inStack i).mpr (Or.inl (Option.some.inj (here'.symm.trans mine))))
      · exact Or.inr ⟨p', by rw [Function.update_of_ne other, here']⟩
  · intro p' i h here'
    exact sound.head p' i h (elsewhere (by simp) here')
  · intro p' i h here'
    exact sound.prev p' i h (elsewhere (by simp) here')

/-- One lemma for each statement of `q`. -/
theorem Sound.step (sound : Sound s queued lists) (turn : Fin processors × Fin items) :
    ∃ lists', Sound (s.step turn) queued lists' := by
  obtain ⟨p, arg⟩ := turn
  cases here : s.pc p with
  | outside =>
    refine ⟨lists, ?_⟩
    have step : s.step (p, arg) =
        ⟨s.filter, Function.update s.pc p (.casSelf arg), arg :: s.called⟩ := by
      simp [Queueing.step, QPc.step, here]
    rw [step]
    exact sound.moves (by rw [here]; rfl) (fun i => List.mem_cons_of_mem _)
      (fun i member => (List.mem_cons.mp member).symm.imp_right fun same => by rw [same])
      (fun i same => by rw [QPc.casSelf.inj same]; exact List.mem_cons_self)
      (fun i same => nomatch here.symm.trans same) (fun _ _ => nofun) (fun _ _ => nofun)
  | casSelf id =>
    refine ⟨lists, ?_⟩
    by_cases isFree : s.filter.next id = some id
    · -- nobody else can have found it free
      have step : s.step (p, arg) =
          ⟨{ s.filter with next := Function.update s.filter.next id none },
            Function.update s.pc p (.readWorkQ id), s.called⟩ := by
        simp [Queueing.step, QPc.step, here, isFree]
      rw [step]
      exact sound.points (sound.calls p id here)
        (fun inside => sound.next_ne_self inside isFree) (by simp)
        (fun p' pushing => absurd isFree (sound.pushed p' id pushing).2.2) (Or.inl here) (Or.inl rfl)
    · have step : s.step (p, arg) = ⟨s.filter, Function.update s.pc p .outside, s.called⟩ := by
        simp [Queueing.step, QPc.step, here, isFree]
      rw [step]
      exact sound.goesOn (by rw [here]; rfl) (fun _ => nofun)
        (fun i same => QPc.casSelf.inj (here.symm.trans same) ▸ isFree) (fun _ _ => nofun)
        (fun _ _ => nofun)
  | readWorkQ id =>
    refine ⟨lists, ?_⟩
    have step : s.step (p, arg) = ⟨s.filter,
        Function.update s.pc p (.writeNext id (s.filter.workQ (queueOf processors id))), s.called⟩ := by
      simp [Queueing.step, QPc.step, here]
    rw [step]
    obtain ⟨-, absent, -⟩ := sound.pushed p id (by rw [here]; rfl)
    refine sound.goesOn (by rw [here]; rfl) (fun _ => nofun)
      (fun i same => nomatch here.symm.trans same) (fun i h same => ?_) (fun _ _ => nofun)
    -- the head is in the stack, and the id is not
    obtain ⟨rfl, rfl⟩ := QPc.writeNext.inj same
    intro isHead
    have chain := sound.chain (queueOf processors id)
    rw [isHead] at chain
    exact absent chain.mem_of_some
  | writeNext id head =>
    refine ⟨lists, ?_⟩
    have step : s.step (p, arg) =
        ⟨{ s.filter with next := Function.update s.filter.next id head },
          Function.update s.pc p (.readNext id), s.called⟩ := by
      simp [Queueing.step, QPc.step, here]
    rw [step]
    have mine : (s.pc p).pushing = some id := by rw [here]; rfl
    obtain ⟨member, absent, -⟩ := sound.pushed p id mine
    exact sound.points member absent (sound.head p id head here)
      (fun p' pushing => sound.alone p' p id pushing mine) (Or.inr mine) (Or.inr rfl)
  | readNext id =>
    refine ⟨lists, ?_⟩
    have step : s.step (p, arg) = ⟨s.filter,
        Function.update s.pc p (.casWorkQ id (s.filter.next id)), s.called⟩ := by
      simp [Queueing.step, QPc.step, here]
    rw [step]
    refine sound.goesOn (by rw [here]; rfl) (fun _ => nofun)
      (fun i same => nomatch here.symm.trans same) (fun _ _ => nofun) (fun i h same => ?_)
    obtain ⟨rfl, rfl⟩ := QPc.casWorkQ.inj same
    rfl
  | casWorkQ id prev =>
    by_cases unchanged : s.filter.workQ (queueOf processors id) = prev
    · have step : s.step (p, arg) = ⟨{ s.filter with
            workQ := Function.update s.filter.workQ (queueOf processors id) (some id) },
          Function.update s.pc p .outside, s.called⟩ := by
        simp [Queueing.step, QPc.step, here, unchanged]
      rw [step]
      exact ⟨_, sound.pushes here unchanged⟩
    · refine ⟨lists, ?_⟩
      have step : s.step (p, arg) =
          ⟨s.filter, Function.update s.pc p (.readWorkQ id), s.called⟩ := by
        simp [Queueing.step, QPc.step, here, unchanged]
      rw [step]
      exact sound.goesOn (by rw [here]; rfl) (fun _ => nofun)
        (fun i same => nomatch here.symm.trans same) (fun _ _ => nofun) (fun _ _ => nofun)

theorem step_sound (s : Queueing items processors) (turn : Fin processors × Fin items)
    (sound : ∃ lists, Sound s queued lists) : ∃ lists, Sound (s.step turn) queued lists :=
  sound.elim fun _ sound => sound.step turn

end Queueing

/-! ## Preparing -/

namespace Preparing

variable {f : Filter items} {s : Preparing items processors}

/-- While the heads are copied. -/
structure Sound (f : Filter items) (s : Preparing items processors) : Prop where
  next : s.filter.next = f.next
  workQ : s.filter.workQ = f.workQ
  read : ∀ p h, s.pc p = .writeVisible h → h = f.workQ p
  written : ∀ p, s.pc p = .returned → s.filter.workQVisible p = f.workQ p

theorem start_sound (f : Filter items) : Sound f (start f : Preparing items processors) :=
  ⟨rfl, rfl, fun _ _ => nofun, fun _ => nofun⟩

theorem step_sound (s : Preparing items processors) (p : Fin processors) (sound : Sound f s) :
    Sound f (s.step p) := by
  cases here : s.pc p with
  | readWorkQ =>
    have step : s.step p = ⟨s.filter, Function.update s.pc p (.writeVisible (f.workQ p))⟩ := by
      simp [Preparing.step, PrepPc.step, here, sound.workQ]
    rw [step]
    refine ⟨sound.next, sound.workQ, fun p' h here' => ?_, fun p' here' => ?_⟩
    · obtain ⟨rfl, here'⟩ | ⟨-, here'⟩ := update_eq_cases here'
      · exact (PrepPc.writeVisible.inj here').symm
      · exact sound.read p' h here'
    · obtain ⟨-, here'⟩ | ⟨-, here'⟩ := update_eq_cases here'
      · exact nomatch here'
      · exact sound.written p' here'
  | writeVisible head =>
    have step : s.step p = ⟨{ s.filter with
          workQVisible := Function.update s.filter.workQVisible p head },
        Function.update s.pc p .returned⟩ := by
      simp [Preparing.step, PrepPc.step, here]
    rw [step]
    refine ⟨sound.next, sound.workQ, fun p' h here' => ?_, fun p' here' => ?_⟩
    · obtain ⟨-, here'⟩ | ⟨-, here'⟩ := update_eq_cases here'
      · exact nomatch here'
      · exact sound.read p' h here'
    · obtain ⟨rfl, -⟩ | ⟨other, here'⟩ := update_eq_cases here'
      · simpa using sound.read p' head here
      · simpa [Function.update_of_ne (Fin.val_ne_of_ne other)] using sound.written p' here'
  | returned =>
    have step : s.step p = s := by
      simp [Preparing.step, PrepPc.step, here]
      rw [← here, Function.update_eq_self]
    rwa [step]

theorem run_sound (f : Filter items) (schedule : List (Fin processors)) :
    Sound f (run step (start f) schedule) :=
  run_keeps step_sound (start_sound f) schedule

end Preparing

/-! ## Dequeueing -/

/-- The queue that the processor tries to take from. -/
def DqPc.queue : DqPc items → Option Nat
  | .outside | .noWork => none
  | .readVisible q | .readNext q _ | .casVisible q _ _ => some q

namespace Dequeueing

variable {f : Filter items} {s : Dequeueing items processors} {rests : Nat → List (Fin items)}

/-- On its way around the queues that begins at `qid` the processor has passed the queue `q'` when it is at
`q`. -/
def Passed (qid q q' : Nat) : Prop := if qid ≤ q then qid ≤ q' ∧ q' < q else qid ≤ q' ∨ q' < q

/-- While ids are taken out: `rests` is what is left of `lists`. -/
structure Sound (f : Filter items) (lists : Nat → List (Fin items)) (s : Dequeueing items processors)
    (rests : Nat → List (Fin items)) : Prop where
  next : s.filter.next = f.next
  workQ : s.filter.workQ = f.workQ
  chain : ∀ q < processors, Chain f.next (s.filter.workQVisible q) (rests q)
  suffix : ∀ q, rests q <:+ lists q
  returned : ∀ i, i ∈ s.returned ↔
    i ∈ lists (queueOf processors i) ∧ i ∉ rests (queueOf processors i)
  nodup : s.returned.Nodup
  cas : ∀ p q a n, s.pc p = .casVisible q a n → n = f.next a
  passed : ∀ p q, (s.pc p).queue = some q → q < processors ∧
    ∀ q' < processors, Passed p q q' → s.filter.workQVisible q' = none
  noWork : ∀ p, s.pc p = .noWork → ∀ q < processors, s.filter.workQVisible q = none

/-- All heads have been copied. -/
theorem start_sound {prep : Preparing items processors} (ready : Preparing.Sound f prep)
    (prepared : prep.Over) (linked : Stacks processors f lists) :
    Sound f lists (start prep.filter : Dequeueing items processors) lists where
  next := ready.next
  workQ := ready.workQ
  chain q inside := by
    have same : (start prep.filter : Dequeueing items processors).filter.workQVisible q = f.workQ q :=
      ready.written ⟨q, inside⟩ (prepared _)
    rw [same]
    exact linked.chain q
  suffix q := List.suffix_rfl
  returned i := iff_of_false (List.not_mem_nil) fun both => both.2 both.1
  nodup := List.nodup_nil
  cas _ _ _ _ := nofun
  passed _ _ := nofun
  noWork _ := nofun

/-- A processor goes on; the filter stays. -/
theorem Sound.moves (sound : Sound f lists s rests) {p : Fin processors} {pc : DqPc items}
    (cas : ∀ q a n, pc = .casVisible q a n → n = f.next a)
    (passed : ∀ q, pc.queue = some q → q < processors ∧
      ∀ q' < processors, Passed p q q' → s.filter.workQVisible q' = none)
    (noWork : pc = .noWork → ∀ q < processors, s.filter.workQVisible q = none) :
    Sound f lists ⟨s.filter, Function.update s.pc p pc, s.returned⟩ rests := by
  refine ⟨sound.next, sound.workQ, sound.chain, sound.suffix, sound.returned, sound.nodup,
    fun p' q a n here => ?_, fun p' q here => ?_, fun p' here => ?_⟩
  · obtain ⟨-, here⟩ | ⟨-, here⟩ := update_eq_cases here
    · exact cas q a n here
    · exact sound.cas p' q a n here
  · obtain rfl | other := eq_or_ne p' p
    · exact passed q (by simpa using here)
    · exact sound.passed p' q (by simpa [Function.update_of_ne other] using here)
  · obtain ⟨-, here⟩ | ⟨-, here⟩ := update_eq_cases here
    · exact noWork here
    · exact sound.noWork p' here

/-- A processor takes the id on top. -/
theorem Sound.takes (sound : Sound f lists s rests) (linked : Stacks processors f lists)
    {p : Fin processors} {q : Nat} {a : Fin items} {n : Option (Fin items)}
    (here : s.pc p = .casVisible q a n) (top : s.filter.workQVisible q = some a) :
    ∃ rests', Sound f lists ⟨{ s.filter with
        workQVisible := Function.update s.filter.workQVisible q n },
      Function.update s.pc p .outside, a :: s.returned⟩ rests' := by
  have inside : q < processors := (sound.passed p q (by rw [here]; rfl)).1
  obtain ⟨rest, isRest, behind⟩ := (top ▸ sound.chain q inside).exists_cons
  have whole : (a :: rest) <:+ lists q := isRest ▸ sound.suffix q
  have member : a ∈ lists q := whole.subset List.mem_cons_self
  have home := (linked.home q a member).1
  obtain ⟨absent, -⟩ := List.nodup_cons.mp ((linked.nodup q).sublist whole.sublist)
  -- a queue that was empty is another one
  have empty {q' : Nat} (none_ : s.filter.workQVisible q' = none) :
      Function.update s.filter.workQVisible q n q' = none := by
    have other : q' ≠ q := by
      rintro rfl
      exact nomatch none_.symm.trans top
    rw [Function.update_of_ne other, none_]
  have elsewhere {p' : Fin processors} {pc : DqPc items} (ne : pc ≠ .outside)
      (here' : Function.update s.pc p .outside p' = pc) : s.pc p' = pc := by
    obtain rfl | other := eq_or_ne p' p
    · rw [Function.update_self] at here'
      exact absurd here'.symm ne
    · rwa [Function.update_of_ne other] at here'
  refine ⟨Function.update rests q rest, sound.next, sound.workQ, fun q' inside' => ?_, fun q' => ?_,
    fun i => ?_, ?_, fun p' q' a' n' here' => ?_, fun p' q' here' => ?_, fun p' here' q' inside' => ?_⟩
  all_goals try dsimp only
  · obtain rfl | other := eq_or_ne q' q
    · rw [Function.update_self, Function.update_self, sound.cas p q' a n here]
      exact behind
    · rw [Function.update_of_ne other, Function.update_of_ne other]
      exact sound.chain q' inside'
  · obtain rfl | other := eq_or_ne q' q
    · rw [Function.update_self]
      exact (List.suffix_cons a rest).trans whole
    · rw [Function.update_of_ne other]
      exact sound.suffix q'
  · rw [List.mem_cons, sound.returned]
    obtain rfl | other := eq_or_ne i a
    · rw [home, Function.update_self]
      exact iff_of_true (Or.inl rfl) ⟨member, absent⟩
    · by_cases sameQueue : queueOf processors i = q
      · rw [sameQueue, Function.update_self, isRest, List.mem_cons]
        simp [other]
      · rw [Function.update_of_ne sameQueue]
        simp [other]
  · refine List.nodup_cons.mpr ⟨fun again => ((sound.returned a).mp again).2 ?_, sound.nodup⟩
    rw [home, isRest]
    exact List.mem_cons_self
  · exact sound.cas p' q' a' n' (elsewhere (by simp) here')
  · obtain rfl | other := eq_or_ne p' p
    · simp [DqPc.queue] at here'
    · obtain ⟨inside', passed⟩ := sound.passed p' q' (by simpa [Function.update_of_ne other] using here')
      exact ⟨inside', fun q'' inside'' pass => empty (passed q'' inside'' pass)⟩
  · exact empty (sound.noWork p' (elsewhere (by simp) here') q' inside')

/-- The queue to steal from behind `q`. -/
def nextQueue (processors q : Nat) : Nat := if q + 1 = processors then 0 else q + 1

theorem passed_next {qid q q' : Nat} (inside' : q' < processors)
    (pass : nextQueue processors q = qid ∨ Passed qid (nextQueue processors q) q') :
    Passed qid q q' ∨ q' = q := by
  unfold Passed nextQueue at *
  split_ifs at * <;> omega

/-- The steps of `dq` that leave the filter as it is. -/
inductive Goes (f : Filter items) (processors qid : Nat) : DqPc items → DqPc items → Prop
  | begins : Goes f processors qid .outside (.readVisible qid)
  | finds {q : Nat} {a : Fin items} (top : f.workQVisible q = some a) :
    Goes f processors qid (.readVisible q) (.readNext q a)
  | around {q : Nat} (empty : f.workQVisible q = none) (last : nextQueue processors q = qid) :
    Goes f processors qid (.readVisible q) .noWork
  | next {q : Nat} (empty : f.workQVisible q = none) (more : nextQueue processors q ≠ qid) :
    Goes f processors qid (.readVisible q) (.readVisible (nextQueue processors q))
  | reads {q : Nat} {a : Fin items} :
    Goes f processors qid (.readNext q a) (.casVisible q a (f.next a))
  | fails {q : Nat} {a : Fin items} {n : Option (Fin items)} (other : f.workQVisible q ≠ some a) :
    Goes f processors qid (.casVisible q a n) (.readVisible q)
  | stays : Goes f processors qid .noWork .noWork

/-- A step leaves the filter as it is, or takes an id. -/
theorem step_cases (s : Dequeueing items processors) (p : Fin processors) :
    (∃ pc, Goes s.filter processors p (s.pc p) pc ∧
      s.step p = ⟨s.filter, Function.update s.pc p pc, s.returned⟩) ∨
    ∃ q a n, s.pc p = .casVisible q a n ∧ s.filter.workQVisible q = some a ∧
      s.step p = ⟨{ s.filter with workQVisible := Function.update s.filter.workQVisible q n },
        Function.update s.pc p .outside, a :: s.returned⟩ := by
  cases here : s.pc p with
  | outside => exact Or.inl ⟨_, .begins, by simp [Dequeueing.step, DqPc.step, here]⟩
  | readVisible q =>
    left
    cases top : s.filter.workQVisible q with
    | some a => exact ⟨_, .finds top, by simp [Dequeueing.step, DqPc.step, here, top]⟩
    | none =>
      by_cases last : nextQueue processors q = p
      · refine ⟨_, .around top last, ?_⟩
        unfold nextQueue at last
        simp [Dequeueing.step, DqPc.step, here, top, last]
      · refine ⟨_, .next top last, ?_⟩
        unfold nextQueue at last ⊢
        simp [Dequeueing.step, DqPc.step, here, top, last]
  | readNext q a => exact Or.inl ⟨_, .reads, by simp [Dequeueing.step, DqPc.step, here]⟩
  | casVisible q a n =>
    by_cases top : s.filter.workQVisible q = some a
    · exact Or.inr ⟨q, a, n, rfl, top, by simp [Dequeueing.step, DqPc.step, here, top]⟩
    · exact Or.inl ⟨_, .fails top, by simp [Dequeueing.step, DqPc.step, here, top]⟩
  | noWork => exact Or.inl ⟨_, .stays, by simp [Dequeueing.step, DqPc.step, here]⟩

theorem Sound.step (sound : Sound f lists s rests) (linked : Stacks processors f lists)
    (p : Fin processors) : ∃ rests', Sound f lists (s.step p) rests' := by
  obtain ⟨pc, goes, step⟩ | ⟨q, a, n, here, top, step⟩ := step_cases s p
  · rw [step]
    refine ⟨rests, ?_⟩
    have passed := sound.passed p
    have noWork := sound.noWork p
    generalize s.pc p = before at goes passed noWork
    cases goes with
    | begins =>
      refine sound.moves (fun _ _ _ => nofun) (fun q same => ?_) nofun
      obtain rfl := Option.some.inj same
      refine ⟨p.isLt, fun q' _ pass => ?_⟩
      unfold Passed at pass
      rw [if_pos (Nat.le_refl _)] at pass
      omega
    | finds top =>
      refine sound.moves (fun _ _ _ => nofun) (fun q' same => ?_) nofun
      obtain rfl := Option.some.inj same
      exact passed _ rfl
    | @around q empty last =>
      refine sound.moves (fun _ _ _ => nofun) (fun _ => nofun) fun _ q' inside' => ?_
      obtain pass | rfl := passed_next inside' (Or.inl last)
      · exact (passed q rfl).2 q' inside' pass
      · exact empty
    | @next q empty more =>
      refine sound.moves (fun _ _ _ => nofun) (fun q' same => ?_) nofun
      obtain rfl := Option.some.inj same
      obtain ⟨inside, before⟩ := passed q rfl
      refine ⟨by unfold nextQueue; split <;> omega, fun q' inside' pass => ?_⟩
      obtain pass | rfl := passed_next inside' (Or.inr pass)
      · exact before q' inside' pass
      · exact empty
    | reads =>
      refine sound.moves (fun q' a' n same => ?_) (fun q' same => ?_) nofun
      · obtain ⟨-, rfl, rfl⟩ := DqPc.casVisible.inj same
        rw [sound.next]
      · obtain rfl := Option.some.inj same
        exact passed _ rfl
    | fails other =>
      refine sound.moves (fun _ _ _ => nofun) (fun q' same => ?_) nofun
      obtain rfl := Option.some.inj same
      exact passed _ rfl
    | stays => exact sound.moves (fun _ _ _ => nofun) (fun _ => nofun) fun _ => noWork rfl
  · rw [step]
    exact sound.takes linked here top

theorem step_sound (linked : Stacks processors f lists) (s : Dequeueing items processors)
    (p : Fin processors) (sound : ∃ rests, Sound f lists s rests) :
    ∃ rests, Sound f lists (s.step p) rests :=
  sound.elim fun _ sound => sound.step linked p

/-- In every state of the phase. -/
theorem run_sound (linked : Stacks processors f lists) {prepSchedule : List (Fin processors)}
    (prepared : (run Preparing.step (.start f) prepSchedule).Over) (schedule : List (Fin processors)) :
    ∃ rests, Sound f lists
      (run step (start (run Preparing.step (.start f) prepSchedule).filter) schedule) rests :=
  run_keeps (step_sound linked)
    ⟨lists, start_sound (Preparing.run_sound f prepSchedule) prepared linked⟩ schedule

/-- The queues that the processor still has to look at. -/
def queuesLeft (processors qid q : Nat) : Nat :=
  if qid ≤ q then processors - q + qid else qid - q

/-- The steps of a processor up to `noWork`, if nobody else takes anything. -/
def stepsLeft (f : Filter items) (processors qid : Nat) : DqPc items → Nat
  | .outside => 4 * processors + 5
  | .readVisible q => 4 * queuesLeft processors qid q + 2
  | .readNext q a => 4 * queuesLeft processors qid q + if f.workQVisible q = some a then 1 else 4
  | .casVisible q a _ => 4 * queuesLeft processors qid q + if f.workQVisible q = some a then 0 else 3
  | .noWork => 0

/-- The steps of all processors; an id that is taken may cost each of them a new try. -/
def allLeft (s : Dequeueing items processors) : Nat :=
  (items - s.returned.length) * (processors * (4 * processors + 5) + 1) +
    ∑ p : Fin processors, stepsLeft s.filter processors p (s.pc p)

theorem Goes.stepsLeft_lt {qid : Nat} (inside : qid < processors) {pc pc' : DqPc items}
    (goes : Goes s.filter processors qid pc pc') (works : pc ≠ .noWork)
    (within : ∀ q, pc.queue = some q → q < processors) :
    stepsLeft s.filter processors qid pc' < stepsLeft s.filter processors qid pc := by
  cases goes with
  | begins =>
    simp only [stepsLeft, queuesLeft, Nat.le_refl, if_true]
    omega
  | finds top => simp [stepsLeft, top]
  | around empty last => simp [stepsLeft]
  | @next q empty more =>
    have := within q rfl
    unfold nextQueue at more
    simp only [stepsLeft, queuesLeft, nextQueue]
    split_ifs at * <;> omega
  | reads =>
    simp only [stepsLeft]
    split <;> omega
  | fails other => simp [stepsLeft, other]
  | stays => exact absurd rfl works

theorem Sound.stepsLeft_le (sound : Sound f lists s rests) (p : Fin processors) :
    stepsLeft s.filter processors p (s.pc p) ≤ 4 * processors + 5 := by
  have within (q : Nat) (here : (s.pc p).queue = some q) :
      queuesLeft processors p q ≤ processors := by
    have inside := (sound.passed p q here).1
    have := p.isLt
    unfold queuesLeft
    split <;> omega
  cases here : s.pc p with
  | outside => exact Nat.le_refl _
  | readVisible q =>
    have := within q (by rw [here]; rfl)
    simp only [stepsLeft]
    omega
  | readNext q a =>
    have := within q (by rw [here]; rfl)
    simp only [stepsLeft]
    split <;> omega
  | casVisible q a n =>
    have := within q (by rw [here]; rfl)
    simp only [stepsLeft]
    split <;> omega
  | noWork => exact Nat.zero_le _

/-- Each step of a processor that has not finished comes nearer to the end. -/
theorem Sound.step_allLeft_lt (sound : Sound f lists s rests) (linked : Stacks processors f lists)
    {p : Fin processors} (works : s.pc p ≠ .noWork) : (s.step p).allLeft < s.allLeft := by
  obtain ⟨pc, goes, step⟩ | ⟨q, a, n, here, top, step⟩ := step_cases s p
  · rw [step]
    have less := goes.stepsLeft_lt p.isLt works fun q here => (sound.passed p q here).1
    refine Nat.add_lt_add_left (Finset.sum_lt_sum (fun p' _ => ?_) ⟨p, Finset.mem_univ p, ?_⟩) _
    · obtain rfl | other := eq_or_ne p' p
      · simpa using less.le
      · simp [Function.update_of_ne other]
    · simpa using less
  · obtain ⟨rests', after⟩ := sound.takes linked here top
    have bound : ∑ p' : Fin processors, stepsLeft (s.step p).filter processors p' ((s.step p).pc p') ≤
        processors * (4 * processors + 5) := by
      rw [step]
      have each := Finset.sum_le_card_nsmul Finset.univ _ _ fun p' _ => after.stepsLeft_le p'
      simpa using each
    have length : (s.step p).returned.length = s.returned.length + 1 := by rw [step]; rfl
    have room : s.returned.length + 1 ≤ items := by
      have := after.nodup.length_le_card
      simpa using this
    unfold allLeft
    obtain ⟨left, isLeft⟩ := Nat.exists_eq_add_of_le room
    have now : items - (s.step p).returned.length = left := by omega
    have then_ : items - s.returned.length = left + 1 := by omega
    rw [now, then_, Nat.succ_mul left]
    omega

/-- However far the processors are, they can finish. -/
theorem exists_over (linked : Stacks processors f lists) (sound : ∃ rests, Sound f lists s rests) :
    ∃ rest, (run step s rest).Over := by
  refine exists_run allLeft (step_sound linked) (fun s sound => ?_) sound
  obtain ⟨rests, sound⟩ := sound
  by_cases finished : s.Over
  · exact Or.inl finished
  · unfold Over at finished
    push Not at finished
    exact Or.inr (finished.imp fun p works => sound.step_allLeft_lt linked works)

/-- The stacks are not changed. -/
theorem Sound.settled (sound : Sound f lists s rests) (settled : FilterSettled processors f queued lists) :
    FilterSettled processors s.filter queued lists where
  chain q := by
    rw [sound.next, sound.workQ]
    exact settled.chain q
  nodup := settled.nodup
  home := settled.home
  mem := settled.mem
  free i absent := by
    rw [sound.next]
    exact settled.free i absent

/-- When all have finished, the ids of the stacks have been returned. -/
theorem Sound.all_returned (sound : Sound f lists s rests) (linked : Stacks processors f lists)
    (finished : s.Over) (i : Fin items) : i ∈ s.returned ↔ i ∈ lists (queueOf processors i) := by
  rw [sound.returned]
  refine and_iff_left_of_imp fun member => ?_
  have inside := (linked.home _ i member).2
  have chain := sound.chain _ inside
  rw [sound.noWork ⟨_, inside⟩ (finished _) _ inside] at chain
  rw [chain.eq_nil]
  exact List.not_mem_nil

end Dequeueing

/-! ## Resetting -/

namespace Resetting

variable {f : Filter items} {s : Resetting items processors} {rests : Nat → List (Fin items)}

/-- What a processor has still to reset: `rest` of its stack. -/
def Walks (f : Filter items) (qid : Nat) (rest : List (Fin items)) : DonePc items → Prop
  | .readWorkQ => Chain f.next (f.workQ qid) rest
  | .whileHead head => Chain f.next head rest
  | .writeNext tmp head => ∃ behind, rest = tmp :: behind ∧ Chain f.next head behind
  | .clearVisible => rest = []
  | .clearWorkQ => rest = [] ∧ f.workQVisible qid = none
  | .returned => rest = [] ∧ f.workQVisible qid = none ∧ f.workQ qid = none

theorem Walks.congr {g : Filter items} {qid : Nat} {rest : List (Fin items)} {pc : DonePc items}
    (walks : Walks f qid rest pc) (next : ∀ i ∈ rest, g.next i = f.next i)
    (workQ : g.workQ qid = f.workQ qid) (visible : g.workQVisible qid = f.workQVisible qid) :
    Walks g qid rest pc := by
  cases pc with
  | readWorkQ =>
    have chain : Chain g.next (f.workQ qid) rest := Chain.congr walks next
    rwa [← workQ] at chain
  | whileHead head => exact Chain.congr walks next
  | writeNext tmp head =>
    obtain ⟨behind, rfl, chain⟩ := walks
    exact ⟨behind, rfl, chain.congr fun i member => next i (List.mem_cons_of_mem _ member)⟩
  | clearVisible => exact walks
  | clearWorkQ => exact ⟨walks.1, visible.trans walks.2⟩
  | returned => exact ⟨walks.1, visible.trans walks.2.1, workQ.trans walks.2.2⟩

/-- While the stacks are taken apart. -/
structure Sound (lists : Nat → List (Fin items)) (s : Resetting items processors)
    (rests : Nat → List (Fin items)) : Prop where
  nodup : ∀ q, (lists q).Nodup
  home : ∀ q, ∀ i ∈ lists q, queueOf processors i = q ∧ q < processors
  walks : ∀ p : Fin processors, Walks s.filter p (rests p) (s.pc p)
  suffix : ∀ q, rests q <:+ lists q
  free : ∀ i, i ∉ rests (queueOf processors i) → s.filter.next i = some i
  beyond : ∀ q, processors ≤ q → s.filter.workQ q = none

theorem start_sound (settled : FilterSettled processors f queued lists) :
    Sound lists (start f : Resetting items processors) lists where
  nodup := settled.nodup
  home := settled.home
  walks p := settled.chain p
  suffix _ := List.suffix_rfl
  free i absent := settled.free i (mt (settled.mem i).mp absent)
  beyond q outside := by
    have none_ : lists q = [] :=
      List.eq_nil_iff_forall_not_mem.mpr fun i member => by
        have := (settled.home q i member).2
        omega
    exact chain_nil.mp (none_ ▸ settled.chain q)

/-- A processor goes on; no pointer changes. -/
theorem Sound.moves (sound : Sound lists s rests) {p : Fin processors} {pc : DonePc items}
    {g : Filter items} (next : g.next = s.filter.next)
    (workQ : ∀ q : Nat, q ≠ p → g.workQ q = s.filter.workQ q)
    (visible : ∀ q : Nat, q ≠ p → g.workQVisible q = s.filter.workQVisible q)
    (walks : Walks g p (rests p) pc) : Sound lists ⟨g, Function.update s.pc p pc⟩ rests := by
  refine ⟨sound.nodup, sound.home, fun p' => ?_, sound.suffix, fun i absent => ?_,
    fun q outside => ?_⟩
  · obtain rfl | other := eq_or_ne p' p
    · simpa using walks
    · have other' : (p' : Nat) ≠ p := Fin.val_ne_of_ne other
      have old : Walks g p' (rests p') (s.pc p') := (sound.walks p').congr
        (fun i _ => by rw [next]) (workQ _ other') (visible _ other')
      simpa [Function.update_of_ne other] using old
  · have old := sound.free i absent
    rwa [← next] at old
  · have := p.isLt
    exact (workQ q (by omega)).trans (sound.beyond q outside)

/-- A processor frees the id at its head. -/
theorem Sound.frees (sound : Sound lists s rests) {p : Fin processors} {tmp : Fin items}
    {head : Option (Fin items)} {behind : List (Fin items)} (isRest : rests p = tmp :: behind)
    (chain : Chain s.filter.next head behind) :
    Sound lists ⟨{ s.filter with next := Function.update s.filter.next tmp (some tmp) },
      Function.update s.pc p (.whileHead head)⟩ (Function.update rests p behind) := by
  have whole : (tmp :: behind) <:+ lists p := isRest ▸ sound.suffix p
  have home := (sound.home p tmp (whole.subset List.mem_cons_self)).1
  obtain ⟨absent, -⟩ := List.nodup_cons.mp ((sound.nodup p).sublist whole.sublist)
  refine ⟨sound.nodup, sound.home, fun p' => ?_, fun q => ?_, fun i free => ?_, sound.beyond⟩
  all_goals try dsimp only at *
  · obtain rfl | other := eq_or_ne p' p
    · rw [Function.update_self, Function.update_self]
      exact chain.congr fun i member =>
        Function.update_of_ne (ne_of_mem_of_not_mem member absent) _ _
    · have other' : (p' : Nat) ≠ p := Fin.val_ne_of_ne other
      rw [Function.update_of_ne other, Function.update_of_ne other']
      refine (sound.walks p').congr (fun i member => Function.update_of_ne ?_ _ _) rfl rfl
      -- the id belongs to another queue
      rintro rfl
      exact other' ((sound.home p' i ((sound.suffix p').subset member)).1.symm.trans home)
  · obtain rfl | other := eq_or_ne q p
    · rw [Function.update_self]
      exact (List.suffix_cons tmp behind).trans whole
    · rw [Function.update_of_ne other]
      exact sound.suffix q
  · obtain rfl | other := eq_or_ne i tmp
    · exact Function.update_self ..
    · rw [Function.update_of_ne other]
      refine sound.free i fun member => free ?_
      by_cases same : queueOf processors i = p
      · rw [same, isRest] at member
        rw [same, Function.update_self]
        exact (List.mem_cons.mp member).resolve_left other
      · rwa [Function.update_of_ne same]

/-- One lemma for each statement of `done`. -/
theorem Sound.step (sound : Sound lists s rests) (p : Fin processors) :
    ∃ rests', Sound lists (s.step p) rests' := by
  have walks := sound.walks p
  have same {q : Nat} (x : Option (Fin items)) {g : Nat → Option (Fin items)} (other : q ≠ p) :
      Function.update g p x q = g q := Function.update_of_ne other _ _
  cases here : s.pc p with
  | readWorkQ =>
    rw [here] at walks
    have step : s.step p = ⟨s.filter, Function.update s.pc p (.whileHead (s.filter.workQ p))⟩ := by
      simp [Resetting.step, DonePc.step, here]
    rw [step]
    exact ⟨rests, sound.moves rfl (fun _ _ => rfl) (fun _ _ => rfl) walks⟩
  | whileHead head =>
    rw [here] at walks
    cases head with
    | none =>
      have step : s.step p = ⟨s.filter, Function.update s.pc p .clearVisible⟩ := by
        simp [Resetting.step, DonePc.step, here]
      rw [step]
      exact ⟨rests, sound.moves rfl (fun _ _ => rfl) (fun _ _ => rfl) (Chain.eq_nil walks)⟩
    | some tmp =>
      have step : s.step p =
          ⟨s.filter, Function.update s.pc p (.writeNext tmp (s.filter.next tmp))⟩ := by
        simp [Resetting.step, DonePc.step, here]
      rw [step]
      exact ⟨rests, sound.moves rfl (fun _ _ => rfl) (fun _ _ => rfl) (Chain.exists_cons walks)⟩
  | writeNext tmp head =>
    rw [here] at walks
    obtain ⟨behind, isRest, chain⟩ := walks
    have step : s.step p =
        ⟨{ s.filter with next := Function.update s.filter.next tmp (some tmp) },
          Function.update s.pc p (.whileHead head)⟩ := by
      simp [Resetting.step, DonePc.step, here]
    rw [step]
    exact ⟨_, sound.frees isRest chain⟩
  | clearVisible =>
    rw [here] at walks
    have step : s.step p = ⟨{ s.filter with
          workQVisible := Function.update s.filter.workQVisible p none },
        Function.update s.pc p .clearWorkQ⟩ := by
      simp [Resetting.step, DonePc.step, here]
    rw [step]
    exact ⟨rests, sound.moves rfl (fun _ _ => rfl) (fun _ => same none)
      ⟨walks, Function.update_self ..⟩⟩
  | clearWorkQ =>
    rw [here] at walks
    have step : s.step p = ⟨{ s.filter with
          workQ := Function.update s.filter.workQ p none },
        Function.update s.pc p .returned⟩ := by
      simp [Resetting.step, DonePc.step, here]
    rw [step]
    exact ⟨rests, sound.moves rfl (fun _ => same none) (fun _ _ => rfl)
      ⟨walks.1, walks.2, Function.update_self ..⟩⟩
  | returned =>
    have step : s.step p = s := by
      simp [Resetting.step, DonePc.step, here]
      rw [← here, Function.update_eq_self]
    rw [step]
    exact ⟨rests, sound⟩

theorem step_sound (s : Resetting items processors) (p : Fin processors)
    (sound : ∃ rests, Sound lists s rests) : ∃ rests, Sound lists (s.step p) rests :=
  sound.elim fun _ sound => sound.step p

/-- When all have returned, the filter is as it was constructed. -/
theorem Sound.reset (sound : Sound lists s rests) (finished : s.Over) :
    (∀ i, s.filter.next i = some i) ∧
      ∀ q < processors, s.filter.workQ q = none ∧ s.filter.workQVisible q = none := by
  have walks (q : Nat) (inside : q < processors) : Walks s.filter q (rests q) .returned := by
    have := sound.walks ⟨q, inside⟩
    rwa [finished] at this
  refine ⟨fun i => sound.free i fun member => ?_, fun q inside => (walks q inside).2.symm⟩
  have inside := (sound.home _ i ((sound.suffix _).subset member)).2
  rw [(walks _ inside).1] at member
  exact nomatch member

theorem Sound.settled (sound : Sound lists s rests) (finished : s.Over) :
    FilterSettled processors s.filter [] fun _ => [] := by
  obtain ⟨free, cleared⟩ := sound.reset finished
  refine ⟨⟨fun q => ?_, fun _ => List.nodup_nil, fun _ _ => nofun⟩, fun _ => Iff.rfl, fun i _ => free i⟩
  by_cases inside : q < processors
  · exact (cleared q inside).1
  · exact sound.beyond q (by omega)

end Resetting

/-! ## Rounds -/

/-- The ids that were queued since the last `done` are in the stacks. -/
theorem FilterRounds.settled {f : Filter items} (rounds : FilterRounds items processors f queued) :
    ∃ lists, FilterSettled processors f queued lists := by
  induction rounds with
  | new => exact ⟨_, settled_new⟩
  | queueing rounds schedule finished ih =>
    obtain ⟨lists, settled⟩ := ih
    obtain ⟨lists', sound⟩ := run_keeps Queueing.step_sound
      ⟨lists, Queueing.start_sound settled⟩ schedule
    exact ⟨lists', sound.settled finished⟩
  | dequeueing rounds prepSchedule schedule prepared finished ih =>
    obtain ⟨lists, settled⟩ := ih
    obtain ⟨rests, sound⟩ := Dequeueing.run_sound settled.toStacks prepared schedule
    exact ⟨lists, sound.settled settled⟩
  | done rounds schedule finished ih =>
    obtain ⟨lists, settled⟩ := ih
    obtain ⟨rests, sound⟩ := run_keeps Resetting.step_sound
      ⟨lists, Resetting.start_sound settled⟩ schedule
    exact ⟨_, sound.settled finished⟩

/-- Two processors and three ids: both call `q` for id 0. -/
def bothQueue : List (Fin 2 × Fin 3) :=
  [(0, 0), (1, 0), (0, 0), (1, 0), (0, 0), (1, 1), (0, 0), (1, 1), (0, 0), (1, 1), (0, 0), (1, 1),
    (1, 1), (1, 1)]

end MBFGraph
