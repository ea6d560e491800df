import MBFGraph.Core.Proofs.ScatterGather
import MBFGraph.Core.StreamPass

/-!
# What a pass has done

A pass is told by its records in some order: what relates the states around a visit, and can be composed,
relates the states around the pass.
-/

namespace MBFGraph

section Order

variable {ρ S T : Type} {c : Configuration} {key : ρ → Nat} {before behind : Nat → S → S}
  {callback : Nat → Visit ρ → S → S} {records : List ρ} {st after : S} {superps : Nat}

theorem exists_streamPass (c : Configuration) (key : ρ → Nat) (before behind : Nat → S → S)
    (callback : Nat → Visit ρ → S → S) (records : List ρ) (st : S) (superps : Nat) :
    ∃ after, StreamPass c key before behind callback records st superps after := by
  induction superps with
  | zero => exact ⟨st, .none⟩
  | succ superp ih =>
    obtain ⟨mid, others⟩ := ih
    obtain ⟨visits, delivered⟩ := ScatterGather.exists_delivers c key (fun _ => true)
      (records.filter fun r => c.mapSuperPartition (key r) = superp)
    exact ⟨_, .next others delivered⟩

/-- A visit of the right partition finds the vertex of the key. -/
theorem mapInverse_of_delivers {superp : Nat} {visits : List (Visit ρ)}
    (delivered : Delivers c key (fun _ => true)
      (records.filter fun r => c.mapSuperPartition (key r) = superp) visits) {v : Visit ρ}
    (visit : v ∈ visits) {r : ρ} (member : r ∈ v.records) :
    c.mapInverse superp v.partition (c.mapOffset (key r)) = key r := by
  have taken := delivered.perm.subset (List.mem_flatMap.mpr ⟨v, visit, member⟩)
  have ofSuperp := of_decide_eq_true (List.mem_filter.mp (List.mem_filter.mp taken).1).2
  rw [← delivered.partition_eq v visit r member, ← ofSuperp, c.mapInverse_map]

/-- A relation that sums up what a visit does with its records, and can be composed, sums up the deliveries
for a super partition. -/
theorem summary_visits {R : S → List ρ → S → Prop} (nil : ∀ st, R st [] st)
    (append : ∀ {st mid after xs ys}, R st xs mid → R mid ys after → R st (xs ++ ys) after)
    {superp : Nat} {visits : List (Visit ρ)}
    (visit : ∀ v ∈ visits, ∀ st, R st v.records (callback superp v st)) (st : S) :
    R st (visits.flatMap Visit.records) (visits.foldl (fun st v => callback superp v st) st) := by
  induction visits generalizing st with
  | nil => exact nil st
  | cons v visits ih =>
    rw [List.foldl_cons, List.flatMap_cons]
    exact append (visit v List.mem_cons_self st)
      (ih (fun u member => visit u (List.mem_cons_of_mem _ member)) _)

/-- Such a relation sums up the pass: with the records in some order. -/
theorem StreamPass.summary {R : S → List ρ → S → Prop} (nil : ∀ st, R st [] st)
    (append : ∀ {st mid after xs ys}, R st xs mid → R mid ys after → R st (xs ++ ys) after)
    (around : ∀ superp st, R st [] (before superp st) ∧ R st [] (behind superp st))
    (visit : ∀ superp v, v.processor < c.processors →
      (∀ r ∈ v.records, r ∈ records ∧ c.mapInverse superp v.partition (c.mapOffset (key r)) = key r) →
      ∀ st, R st v.records (callback superp v st))
    (run : StreamPass c key before behind callback records st superps after) :
    ∃ order : List ρ, order.Perm (records.filter fun r => c.mapSuperPartition (key r) < superps) ∧
      R st order after := by
  induction run with
  | none => exact ⟨[], by simp, nil st⟩
  | @next superp mid visits others delivered ih =>
    obtain ⟨order, perm, soFar⟩ := ih
    have here := summary_visits nil append (fun v isVisit st => visit superp v
      (delivered.processor_lt v isVisit) (fun r member => ⟨List.mem_of_mem_filter
        (List.mem_of_mem_filter (delivered.perm.subset (List.mem_flatMap.mpr ⟨v, isVisit, member⟩))),
        mapInverse_of_delivers delivered isVisit member⟩) st) (before superp mid)
    refine ⟨order ++ visits.flatMap Visit.records, ?_, ?_⟩
    · have taken := delivered.perm
      rw [List.filter_true] at taken
      exact (perm.append taken).trans
        (ScatterGather.perm_filter_lt_succ (fun r => c.mapSuperPartition (key r)) records superp)
    · have entered := append (around superp mid).1 here
      have left := append entered (around superp _).2
      rw [List.nil_append, List.append_nil] at left
      exact append soFar left

/-- A whole pass. -/
theorem StreamPass.summary_whole {R : S → List ρ → S → Prop} (nil : ∀ st, R st [] st)
    (append : ∀ {st mid after xs ys}, R st xs mid → R mid ys after → R st (xs ++ ys) after)
    (around : ∀ superp st, R st [] (before superp st) ∧ R st [] (behind superp st))
    (visit : ∀ superp v, v.processor < c.processors →
      (∀ r ∈ v.records, r ∈ records ∧ c.mapInverse superp v.partition (c.mapOffset (key r)) = key r) →
      ∀ st, R st v.records (callback superp v st))
    (run : StreamPass c key before behind callback records st c.superPartitions after) :
    ∃ order : List ρ, order.Perm records ∧ R st order after := by
  obtain ⟨order, perm, all⟩ := run.summary nil append around visit
  rw [List.filter_eq_self.mpr fun r _ => decide_eq_true (c.mapSuperPartition_lt (key r))] at perm
  exact ⟨order, perm, all⟩

/-- What is seen of the state changes record by record. -/
theorem view_eachRecord {record : Nat → Nat → ρ → S → S} (view : S → T) (step : ρ → T → T) {superp : Nat}
    {v : Visit ρ} (seen : ∀ r ∈ v.records, ∀ st, view (record v.processor (key r) r st) = step r (view st))
    (belongs : ∀ r ∈ v.records, c.mapInverse superp v.partition (c.mapOffset (key r)) = key r) (st : S) :
    view (eachRecord c key record superp v st) = v.records.foldl (fun t r => step r t) (view st) := by
  unfold eachRecord
  generalize v.records = taken at seen belongs ⊢
  induction taken generalizing st with
  | nil => rfl
  | cons r taken ih =>
    rw [List.foldl_cons, List.foldl_cons, ih _ (fun r' later => seen r' (List.mem_cons_of_mem _ later))
        (fun r' later => belongs r' (List.mem_cons_of_mem _ later)),
      belongs r List.mem_cons_self, seen r List.mem_cons_self]

/-- The deliveries for a super partition, record by record. -/
theorem exists_order_visits (record : Nat → Nat → ρ → S → S) (view : S → T) (step : ρ → T → T)
    {superp : Nat} {visits : List (Visit ρ)}
    (delivered : Delivers c key (fun _ => true)
      (records.filter fun r => c.mapSuperPartition (key r) = superp) visits)
    (seen : ∀ p < c.processors, ∀ r ∈ records, ∀ st, view (record p (key r) r st) = step r (view st))
    (st : S) :
    ∃ order : List ρ, order.Perm (records.filter fun r => c.mapSuperPartition (key r) = superp) ∧
      view (visits.foldl (fun st v => eachRecord c key record superp v st) st) =
        order.foldl (fun t r => step r t) (view st) := by
  have taken := delivered.perm
  rw [List.filter_true] at taken
  refine ⟨_, taken, summary_visits (R := fun st order after =>
    view after = order.foldl (fun t r => step r t) (view st)) (fun st => rfl) ?_ (fun v isVisit st => ?_) st⟩
  · intro st mid after xs ys first second
    rw [List.foldl_append, ← first]
    exact second
  · have member {r : ρ} (isRecord : r ∈ v.records) : r ∈ records := List.mem_of_mem_filter
      (taken.subset (List.mem_flatMap.mpr ⟨v, isVisit, isRecord⟩))
    exact view_eachRecord view step (fun r isRecord => seen _ (delivered.processor_lt v isVisit) r
      (member isRecord)) (fun r isRecord => mapInverse_of_delivers delivered isVisit isRecord) st

/-- A whole pass, record by record. -/
theorem StreamPass.exists_order {record : Nat → Nat → ρ → S → S} (view : S → T) (step : ρ → T → T)
    (around : ∀ superp st, view (before superp st) = view st ∧ view (behind superp st) = view st)
    (seen : ∀ p < c.processors, ∀ r ∈ records, ∀ st, view (record p (key r) r st) = step r (view st))
    (run : StreamPass c key before behind (eachRecord c key record) records st c.superPartitions after) :
    ∃ order : List ρ, order.Perm records ∧ view after = order.foldl (fun t r => step r t) (view st) := by
  refine run.summary_whole (R := fun st order after =>
    view after = order.foldl (fun t r => step r t) (view st)) (fun st => rfl) ?_ around ?_
  · intro st mid after xs ys first second
    rw [List.foldl_append, ← first]
    exact second
  · intro superp v processor belongs st
    exact view_eachRecord view step (fun r member => seen _ processor r (belongs r member).1)
      (fun r member => (belongs r member).2) st

/-- A stream that `reset_stream` empties, one super partition after the other. -/
theorem StreamPass.reset {record : Nat → Nat → ρ → S → S} {κ : Type} (stream : S → List κ) (keyOf : κ → Nat)
    (before_ : ∀ superp st, stream (before superp st) = stream st)
    (kept : ∀ p i r st, stream (record p i r st) = stream st)
    (behind_ : ∀ superp st, stream (behind superp st) =
      (stream st).filter fun k => c.mapSuperPartition (keyOf k) ≠ superp)
    (run : StreamPass c key before behind (eachRecord c key record) records st superps after) :
    stream after = (stream st).filter fun k => superps ≤ c.mapSuperPartition (keyOf k) := by
  have visit (superp : Nat) (v : Visit ρ) (st : S) :
      stream (eachRecord c key record superp v st) = stream st := by
    unfold eachRecord
    generalize v.records = taken
    induction taken generalizing st with
    | nil => rfl
    | cons r taken ih => rw [List.foldl_cons, ih, kept]
  induction run with
  | none => simp
  | @next superp mid visits others delivered ih =>
    have all (st : S) :
        stream (visits.foldl (fun st v => eachRecord c key record superp v st) st) = stream st := by
      clear delivered
      induction visits generalizing st with
      | nil => rfl
      | cons v visits ih => rw [List.foldl_cons, ih, visit]
    rw [behind_, all, before_, ih, List.filter_filter]
    refine List.filter_congr fun k _ => ?_
    rw [Bool.eq_iff_iff, Bool.and_eq_true, decide_eq_true_eq, decide_eq_true_eq, decide_eq_true_eq]
    omega

theorem StreamPass.reset_whole {record : Nat → Nat → ρ → S → S} {κ : Type} (stream : S → List κ)
    (keyOf : κ → Nat) (before_ : ∀ superp st, stream (before superp st) = stream st)
    (kept : ∀ p i r st, stream (record p i r st) = stream st)
    (behind_ : ∀ superp st, stream (behind superp st) =
      (stream st).filter fun k => c.mapSuperPartition (keyOf k) ≠ superp)
    (run : StreamPass c key before behind (eachRecord c key record) records st c.superPartitions after) :
    stream after = [] := by
  rw [run.reset stream keyOf before_ kept behind_, List.filter_eq_nil_iff]
  intro k _
  rw [decide_eq_true_eq, Nat.not_le]
  exact c.mapSuperPartition_lt _

end Order

end MBFGraph
