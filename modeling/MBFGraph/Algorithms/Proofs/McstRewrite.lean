import MBFGraph.Algorithms.Mcst
import MBFGraph.Core.Proofs.StreamPass

/-!
# Contraction

The rewriting passes exchange the ends of an edge twice and name their roots, but no pass assigns the weight:
it is what the output buffer had there. So the passes are right only where no edge is written at all.
-/

namespace MBFGraph

namespace Mcst

section Loop

variable {W : Type}

/-- The two ends of a message. -/
def ends (m : McstMessage W) : VertexT × VertexT := (m.src, m.dst)

/-- What is written for a message: the root and the other end. -/
def rewritten (componentRoot : McstMessage W → VertexT) (m : McstMessage W) : Option (VertexT × VertexT) :=
  if m.src ≠ componentRoot m then some (componentRoot m, m.src) else none

/-- All weights are `w`. -/
def Weighs (w : W) (messages : List (McstMessage W)) : Prop := ∀ m ∈ messages, m.weight = w

/-- A message is put into the output buffer. -/
private theorem map_ends_take_modify {outbuf : List (McstMessage W)} {i : Nat} (inside : i < outbuf.length)
    (src dst : VertexT) :
    ((outbuf.modify i fun mout => { mout with src := src, dst := dst }).take (i + 1)).map ends =
      (outbuf.take i).map ends ++ [(src, dst)] := by
  rw [List.take_succ_eq_append_getElem (by rwa [List.length_modify]), List.getElem_modify_eq,
    List.map_append, List.take_modify, List.modify_eq_self (by rw [List.length_take]; omega)]
  rfl

theorem weighs_modify {w : W} {outbuf : List (McstMessage W)} (weighs : Weighs w outbuf) (i : Nat)
    (src dst : VertexT) :
    Weighs w (outbuf.modify i fun mout => { mout with src := src, dst := dst }) := by
  intro m member
  obtain ⟨j, found⟩ := List.mem_iff_getElem?.mp member
  rw [List.getElem?_modify] at found
  obtain ⟨old, isOld, rfl⟩ := Option.map_eq_some_iff.mp found
  have same := weighs old (List.mem_of_getElem? isOld)
  split
  · exact same
  · exact same

/-- What a run of the callback does: the ends that it writes, the edges that it drops, and the weights. -/
theorem rewriteUnknown_spec (componentRoot : McstMessage W → VertexT)
    (records outbuf out : List (McstMessage W)) (messages dropped : Nat) (room : 0 < outbuf.length)
    (inside : messages ≤ outbuf.length) {r : List (McstMessage W) × List (McstMessage W) × Nat}
    (ran : rewriteUnknown componentRoot records outbuf messages out dropped = r) :
    r.1.length = outbuf.length ∧
      r.2.1.map ends = out.map ends ++ (outbuf.take messages).map ends ++
        records.filterMap (rewritten componentRoot) ∧
      r.2.2 + (records.filterMap (rewritten componentRoot)).length = dropped + records.length ∧
      ∀ w, Weighs w outbuf → Weighs w out → Weighs w r.1 ∧ Weighs w r.2.1 := by
  induction records generalizing outbuf out messages dropped r with
  | nil =>
    subst ran
    refine ⟨rfl, by simp [rewriteUnknown], rfl, fun w inBuffer before => ⟨inBuffer, ?_⟩⟩
    intro m member
    rcases List.mem_append.mp member with old | new
    · exact before m old
    · exact inBuffer m (List.mem_of_mem_take new)
  | cons m rest ih =>
    unfold rewriteUnknown at ran
    by_cases kept : m.src ≠ componentRoot m
    · have written : rewritten componentRoot m = some (componentRoot m, m.src) := if_pos kept
      rw [if_pos kept] at ran
      rw [List.filterMap_cons_some written]
      by_cases full : outbuf.length < messages + 1
      · rw [if_pos full] at ran
        obtain ⟨size, wrote, count, weights⟩ := ih
          (outbuf.modify 0 fun mout => { mout with src := componentRoot m, dst := m.src })
          (out ++ outbuf.take messages) 1 dropped (by rwa [List.length_modify])
          (by rw [List.length_modify]; exact room) ran
        refine ⟨by rw [size, List.length_modify], ?_, by rw [List.length_cons, List.length_cons]; omega, ?_⟩
        · rw [wrote, map_ends_take_modify room]
          simp
        · intro w inBuffer before
          refine weights w (weighs_modify inBuffer 0 _ _) fun m' member => ?_
          rcases List.mem_append.mp member with old | new
          · exact before m' old
          · exact inBuffer m' (List.mem_of_mem_take new)
      · rw [if_neg full] at ran
        obtain ⟨size, wrote, count, weights⟩ := ih
          (outbuf.modify messages fun mout => { mout with src := componentRoot m, dst := m.src })
          out (messages + 1) dropped (by rwa [List.length_modify]) (by rw [List.length_modify]; omega) ran
        refine ⟨by rw [size, List.length_modify], ?_, by rw [List.length_cons, List.length_cons]; omega, ?_⟩
        · rw [wrote, map_ends_take_modify (by omega)]
          simp
        · exact fun w inBuffer before => weights w (weighs_modify inBuffer messages _ _) before
    · have nothing : rewritten componentRoot m = none := if_neg kept
      rw [if_neg kept] at ran
      rw [List.filterMap_cons_none nothing]
      obtain ⟨size, wrote, count, weights⟩ := ih outbuf out messages (dropped + 1) room inside ran
      exact ⟨size, wrote, by rw [List.length_cons]; omega, weights⟩

end Loop

section Passes

variable {W : Type} {c : Configuration} {vertex : Nat → McstVertex W}

/-- The root at the vertex that a message is addressed to. -/
def rootAt (vertex : Nat → McstVertex W) (m : McstMessage W) : VertexT := (vertex m.key).componentRoot

/-- The edges counted by all threads. -/
def dropped (c : Configuration) (st : RewriteState W) : Nat :=
  ((List.range c.processors).map st.unknownEdgesLocal).sum

/-- A pass over `records`: the buffers keep their size, each message is written or counted, and the weights are
those of the buffers. -/
def PassDoes (c : Configuration) (vertex : Nat → McstVertex W) (st : RewriteState W)
    (records : List (McstMessage W)) (after : RewriteState W) : Prop :=
  (∀ p, (st.outbuf p).length = outbufMessages) →
    (∀ p, (after.outbuf p).length = outbufMessages) ∧
      after.out.map ends = st.out.map ends ++ records.filterMap (rewritten (rootAt vertex)) ∧
      dropped c after + (records.filterMap (rewritten (rootAt vertex))).length =
        dropped c st + records.length ∧
      ∀ w, (∀ p, Weighs w (st.outbuf p)) → Weighs w st.out →
        (∀ p, Weighs w (after.outbuf p)) ∧ Weighs w after.out

theorem passDoes_append {st mid after : RewriteState W} {xs ys : List (McstMessage W)}
    (first : PassDoes c vertex st xs mid) (second : PassDoes c vertex mid ys after) :
    PassDoes c vertex st (xs ++ ys) after := by
  intro full
  obtain ⟨full', wrote, count, weights⟩ := first full
  obtain ⟨full'', wrote', count', weights'⟩ := second full'
  refine ⟨full'', ?_, ?_, fun w inBuffer before => ?_⟩
  · rw [wrote', wrote, List.filterMap_append, List.append_assoc]
  · rw [List.filterMap_append, List.length_append, List.length_append]
    omega
  · obtain ⟨inBuffer', before'⟩ := weights w inBuffer before
    exact weights' w inBuffer' before'

/-- One processor counts more. -/
theorem dropped_update (st : RewriteState W) {p : Nat} (processor : p < c.processors) (n : Nat)
    (out : List (McstMessage W)) (outbuf : Nat → List (McstMessage W)) :
    dropped c ⟨out, outbuf, Function.update st.unknownEdgesLocal p (st.unknownEdgesLocal p + n)⟩ =
      dropped c st + n := by
  have sums (f : Nat → Nat) : ((List.range c.processors).map f).sum = ∑ p ∈ Finset.range c.processors, f p :=
    rfl
  unfold dropped
  rw [sums, sums]
  have exchanged := ScatterGather.sum_update_add (f := st.unknownEdgesLocal) processor
    (st.unknownEdgesLocal p + n)
  simp only
  omega

theorem passDoes_visit {superp : Nat} {v : Visit (McstMessage W)} (processor : v.processor < c.processors)
    (belongs : ∀ m ∈ v.records, c.mapInverse superp v.partition (c.mapOffset m.key) = m.key)
    (st : RewriteState W) : PassDoes c vertex st v.records (rewriteVisit c vertex superp v st) := by
  intro full
  have sameRoot : ∀ m ∈ v.records, rewritten (fun m : McstMessage W =>
      (vertex (c.mapInverse superp v.partition (c.mapOffset m.key))).componentRoot) m =
        rewritten (rootAt vertex) m := by
    intro m member
    simp only [rewritten, rootAt, belongs m member]
    rfl
  obtain ⟨size, wrote, count, weights⟩ := rewriteUnknown_spec (fun m : McstMessage W =>
      (vertex (c.mapInverse superp v.partition (c.mapOffset m.key))).componentRoot) v.records
    (st.outbuf v.processor) [] 0 0 (by rw [full]; decide) (Nat.zero_le _) rfl
  rw [List.filterMap_congr sameRoot] at wrote count
  simp only [List.map_nil, List.take_zero, List.nil_append, Nat.zero_add] at wrote count
  unfold rewriteVisit
  simp only
  refine ⟨fun p => ?_, by rw [List.map_append, wrote], ?_, fun w inBuffer before => ?_⟩
  · rcases eq_or_ne p v.processor with rfl | other
    · rw [Function.update_self, size, full]
    · rw [Function.update_of_ne other, full]
  · rw [dropped_update st processor, Nat.add_assoc]
    exact congrArg (dropped c st + ·) count
  · obtain ⟨inBuffer', wrote'⟩ := weights w (inBuffer _) fun m none_ => absurd none_ List.not_mem_nil
    refine ⟨fun p => ?_, fun m member => ?_⟩
    · rcases eq_or_ne p v.processor with rfl | other
      · rwa [Function.update_self]
      · rw [Function.update_of_ne other]
        exact inBuffer p
    · exact (List.mem_append.mp member).elim (before m) (wrote' m)

/-- What a whole pass does. -/
theorem passDoes_of_run {records : List (McstMessage W)} {st after : RewriteState W}
    (run : StreamPass c McstMessage.key (fun _ st => st) (fun _ st => st) (rewriteVisit c vertex) records st
      c.superPartitions after) :
    ∃ order, order.Perm records ∧ PassDoes c vertex st order after := by
  have nothing (st : RewriteState W) : PassDoes c vertex st [] st := fun full =>
    ⟨full, by simp, rfl, fun w inBuffer before => ⟨inBuffer, before⟩⟩
  exact run.summary_whole nothing passDoes_append (fun _ st => ⟨nothing st, nothing st⟩)
    fun superp v processor belongs st => passDoes_visit processor (fun m member => (belongs m member).2) st

end Passes

section Contraction

variable {W : Type} {c : Configuration} {vertex : Nat → McstVertex W} {unknownEdges : List (McstMessage W)}

theorem exists_rewrites (st : RewriteState W) : ∃ after, Rewrites c vertex unknownEdges st after := by
  obtain ⟨mid, first⟩ := exists_streamPass c McstMessage.key (fun _ st => st) (fun _ st => st)
    (rewriteVisit c vertex) unknownEdges { st with out := [] } c.superPartitions
  obtain ⟨after, second⟩ := exists_streamPass c McstMessage.key (fun _ st => st)
    (fun _ st => st) (rewriteVisit c vertex) mid.out { mid with out := [] } c.superPartitions
  exact ⟨after, mid, first, second⟩

/-- The weights that are left are those of the output buffers. -/
theorem weighs_of_rewrites {st after : RewriteState W} (full : ∀ p, (st.outbuf p).length = outbufMessages)
    {w : W} (inBuffer : ∀ p, Weighs w (st.outbuf p)) (run : Rewrites c vertex unknownEdges st after) :
    Weighs w after.out := by
  have nothing : Weighs w ([] : List (McstMessage W)) := fun m none_ => absurd none_ List.not_mem_nil
  obtain ⟨mid, first, second⟩ := run
  obtain ⟨order, -, does⟩ := passDoes_of_run first
  obtain ⟨full', -, -, weights⟩ := does full
  obtain ⟨order', -, does'⟩ := passDoes_of_run second
  obtain ⟨-, -, -, weights'⟩ := does' full'
  exact (weights' w (weights w inBuffer nothing).1 nothing).2

/-- Where no edge joins two components, all edges are dropped, on the first or on the second pass. -/
theorem dropped_of_internal {st after : RewriteState W} (full : ∀ p, (st.outbuf p).length = outbufMessages)
    (internal : ∀ m ∈ unknownEdges, (vertex m.src.toNat).componentRoot = rootAt vertex m)
    (run : Rewrites c vertex unknownEdges st after) :
    after.out = [] ∧ dropped c after = dropped c st + unknownEdges.length := by
  obtain ⟨mid, first, second⟩ := run
  obtain ⟨order, perm, does⟩ := passDoes_of_run first
  obtain ⟨full', wrote, count, -⟩ := does full
  obtain ⟨order', perm', does'⟩ := passDoes_of_run second
  obtain ⟨-, wrote', count', -⟩ := does' full'
  simp only [List.map_nil, List.nil_append] at wrote wrote'
  -- what comes out of the first pass is addressed to a vertex of the same component
  have back : ∀ m ∈ mid.out, rewritten (rootAt vertex) m = none := by
    intro m member
    have isEnds : ends m ∈ mid.out.map ends := List.mem_map_of_mem member
    rw [wrote, List.mem_filterMap] at isEnds
    obtain ⟨old, isOld, kept⟩ := isEnds
    have inner := internal old (perm.mem_iff.mp isOld)
    unfold rewritten at kept
    split at kept
    · obtain ⟨isRoot, isSrc⟩ := Prod.mk.inj (Option.some.inj kept)
      have same : m.src = rootAt vertex m := by
        change rootAt vertex old = m.src at isRoot
        change old.src = m.dst at isSrc
        unfold rootAt McstMessage.key
        rw [← isSrc, inner, isRoot]
      exact if_neg (not_not.mpr same)
    · exact nomatch kept
  have empty : order'.filterMap (rewritten (rootAt vertex)) = [] :=
    List.filterMap_eq_nil_iff.mpr fun m member => back m (perm'.mem_iff.mp member)
  rw [empty] at wrote' count'
  refine ⟨List.map_eq_nil_iff.mp wrote', ?_⟩
  have size := congrArg List.length wrote
  rw [List.length_map] at size
  have := perm.length_eq
  have := perm'.length_eq
  simp only [List.length_nil, Nat.add_zero] at count'
  change dropped c after = dropped c mid + order'.length at count'
  change dropped c mid + _ = dropped c st + order.length at count
  omega

/-- The passes are right exactly if no unknown edge joins two components. -/
theorem contracts_iff [Nontrivial W] : Contracts c vertex unknownEdges ↔
    ∀ m ∈ unknownEdges, (vertex m.src.toNat).componentRoot = (vertex m.dst.toNat).componentRoot := by
  constructor
  · intro contracts m member
    by_contra joins
    have isLeft : (⟨(vertex m.src.toNat).componentRoot, (vertex m.dst.toNat).componentRoot, m.weight⟩ :
        McstMessage W) ∈ contracted vertex unknownEdges :=
      List.mem_map.mpr ⟨m, List.mem_filter.mpr ⟨member, decide_eq_true joins⟩, rfl⟩
    -- all buffers hold a weight that the edge does not have
    obtain ⟨w, other⟩ := exists_ne m.weight
    obtain ⟨⟨after, run⟩, right⟩ := contracts
      ⟨[], fun _ => List.replicate outbufMessages ⟨0, 0, w⟩, fun _ => 0⟩ fun p => List.length_replicate
    have weighs := weighs_of_rewrites (fun p => List.length_replicate)
      (fun p m member => by rw [List.eq_of_mem_replicate member]) run
    exact other (weighs _ ((right after run).1.mem_iff.mpr isLeft)).symm
  · intro internal st full
    have nothing : contracted vertex unknownEdges = [] := by
      unfold contracted
      rw [List.map_eq_nil_iff, List.filter_eq_nil_iff]
      intro m member
      rw [decide_eq_true_eq, not_not]
      exact internal m member
    refine ⟨exists_rewrites st, fun after run => ?_⟩
    obtain ⟨empty, count⟩ := dropped_of_internal full internal run
    rw [nothing, empty]
    exact ⟨List.Perm.refl _, count⟩

/-- Two vertices of one component, joined by an edge. -/
theorem contracts_iff_internal : Contracts (Configuration.single 0 2 (by decide))
    (fun _ => ⟨0#32, 1#32, 5, 0#32⟩) [⟨0#32, 1#32, 5⟩, ⟨1#32, 0#32, 5⟩] :=
  contracts_iff.mpr fun _ _ => rfl

/-- Two vertices that are components of their own: the weight of the edge between them is lost. -/
theorem not_contracts : ¬ Contracts (Configuration.single 0 2 (by decide))
    (fun v => ⟨BitVec.ofNat 32 v, 1#32, 5, 0#32⟩) [⟨0#32, 1#32, 5⟩, ⟨1#32, 0#32, 5⟩] := by
  intro contracts
  obtain ⟨⟨after, run⟩, right⟩ := contracts
    ⟨[], fun _ => List.replicate outbufMessages ⟨0#32, 0#32, 0⟩, fun _ => 0⟩
    fun p => List.length_replicate
  have weighs := weighs_of_rewrites (w := 0) (fun p => List.length_replicate)
    (fun p m member => by rw [List.eq_of_mem_replicate member]) run
  have isLeft : (⟨0#32, 1#32, 5⟩ : McstMessage Nat) ∈
      contracted (fun v => ⟨BitVec.ofNat 32 v, 1#32, 5, 0#32⟩)
        [⟨0#32, 1#32, 5⟩, ⟨1#32, 0#32, 5⟩] := by decide
  exact absurd (weighs _ ((right after run).1.mem_iff.mpr isLeft)) (by decide)

end Contraction

end Mcst

end MBFGraph
