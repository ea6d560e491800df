import Mathlib.Data.Prod.Lex
import MBFGraph.Algorithms.Mcst
import MBFGraph.Core.Proofs.StreamPass
import MBFGraph.Lib.Proposals

/-!
# Who proposes to whom

`next_is_less` compares edges by a key that does not tell the two directions of an edge apart, so the proposals
of a round run along least edges. The vertex `2^32 - 1` is not a vertex for the driver: its id says that there
is no proposal.
-/

namespace MBFGraph

namespace Mcst

open Proposals

section Order

variable {W : Type} [LinearOrder W]

/-- The weight, the smaller end and the larger end. -/
def edgeKey (m : McstMessage W) : W ×ₗ Nat ×ₗ Nat :=
  toLex (m.weight, toLex (min m.dst.toNat m.src.toNat, max m.dst.toNat m.src.toNat))

theorem nextIsLess_iff (dst prev next : VertexT) (prevCost nextCost : W) :
    nextIsLess dst prev next prevCost nextCost = true ↔
      edgeKey ⟨next, dst, nextCost⟩ < edgeKey ⟨prev, dst, prevCost⟩ := by
  unfold nextIsLess edgeKey
  rw [Prod.Lex.toLex_lt_toLex, Prod.Lex.toLex_lt_toLex]
  simp only
  by_cases less : nextCost < prevCost
  · simp [less]
  · by_cases more : prevCost < nextCost
    · simp [less, more, more.ne']
    · have same : nextCost = prevCost := le_antisymm (not_lt.mp more) (not_lt.mp less)
      simp [same]

omit [LinearOrder W] in
theorem edgeKey_of_dst {m : McstMessage W} {d : VertexT} (own : m.dst = d) :
    edgeKey ⟨m.src, d, m.weight⟩ = edgeKey m := by
  subst own
  rfl

omit [LinearOrder W] in
/-- Both directions of an edge have one key. -/
theorem edgeKey_swap (m : McstMessage W) : edgeKey ⟨m.dst, m.src, m.weight⟩ = edgeKey m := by
  unfold edgeKey
  rw [min_comm, max_comm]

omit [LinearOrder W] in
/-- The key knows the two ends. -/
theorem src_eq_of_edgeKey_eq {m m' : McstMessage W} (same : edgeKey m = edgeKey m') (ends : m.dst = m'.src) :
    m.src = m'.dst := by
  unfold edgeKey at same
  have inner := congrArg Prod.snd (toLex.injective same)
  have least := congrArg Prod.fst (toLex.injective inner)
  have largest := congrArg Prod.snd (toLex.injective inner)
  simp only [ends] at least largest
  exact BitVec.eq_of_toNat_eq (by omega)

/-- `step_compute_min` over the messages of a vertex finds a least one. -/
theorem computeMin_spec {d : VertexT} {fresh : McstVertex W} (none_ : fresh.proposedMatch = noVertex)
    (order : List (McstMessage W)) (named : ∀ m ∈ order, m.src ≠ noVertex) (here : ∀ m ∈ order, m.dst = d)
    {v : McstVertex W} (ran : order.foldl (fun v m => computeMin m v) fresh = v) :
    v.componentRoot = fresh.componentRoot ∧ v.matchIteration = fresh.matchIteration ∧
      (order = [] → v.proposedMatch = noVertex) ∧
      (order ≠ [] → ∃ m ∈ order, v.proposedMatch = m.src ∧ v.propositionCost = m.weight ∧
        ∀ m' ∈ order, edgeKey m ≤ edgeKey m') := by
  induction order using List.reverseRecOn generalizing v with
  | nil =>
    subst ran
    exact ⟨rfl, rfl, fun _ => none_, fun some_ => absurd rfl some_⟩
  | append_singleton order m ih =>
    rw [List.foldl_append, List.foldl_cons, List.foldl_nil] at ran
    obtain ⟨root, iteration, empty, least⟩ := ih
      (fun m' member => named m' (List.mem_append_left _ member))
      (fun m' member => here m' (List.mem_append_left _ member)) rfl
    generalize order.foldl (fun v m => computeMin m v) fresh = before at ran root iteration empty least
    have own : m.dst = d := here m (by simp)
    have nonempty : order ++ [m] ≠ [] := by simp
    unfold computeMin at ran
    by_cases taken : before.proposedMatch = noVertex ∨
        nextIsLess m.dst before.proposedMatch m.src before.propositionCost m.weight = true
    · rw [if_pos taken] at ran
      subst ran
      refine ⟨root, iteration, fun h => absurd h nonempty, fun _ => ⟨m, by simp, rfl, rfl, ?_⟩⟩
      intro m' member
      rcases List.mem_append.mp member with old | new
      · obtain ⟨l, lMember, isSrc, isWeight, all⟩ := least (List.ne_nil_of_mem old)
        have less : edgeKey m < edgeKey l := by
          rcases taken with noOne | less
          · rw [isSrc] at noOne
            exact absurd noOne (named l (List.mem_append_left _ lMember))
          · rwa [nextIsLess_iff, isSrc, isWeight, own, edgeKey_of_dst own,
              edgeKey_of_dst (here l (List.mem_append_left _ lMember))] at less
        exact le_of_lt (lt_of_lt_of_le less (all m' old))
      · rw [List.mem_singleton.mp new]
    · rw [if_neg taken] at ran
      subst ran
      obtain ⟨some_, notLess⟩ := not_or.mp taken
      have nonempty' : order ≠ [] := fun none_ => some_ (empty none_)
      obtain ⟨l, lMember, isSrc, isWeight, all⟩ := least nonempty'
      refine ⟨root, iteration, fun h => absurd h nonempty,
        fun _ => ⟨l, List.mem_append_left _ lMember, isSrc, isWeight, fun m' member => ?_⟩⟩
      rcases List.mem_append.mp member with old | new
      · exact all m' old
      · rw [List.mem_singleton.mp new]
        rwa [nextIsLess_iff, isSrc, isWeight, own, not_lt, edgeKey_of_dst own,
          edgeKey_of_dst (here l (List.mem_append_left _ lMember))] at notLess

end Order

theorem filterMap_ite {α β : Type} (p : α → Prop) [DecidablePred p] (f : α → β) (l : List α) :
    (l.filterMap fun a => if p a then some (f a) else none) = (l.filter p).map f := by
  induction l with
  | nil => rfl
  | cons a l ih =>
    by_cases holds : p a
    · rw [List.filterMap_cons_some (f := fun a => if p a then some (f a) else none) (if_pos holds),
        List.filter_cons_of_pos (by simpa using holds), List.map_cons, ih]
    · rw [List.filterMap_cons_none (f := fun a => if p a then some (f a) else none) (if_neg holds),
        List.filter_cons_of_neg (by simpa using holds), ih]

section Phase

variable {W : Type} [LinearOrder W] {c : Configuration}

omit [LinearOrder W] in
/-- The messages for vertices, one after the other: each vertex sees its own. -/
theorem foldl_onVertex (f : McstMessage W → McstVertex W → McstVertex W) (processor : Nat)
    (order : List (McstMessage W)) (st : McstState W) :
    order.foldl (fun st m => onVertex f processor m.key m st) st =
      { st with vertex := fun v =>
          (order.filter fun m => m.key = v).foldl (fun vertex m => f m vertex) (st.vertex v) } := by
  induction order generalizing st with
  | nil => rfl
  | cons m order ih =>
    rw [List.foldl_cons, ih]
    unfold onVertex
    congr 1
    funext v
    simp only
    by_cases same : m.key = v
    · rw [List.filter_cons_of_pos (by simpa using same), List.foldl_cons, same, Function.update_self]
    · rw [List.filter_cons_of_neg (by simpa using same), Function.update_of_ne (Ne.symm same)]

omit [LinearOrder W] in
/-- Vertices that are reset one after the other. -/
theorem foldl_resetVertex {ids : List Nat} (nodup : ids.Nodup) (st : McstState W) :
    ids.foldl (fun st id =>
        { st with vertex := Function.update st.vertex id (resetVertex id (st.vertex id)) }) st =
      { st with vertex := fun v => if v ∈ ids then resetVertex v (st.vertex v) else st.vertex v } := by
  induction ids generalizing st with
  | nil => simp
  | cons id ids ih =>
    obtain ⟨isNew, nodup⟩ := List.nodup_cons.mp nodup
    rw [List.foldl_cons, ih nodup]
    congr 1
    funext v
    simp only
    by_cases same : v = id
    · subst same
      rw [if_neg isNew, if_pos List.mem_cons_self, Function.update_self]
    · rw [Function.update_of_ne same]
      simp only [List.mem_cons, same, false_or]

/-- The first super partitions have proposed. -/
structure Proposed (c : Configuration) (st : McstState W) (superps : Nat) (after : McstState W) : Prop where
  others : after = { st with vertex := after.vertex, messages0 := after.messages0 }
  least : ∀ v < c.vertices, c.mapSuperPartition v < superps →
    ∃ order : List (McstMessage W), order.Perm (st.unknownEdges.filter fun m => m.key = v) ∧
      after.vertex v = order.foldl (fun vertex m => computeMin m vertex) (resetVertex v (st.vertex v))
  later : ∀ v, superps ≤ c.mapSuperPartition v → after.vertex v = st.vertex v
  sent : after.messages0 = st.messages0 ++ (List.range superps).flatMap fun superp =>
    (c.vertexIds superp).filterMap fun id => sendProposal id (after.vertex id)

theorem proposed_of_run {st after : McstState W} {superps : Nat} (superps_le : superps ≤ c.superPartitions)
    (run : StreamPass c McstMessage.key (resetVertices c) (sendProposals c)
      (eachRecord c McstMessage.key (onVertex computeMin)) st.unknownEdges st superps after) :
    Proposed c st superps after := by
  induction run with
  | none => exact ⟨rfl, fun v _ none_ => absurd none_ (Nat.not_lt_zero _), fun v _ => rfl, by simp⟩
  | @next superp mid visits others delivered ih =>
    have soFar := ih (by omega)
    have ofSuperp : superp < c.superPartitions := by omega
    have member (v : Nat) : v ∈ c.vertexIds superp ↔ v < c.vertices ∧ c.mapSuperPartition v = superp :=
      Configuration.mem_vertexIds_iff ofSuperp
    have reset : resetVertices c superp mid = { mid with
        vertex := fun v => if v ∈ c.vertexIds superp then resetVertex v (mid.vertex v) else mid.vertex v } :=
      foldl_resetVertex (Configuration.nodup_vertexIds ofSuperp) mid
    obtain ⟨order, perm, ran⟩ := exists_order_visits (onVertex computeMin) (fun st => st)
      (fun m => onVertex computeMin 0 m.key m) delivered (fun p _ m _ st => rfl) (resetVertices c superp mid)
    rw [foldl_onVertex, reset] at ran
    rw [reset]
    generalize visits.foldl (fun st v => eachRecord c McstMessage.key (onVertex computeMin) superp v st)
      { mid with
        vertex := fun v => if v ∈ c.vertexIds superp then resetVertex v (mid.vertex v) else mid.vertex v } =
      done at ran ⊢
    have others_ : done = { mid with vertex := done.vertex } := by rw [ran]
    have vertex (v : Nat) : done.vertex v = (order.filter fun m => m.key = v).foldl
        (fun vertex m => computeMin m vertex)
        (if v ∈ c.vertexIds superp then resetVertex v (mid.vertex v) else mid.vertex v) := by rw [ran]
    have elsewhere (v : Nat) (other : c.mapSuperPartition v ≠ superp) :
        (order.filter fun m => m.key = v) = [] := by
      rw [List.filter_eq_nil_iff]
      intro m isMessage
      have here := of_decide_eq_true (List.mem_filter.mp (perm.mem_iff.mp isMessage)).2
      rw [decide_eq_true_eq]
      exact fun same => other (same ▸ here)
    have unchanged (v : Nat) (other : c.mapSuperPartition v ≠ superp) : done.vertex v = mid.vertex v := by
      rw [vertex, elsewhere v other, if_neg fun inIds => other ((member v).mp inIds).2]
      rfl
    refine ⟨?_, ?_, ?_, ?_⟩
    · unfold sendProposals
      rw [others_, soFar.others]
    · intro v known below
      change ∃ order : List (McstMessage W), _ ∧ done.vertex v = _
      by_cases here : c.mapSuperPartition v = superp
      · refine ⟨order.filter fun m => m.key = v, ?_, ?_⟩
        · refine (perm.filter _).trans (List.Perm.of_eq ?_)
          rw [List.filter_filter]
          refine List.filter_congr fun m _ => ?_
          rw [Bool.eq_iff_iff, Bool.and_eq_true, decide_eq_true_eq, decide_eq_true_eq]
          exact ⟨fun both => both.1, fun same => ⟨same, by rw [same, here]⟩⟩
        · rw [vertex, if_pos ((member v).mpr ⟨known, here⟩), soFar.later v (Nat.le_of_eq here.symm)]
      · obtain ⟨order', perm', isLeast⟩ := soFar.least v known (by omega)
        exact ⟨order', perm', by rw [unchanged v here, isLeast]⟩
    · intro v later
      exact (unchanged v (by omega)).trans (soFar.later v (by omega))
    · have sent : (sendProposals c superp done).messages0 = done.messages0 ++
          (c.vertexIds superp).filterMap fun id => sendProposal id (done.vertex id) := rfl
      have kept : done.messages0 = mid.messages0 := by rw [others_]
      rw [sent, kept, soFar.sent, List.range_succ, List.flatMap_append, List.flatMap_singleton,
        List.append_assoc]
      congr 2
      refine List.flatMap_congr fun superp' below => List.filterMap_congr fun id isId => ?_
      have before := List.mem_range.mp below
      have ofOther := ((Configuration.mem_vertexIds_iff (by omega)).mp isId).2
      change _ = sendProposal id (done.vertex id)
      rw [unchanged id (by omega)]

end Phase

section Bids

variable {W : Type} [LinearOrder W] {c : Configuration}

/-- The proposal of a vertex. -/
def proposalOf (st : McstState W) (v : Nat) : McstMessage W :=
  ⟨BitVec.ofNat 32 v, (st.vertex v).proposedMatch, (st.vertex v).propositionCost⟩

/-- Whom a vertex proposes to. -/
def next (st : McstState W) (v : Nat) : Nat := (st.vertex v).proposedMatch.toNat

/-- The vertices with unknown edges have proposed along least edges. -/
structure Bids (c : Configuration) (unknownEdges : List (McstMessage W)) (st : McstState W)
    (proposers : List Nat) : Prop where
  nodup : proposers.Nodup
  mem_iff : ∀ v, v ∈ proposers ↔ ∃ m ∈ unknownEdges, m.key = v
  least : ∀ v ∈ proposers, ∃ m ∈ unknownEdges, m.key = v ∧ (st.vertex v).proposedMatch = m.src ∧
    (st.vertex v).propositionCost = m.weight ∧
      ∀ m' ∈ unknownEdges, m'.key = v → edgeKey m ≤ edgeKey m'
  messages0 : st.messages0 = proposers.map (proposalOf st)
  fresh : ∀ v ∈ proposers, (st.vertex v).componentRoot = BitVec.ofNat 32 v ∧
    (st.vertex v).matchIteration = noVertex

/-- All vertices, super partition by super partition. -/
private theorem nodup_flatMap_vertexIds {superps : Nat} (superps_le : superps ≤ c.superPartitions) :
    ((List.range superps).flatMap c.vertexIds).Nodup := by
  rw [List.nodup_flatMap]
  refine ⟨fun superp below => Configuration.nodup_vertexIds (by
    have := List.mem_range.mp below
    omega), ?_⟩
  refine List.Pairwise.imp_of_mem ?_ List.nodup_range
  intro superp superp' below below' other
  have := List.mem_range.mp below
  have := List.mem_range.mp below'
  rw [Function.onFun, List.disjoint_left]
  intro v isId isId'
  have here := ((Configuration.mem_vertexIds_iff (by omega)).mp isId).2
  have there := ((Configuration.mem_vertexIds_iff (by omega)).mp isId').2
  exact other (here.symm.trans there)

theorem bids_of_proposes {st after : McstState W} (unknown : UnknownEdges c st.unknownEdges)
    (named : ∀ m ∈ st.unknownEdges, m.src ≠ noVertex ∧ m.dst ≠ noVertex) (empty : st.messages0 = [])
    (run : Proposes c st after) :
    after = { st with vertex := after.vertex, messages0 := after.messages0 } ∧
      ∃ proposers, Bids c st.unknownEdges after proposers := by
  have proposed := proposed_of_run (Nat.le_refl _) run
  refine ⟨proposed.others, ?_⟩
  -- what is found at a vertex
  have found (v : Nat) (known : v < c.vertices) :
      (after.vertex v).componentRoot = BitVec.ofNat 32 v ∧ (after.vertex v).matchIteration = noVertex ∧
        ((∀ m ∈ st.unknownEdges, m.key ≠ v) → (after.vertex v).proposedMatch = noVertex) ∧
        ((∃ m ∈ st.unknownEdges, m.key = v) → ∃ m ∈ st.unknownEdges, m.key = v ∧
          (after.vertex v).proposedMatch = m.src ∧ (after.vertex v).propositionCost = m.weight ∧
            ∀ m' ∈ st.unknownEdges, m'.key = v → edgeKey m ≤ edgeKey m') := by
    obtain ⟨order, perm, ran⟩ := proposed.least v known (c.mapSuperPartition_lt v)
    have member (m : McstMessage W) : m ∈ order ↔ m ∈ st.unknownEdges ∧ m.key = v := by
      rw [perm.mem_iff, List.mem_filter, decide_eq_true_eq]
    obtain ⟨root, iteration, none_, least⟩ := computeMin_spec (d := BitVec.ofNat 32 v) rfl order
      (fun m isMessage => (named m ((member m).mp isMessage).1).1)
      (fun m isMessage => by
        rw [← ((member m).mp isMessage).2]
        exact (BitVec.ofNat_toNat 32 m.dst).symm) ran.symm
    refine ⟨root, iteration, fun noEdge => none_ (List.eq_nil_iff_forall_not_mem.mpr fun m isMessage =>
      noEdge m ((member m).mp isMessage).1 ((member m).mp isMessage).2), ?_⟩
    rintro ⟨e, isEdge, addressed⟩
    obtain ⟨m, isMessage, isSrc, isWeight, all⟩ :=
      least (List.ne_nil_of_mem ((member e).mpr ⟨isEdge, addressed⟩))
    exact ⟨m, ((member m).mp isMessage).1, ((member m).mp isMessage).2, isSrc, isWeight,
      fun m' isEdge' addressed' => all m' ((member m').mpr ⟨isEdge', addressed'⟩)⟩
  have member (v : Nat) : v ∈ ((List.range c.superPartitions).flatMap c.vertexIds).filter
      (fun id => (after.vertex id).proposedMatch ≠ noVertex) ↔ ∃ m ∈ st.unknownEdges, m.key = v := by
    rw [List.mem_filter, List.mem_flatMap, decide_eq_true_eq]
    constructor
    · rintro ⟨⟨superp, below, isId⟩, some_⟩
      by_contra noEdge
      have known := ((Configuration.mem_vertexIds_iff (List.mem_range.mp below)).mp isId).1
      exact some_ ((found v known).2.2.1 fun m isEdge addressed => noEdge ⟨m, isEdge, addressed⟩)
    · rintro ⟨m, isEdge, rfl⟩
      have known := (unknown.inside m isEdge).2
      obtain ⟨m', isEdge', -, isSrc, -⟩ := (found _ known).2.2.2 ⟨m, isEdge, rfl⟩
      refine ⟨⟨_, List.mem_range.mpr (c.mapSuperPartition_lt m.key),
        (Configuration.mem_vertexIds_iff (c.mapSuperPartition_lt _)).mpr ⟨known, rfl⟩⟩, ?_⟩
      exact isSrc ▸ (named m' isEdge').1
  have inside {v : Nat} (some_ : ∃ m ∈ st.unknownEdges, m.key = v) : v < c.vertices := by
    obtain ⟨m, isEdge, rfl⟩ := some_
    exact (unknown.inside m isEdge).2
  refine ⟨_, (nodup_flatMap_vertexIds (Nat.le_refl _)).filter _, member, ?_, ?_, ?_⟩
  · intro v isProposer
    have some_ := (member v).mp isProposer
    exact (found v (inside some_)).2.2.2 some_
  · rw [proposed.sent, empty, List.nil_append, ← List.filterMap_flatMap]
    exact filterMap_ite (fun id => (after.vertex id).proposedMatch ≠ noVertex) (proposalOf after) _
  · intro v isProposer
    obtain ⟨root, iteration, -⟩ := found v (inside ((member v).mp isProposer))
    exact ⟨root, iteration⟩

end Bids

section Pairs

variable {W : Type} [LinearOrder W] {c : Configuration} {unknownEdges : List (McstMessage W)}
  {st : McstState W} {proposers : List Nat}

/-- The edge that a vertex proposes along, as it is found at the vertex. -/
def bid (st : McstState W) (v : Nat) : McstMessage W :=
  ⟨(st.vertex v).proposedMatch, BitVec.ofNat 32 v, (st.vertex v).propositionCost⟩

theorem Bids.bid_spec (bids : Bids c unknownEdges st proposers) {v : Nat} (member : v ∈ proposers) :
    bid st v ∈ unknownEdges ∧ (bid st v).key = v ∧
      ∀ m ∈ unknownEdges, m.key = v → edgeKey (bid st v) ≤ edgeKey m := by
  obtain ⟨m, isEdge, rfl, isSrc, isWeight, least⟩ := bids.least v member
  have same : bid st m.key = m := by
    unfold bid
    rw [isSrc, isWeight]
    exact congrArg (fun d => (⟨m.src, d, m.weight⟩ : McstMessage W)) (BitVec.ofNat_toNat 32 m.dst)
  rw [same]
  exact ⟨isEdge, rfl, least⟩

theorem Bids.small (bids : Bids c unknownEdges st proposers)
    (named : ∀ m ∈ unknownEdges, m.src ≠ noVertex ∧ m.dst ≠ noVertex) {v : Nat} (member : v ∈ proposers) :
    v < 2 ^ 32 - 1 := by
  obtain ⟨m, isEdge, rfl⟩ := (bids.mem_iff v).mp member
  have below := m.dst.isLt
  have other : m.dst.toNat ≠ 2 ^ 32 - 1 := fun same =>
    (named m isEdge).2 (BitVec.eq_of_toNat_eq same)
  unfold McstMessage.key
  omega

/-- The proposals run along least edges. -/
theorem Bids.alongLeast (unknown : UnknownEdges c unknownEdges) (bids : Bids c unknownEdges st proposers) :
    AlongLeast proposers.toFinset (next st) (fun v => edgeKey (bid st v)) := by
  -- the other direction of the edge is found at the other end
  have back {v : Nat} (member : v ∈ proposers) :
      ⟨BitVec.ofNat 32 v, (st.vertex v).proposedMatch, (st.vertex v).propositionCost⟩ ∈ unknownEdges :=
    unknown.symmetric _ (bids.bid_spec member).1
  have stays {v : Nat} (member : v ∈ proposers) : next st v ∈ proposers :=
    (bids.mem_iff _).mpr ⟨_, back member, rfl⟩
  have descends {v : Nat} (member : v ∈ proposers) : edgeKey (bid st (next st v)) ≤ edgeKey (bid st v) := by
    exact ((bids.bid_spec (stays member)).2.2 _ (back member) rfl).trans_eq (edgeKey_swap (bid st v))
  constructor
  · intro v member
    rw [List.mem_toFinset] at member ⊢
    exact stays member
  · intro v member same
    rw [List.mem_toFinset] at member
    obtain ⟨isEdge, addressed, -⟩ := bids.bid_spec member
    exact unknown.noLoop _ isEdge (BitVec.eq_of_toNat_eq (same.trans addressed.symm))
  · intro v member
    exact descends (List.mem_toFinset.mp member)
  · intro v member same
    rw [List.mem_toFinset] at member
    have addressed := (bids.bid_spec member).2.1
    have addressed' := (bids.bid_spec (stays member)).2.1
    have ends := src_eq_of_edgeKey_eq same (BitVec.eq_of_toNat_eq addressed')
    exact (congrArg BitVec.toNat ends).trans addressed

theorem Bids.graph (bids : Bids c unknownEdges st proposers)
    (named : ∀ m ∈ unknownEdges, m.src ≠ noVertex ∧ m.dst ≠ noVertex) :
    proposalGraph st.messages0 = proposers.map fun v => (v, next st v) := by
  rw [bids.messages0]
  unfold proposalGraph
  rw [List.map_map]
  refine List.map_congr_left fun v member => ?_
  have small := bids.small named member
  simp only [Function.comp_apply, proposalOf, BitVec.toNat_ofNat]
  rw [Nat.mod_eq_of_lt (by omega)]
  rfl

theorem Bids.mem_graph_iff (bids : Bids c unknownEdges st proposers)
    (named : ∀ m ∈ unknownEdges, m.src ≠ noVertex ∧ m.dst ≠ noVertex) (u v : Nat) :
    (u, v) ∈ proposalGraph st.messages0 ↔ u ∈ proposers ∧ next st u = v := by
  rw [bids.graph named, List.mem_map]
  constructor
  · rintro ⟨w, member, same⟩
    obtain ⟨rfl, rfl⟩ := Prod.mk.inj same
    exact ⟨member, rfl⟩
  · rintro ⟨member, rfl⟩
    exact ⟨u, member, rfl⟩

/-- The pairs are told by their roots. -/
theorem Bids.mem_mutualPairs_iff (unknown : UnknownEdges c unknownEdges)
    (bids : Bids c unknownEdges st proposers)
    (named : ∀ m ∈ unknownEdges, m.src ≠ noVertex ∧ m.dst ≠ noVertex) (pair : Nat × Nat) :
    pair ∈ mutualPairs st.messages0 ↔
      IsRoot proposers.toFinset (next st) pair.1 ∧ pair.2 = next st pair.1 := by
  obtain ⟨a, b⟩ := pair
  unfold mutualPairs
  rw [List.mem_filter, Bool.and_eq_true, decide_eq_true_eq, List.contains_iff_mem, bids.mem_graph_iff named,
    bids.mem_graph_iff named]
  unfold IsRoot
  rw [List.mem_toFinset]
  constructor
  · rintro ⟨⟨member, rfl⟩, less, -, back⟩
    exact ⟨⟨member, back, less⟩, rfl⟩
  · rintro ⟨⟨member, back, less⟩, same⟩
    simp only at same
    subst same
    have there := (bids.alongLeast unknown).stays a (List.mem_toFinset.mpr member)
    exact ⟨⟨member, rfl⟩, less, List.mem_toFinset.mp there, back⟩

theorem Bids.proposesOnce (unknown : UnknownEdges c unknownEdges) (bids : Bids c unknownEdges st proposers)
    (named : ∀ m ∈ unknownEdges, m.src ≠ noVertex ∧ m.dst ≠ noVertex) :
    ProposesOnce unknownEdges st.messages0 := by
  rw [bids.messages0]
  constructor
  · rw [List.map_map]
    refine bids.nodup.map_on ?_
    intro u uMember v vMember same
    have uSmall := bids.small named uMember
    have vSmall := bids.small named vMember
    have numbers := congrArg BitVec.toNat same
    simp only [Function.comp_apply, proposalOf, BitVec.toNat_ofNat] at numbers
    rwa [Nat.mod_eq_of_lt (by omega), Nat.mod_eq_of_lt (by omega)] at numbers
  · intro v
    rw [List.map_map, List.mem_map]
    constructor
    · rintro ⟨u, member, rfl⟩
      obtain ⟨m, isEdge, rfl⟩ := (bids.mem_iff u).mp member
      exact ⟨m, isEdge, Or.inr (BitVec.ofNat_toNat 32 m.dst).symm⟩
    · rintro ⟨m, isEdge, either⟩
      have named (m : McstMessage W) (isEdge : m ∈ unknownEdges) :
          ∃ u ∈ proposers, BitVec.ofNat 32 u = m.dst :=
        ⟨m.key, (bids.mem_iff _).mpr ⟨m, isEdge, rfl⟩, BitVec.ofNat_toNat 32 m.dst⟩
      rcases either with rfl | rfl
      · exact named _ (unknown.symmetric m isEdge)
      · exact named m isEdge
  · intro m member
    obtain ⟨v, isProposer, rfl⟩ := List.mem_map.mp member
    exact unknown.symmetric _ (bids.bid_spec isProposer).1

/-- The component of a vertex has the pair of its root, and no other. -/
theorem Bids.connected_iff (unknown : UnknownEdges c unknownEdges) (bids : Bids c unknownEdges st proposers)
    (named : ∀ m ∈ unknownEdges, m.src ≠ noVertex ∧ m.dst ≠ noVertex) {v a : Nat} (member : v ∈ proposers)
    (isRoot : IsRoot proposers.toFinset (next st) a) :
    Components.Connected (proposalGraph st.messages0) v a ↔
      a = root proposers.toFinset (next st) v := by
  have along := bids.alongLeast unknown
  constructor
  · intro joined
    have same := root_eq_of_eqvGen along (fun u w proposal => by
      obtain ⟨isProposer, isNext⟩ := (bids.mem_graph_iff named u w).mp proposal
      exact ⟨List.mem_toFinset.mpr isProposer, isNext⟩) joined
    rw [same, root_of_isRoot isRoot]
  · rintro rfl
    exact eqvGen_root along (fun u isProposer =>
      (bids.mem_graph_iff named _ _).mpr ⟨List.mem_toFinset.mp isProposer, rfl⟩)
      (List.mem_toFinset.mpr member)

theorem Bids.onePairEach (unknown : UnknownEdges c unknownEdges) (bids : Bids c unknownEdges st proposers)
    (named : ∀ m ∈ unknownEdges, m.src ≠ noVertex ∧ m.dst ≠ noVertex) : OnePairEach st.messages0 := by
  rintro ⟨v, w⟩ proposal
  have member := ((bids.mem_graph_iff named v w).mp proposal).1
  have isRoot := (bids.alongLeast unknown).isRoot_root (List.mem_toFinset.mpr member)
  refine ⟨(root proposers.toFinset (next st) v, next st (root proposers.toFinset (next st) v)),
    ⟨(bids.mem_mutualPairs_iff unknown named _).mpr ⟨isRoot, rfl⟩,
      (bids.connected_iff unknown named member isRoot).mpr rfl⟩, ?_⟩
  rintro ⟨a, b⟩ ⟨isPair, joined⟩
  obtain ⟨isRoot', isNext⟩ := (bids.mem_mutualPairs_iff unknown named _).mp isPair
  have same := (bids.connected_iff unknown named member isRoot').mp joined
  simp only at isNext same
  rw [isNext, same]

end Pairs

end Mcst

end MBFGraph
