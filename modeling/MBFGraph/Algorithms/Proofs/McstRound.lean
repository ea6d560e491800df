import MBFGraph.Algorithms.Proofs.McstProposals

/-!
# A round

Each pass over the spreading messages takes the roots one proposal further: behind the n-th, the vertices up to
depth n know their root, and the messages for those of depth n + 1 are on their way. The proposal that is not
counted when the tree edges are written is that of the larger end of a pair.
-/

namespace MBFGraph

namespace Mcst

open NondetLoop Proposals

section Spread

variable {W : Type} [LinearOrder W] {c : Configuration} {unknownEdges : List (McstMessage W)}
  {p : McstState W} {proposers : List Nat}

/-- The number of proposals from a vertex to the root of its component. -/
noncomputable def depthOf (p : McstState W) (proposers : List Nat) (v : Nat) : Nat :=
  depth proposers.toFinset (next p) v

/-- The root of the component of a vertex. -/
noncomputable def rootOf (p : McstState W) (proposers : List Nat) (v : Nat) : Nat :=
  root proposers.toFinset (next p) v

/-- The message that brings the root to a vertex. -/
noncomputable def rootMessage (p : McstState W) (proposers : List Nat) (v : Nat) : McstMessage W :=
  ⟨BitVec.ofNat 32 (rootOf p proposers v), BitVec.ofNat 32 v, (p.vertex v).propositionCost⟩

/-- The vertices up to depth `n` know their roots. -/
structure SpreadTo (p : McstState W) (proposers : List Nat) (n : Nat) (st : McstState W) : Prop where
  proposedMatch : ∀ v ∈ proposers, (st.vertex v).proposedMatch = (p.vertex v).proposedMatch
  near : ∀ v ∈ proposers, depthOf p proposers v ≤ n →
    (st.vertex v).componentRoot = BitVec.ofNat 32 (rootOf p proposers v) ∧
      (st.vertex v).matchIteration = BitVec.ofNat 32 (depthOf p proposers v)
  far : ∀ v ∈ proposers, n < depthOf p proposers v →
    (st.vertex v).componentRoot = BitVec.ofNat 32 v ∧ (st.vertex v).matchIteration = noVertex

theorem ofNat_inj {a b : Nat} (aSmall : a < 2 ^ 32) (bSmall : b < 2 ^ 32)
    (same : BitVec.ofNat 32 a = BitVec.ofNat 32 b) : a = b := by
  have numbers := congrArg BitVec.toNat same
  rwa [BitVec.toNat_ofNat, BitVec.toNat_ofNat, Nat.mod_eq_of_lt aSmall, Nat.mod_eq_of_lt bSmall] at numbers

theorem noVertex_ne_ofNat {a : Nat} (small : a < 2 ^ 32 - 1) : noVertex ≠ BitVec.ofNat 32 a := by
  intro same
  have numbers := congrArg BitVec.toNat same
  unfold noVertex at numbers
  rw [BitVec.toNat_allOnes, BitVec.toNat_ofNat, Nat.mod_eq_of_lt (by omega)] at numbers
  omega

variable (unknown : UnknownEdges c unknownEdges)
  (named : ∀ m ∈ unknownEdges, m.src ≠ noVertex ∧ m.dst ≠ noVertex)
  (bids : Bids c unknownEdges p proposers)

include unknown bids

theorem next_mem {v : Nat} (member : v ∈ proposers) : next p v ∈ proposers :=
  List.mem_toFinset.mp ((bids.alongLeast unknown).stays v (List.mem_toFinset.mpr member))

theorem rootOf_mem {v : Nat} (member : v ∈ proposers) : rootOf p proposers v ∈ proposers :=
  List.mem_toFinset.mp ((bids.alongLeast unknown).isRoot_root (List.mem_toFinset.mpr member)).1

theorem rootOf_next {v : Nat} (member : v ∈ proposers) :
    rootOf p proposers (next p v) = rootOf p proposers v :=
  (bids.alongLeast unknown).root_next (List.mem_toFinset.mpr member)

theorem depthOf_eq_zero_iff {v : Nat} (member : v ∈ proposers) :
    depthOf p proposers v = 0 ↔ IsRoot proposers.toFinset (next p) v :=
  (bids.alongLeast unknown).depth_eq_zero_iff (List.mem_toFinset.mpr member)

/-- A message goes on to the vertices of the next depth, and not back to the root. -/
theorem depthOf_eq_succ_iff {v : Nat} (member : v ∈ proposers) (n : Nat) :
    depthOf p proposers v = n + 1 ↔
      depthOf p proposers (next p v) = n ∧ v ≠ rootOf p proposers v := by
  have along := bids.alongLeast unknown
  have isMember := List.mem_toFinset.mpr member
  by_cases isRoot : IsRoot proposers.toFinset (next p) v
  · have zero : depthOf p proposers v = 0 := depth_of_isRoot isRoot
    have own : rootOf p proposers v = v := root_of_isRoot isRoot
    rw [zero, own]
    exact ⟨fun succ => absurd succ (by omega), fun both => absurd rfl both.2⟩
  · have later : depthOf p proposers v = depthOf p proposers (next p v) + 1 :=
      along.depth_eq_succ isMember isRoot
    rw [later, Nat.add_right_cancel_iff]
    exact ⟨fun same => ⟨same, (along.root_ne_of_not_isRoot isMember isRoot).symm⟩, fun both => both.1⟩

include named

/-- The iteration counter does not wrap around. -/
theorem depthOf_lt {v : Nat} (member : v ∈ proposers) : depthOf p proposers v < 2 ^ 32 - 1 := by
  have below : proposers.toFinset ⊆ Finset.range (2 ^ 32 - 1) := fun u isProposer =>
    Finset.mem_range.mpr (bids.small named (List.mem_toFinset.mp isProposer))
  have few := Finset.card_le_card below
  rw [Finset.card_range] at few
  exact Nat.lt_of_lt_of_le ((bids.alongLeast unknown).depth_lt_card (List.mem_toFinset.mpr member)) few

end Spread

section Matching

variable {W : Type} [LinearOrder W] {c : Configuration} {unknownEdges : List (McstMessage W)}
  {p : McstState W} {proposers : List Nat}

omit [LinearOrder W] in
/-- `step_compute_match` over the messages of a vertex. -/
theorem foldl_computeMatch (messages : List (McstMessage W)) (v : McstVertex W) :
    messages.foldl (fun v m => computeMatch m v) v =
      if ∃ m ∈ messages, v.proposedMatch = m.src ∧ m.dst < m.src then { v with matchIteration := 0 }
      else v := by
  induction messages generalizing v with
  | nil => simp
  | cons m messages ih =>
    rw [List.foldl_cons, ih]
    by_cases isPair : v.proposedMatch = m.src ∧ m.dst < m.src
    · have found : computeMatch m v = { v with matchIteration := 0 } := by
        unfold computeMatch
        rw [if_pos isPair.1, if_pos isPair.2]
      have isFound : ∃ m' ∈ m :: messages, v.proposedMatch = m'.src ∧ m'.dst < m'.src :=
        ⟨m, List.mem_cons_self, isPair⟩
      rw [found, if_pos isFound]
      exact ite_id _
    · have same : computeMatch m v = v := by
        unfold computeMatch
        by_cases back : v.proposedMatch = m.src
        · rw [if_pos back, if_neg fun less => isPair ⟨back, less⟩]
        · rw [if_neg back]
      rw [same]
      simp only [List.mem_cons, exists_eq_or_imp, isPair, false_or]

/-- Behind `step_compute_match` the roots know that they are roots. -/
theorem spreadTo_of_matches (unknown : UnknownEdges c unknownEdges)
    (named : ∀ m ∈ unknownEdges, m.src ≠ noVertex ∧ m.dst ≠ noVertex)
    (bids : Bids c unknownEdges p proposers) {matched : McstState W} (run : Matches c p matched) :
    matched = { p with vertex := matched.vertex } ∧ SpreadTo p proposers 0 matched := by
  obtain ⟨order, perm, ran⟩ := StreamPass.exists_order (fun st => st)
    (fun m => onVertex computeMatch 0 m.key m) (fun _ st => ⟨rfl, rfl⟩) (by intros; rfl) run
  rw [foldl_onVertex] at ran
  subst ran
  refine ⟨rfl, ?_⟩
  -- a vertex is marked exactly if it is a root
  have marked {v : Nat} (member : v ∈ proposers) :
      (order.filter fun m => m.key = v).foldl (fun vertex m => computeMatch m vertex) (p.vertex v) =
        if depthOf p proposers v = 0 then { p.vertex v with matchIteration := 0 } else p.vertex v := by
    rw [foldl_computeMatch]
    refine if_congr ?_ rfl rfl
    rw [depthOf_eq_zero_iff unknown bids member]
    constructor
    · rintro ⟨m, taken, back, less⟩
      obtain ⟨isMessage, addressed⟩ := List.mem_filter.mp taken
      rw [decide_eq_true_eq] at addressed
      rw [perm.mem_iff, bids.messages0] at isMessage
      obtain ⟨u, isProposer, rfl⟩ := List.mem_map.mp isMessage
      have small := bids.small named isProposer
      have number : (BitVec.ofNat 32 u).toNat = u := by
        rw [BitVec.toNat_ofNat]
        exact Nat.mod_eq_of_lt (by omega)
      have isNext : next p v = u := (congrArg BitVec.toNat back).trans number
      have backNext : next p u = v := addressed
      refine ⟨List.mem_toFinset.mpr member, by rw [isNext, backNext], ?_⟩
      have less' : next p u < (BitVec.ofNat 32 u).toNat := less
      rwa [number, backNext, ← isNext] at less'
    · rintro ⟨-, back, less⟩
      have there := next_mem unknown bids member
      have small := bids.small named there
      refine ⟨proposalOf p (next p v), List.mem_filter.mpr ⟨?_, decide_eq_true back⟩, ?_, ?_⟩
      · rw [perm.mem_iff, bids.messages0]
        exact List.mem_map.mpr ⟨_, there, rfl⟩
      · exact (BitVec.ofNat_toNat 32 (p.vertex v).proposedMatch).symm
      · change next p (next p v) < (BitVec.ofNat 32 (next p v)).toNat
        rw [BitVec.toNat_ofNat, Nat.mod_eq_of_lt (by omega), back]
        exact less
  constructor
  · intro v member
    simp only [marked member]
    split
    · rfl
    · rfl
  · intro v member near
    have zero : depthOf p proposers v = 0 := Nat.le_zero.mp near
    have own : rootOf p proposers v = v :=
      root_of_isRoot ((depthOf_eq_zero_iff unknown bids member).mp zero)
    simp only [marked member, if_pos zero]
    rw [zero, own]
    exact ⟨(bids.fresh v member).1, rfl⟩
  · intro v member far
    simp only [marked member, if_neg (Nat.pos_iff_ne_zero.mp far)]
    exact bids.fresh v member

end Matching

section Spreading

variable {W : Type} [LinearOrder W] {c : Configuration} {unknownEdges : List (McstMessage W)}
  {p : McstState W} {proposers : List Nat}

/-- The vertices that are `n` proposals away from their roots. -/
noncomputable def atDepth (p : McstState W) (proposers : List Nat) (n : Nat) : List Nat :=
  proposers.filter fun v => depthOf p proposers v = n

omit [LinearOrder W] in
/-- `step_propagate_root` over messages. -/
theorem foldl_onPropagate (order : List (McstMessage W)) (st : McstState W) :
    order.foldl (fun st m => onPropagate 0 m.key m st) st =
      { st with messages1 := st.messages1 ++
          order.filterMap fun m => propagateRoot st.currentCcspreadIteration m (st.vertex m.key) } := by
  induction order generalizing st with
  | nil =>
    rw [List.filterMap_nil, List.append_nil]
    rfl
  | cons m order ih =>
    rw [List.foldl_cons, ih]
    unfold onPropagate
    congr 1
    rw [List.append_assoc, List.filterMap_cons]
    cases propagateRoot st.currentCcspreadIteration m (st.vertex m.key) with
    | none => rfl
    | some out => rfl

/-- `step_propagate_root` behind `n` passes sends the roots to the vertices of depth `n + 1`. -/
theorem sent_of_propagates (unknown : UnknownEdges c unknownEdges)
    (named : ∀ m ∈ unknownEdges, m.src ≠ noVertex ∧ m.dst ≠ noVertex)
    (bids : Bids c unknownEdges p proposers) {st after : McstState W} {n : Nat} (few : n < 2 ^ 32 - 1)
    (spread : SpreadTo p proposers n st) (messages0 : st.messages0 = p.messages0)
    (iteration : st.currentCcspreadIteration = BitVec.ofNat 32 n) (run : Propagates c st after) :
    ∃ sent : List (McstMessage W), after = { st with messages1 := st.messages1 ++ sent } ∧
      sent.Perm ((atDepth p proposers (n + 1)).map (rootMessage p proposers)) := by
  obtain ⟨order, perm, ran⟩ := StreamPass.exists_order (fun st => st)
    (fun m => onPropagate 0 m.key m) (fun _ st => ⟨rfl, rfl⟩) (by intros; rfl) run
  rw [foldl_onPropagate] at ran
  refine ⟨_, ran, (perm.filterMap _).trans (List.Perm.of_eq ?_)⟩
  rw [messages0, bids.messages0, List.filterMap_map]
  unfold atDepth
  rw [← filterMap_ite (fun v => depthOf p proposers v = n + 1)]
  refine List.filterMap_congr fun v member => ?_
  have there := next_mem unknown bids member
  have small := bids.small named member
  have rootSmall := bids.small named (rootOf_mem unknown bids member)
  have depthSmall := depthOf_lt unknown named bids there
  change (if (st.vertex (next p v)).matchIteration = st.currentCcspreadIteration ∧
      BitVec.ofNat 32 v ≠ (st.vertex (next p v)).componentRoot then _ else none) = _
  rw [iteration]
  by_cases near : depthOf p proposers (next p v) ≤ n
  · obtain ⟨isRoot, isDepth⟩ := spread.near _ there near
    rw [rootOf_next unknown bids member] at isRoot
    refine (if_congr ?_ ?_ rfl)
    · rw [isDepth, isRoot, depthOf_eq_succ_iff unknown bids member]
      constructor
      · rintro ⟨same, other⟩
        exact ⟨ofNat_inj (by omega) (by omega) same, fun own => other (congrArg _ own)⟩
      · rintro ⟨same, other⟩
        exact ⟨congrArg _ same, fun own => other (ofNat_inj (by omega) (by omega) own)⟩
    · exact congrArg (fun r => some (⟨r, BitVec.ofNat 32 v, (p.vertex v).propositionCost⟩ : McstMessage W))
        isRoot
  · have fresh := (spread.far _ there (Nat.lt_of_not_le near)).2
    rw [fresh, if_neg fun both => noVertex_ne_ofNat few both.1,
      if_neg fun succ => near (((depthOf_eq_succ_iff unknown bids member n).mp succ).1.le)]

omit [LinearOrder W] in
/-- `step_absorb_root` over the messages of a vertex, which all name one root. -/
theorem foldl_absorbRoot {messages : List (McstMessage W)} {r : VertexT} (same : ∀ m ∈ messages, m.src = r)
    (iteration : VertexT) (v : McstVertex W) :
    messages.foldl (fun v m => absorbRoot iteration m v) v =
      if messages = [] then v else { v with componentRoot := r, matchIteration := iteration } := by
  induction messages generalizing v with
  | nil => rfl
  | cons m messages ih =>
    rw [List.foldl_cons, ih fun m' later => same m' (List.mem_cons_of_mem _ later)]
    unfold absorbRoot
    rw [same m List.mem_cons_self, if_neg (List.cons_ne_nil _ _)]
    exact ite_id _

/-- What `reset_stream` does not touch. -/
private def withoutMessages1 (st : McstState W) : McstState W := { st with messages1 := [] }

omit [LinearOrder W] in
/-- `step_absorb_root` over all messages. -/
theorem vertex_of_absorbs {st after : McstState W} (run : Absorbs c st after) :
    ∃ order : List (McstMessage W), order.Perm st.messages1 ∧
      after = { st with
        vertex := fun v => (order.filter fun m => m.key = v).foldl
          (fun vertex m => absorbRoot st.currentCcspreadIteration m vertex) (st.vertex v)
        messages1 := [] } := by
  obtain ⟨order, perm, ran⟩ := StreamPass.exists_order withoutMessages1
    (fun m => onVertex (absorbRoot st.currentCcspreadIteration) 0 m.key m)
    (by intros; exact ⟨rfl, rfl⟩) (by intros; rfl) run
  have emptied : after.messages1 = [] := StreamPass.reset_whole McstState.messages1 McstMessage.key
    (by intros; rfl) (by intros; rfl) (by intros; rfl) run
  rw [foldl_onVertex] at ran
  refine ⟨order, perm, Eq.trans ?_ ran⟩
  unfold withoutMessages1
  rw [← emptied]

/-- `step_absorb_root` takes the roots one proposal further. -/
theorem spreadTo_of_absorbs
    (named : ∀ m ∈ unknownEdges, m.src ≠ noVertex ∧ m.dst ≠ noVertex)
    (bids : Bids c unknownEdges p proposers) {st after : McstState W} {n : Nat}
    (spread : SpreadTo p proposers n st) (iteration : st.currentCcspreadIteration = BitVec.ofNat 32 (n + 1))
    (messages1 : st.messages1.Perm ((atDepth p proposers (n + 1)).map (rootMessage p proposers)))
    (run : Absorbs c st after) :
    after = { st with vertex := after.vertex, messages1 := [] } ∧ SpreadTo p proposers (n + 1) after := by
  obtain ⟨order, perm, rfl⟩ := vertex_of_absorbs run
  refine ⟨rfl, ?_⟩
  have isMessage (m : McstMessage W) : m ∈ order ↔
      ∃ v, (v ∈ proposers ∧ depthOf p proposers v = n + 1) ∧ rootMessage p proposers v = m := by
    rw [(perm.trans messages1).mem_iff, List.mem_map]
    unfold atDepth
    simp only [List.mem_filter, decide_eq_true_eq]
  have own {u v : Nat} (isProposer : u ∈ proposers) (addressed : (rootMessage p proposers u).key = v) :
      u = v := by
    have small := bids.small named isProposer
    have number : (BitVec.ofNat 32 u).toNat = v := addressed
    rwa [BitVec.toNat_ofNat, Nat.mod_eq_of_lt (by omega)] at number
  have absorbed {v : Nat} (member : v ∈ proposers) :
      (order.filter fun m => m.key = v).foldl
          (fun vertex m => absorbRoot st.currentCcspreadIteration m vertex) (st.vertex v) =
        if depthOf p proposers v = n + 1 then
          { st.vertex v with
            componentRoot := BitVec.ofNat 32 (rootOf p proposers v)
            matchIteration := BitVec.ofNat 32 (n + 1) }
        else st.vertex v := by
    have small := bids.small named member
    have oneRoot : ∀ m ∈ order.filter fun m => m.key = v,
        m.src = BitVec.ofNat 32 (rootOf p proposers v) := by
      intro m taken
      obtain ⟨inOrder, addressed⟩ := List.mem_filter.mp taken
      rw [decide_eq_true_eq] at addressed
      obtain ⟨u, ⟨isProposer, -⟩, rfl⟩ := (isMessage m).mp inOrder
      rw [own isProposer addressed]
      rfl
    rw [foldl_absorbRoot oneRoot, iteration]
    by_cases here : depthOf p proposers v = n + 1
    · have addressed : (rootMessage p proposers v).key = v := by
        change (BitVec.ofNat 32 v).toNat = v
        rw [BitVec.toNat_ofNat]
        exact Nat.mod_eq_of_lt (by omega)
      have taken : rootMessage p proposers v ∈ order.filter fun m => m.key = v :=
        List.mem_filter.mpr ⟨(isMessage _).mpr ⟨v, ⟨member, here⟩, rfl⟩, decide_eq_true addressed⟩
      rw [if_neg (List.ne_nil_of_mem taken), if_pos here]
    · have nothing : (order.filter fun m => m.key = v) = [] := by
        rw [List.filter_eq_nil_iff]
        intro m inOrder
        obtain ⟨u, ⟨isProposer, isDepth⟩, rfl⟩ := (isMessage m).mp inOrder
        rw [decide_eq_true_eq]
        exact fun addressed => here (own isProposer addressed ▸ isDepth)
      rw [if_pos nothing, if_neg here]
  constructor
  · intro v member
    simp only [absorbed member]
    split
    · exact spread.proposedMatch v member
    · exact spread.proposedMatch v member
  · intro v member near
    simp only [absorbed member]
    by_cases here : depthOf p proposers v = n + 1
    · rw [if_pos here, here]
      exact ⟨rfl, rfl⟩
    · rw [if_neg here]
      exact spread.near v member (by omega)
  · intro v member far
    simp only [absorbed member, if_neg (Nat.ne_of_gt far)]
    exact spread.far v member (by omega)

/-- The vertices that have been reached by then. -/
noncomputable def reached (p : McstState W) (proposers : List Nat) (n : Nat) : List Nat :=
  (proposers.filter fun v => 0 < depthOf p proposers v).filter fun v => depthOf p proposers v < n + 1

/-- The head of the loop behind `n` rounds of messages. -/
structure SpreadLoop (p : McstState W) (proposers : List Nat) (n : Nat)
    (s : McstState W × List (McstMessage W)) : Prop where
  spread : SpreadTo p proposers n s.1
  iteration : s.1.currentCcspreadIteration = BitVec.ofNat 32 (n + 1)
  messages0 : s.1.messages0 = p.messages0
  messages1 : s.1.messages1.Perm ((atDepth p proposers (n + 1)).map (rootMessage p proposers))
  absorbed : s.2.Perm ((reached p proposers n).map (rootMessage p proposers))
  counters : s.1.treeEdgesLocal = p.treeEdgesLocal ∧ s.1.treeEdgesGlobal = p.treeEdgesGlobal

omit [LinearOrder W] in
theorem SpreadTo.of_vertex_eq {n : Nat} {st st' : McstState W} (spread : SpreadTo p proposers n st)
    (same : st'.vertex = st.vertex) : SpreadTo p proposers n st' := by
  constructor
  · rw [same]
    exact spread.proposedMatch
  · rw [same]
    exact spread.near
  · rw [same]
    exact spread.far

theorem spreadLoop_start (unknown : UnknownEdges c unknownEdges)
    (named : ∀ m ∈ unknownEdges, m.src ≠ noVertex ∧ m.dst ≠ noVertex)
    (bids : Bids c unknownEdges p proposers) (empty : p.messages1 = []) {matched started : McstState W}
    (matches_ : Matches c p matched) (starts : StartsSpread c matched started) :
    SpreadLoop p proposers 0 (started, []) := by
  obtain ⟨others, spread⟩ := spreadTo_of_matches unknown named bids matches_
  obtain ⟨after, run, rfl⟩ := starts
  have atStart : SpreadTo p proposers 0 { matched with currentCcspreadIteration := 0 } :=
    spread.of_vertex_eq rfl
  obtain ⟨sent, rfl, perm⟩ := sent_of_propagates unknown named bids (by omega) atStart
    (by rw [others]) rfl run
  refine ⟨spread.of_vertex_eq rfl, rfl, by rw [others], ?_, ?_, by rw [others]; exact ⟨rfl, rfl⟩⟩
  · have none_ : matched.messages1 = [] := by rw [others, ← empty]
    simp only [none_, List.nil_append]
    exact perm
  · have nobody : reached p proposers 0 = [] := by
      unfold reached
      rw [List.filter_filter, List.filter_eq_nil_iff]
      intro v _
      simp only [Bool.and_eq_true, decide_eq_true_eq]
      omega
    rw [nobody]
    exact List.Perm.nil

/-- One pass more. -/
theorem SpreadLoop.step (unknown : UnknownEdges c unknownEdges)
    (named : ∀ m ∈ unknownEdges, m.src ≠ noVertex ∧ m.dst ≠ noVertex)
    (bids : Bids c unknownEdges p proposers) {n : Nat} {s s' : McstState W × List (McstMessage W)}
    (loop : SpreadLoop p proposers n s) (goesOn : s.1.messages1 ≠ []) (spreads : Spreads c s s') :
    SpreadLoop p proposers (n + 1) s' ∧ s'.2 = s.2 ++ s.1.messages1 := by
  obtain ⟨mid, after, absorbs, propagates, rfl⟩ := spreads
  obtain ⟨others, spread⟩ := spreadTo_of_absorbs named bids loop.spread loop.iteration loop.messages1 absorbs
  have few : n + 1 < 2 ^ 32 - 1 := by
    obtain ⟨m, isMessage⟩ := List.exists_mem_of_ne_nil _ goesOn
    obtain ⟨v, atDepth_, -⟩ := List.mem_map.mp (loop.messages1.mem_iff.mp isMessage)
    obtain ⟨member, isDepth⟩ := List.mem_filter.mp atDepth_
    rw [decide_eq_true_eq] at isDepth
    rw [← isDepth]
    exact depthOf_lt unknown named bids member
  obtain ⟨sent, rfl, perm⟩ := sent_of_propagates unknown named bids few spread
    (by rw [others]; exact loop.messages0) (by rw [others]; exact loop.iteration) propagates
  refine ⟨⟨spread.of_vertex_eq rfl, ?_, by rw [others]; exact loop.messages0, ?_, ?_,
    by rw [others]; exact loop.counters⟩, rfl⟩
  · have iteration : mid.currentCcspreadIteration = BitVec.ofNat 32 (n + 1) := by
      rw [others]
      exact loop.iteration
    simp only [iteration]
    exact (BitVec.ofNat_add (n + 1) 1).symm
  · have none_ : mid.messages1 = [] := by rw [others]
    simp only [none_, List.nil_append]
    exact perm
  · refine (loop.absorbed.append loop.messages1).trans ?_
    rw [← List.map_append]
    refine List.Perm.map _ (List.Perm.trans (List.Perm.of_eq ?_) (ScatterGather.perm_filter_lt_succ
      (depthOf p proposers) (proposers.filter fun v => 0 < depthOf p proposers v) (n + 1)))
    unfold reached atDepth
    congr 1
    rw [List.filter_filter]
    refine List.filter_congr fun v _ => ?_
    rw [Bool.eq_iff_iff, Bool.and_eq_true, decide_eq_true_eq, decide_eq_true_eq]
    omega

end Spreading

section Ends

variable {W : Type} [LinearOrder W] {c : Configuration} {unknownEdges : List (McstMessage W)}
  {p : McstState W} {proposers : List Nat}

/-- The first ends of the pairs are the roots. -/
theorem mem_firstEnds_iff (unknown : UnknownEdges c unknownEdges)
    (named : ∀ m ∈ unknownEdges, m.src ≠ noVertex ∧ m.dst ≠ noVertex)
    (bids : Bids c unknownEdges p proposers) (v : Nat) :
    v ∈ (mutualPairs p.messages0).map Prod.fst ↔ IsRoot proposers.toFinset (next p) v := by
  rw [List.mem_map]
  constructor
  · rintro ⟨pair, isPair, rfl⟩
    exact ((bids.mem_mutualPairs_iff unknown named pair).mp isPair).1
  · intro isRoot
    exact ⟨(v, next p v), (bids.mem_mutualPairs_iff unknown named _).mpr ⟨isRoot, rfl⟩, rfl⟩

/-- Without messages all vertices have been reached. -/
theorem SpreadLoop.depthOf_le (unknown : UnknownEdges c unknownEdges) (bids : Bids c unknownEdges p proposers)
    {n : Nat} {s : McstState W × List (McstMessage W)} (loop : SpreadLoop p proposers n s)
    (stop : s.1.messages1 = []) {v : Nat} (member : v ∈ proposers) : depthOf p proposers v ≤ n := by
  by_contra deeper
  obtain ⟨u, isProposer, isDepth⟩ := (bids.alongLeast unknown).exists_depth (List.mem_toFinset.mpr member)
    (k := n + 1) (Nat.lt_of_not_le deeper)
  have perm := loop.messages1
  rw [stop] at perm
  have waiting : rootMessage p proposers u ∈ ([] : List (McstMessage W)) :=
    perm.mem_iff.mpr (List.mem_map.mpr ⟨u, List.mem_filter.mpr ⟨List.mem_toFinset.mp isProposer,
      decide_eq_true isDepth⟩, rfl⟩)
  exact List.not_mem_nil waiting

theorem SpreadLoop.rootsFound (unknown : UnknownEdges c unknownEdges)
    (named : ∀ m ∈ unknownEdges, m.src ≠ noVertex ∧ m.dst ≠ noVertex)
    (bids : Bids c unknownEdges p proposers) {n : Nat} {s : McstState W × List (McstMessage W)}
    (loop : SpreadLoop p proposers n s) (stop : s.1.messages1 = []) : RootsFound p.messages0 s.1 := by
  rintro ⟨v, w⟩ proposal pair isPair joined
  have member := ((bids.mem_graph_iff named v w).mp proposal).1
  have isRoot := ((bids.mem_mutualPairs_iff unknown named pair).mp isPair).1
  have isOwn : pair.1 = rootOf p proposers v :=
    (bids.connected_iff unknown named member isRoot).mp joined
  have small := bids.small named (rootOf_mem unknown bids member)
  have found := (loop.spread.near v member (loop.depthOf_le unknown bids stop member)).1
  rw [isOwn, found, BitVec.toNat_ofNat, Nat.mod_eq_of_lt (by omega)]

theorem SpreadLoop.absorbsOnce (unknown : UnknownEdges c unknownEdges)
    (named : ∀ m ∈ unknownEdges, m.src ≠ noVertex ∧ m.dst ≠ noVertex)
    (bids : Bids c unknownEdges p proposers) {n : Nat} {s : McstState W × List (McstMessage W)}
    (loop : SpreadLoop p proposers n s) (stop : s.1.messages1 = []) : AbsorbsOnce p.messages0 s.2 := by
  refine (loop.absorbed.map McstMessage.key).trans (List.Perm.of_eq ?_)
  have own : ∀ v ∈ reached p proposers n, (McstMessage.key ∘ rootMessage p proposers) v = v := by
    intro v isReached
    have small := bids.small named (List.mem_of_mem_filter (List.mem_of_mem_filter isReached))
    change (BitVec.ofNat 32 v).toNat = v
    rw [BitVec.toNat_ofNat]
    exact Nat.mod_eq_of_lt (by omega)
  have firsts : (proposers.map fun v => (v, next p v)).map Prod.fst = proposers := by
    rw [List.map_map]
    exact List.map_id proposers
  rw [List.map_map, List.map_congr_left own, List.map_id', bids.graph named, firsts]
  unfold reached
  rw [List.filter_filter]
  refine List.filter_congr fun v member => ?_
  have le := loop.depthOf_le unknown bids stop member
  have zero := depthOf_eq_zero_iff unknown bids member
  rw [Bool.eq_iff_iff, Bool.and_eq_true, decide_eq_true_eq, decide_eq_true_eq, decide_eq_true_eq,
    mem_firstEnds_iff unknown named bids, ← zero]
  omega

end Ends

section TreeEdges

variable {W : Type} [LinearOrder W] {c : Configuration} {unknownEdges : List (McstMessage W)}
  {p : McstState W} {proposers : List Nat}

/-- The tree edges counted so far, also those not reduced yet. -/
def treeEdgesCounted (c : Configuration) (st : McstState W) : Nat :=
  st.treeEdgesGlobal + ((List.range c.processors).map st.treeEdgesLocal).sum

private theorem sum_range_map (f : Nat → Nat) (n : Nat) :
    ((List.range n).map f).sum = ∑ i ∈ Finset.range n, f i := rfl

omit [LinearOrder W] in
theorem treeEdgesCounted_onWriteTreeEdge {processor : Nat} (known : processor < c.processors)
    (m : McstMessage W) (st : McstState W) :
    treeEdgesCounted c (onWriteTreeEdge processor m.key m st) =
      treeEdgesCounted c st + (writeTreeEdge m (st.vertex m.key)).2 := by
  have exchanged := ScatterGather.sum_update_add (f := st.treeEdgesLocal) known
    (st.treeEdgesLocal processor + (writeTreeEdge m (st.vertex m.key)).2)
  unfold treeEdgesCounted onWriteTreeEdge
  simp only [sum_range_map]
  omega

omit [LinearOrder W] in
theorem treeEdgesCounted_reduceTreeEdges (superp : Nat) (st : McstState W) :
    treeEdgesCounted c (reduceTreeEdges c superp st) = treeEdgesCounted c st := by
  have nothing : ((List.range c.processors).map fun q => if q < c.processors then 0 else
      st.treeEdgesLocal q).sum = 0 := by
    refine List.sum_eq_zero fun x member => ?_
    obtain ⟨q, below, rfl⟩ := List.mem_map.mp member
    exact if_pos (List.mem_range.mp below)
  unfold treeEdgesCounted reduceTreeEdges
  simp only [nothing, Nat.add_zero]

/-- What is added up over messages while the vertices stay. -/
private theorem foldl_counting {V M : Type} (count : V → M → Nat) (order : List M) (t : V × Nat) :
    order.foldl (fun t m => (t.1, t.2 + count t.1 m)) t = (t.1, t.2 + (order.map (count t.1)).sum) := by
  induction order generalizing t with
  | nil => rfl
  | cons m order ih => rw [List.foldl_cons, ih, List.map_cons, List.sum_cons, ← Nat.add_assoc]

omit [LinearOrder W] in
theorem counted_of_writes {st done : McstState W} (run : WritesTreeEdges c st done) :
    treeEdgesCounted c done = treeEdgesCounted c st +
      (st.messages0.map fun m => (writeTreeEdge m (st.vertex m.key)).2).sum := by
  obtain ⟨order, perm, ran⟩ := StreamPass.exists_order (fun st => (st.vertex, treeEdgesCounted c st))
    (fun m t => (t.1, t.2 + (writeTreeEdge m (t.1 m.key)).2))
    (fun superp st => ⟨rfl, congrArg (st.vertex, ·) (treeEdgesCounted_reduceTreeEdges superp st)⟩)
    (by
      intro processor known m _ st
      exact congrArg (st.vertex, ·) (treeEdgesCounted_onWriteTreeEdge known m st)) run
  rw [foldl_counting fun (vertex : Nat → McstVertex W) m => (writeTreeEdge m (vertex m.key)).2] at ran
  rw [(Prod.mk.inj ran).2, (perm.map _).sum_eq]

omit [LinearOrder W] in
/-- The last super partition has reduced everything. -/
theorem reduced_of_writes {st done : McstState W} (run : WritesTreeEdges c st done) :
    (∀ q < c.processors, done.treeEdgesLocal q = 0) ∧ done.treeEdgesGlobal = treeEdgesCounted c done := by
  unfold WritesTreeEdges at run
  have positive := c.superPartitions_pos
  generalize c.superPartitions = superps at run positive
  cases run with
  | none => exact absurd positive (Nat.lt_irrefl 0)
  | next others delivered =>
    exact ⟨fun q known => if_pos known, (treeEdgesCounted_reduceTreeEdges _ _).symm⟩

omit [LinearOrder W] in
theorem startsRound_of_writes {st done : McstState W} (empty : st.messages1 = [])
    (run : WritesTreeEdges c st done) : StartsRound c done := by
  have emptied : done.messages0 = [] := StreamPass.reset_whole McstState.messages0 McstMessage.key
    (by intros; rfl) (by intros; rfl) (by intros; rfl) run
  obtain ⟨order, -, ran⟩ := StreamPass.exists_order McstState.messages1 (fun _ messages1 => messages1)
    (by intros; exact ⟨rfl, rfl⟩) (by intros; rfl) run
  rw [List.foldl_fixed] at ran
  exact ⟨emptied, ran.trans empty, (reduced_of_writes run).1⟩

private theorem sum_ite_add_length_filter {α : Type} (uncounted : α → Prop) [DecidablePred uncounted]
    (l : List α) : (l.map fun a => if uncounted a then 0 else 1).sum + (l.filter uncounted).length =
      l.length := by
  induction l with
  | nil => rfl
  | cons a l ih =>
    rw [List.map_cons, List.sum_cons, List.length_cons, List.filter_cons]
    by_cases out : uncounted a
    · rw [if_pos out, if_pos (decide_eq_true out), List.length_cons]
      omega
    · rw [if_neg out, if_neg (by simpa using out)]
      omega

/-- What is counted for a proposal: all but those of the larger ends of the pairs. -/
theorem count_proposalOf (unknown : UnknownEdges c unknownEdges)
    (named : ∀ m ∈ unknownEdges, m.src ≠ noVertex ∧ m.dst ≠ noVertex)
    (bids : Bids c unknownEdges p proposers) {n : Nat} {st : McstState W} (spread : SpreadTo p proposers n st)
    {v : Nat} (member : v ∈ proposers) :
    (writeTreeEdge (proposalOf p v) (st.vertex (proposalOf p v).key)).2 =
      if next p (next p v) = v ∧ next p v < v then 0 else 1 := by
  have there := next_mem unknown bids member
  have small := bids.small named member
  have number : (BitVec.ofNat 32 v).toNat = v := by
    rw [BitVec.toNat_ofNat]
    exact Nat.mod_eq_of_lt (by omega)
  have kept : (st.vertex (proposalOf p v).key).proposedMatch = (p.vertex (next p v)).proposedMatch :=
    spread.proposedMatch _ there
  have other := (bids.alongLeast unknown).ne_self v (List.mem_toFinset.mpr member)
  have less : (proposalOf p v).src < (proposalOf p v).dst ↔ v < next p v := by
    change (BitVec.ofNat 32 v).toNat < next p v ↔ v < next p v
    rw [number]
  unfold writeTreeEdge
  rw [kept]
  by_cases back : next p (next p v) = v
  · have isPair : (proposalOf p v).src = (p.vertex (next p v)).proposedMatch :=
      BitVec.eq_of_toNat_eq (number.trans back.symm)
    rw [if_pos isPair]
    simp only [less, back, true_and]
    by_cases larger : next p v < v
    · rw [if_pos larger, if_neg (by omega)]
    · rw [if_neg larger, if_pos (by omega)]
  · have noPair : (proposalOf p v).src ≠ (p.vertex (next p v)).proposedMatch := fun same =>
      back ((congrArg BitVec.toNat same).symm.trans number)
    rw [if_neg noPair, if_neg fun both => back both.1]

/-- There are as many pairs as larger ends of pairs. -/
theorem length_mutualPairs (unknown : UnknownEdges c unknownEdges)
    (named : ∀ m ∈ unknownEdges, m.src ≠ noVertex ∧ m.dst ≠ noVertex)
    (bids : Bids c unknownEdges p proposers) :
    (mutualPairs p.messages0).length =
      (proposers.filter fun v => next p (next p v) = v ∧ next p v < v).length := by
  have inFinset (q : Nat → Prop) [DecidablePred q] :
      (proposers.filter q).length = (proposers.toFinset.filter q).card := by
    rw [← List.toFinset_card_of_nodup (bids.nodup.filter _), List.toFinset_filter]
    simp only [decide_eq_true_eq]
  rw [inFinset, (bids.alongLeast unknown).card_larger_ends, ← inFinset]
  have roots : (mutualPairs p.messages0) =
      (proposers.filter (IsRoot proposers.toFinset (next p))).map fun v => (v, next p v) := by
    unfold mutualPairs
    rw [bids.graph named, List.filter_map]
    congr 1
    refine List.filter_congr fun v member => ?_
    rw [← bids.graph named, Bool.eq_iff_iff, decide_eq_true_eq, Function.comp_apply, Bool.and_eq_true,
      decide_eq_true_eq, List.contains_iff_mem]
    simp only [bids.mem_graph_iff named]
    unfold IsRoot
    rw [List.mem_toFinset]
    exact ⟨fun both => ⟨member, both.2.2, both.1⟩, fun isRoot =>
      ⟨isRoot.2.2, next_mem unknown bids member, isRoot.2.1⟩⟩
  rw [roots, List.length_map]

theorem treeEdges_of_writes (unknown : UnknownEdges c unknownEdges)
    (named : ∀ m ∈ unknownEdges, m.src ≠ noVertex ∧ m.dst ≠ noVertex)
    (bids : Bids c unknownEdges p proposers) {n : Nat} {st done : McstState W}
    (spread : SpreadTo p proposers n st) (messages0 : st.messages0 = p.messages0)
    (run : WritesTreeEdges c st done) :
    done.treeEdgesGlobal + (mutualPairs p.messages0).length =
      treeEdgesCounted c st + p.messages0.length := by
  have counts : (st.messages0.map fun m => (writeTreeEdge m (st.vertex m.key)).2).sum =
      (proposers.map fun v => if next p (next p v) = v ∧ next p v < v then 0 else 1).sum := by
    rw [messages0, bids.messages0, List.map_map]
    exact congrArg List.sum
      (List.map_congr_left fun v member => count_proposalOf unknown named bids spread member)
  have total := sum_ite_add_length_filter (fun v => next p (next p v) = v ∧ next p v < v) proposers
  have proposed : p.messages0.length = proposers.length := by rw [bids.messages0, List.length_map]
  rw [(reduced_of_writes run).2, counted_of_writes run, counts, length_mutualPairs unknown named bids, proposed]
  omega

end TreeEdges

section Correct

variable {W : Type} [LinearOrder W] {c : Configuration} {st : McstState W}

end Correct

end Mcst

end MBFGraph
