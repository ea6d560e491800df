import MBFGraph.Algorithms.BfsAsync
import MBFGraph.Core.Proofs.DriverPhases
import MBFGraph.Lib.Discovery

/-!
# The search of bfs_async

However the flushes are placed, an update that is looped back reaches a vertex of the next level in the superstep
in which it was generated, and marks it with the next superstep. So a vertex is only discovered earlier, never on
another level: every step of the driver keeps the invariant `Discovery.Wave`.
-/

namespace MBFGraph

open Walks Discovery

namespace BfsAsync

open Bfs (noParent BfsUpdate)
open AsyncScatterGather

/-- A vertex, once discovered, with its parent and its level. -/
def view (v : BfsVertex) : Option (Nat × Nat) :=
  if v.bfsParent = noParent then none else some (v.bfsParent.toNat, v.bspPhase.toNat)

/-- An update as an offer. -/
def offer (u : BfsUpdate) : Nat × Nat := (u.parent.toNat, u.child.toNat)

/-- The vertices as the search sees them: those whose record has not been initialised yet are at the start. -/
def shown (bfsRoot : Nat) (started : Nat → Bool) (state : Nat → BfsVertex) (v : Nat) :
    Option (Nat × Nat) :=
  if started v = true then view (state v) else initial bfsRoot v

/-- How many vertices have been discovered. -/
def discovered (vertices : Nat) (s : Nat → Option (Nat × Nat)) : Nat :=
  ∑ v ∈ Finset.range vertices, if s v = none then 0 else 1

/-- What the processors counted. -/
def counted (c : Configuration) (algoPcpu : Nat → PerProcessorData) : Nat :=
  ∑ p ∈ Finset.range c.processors, (algoPcpu p).verticesDiscovered

/-- A processor has generated an update. -/
def Seen (c : Configuration) (algoPcpu : Nat → PerProcessorData) : Prop :=
  ∃ p < c.processors, (algoPcpu p).seenUpdate = true

section

variable {c : Configuration} {bfsRoot : Nat} {started : Nat → Bool} {superp : Nat}

abbrev State := AsyncState BfsVertex BfsUpdate PerProcessorData Totals

/-! ## Applying updates -/

/-- Some updates have been applied. -/
structure Applies (c : Configuration) (bfsRoot : Nat) (started : Nat → Bool) (level : Nat)
    (records : List BfsUpdate) (st st' : State) : Prop where
  others : st' = { st with state := st'.state, algoPcpu := st'.algoPcpu }
  takes : Takes level (records.map offer) (shown bfsRoot started st.state) (shown bfsRoot started st'.state)
  seen : ∀ p, (st'.algoPcpu p).seenUpdate = (st.algoPcpu p).seenUpdate
  counts : counted c st'.algoPcpu + discovered c.vertices (shown bfsRoot started st.state) =
    counted c st.algoPcpu + discovered c.vertices (shown bfsRoot started st'.state)

theorem Applies.refl (level : Nat) (st : State) : Applies c bfsRoot started level [] st st where
  others := rfl
  takes := Takes.refl _
  seen _ := rfl
  counts := rfl

theorem Applies.trans {level : Nat} {front back : List BfsUpdate} {st st' st'' : State}
    (first : Applies c bfsRoot started level front st st')
    (second : Applies c bfsRoot started level back st' st'') :
    Applies c bfsRoot started level (front ++ back) st st'' where
  others := by rw [second.others, first.others]
  takes := by
    rw [List.map_append]
    exact first.takes.trans second.takes
  seen p := (second.seen p).trans (first.seen p)
  counts := by
    have := first.counts
    have := second.counts
    omega

/-- What a flush or a gather phase knows about an update. -/
structure Belongs (c : Configuration) (started : Nat → Bool) (superp partition level : Nat)
    (u : BfsUpdate) : Prop where
  isParent : u.parent ≠ noParent
  narrow : level < 2 ^ 32
  inside : u.child.toNat < c.vertices
  begun : started u.child.toNat = true
  ofSuperp : c.mapSuperPartition u.child.toNat = superp
  ofPartition : c.mapCachedPartition u.child.toNat = partition

theorem view_of_isParent {p : VertexT} (isParent : p ≠ noParent) (phase : VertexT) :
    view ⟨p, phase⟩ = some (p.toNat, phase.toNat) := by
  unfold view
  rw [if_neg isParent]

theorem view_eq_none_iff (v : BfsVertex) : view v = none ↔ v.bfsParent = noParent := by
  unfold view
  split <;> simp_all

/-- The superstep that `apply_one_update` writes. -/
def written (loopback : Bool) (bspPhase : Nat) : VertexT :=
  if loopback then BitVec.ofNat 32 bspPhase + 1 else BitVec.ofNat 32 bspPhase

theorem written_toNat {loopback : Bool} {bspPhase level : Nat} (narrow : level < 2 ^ 32)
    (isLevel : level = if loopback then bspPhase + 1 else bspPhase) :
    (written loopback bspPhase).toNat = level := by
  unfold written
  cases loopback with
  | false =>
    have same : level = bspPhase := isLevel
    rw [if_neg Bool.false_ne_true, BitVec.toNat_ofNat, ← same, Nat.mod_eq_of_lt narrow]
  | true =>
    have same : level = bspPhase + 1 := isLevel
    rw [if_pos rfl, BitVec.toNat_add, BitVec.toNat_ofNat]
    rw [show (1 : VertexT).toNat = 1 from rfl, Nat.mod_add_mod, ← same, Nat.mod_eq_of_lt narrow]

theorem applies_record {loopback : Bool} {processor partition level : Nat} {u : BfsUpdate} (st : State)
    (known : processor < c.processors) (belongs : Belongs c started superp partition level u)
    (isLevel : level = if loopback then st.bspPhase + 1 else st.bspPhase) :
    Applies c bfsRoot started level [u] st
      (applyRecord c (bfsAsync bfsRoot) loopback superp processor partition st u) := by
  have index : c.mapInverse superp partition (c.mapOffset u.child.toNat) = u.child.toNat :=
    ScatterGather.mapInverse_eq_self belongs.ofSuperp belongs.ofPartition
  have shownChild : shown bfsRoot started st.state u.child.toNat = view (st.state u.child.toNat) := by
    unfold shown
    rw [if_pos belongs.begun]
  cases found : view (st.state u.child.toNat) with
  | some o =>
    have isFound : (st.state u.child.toNat).bfsParent ≠ noParent := by
      intro undiscovered
      rw [(view_eq_none_iff _).mpr undiscovered] at found
      exact absurd found.symm (Option.some_ne_none o)
    have same : applyRecord c (bfsAsync bfsRoot) loopback superp processor partition st u = st := by
      unfold applyRecord
      simp only [bfsAsync, index, applyOneUpdate, if_neg isFound, Function.update_eq_self]
    rw [same]
    refine ⟨rfl, ⟨fun v => .inl rfl, fun o member => ?_⟩, fun _ => rfl, rfl⟩
    rw [List.map_singleton, List.mem_singleton] at member
    rw [member]
    change shown bfsRoot started st.state u.child.toNat ≠ none
    rw [shownChild, found]
    exact Option.some_ne_none _
  | none =>
    have undiscovered := (view_eq_none_iff _).mp found
    have now : applyRecord c (bfsAsync bfsRoot) loopback superp processor partition st u =
        { st with
          state := Function.update st.state u.child.toNat ⟨u.parent, written loopback st.bspPhase⟩
          algoPcpu := Function.update st.algoPcpu processor
            { st.algoPcpu processor with
              verticesDiscovered := (st.algoPcpu processor).verticesDiscovered + 1 } } := by
      unfold applyRecord
      simp only [bfsAsync, index, applyOneUpdate, if_pos undiscovered]
      rfl
    have shownNow : shown bfsRoot started
        (Function.update st.state u.child.toNat ⟨u.parent, written loopback st.bspPhase⟩) =
        Function.update (shown bfsRoot started st.state) u.child.toNat (some (u.parent.toNat, level)) := by
      funext v
      by_cases here : v = u.child.toNat
      · rw [here, Function.update_self]
        unfold shown
        rw [if_pos belongs.begun, Function.update_self, view_of_isParent belongs.isParent,
          written_toNat belongs.narrow isLevel]
      · rw [Function.update_of_ne here]
        unfold shown
        rw [Function.update_of_ne here]
    rw [now]
    refine ⟨rfl, ?_, fun p => ?_, ?_⟩
    · simp only [shownNow]
      constructor
      · intro v
        by_cases here : v = u.child.toNat
        · right
          rw [here, Function.update_self]
          exact ⟨shownChild.trans found, u.parent.toNat, by simp [offer], rfl⟩
        · exact .inl (Function.update_of_ne here _ _)
      · intro o member
        rw [List.map_singleton, List.mem_singleton] at member
        have isChild : (offer u).2 = u.child.toNat := rfl
        rw [member, isChild, Function.update_self]
        exact Option.some_ne_none _
    · by_cases here : p = processor
      · rw [here]
        simp only [Function.update_self]
      · simp only [Function.update_of_ne here]
    · simp only [shownNow]
      have processors := ScatterGather.sum_update_add
        (f := fun p => (st.algoPcpu p).verticesDiscovered) known
        ((st.algoPcpu processor).verticesDiscovered + 1)
      have vertices := ScatterGather.sum_update_add
        (f := fun v => if shown bfsRoot started st.state v = none then 0 else 1) belongs.inside 1
      have processors' := Function.comp_update PerProcessorData.verticesDiscovered st.algoPcpu processor
        { st.algoPcpu processor with
          verticesDiscovered := (st.algoPcpu processor).verticesDiscovered + 1 }
      have vertices' := Function.comp_update (fun o : Option (Nat × Nat) => if o = none then 0 else 1)
        (shown bfsRoot started st.state) u.child.toNat (some (u.parent.toNat, level))
      simp only [funext_iff, Function.comp_apply] at processors' vertices'
      unfold counted discovered
      simp only [processors', vertices', reduceCtorEq, if_false]
      simp only [Function.comp_def] at processors vertices ⊢
      rw [shownChild, found] at vertices
      simp only [if_true] at vertices
      omega

theorem applies_visits {loopback : Bool} {level : Nat} {visits : List (Visit BfsUpdate)}
    (known : ∀ v ∈ visits, v.processor < c.processors)
    (belong : ∀ v ∈ visits, ∀ u ∈ v.records, Belongs c started superp v.partition level u)
    {st : State} (isLevel : level = if loopback then st.bspPhase + 1 else st.bspPhase) :
    Applies c bfsRoot started level (visits.flatMap Visit.records) st
      (visits.foldl (applyVisit c (bfsAsync bfsRoot) loopback superp) st) := by
  have one : ∀ (processor partition : Nat) (records : List BfsUpdate), processor < c.processors →
      (∀ u ∈ records, Belongs c started superp partition level u) → ∀ st : State,
      (level = if loopback then st.bspPhase + 1 else st.bspPhase) →
      Applies c bfsRoot started level records st
        (records.foldl (applyRecord c (bfsAsync bfsRoot) loopback superp processor partition) st) := by
    intro processor partition records knownProcessor
    induction records with
    | nil => exact fun _ st _ => Applies.refl level st
    | cons u records ih =>
      intro all st isLevel
      have first : Applies c bfsRoot started level [u] st
          (applyRecord c (bfsAsync bfsRoot) loopback superp processor partition st u) :=
        applies_record st knownProcessor (all u List.mem_cons_self) isLevel
      refine first.trans (ih (fun u' later => all u' (List.mem_cons_of_mem _ later)) _ ?_)
      rw [first.others]
      exact isLevel
  induction visits generalizing st with
  | nil => exact Applies.refl level st
  | cons v visits ih =>
    rw [List.flatMap_cons, List.foldl_cons]
    have first := one v.processor v.partition v.records (known v List.mem_cons_self)
      (belong v List.mem_cons_self) st isLevel
    refine first.trans (ih (fun v' later => known v' (List.mem_cons_of_mem _ later))
      (fun v' later => belong v' (List.mem_cons_of_mem _ later)) ?_)
    rw [first.others]
    exact isLevel

/-! ## Initialising -/

theorem initVertices_eq {superp : Nat} (hs : superp < c.superPartitions) (st : State) :
    initVertices c (bfsAsync bfsRoot) superp st = { st with
      state := fun v =>
        if v ∈ c.vertexIds superp then (init bfsRoot (st.state v) v).1 else st.state v } := by
  have nodup := c.nodup_vertexIds hs
  unfold Configuration.vertexIds at nodup ⊢
  unfold initVertices
  generalize (List.range c.processors).flatMap (c.stateIter superp) = visits at nodup
  induction visits generalizing st with
  | nil => simp
  | cons a visits ih =>
    rw [List.map_cons, List.nodup_cons] at nodup
    rw [List.foldl_cons, ih _ nodup.2]
    unfold initVertex
    simp only [AsyncState.mk.injEq, and_true, true_and, List.map_cons, List.mem_cons]
    funext v
    by_cases here : v = c.mapInverse superp a.1 a.2
    · rw [if_neg (here ▸ nodup.1), if_pos (.inl here), here, Function.update_self]
      rfl
    · simp only [Function.update_of_ne here, here, false_or]

theorem view_init (root_lt : bfsRoot < c.vertices) (unmarked : c.vertices ≤ tombstone) (o : BfsVertex) (v : Nat) :
    view (init bfsRoot o v).1 = initial bfsRoot v := by
  unfold init initial
  by_cases isRoot : bfsRoot = v
  · have narrow : bfsRoot < 2 ^ 32 - 1 := Nat.lt_of_lt_of_le root_lt unmarked
    have toNat : (BitVec.ofNat 32 bfsRoot).toNat = bfsRoot := by
      rw [BitVec.toNat_ofNat, Nat.mod_eq_of_lt (by omega)]
    have isMarked : BitVec.ofNat 32 bfsRoot ≠ noParent := by
      intro same
      have := congrArg BitVec.toNat same
      rw [toNat, noParent, BitVec.toNat_allOnes] at this
      omega
    rw [if_pos isRoot, if_pos isRoot.symm, view_of_isParent isMarked, toNat]
    rfl
  · rw [if_neg isRoot, if_neg (Ne.symm isRoot)]
    exact (view_eq_none_iff _).mpr rfl

/-- The records that have been initialised before a super partition is looked at, or behind it. -/
def begun (c : Configuration) (bspPhase superps v : Nat) : Bool :=
  decide (v < c.vertices) && (decide (0 < bspPhase) || decide (c.mapSuperPartition v < superps))

theorem begun_of_superp {bspPhase v : Nat} (inside : v < c.vertices)
    (ofSuperp : c.mapSuperPartition v = superp) : begun c bspPhase (superp + 1) v = true := by
  unfold begun
  rw [ofSuperp, decide_eq_true inside, decide_eq_true (Nat.lt_succ_self superp), Bool.or_true,
    Bool.and_true]

/-- `prepare` does not change what is shown. -/
theorem shown_prepare (root_lt : bfsRoot < c.vertices) (unmarked : c.vertices ≤ tombstone)
    (hs : superp < c.superPartitions) (st : State) :
    shown bfsRoot (begun c st.bspPhase (superp + 1)) (prepare c (bfsAsync bfsRoot) superp st).state =
      shown bfsRoot (begun c st.bspPhase superp) st.state := by
  funext v
  unfold prepare
  by_cases isFirst : st.bspPhase = 0
  · rw [if_pos (show (bfsAsync bfsRoot).needInit st.bspPhase = true from decide_eq_true isFirst)]
    rw [initVertices_eq hs]
    unfold shown begun
    simp only [Configuration.mem_vertexIds_iff hs, isFirst, Nat.lt_irrefl, decide_false, Bool.false_or,
      Bool.and_eq_true, decide_eq_true_eq]
    by_cases inside : v < c.vertices
    · rcases Nat.lt_trichotomy (c.mapSuperPartition v) superp with less | equal | more
      · rw [if_pos ⟨inside, Nat.lt_succ_of_lt less⟩, if_neg fun h => by omega, if_pos ⟨inside, less⟩]
      · rw [if_pos ⟨inside, by omega⟩, if_pos ⟨inside, equal⟩, if_neg fun h => by omega,
          view_init root_lt unmarked]
      · rw [if_neg fun h => by omega, if_neg fun h => by omega]
    · rw [if_neg fun h => inside h.1, if_neg fun h => inside h.1]
  · rw [if_neg (show ¬ (bfsAsync bfsRoot).needInit st.bspPhase = true from fun needed =>
      isFirst (of_decide_eq_true needed))]
    have late : 0 < st.bspPhase := Nat.pos_of_ne_zero isFirst
    unfold shown begun
    simp only [late, decide_true, Bool.true_or, Bool.and_true]

theorem prepare_others (hs : superp < c.superPartitions) (st : State) :
    prepare c (bfsAsync bfsRoot) superp st =
      { st with state := (prepare c (bfsAsync bfsRoot) superp st).state } := by
  unfold prepare
  split
  · rw [initVertices_eq hs]
  · rfl

end

section

variable {E : Type} {F : FormatUtils E} {edges : List E} {c : Configuration} {bfsRoot superp k : Nat}

/-- What the driver asks of the graph: ids below the mark of a deleted edge. -/
structure Sound (F : FormatUtils E) (edges : List E) (c : Configuration) (bfsRoot : Nat) : Prop where
  inside : EndsInside F edges c.vertices
  root_lt : bfsRoot < c.vertices
  unmarked : c.vertices ≤ tombstone

theorem Sound.ends (sound : Sound F edges c bfsRoot) {e : Nat × Nat} (edge : e ∈ edgeEnds F edges) :
    e.1 < c.vertices ∧ e.2 < c.vertices := by
  obtain ⟨e', member, rfl⟩ := List.mem_map.mp edge
  exact sound.inside e' member

theorem Sound.dist_lt (sound : Sound F edges c bfsRoot) {v d : Nat}
    (dist : Dist (edgeEnds F edges) bfsRoot v d) : d < c.vertices :=
  dist.lt_of_inside fun _ _ dist' =>
    dist'.walk.lt_of_inside sound.root_lt fun _ edge => (sound.ends edge).2

/-- An update that is on its way belongs to the visit it is delivered in. -/
theorem belongs_of_offer (sound : Sound F edges c bfsRoot) {partition level d : Nat} {u : BfsUpdate}
    (edge : offer u ∈ edgeEnds F edges) (dist : Dist (edgeEnds F edges) bfsRoot (offer u).1 d)
    (isLevel : level = d + 1) (ofSuperp : c.mapSuperPartition u.child.toNat = superp)
    (ofPartition : c.mapCachedPartition u.child.toNat = partition) :
    Belongs c (begun c k (superp + 1)) superp partition level u := by
  obtain ⟨parent_lt, child_lt⟩ := sound.ends edge
  have mark : tombstone = 2 ^ 32 - 1 := rfl
  have unmarked := sound.unmarked
  constructor
  · intro same
    have parent : u.parent.toNat < c.vertices := parent_lt
    rw [same, noParent, BitVec.toNat_allOnes] at parent
    omega
  · have := sound.dist_lt dist
    omega
  · exact child_lt
  · exact begun_of_superp child_lt ofSuperp
  · exact ofSuperp
  · exact ofPartition

/-! ## The scatter phase -/

/-- The edges whose sources are in earlier super partitions, and those worked off since. -/
def Sent (F : FormatUtils E) (c : Configuration) (superp : Nat) (done : List E) (e : Nat × Nat) : Prop :=
  c.mapSuperPartition e.1 < superp ∨ e ∈ edgeEnds F done

/-- What holds in a scatter phase of superstep `k`. -/
structure Under (F : FormatUtils E) (edges : List E) (c : Configuration) (bfsRoot superp : Nat)
    (before : State) (x : Scattering BfsVertex BfsUpdate PerProcessorData Totals E) (done : List E) :
    Prop where
  others : x.st = { before with
    state := x.st.state
    algoPcpu := x.st.algoPcpu
    updatesOut := x.st.updatesOut }
  perm : (ScatterGather.edgesOf c F edges superp).Perm (done ++ x.edges)
  wave : Wave (edgeEnds F edges) bfsRoot before.bspPhase (fun v => c.mapSuperPartition v < superp + 1)
    (Sent F c superp done) (shown bfsRoot (begun c before.bspPhase (superp + 1)) x.st.state)
    (before.updatesIn.map offer) ((x.buffered ++ x.st.updatesOut).map offer)
  seen : Seen c x.st.algoPcpu ↔ ∃ e ∈ edgeEnds F edges,
    Dist (edgeEnds F edges) bfsRoot e.1 before.bspPhase ∧ Sent F c superp done e
  counts : counted c x.st.algoPcpu + before.total.verticesDiscovered + 1 =
    discovered c.vertices (shown bfsRoot (begun c before.bspPhase (superp + 1)) x.st.state)

/-- An edge is worked off. -/
theorem Under.edge (sound : Sound F edges c bfsRoot) {before st : State} {front back done : List E} {e : E}
    {buffered : List BfsUpdate} {processor : Nat} (known : processor < c.processors)
    (under : Under F edges c bfsRoot superp before ⟨st, front ++ e :: back, buffered⟩ done) :
    Under F edges c bfsRoot superp before
      ⟨{ st with
          algoPcpu := Function.update st.algoPcpu processor
            (generated c (bfsAsync bfsRoot) F superp processor st e).2 },
        front ++ back, buffered ++ (generated c (bfsAsync bfsRoot) F superp processor st e).1.toList⟩
      (e :: done) := by
  have member : e ∈ ScatterGather.edgesOf c F edges superp :=
    under.perm.mem_iff.mpr (by simp)
  obtain ⟨isEdge, here⟩ := List.mem_filter.mp member
  have ofSuperp : c.mapSuperPartition (F.src e).toNat = superp := by
    rw [← F.splitKey_zero]
    exact of_decide_eq_true here
  have isEnd : ((F.src e).toNat, (F.dst e).toNat) ∈ edgeEnds F edges := List.mem_map.mpr ⟨e, isEdge, rfl⟩
  have source_lt := (sound.ends isEnd).1
  have index : c.mapInverse superp (c.mapCachedPartition (F.splitKey e 0))
      (c.mapOffset (F.src e).toNat) = (F.src e).toNat := by
    rw [F.splitKey_zero]
    exact ScatterGather.mapInverse_eq_self ofSuperp rfl
  have phase : st.bspPhase = before.bspPhase := by
    have same := under.others
    simp only at same
    rw [same]
  have started : begun c before.bspPhase (superp + 1) (F.src e).toNat = true :=
    begun_of_superp source_lt ofSuperp
  have active : ((st.state (F.src e).toNat).bfsParent ≠ noParent ∧
      (st.state (F.src e).toNat).bspPhase.toNat = st.bspPhase) ↔
      Dist (edgeEnds F edges) bfsRoot (F.src e).toNat before.bspPhase := by
    rw [← under.wave.found_iff (by rw [ofSuperp]; exact Nat.lt_succ_self superp)]
    unfold shown view
    rw [if_pos started]
    by_cases undiscovered : (st.state (F.src e).toNat).bfsParent = noParent
    · simp only [undiscovered, ne_eq, not_true_eq_false, false_and, if_true, reduceCtorEq, exists_false]
    · simp only [undiscovered, ne_eq, not_false_eq_true, true_and, if_false, Option.some.injEq,
        Prod.mk.injEq, exists_eq_left', phase]
  have one : ∀ e', Sent F c superp (e :: done) e' →
      Sent F c superp done e' ∨ e' = ((F.src e).toNat, (F.dst e).toNat) := by
    rintro e' (early | now)
    · exact .inl (.inl early)
    · rcases List.mem_cons.mp now with same | before
      · exact .inr same
      · exact .inl (.inr before)
  have perm : (ScatterGather.edgesOf c F edges superp).Perm (e :: done ++ (front ++ back)) := by
    refine under.perm.trans ?_
    rw [List.cons_append]
    refine (List.Perm.append_left done List.perm_middle).trans ?_
    exact List.perm_middle
  have others := under.others
  simp only at others
  by_cases isActive : (st.state (F.src e).toNat).bfsParent ≠ noParent ∧
      (st.state (F.src e).toNat).bspPhase.toNat = st.bspPhase
  · have dist := active.mp isActive
    have made : generated c (bfsAsync bfsRoot) F superp processor st e =
        (some ⟨F.src e, F.dst e⟩, { st.algoPcpu processor with
          edgesExplored := (st.algoPcpu processor).edgesExplored + 1
          seenUpdate := true }) := by
      unfold generated
      simp only [bfsAsync, FormatUtils.readEdge, index, generateUpdate, if_pos isActive]
    rw [made]
    constructor
    · simp only
      rw [others]
    · exact perm
    · refine under.wave.send isEnd (fun _ => ?_) (fun o before => ?_) (fun o now => ?_) one
      · simp [offer]
      · simp only [List.map_append, List.mem_append] at before ⊢
        exact before.imp .inl id
      · simp only [List.map_append, List.mem_append, Option.toList_some, List.map_singleton,
          List.mem_singleton] at now ⊢
        rcases now with (before | isNew) | before
        · exact .inl (.inl before)
        · exact .inr ⟨isNew, dist⟩
        · exact .inl (.inr before)
    · refine iff_of_true ⟨processor, known, ?_⟩ ⟨_, isEnd, dist, .inr List.mem_cons_self⟩
      simp only [Function.update_self]
    · have same := under.counts
      have isCounted : counted c (Function.update st.algoPcpu processor
          ⟨(st.algoPcpu processor).verticesDiscovered, (st.algoPcpu processor).edgesExplored + 1, true⟩) =
          counted c st.algoPcpu := by
        refine Finset.sum_congr rfl fun p _ => ?_
        by_cases here : p = processor
        · rw [here, Function.update_self]
        · rw [Function.update_of_ne here]
      simp only [isCounted] at same ⊢
      exact same
  · have silent : generated c (bfsAsync bfsRoot) F superp processor st e = (none, st.algoPcpu processor) := by
      unfold generated
      simp only [bfsAsync, FormatUtils.readEdge, index, generateUpdate, if_neg isActive]
    have notDist := mt active.mpr isActive
    rw [silent]
    simp only [Function.update_eq_self, Option.toList_none, List.append_nil]
    constructor
    · exact others
    · exact perm
    · exact under.wave.send isEnd (fun dist => absurd dist notDist) (fun _ before => before)
        (fun _ before => .inl before) one
    · refine under.seen.trans (exists_congr fun e' => and_congr_right fun _ => and_congr_right fun dist => ?_)
      constructor
      · exact fun sent => sent.imp id (List.mem_cons_of_mem _)
      · intro sent
        rcases one e' sent with before | rfl
        · exact before
        · exact absurd dist notDist
    · exact under.counts

/-- A buffer is flushed. -/
theorem Under.flush (sound : Sound F edges c bfsRoot) {before st : State} {edges' done : List E}
    {buffered taken kept : List BfsUpdate} {visits : List (Visit BfsUpdate)}
    (split : buffered.Perm (taken ++ kept))
    (loops : Delivers c (bfsAsync bfsRoot).splitKey (fun _ => true)
      (taken.filter fun u => c.mapSuperPartition ((bfsAsync bfsRoot).splitKey u) = superp) visits)
    (under : Under F edges c bfsRoot superp before ⟨st, edges', buffered⟩ done) :
    Under F edges c bfsRoot superp before
      ⟨AsyncScatterGather.flushed c (bfsAsync bfsRoot) superp visits taken st, edges', kept⟩ done := by
  have perm := loops.perm
  rw [List.filter_true] at perm
  have mem : ∀ u, u ∈ visits.flatMap Visit.records ↔
      u ∈ taken ∧ c.mapSuperPartition u.child.toNat = superp := by
    intro u
    rw [perm.mem_iff, List.mem_filter, decide_eq_true_eq]
    rfl
  have onTheWay : ∀ u ∈ taken, offer u ∈ (buffered ++ st.updatesOut).map offer := fun u member =>
    List.mem_map_of_mem (List.mem_append_left _ (split.mem_iff.mpr (List.mem_append_left _ member)))
  have phase : st.bspPhase = before.bspPhase := by
    have same := under.others
    simp only at same
    rw [same]
  have applies : Applies c bfsRoot (begun c before.bspPhase (superp + 1)) (before.bspPhase + 1)
      (visits.flatMap Visit.records) st (visits.foldl (applyVisit c (bfsAsync bfsRoot) true superp) st) :=
    applies_visits loops.processor_lt
    (fun v visit u record => by
      obtain ⟨isTaken, ofSuperp⟩ := (mem u).mp (List.mem_flatMap.mpr ⟨v, visit, record⟩)
      obtain ⟨edge, dist⟩ := under.wave.out _ (onTheWay u isTaken)
      exact belongs_of_offer sound edge dist rfl ofSuperp (loops.partition_eq v visit u record))
    (by rw [if_pos rfl, phase])
  unfold AsyncScatterGather.flushed
  generalize visits.foldl (applyVisit c (bfsAsync bfsRoot) true superp) st = st' at applies
  have others := under.others
  have others' := applies.others
  have out' : st'.updatesOut = st.updatesOut := by rw [others']
  simp only at others
  constructor
  · simp only
    rw [others', others]
  · exact under.perm
  · refine under.wave.early applies.takes (fun o member => ?_) (fun o member => ?_) fun o member => ?_
    · obtain ⟨u, record, rfl⟩ := List.mem_map.mp member
      obtain ⟨isTaken, ofSuperp⟩ := (mem u).mp record
      exact ⟨onTheWay u isTaken, Nat.lt_succ_of_le (Nat.le_of_eq ofSuperp)⟩
    · obtain ⟨u, there, rfl⟩ := List.mem_map.mp member
      refine List.mem_map_of_mem ?_
      simp only [out', List.mem_append, List.mem_filter] at there ⊢
      rcases there with isKept | out | ⟨isTaken, _⟩
      · exact .inl (split.mem_iff.mpr (List.mem_append_right _ isKept))
      · exact .inr out
      · exact .inl (split.mem_iff.mpr (List.mem_append_left _ isTaken))
    · obtain ⟨u, there, rfl⟩ := List.mem_map.mp member
      rcases List.mem_append.mp there with isBuffered | out
      · rcases List.mem_append.mp (split.mem_iff.mp isBuffered) with isTaken | isKept
        · by_cases ofSuperp : c.mapSuperPartition u.child.toNat = superp
          · exact .inl (List.mem_map_of_mem ((mem u).mpr ⟨isTaken, ofSuperp⟩))
          · right
            refine List.mem_map_of_mem (List.mem_append_right _ (List.mem_append_right _ ?_))
            exact List.mem_filter.mpr ⟨isTaken, decide_eq_true ofSuperp⟩
        · exact .inr (List.mem_map_of_mem (List.mem_append_left _ isKept))
      · right
        refine List.mem_map_of_mem (List.mem_append_right _ (List.mem_append_left _ ?_))
        rw [out']
        exact out
  · refine Iff.trans (exists_congr fun p => and_congr_right fun _ => ?_) under.seen
    rw [applies.seen p]
  · have counts := applies.counts
    have counts' := under.counts
    simp only at counts' ⊢
    omega

/-- A scatter phase keeps the invariant up to its end. -/
theorem under_of_scatterSteps (sound : Sound F edges c bfsRoot) {before : State}
    {x y : Scattering BfsVertex BfsUpdate PerProcessorData Totals E} {done : List E}
    (under : Under F edges c bfsRoot superp before x done)
    (run : Relation.ReflTransGen (ScatterStep c (bfsAsync bfsRoot) F superp) x y) :
    ∃ done', Under F edges c bfsRoot superp before y done' := by
  induction run with
  | refl => exact ⟨done, under⟩
  | tail _ step ih =>
    obtain ⟨done', under'⟩ := ih
    cases step with
    | edge known => exact ⟨_, under'.edge sound known⟩
    | flush _ split loops => exact ⟨_, under'.flush sound split loops⟩

/-! ## A super partition -/

/-- What holds in a superstep behind some super partitions. -/
structure Searching (F : FormatUtils E) (edges : List E) (c : Configuration) (bfsRoot superps : Nat)
    (st : State) : Prop where
  wave : Wave (edgeEnds F edges) bfsRoot st.bspPhase (fun v => c.mapSuperPartition v < superps)
    (fun e => c.mapSuperPartition e.1 < superps)
    (shown bfsRoot (begun c st.bspPhase superps) st.state) (st.updatesIn.map offer)
    (st.updatesOut.map offer)
  later : ∀ u ∈ st.updatesIn, superps ≤ c.mapSuperPartition u.child.toNat
  seen : Seen c st.algoPcpu ↔ ∃ e ∈ edgeEnds F edges,
    Dist (edgeEnds F edges) bfsRoot e.1 st.bspPhase ∧ c.mapSuperPartition e.1 < superps
  counts : counted c st.algoPcpu + st.total.verticesDiscovered + 1 =
    discovered c.vertices (shown bfsRoot (begun c st.bspPhase superps) st.state)

theorem edgeEnds_mono {F : FormatUtils E} {part : List E} (sub : ∀ e ∈ part, e ∈ edges) {e : Nat × Nat}
    (member : e ∈ edgeEnds F part) : e ∈ edgeEnds F edges := by
  obtain ⟨e', edge, rfl⟩ := List.mem_map.mp member
  exact List.mem_map_of_mem (sub e' edge)

/-- The gather phase. -/
theorem Searching.gather (sound : Sound F edges c bfsRoot) (hs : superp < c.superPartitions) {st : State}
    (searching : Searching F edges c bfsRoot superp st) {gathers : List (Visit BfsUpdate)}
    (gathered : Delivers c (bfsAsync bfsRoot).splitKey (fun _ => true)
      (updatesOf c (bfsAsync bfsRoot) superp (prepare c (bfsAsync bfsRoot) superp st)) gathers) :
    Under F edges c bfsRoot superp
      (gatherPhase c (bfsAsync bfsRoot) superp gathers (prepare c (bfsAsync bfsRoot) superp st))
      ⟨gatherPhase c (bfsAsync bfsRoot) superp gathers (prepare c (bfsAsync bfsRoot) superp st),
        ScatterGather.edgesOf c F edges superp, []⟩ [] ∧
    (∀ u ∈ (gatherPhase c (bfsAsync bfsRoot) superp gathers
      (prepare c (bfsAsync bfsRoot) superp st)).updatesIn, superp + 1 ≤ c.mapSuperPartition u.child.toNat) ∧
    (gatherPhase c (bfsAsync bfsRoot) superp gathers
      (prepare c (bfsAsync bfsRoot) superp st)).bspPhase = st.bspPhase ∧
    (gatherPhase c (bfsAsync bfsRoot) superp gathers
      (prepare c (bfsAsync bfsRoot) superp st)).total = st.total := by
  have prepared : prepare c (bfsAsync bfsRoot) superp st =
      { st with state := (prepare c (bfsAsync bfsRoot) superp st).state } := prepare_others hs st
  have same := shown_prepare sound.root_lt sound.unmarked hs st
  generalize prepare c (bfsAsync bfsRoot) superp st = p at *
  have phase : p.bspPhase = st.bspPhase := by rw [prepared]
  have mail : p.updatesIn = st.updatesIn := by rw [prepared]
  have out : p.updatesOut = st.updatesOut := by rw [prepared]
  have data : p.algoPcpu = st.algoPcpu := by rw [prepared]
  have total : p.total = st.total := by rw [prepared]
  have perm := gathered.perm
  rw [List.filter_true] at perm
  have mem : ∀ u, u ∈ gathers.flatMap Visit.records ↔
      u ∈ st.updatesIn ∧ c.mapSuperPartition u.child.toNat = superp := by
    intro u
    rw [perm.mem_iff, ← mail]
    unfold updatesOf
    rw [List.mem_filter, decide_eq_true_eq]
    rfl
  have applies : Applies c bfsRoot (begun c st.bspPhase (superp + 1)) st.bspPhase
      (gathers.flatMap Visit.records) p (gathers.foldl (applyVisit c (bfsAsync bfsRoot) false superp) p) :=
    applies_visits gathered.processor_lt
    (fun v visit u record => by
      obtain ⟨isMail, ofSuperp⟩ := (mem u).mp (List.mem_flatMap.mpr ⟨v, visit, record⟩)
      obtain ⟨edge, d, isNext, dist⟩ := searching.wave.mail _ (List.mem_map_of_mem isMail)
      exact belongs_of_offer sound edge dist isNext ofSuperp (gathered.partition_eq v visit u record))
    phase.symm
  unfold gatherPhase
  generalize gathers.foldl (applyVisit c (bfsAsync bfsRoot) false superp) p = st' at applies
  have others := applies.others
  have phase' : st'.bspPhase = st.bspPhase := by rw [others, ← phase]
  have mail' : st'.updatesIn = st.updatesIn := by rw [others, ← mail]
  have out' : st'.updatesOut = st.updatesOut := by rw [others, ← out]
  have total' : st'.total = st.total := by rw [others, ← total]
  have takes := applies.takes
  rw [same] at takes
  refine ⟨?_, fun u member => ?_, phase', total'⟩
  swap
  · obtain ⟨isMail, other⟩ := List.mem_filter.mp member
    have notHere : ¬ c.mapSuperPartition u.child.toNat = superp := of_decide_eq_true other
    have atLeast := searching.later u (mail' ▸ isMail)
    omega
  constructor
  · rfl
  · exact List.Perm.refl _
  · simp only [phase', mail', out', List.nil_append]
    have sent : Wave (edgeEnds F edges) bfsRoot st.bspPhase (fun v => c.mapSuperPartition v < superp)
        (Sent F c superp []) (shown bfsRoot (begun c st.bspPhase superp) st.state)
        (st.updatesIn.map offer) (st.updatesOut.map offer) :=
      { searching.wave with
        next := fun e edge dist before =>
          searching.wave.next e edge dist (before.resolve_right List.not_mem_nil) }
    refine sent.gather takes (fun o member => ?_) (fun o member early now => ?_) (fun o member => ?_)
      fun o member later => ?_
    · obtain ⟨u, record, rfl⟩ := List.mem_map.mp member
      exact List.mem_map_of_mem ((mem u).mp record).1
    · obtain ⟨u, isMail, rfl⟩ := List.mem_map.mp member
      have ofSuperp : c.mapSuperPartition u.child.toNat = superp := by
        change ¬ c.mapSuperPartition u.child.toNat < superp at early
        change c.mapSuperPartition u.child.toNat < superp + 1 at now
        omega
      exact List.mem_map_of_mem ((mem u).mpr ⟨isMail, ofSuperp⟩)
    · obtain ⟨u, isMail, rfl⟩ := List.mem_map.mp member
      exact List.mem_map_of_mem (List.mem_of_mem_filter isMail)
    · obtain ⟨u, isMail, rfl⟩ := List.mem_map.mp member
      refine List.mem_map_of_mem (List.mem_filter.mpr ⟨isMail, decide_eq_true fun ofSuperp => later ?_⟩)
      exact Nat.lt_succ_of_le (Nat.le_of_eq ofSuperp)
  · simp only [phase']
    have seen : Seen c st'.algoPcpu ↔ Seen c st.algoPcpu :=
      exists_congr fun p => and_congr_right fun _ => by rw [applies.seen p, data]
    refine seen.trans (searching.seen.trans ?_)
    refine exists_congr fun e => and_congr_right fun _ => and_congr_right fun _ => ?_
    exact ⟨.inl, fun sent => sent.resolve_right List.not_mem_nil⟩
  · simp only [phase', total']
    have counts := applies.counts
    rw [same, data] at counts
    have counts' := searching.counts
    omega

/-- A super partition, up to the reduction. -/
theorem Searching.scatter {before st : State} {done : List E}
    (later : ∀ u ∈ before.updatesIn, superp + 1 ≤ c.mapSuperPartition u.child.toNat)
    (under : Under F edges c bfsRoot superp before ⟨st, [], []⟩ done) :
    Searching F edges c bfsRoot (superp + 1) st := by
  have others := under.others
  simp only at others
  have phase : st.bspPhase = before.bspPhase := by rw [others]
  have mail : st.updatesIn = before.updatesIn := by rw [others]
  have total : st.total = before.total := by rw [others]
  have perm := under.perm
  rw [List.append_nil] at perm
  have sent : ∀ e ∈ edgeEnds F edges, c.mapSuperPartition e.1 < superp + 1 ↔ Sent F c superp done e := by
    intro e edge
    constructor
    · intro below
      rcases Nat.lt_succ_iff_lt_or_eq.mp below with less | equal
      · exact .inl less
      · obtain ⟨e', member, rfl⟩ := List.mem_map.mp edge
        refine .inr (List.mem_map_of_mem (perm.mem_iff.mp ?_))
        exact List.mem_filter.mpr ⟨member, decide_eq_true (by rw [F.splitKey_zero]; exact equal)⟩
    · rintro (early | now)
      · exact Nat.lt_succ_of_lt early
      · obtain ⟨e', member, rfl⟩ := List.mem_map.mp now
        have here := of_decide_eq_true (List.mem_filter.mp (perm.mem_iff.mpr member)).2
        rw [F.splitKey_zero] at here
        exact Nat.lt_succ_of_le (Nat.le_of_eq here)
  constructor
  · rw [phase, mail]
    have wave := under.wave
    exact { wave with next := fun e edge dist below => wave.next e edge dist ((sent e edge).mp below) }
  · rw [mail]
    exact later
  · rw [phase]
    refine under.seen.trans (exists_congr fun e => and_congr_right fun edge => and_congr_right fun _ => ?_)
    exact (sent e edge).symm
  · rw [phase, total]
    exact under.counts

/-! ## A superstep -/

/-- The first super partitions, up to the reduction if they are all. -/
theorem searching_of_superps (sound : Sound F edges c bfsRoot) {st after : State}
    (searching : Searching F edges c bfsRoot 0 st) {superps : Nat} (le : superps ≤ c.superPartitions)
    (run : Superps c (bfsAsync bfsRoot) F edges st superps after) :
    ∃ mid, Searching F edges c bfsRoot superps mid ∧ mid.bspPhase = st.bspPhase ∧ mid.total = st.total ∧
      if superps = c.superPartitions then after = postScatter c (bfsAsync bfsRoot) (superps - 1) mid
      else after = { mid with globalStop := after.globalStop } := by
  induction run with
  | none =>
    have positive := c.superPartitions_pos
    refine ⟨st, searching, rfl, rfl, ?_⟩
    rw [if_neg (by omega)]
  | @next superp before after others step ih =>
    obtain ⟨mid, searchingMid, phase, total, isBefore⟩ := ih (by omega)
    rw [if_neg (by omega)] at isBefore
    have searchingBefore : Searching F edges c bfsRoot superp before := by
      rw [isBefore]
      exact ⟨searchingMid.wave, searchingMid.later, searchingMid.seen, searchingMid.counts⟩
    cases step with
    | @visit st' gathers fits gathered scattered =>
    obtain ⟨gatheredUnder, later, phase', total'⟩ := searchingBefore.gather sound (by omega) gathered
    obtain ⟨done, under⟩ := under_of_scatterSteps sound gatheredUnder scattered
    have framed := under.others
    simp only at framed
    refine ⟨st', Searching.scatter later under, ?_, ?_, ?_⟩
    · rw [framed, phase', isBefore]
      exact phase
    · rw [framed, total', isBefore]
      exact total
    · split
      · rfl
      · rename_i notLast
        unfold postScatter
        rw [if_neg (by omega)]

/-- The state in front of a superstep. -/
structure Running (F : FormatUtils E) (edges : List E) (c : Configuration) (bfsRoot : Nat) (st : State) :
    Prop where
  searching : Searching F edges c bfsRoot 0 st
  updatesOut : st.updatesOut = []
  cleared : ∀ p < c.processors, (st.algoPcpu p).verticesDiscovered = 0

theorem reduce_fst (total : Totals) (data : Nat → PerProcessorData) (processors : Nat) :
    (reduce total data processors).1.verticesDiscovered = total.verticesDiscovered +
      ∑ p ∈ Finset.range processors, (data p).verticesDiscovered := by
  unfold reduce
  simp only
  induction processors with
  | zero => simp
  | succ n ih =>
    rw [List.range_succ, List.foldl_append, Finset.sum_range_succ, ← Nat.add_assoc, ← ih]
    rfl

/-- One pass of the loop. The flag says whether offers have been made. -/
theorem Running.step (sound : Sound F edges c bfsRoot) {st st' : State}
    (running : Running F edges c bfsRoot st)
    (stepped : Superstep c (bfsAsync bfsRoot) F edges st st') :
    Running F edges c bfsRoot st' ∧ st'.bspPhase = st.bspPhase + 1 ∧
      (st'.globalStop = true ↔ ∀ e ∈ edgeEnds F edges, ¬ Dist (edgeEnds F edges) bfsRoot e.1 st.bspPhase) := by
  cases stepped with
  | @done after run =>
  obtain ⟨mid, searching, phase, total, isAfter⟩ :=
    searching_of_superps sound running.searching (Nat.le_refl _) run
  rw [if_pos rfl] at isAfter
  have all : ∀ v, c.mapSuperPartition v < c.superPartitions := c.mapSuperPartition_lt
  have empty : mid.updatesIn = [] :=
    List.eq_nil_iff_forall_not_mem.mpr fun u member =>
      absurd (searching.later u member) (Nat.not_le_of_lt (all _))
  have isReduced : postScatter c (bfsAsync bfsRoot) (c.superPartitions - 1) mid = { mid with
      total := (reduce mid.total mid.algoPcpu c.processors).1
      algoPcpu := (reduce mid.total mid.algoPcpu c.processors).2.1
      globalStop := (reduce mid.total mid.algoPcpu c.processors).2.2 } := by
    unfold postScatter
    rw [if_pos rfl]
    rfl
  have cleared : ∀ p < c.processors,
      (reduce mid.total mid.algoPcpu c.processors).2.1 p = ⟨0, 0, false⟩ := fun p known => if_pos known
  have shownSame : shown bfsRoot (begun c (mid.bspPhase + 1) 0) mid.state =
      shown bfsRoot (begun c mid.bspPhase c.superPartitions) mid.state := by
    funext v
    unfold shown begun
    simp only [all, Nat.succ_pos, decide_true, Bool.true_or, Bool.or_true, Bool.and_true]
  have wave := searching.wave.succ (fun v _ => all v) fun e _ => all e.1
  rw [isAfter, isReduced]
  refine ⟨⟨⟨?_, ?_, ?_, ?_⟩, empty, ?_⟩, congrArg (· + 1) phase, ?_⟩
  · change Wave (edgeEnds F edges) bfsRoot (mid.bspPhase + 1) _ _
      (shown bfsRoot (begun c (mid.bspPhase + 1) 0) mid.state) (mid.updatesOut.map offer)
      (mid.updatesIn.map offer)
    rw [shownSame, empty]
    have never (v : Nat) : ¬ c.mapSuperPartition v < 0 := Nat.not_lt_zero _
    simpa only [never, List.map_nil] using wave
  · exact fun _ _ => Nat.zero_le _
  · refine iff_of_false ?_ fun ⟨_, _, _, below⟩ => absurd below (Nat.not_lt_zero _)
    rintro ⟨p, known, isSeen⟩
    change ((reduce mid.total mid.algoPcpu c.processors).2.1 p).seenUpdate = true at isSeen
    rw [cleared p known] at isSeen
    exact absurd isSeen Bool.false_ne_true
  · change counted c (reduce mid.total mid.algoPcpu c.processors).2.1 +
      (reduce mid.total mid.algoPcpu c.processors).1.verticesDiscovered + 1 =
      discovered c.vertices (shown bfsRoot (begun c (mid.bspPhase + 1) 0) mid.state)
    have zero : counted c (reduce mid.total mid.algoPcpu c.processors).2.1 = 0 :=
      Finset.sum_eq_zero fun p member => by rw [cleared p (Finset.mem_range.mp member)]
    have counts := searching.counts
    unfold counted at counts
    rw [zero, reduce_fst, shownSame]
    omega
  · intro p known
    change ((reduce mid.total mid.algoPcpu c.processors).2.1 p).verticesDiscovered = 0
    rw [cleared p known]
  · change (!(List.range c.processors).any fun i => (mid.algoPcpu i).seenUpdate) = true ↔ _
    have noOne : (!(List.range c.processors).any fun i => (mid.algoPcpu i).seenUpdate) = true ↔
        ¬ Seen c mid.algoPcpu := by
      rw [Bool.not_eq_true', ← Bool.not_eq_true, List.any_eq_true]
      unfold Seen
      simp only [List.mem_range]
    rw [noOne, searching.seen, phase]
    constructor
    · exact fun none_ e edge dist => none_ ⟨e, edge, dist, all e.1⟩
    · rintro none_ ⟨e, edge, dist, _⟩
      exact none_ e edge dist

end

end BfsAsync

end MBFGraph
