import MBFGraph.Algorithms.Mis
import MBFGraph.Core.Proofs.ScatterGather
import MBFGraph.Lib.Elimination

/-!
# mis finds the first maximal independent set

The sets of the supersteps are the rounds of an elimination: a vertex is in the set if no smaller
neighbour was in the set of the superstep before. The driver stops when two of them have the same
size, and then they are the same set.
-/

namespace MBFGraph

open Elimination ScatterGather

namespace Mis

/-- `mis` as rules. -/
def rules (vertices : Nat) : Bsp.Rules Nat Vertex Update where
  start _ v o := if v < vertices then ⟨true⟩ else o
  apply _ _ _ := ⟨false⟩
  activates _ _ _ := true
  active _ o := o.inMis
  send _ o src dst := if o.inMis = true ∧ src < dst then some ⟨BitVec.ofNat 32 dst⟩ else none
  target u := u.target.toNat

theorem follows (vertices : Nat) :
    Follows mis vertices (rules vertices) (fun v _ => v) (fun o => o) (fun _ _ => True) (fun _ => True) where
  target _ := rfl
  apply_view s u d k := by
    simp only [mis, applyOneUpdate, rules]
    split
    · rfl
    · rename_i out
      exact congrArg Vertex.mk (Bool.eq_false_iff.mpr out)
  apply_activates s u d k := by
    simp only [mis, applyOneUpdate, rules]
    split <;> rfl
  init_view s v k _ inside := by simp only [mis, rules, inside, if_true]
  start_else k v o not_ := by
    have not' : ¬ v < vertices := fun h => not_ ⟨rfl, h⟩
    simp only [rules, not', if_false]
  init_active _ _ _ _ _ := rfl
  reset_view _ := rfl
  check_view _ _ := rfl
  generate_eq s src dst _ d k := by
    simp only [mis, generateUpdate, rules, BitVec.lt_def, BitVec.ofNat_toNat, BitVec.setWidth_eq]
  vertex_after _ _ := rfl
  send_active k o src dst inactive := by
    simp only [rules] at inactive ⊢
    rw [if_neg fun h => by simp [inactive] at h]
  send_target k o src dst _ u below sent := by
    simp only [rules] at sent ⊢
    split at sent
    · rw [← Option.some.inj sent]
      exact Nat.mod_eq_of_lt below
    · exact absurd sent (by simp)
  send_good _ _ _ _ _ _ _ _ := trivial
  apply_active _ _ _ _ := .inr rfl
  fresh_active _ _ needed := absurd needed (by simp [mis])
  fresh_start _ _ _ _ _ := trivial
  fresh_apply _ _ _ _ := trivial

/-- One for a vertex that has been voted out. -/
def weight (o : Vertex) : Nat := if o.inMis then 0 else 1

theorem counts : Counts mis (fun o => o) (fun _ => True) (fun d : Nat => d) weight where
  apply s u d k _ := by
    simp only [mis, applyOneUpdate, weight]
    by_cases inside : s.inMis = true <;> simp [inside]
  generate _ _ _ _ _ _ := rfl

theorem gather_eq {vertices k : Nat} {o : Vertex} {mail : List Update} :
    (rules vertices).gather k o mail = if mail = [] then o else ⟨false⟩ := by
  induction mail generalizing o with
  | nil => rfl
  | cons u mail ih =>
    rw [Bsp.Rules.gather_cons, ih, if_neg (List.cons_ne_nil u mail)]
    simp only [rules, ite_self]

theorem activated_eq {vertices k : Nat} {o : Vertex} {mail : List Update} :
    (rules vertices).activated k o mail = false ↔ mail = [] := by
  cases mail with
  | nil => simp [Bsp.Rules.activated]
  | cons u mail => simp [Bsp.Rules.activated, rules]

/-- The smaller end of an edge votes the larger end out. -/
def Beats (edges : List (Nat × Nat)) (u v : Nat) : Prop := (u, v) ∈ edges ∧ u < v

instance (edges : List (Nat × Nat)) (u v : Nat) : Decidable (Beats edges u v) := by
  unfold Beats; infer_instance

theorem beats_lt (edges : List (Nat × Nat)) (u v : Nat) (beats : Beats edges u v) : u < v := beats.2

section

variable {edges : List (Nat × Nat)} {vertices : Nat}

/-- What holds behind superstep `k`. -/
structure Rounds (edges : List (Nat × Nat)) (vertices k : Nat) (s : Nat → Vertex)
    (inbox : List Update) : Prop where
  inMis : ∀ v < vertices, (s v).inMis = true ↔ v ∈ survivors (Beats edges) vertices k
  inbox : ∀ u, u ∈ inbox ↔ ∃ e ∈ edges, e.1 < e.2 ∧
    e.1 ∈ survivors (Beats edges) vertices k ∧ u = ⟨BitVec.ofNat 32 e.2⟩

/-- The graph that the driver sees. -/
structure Sound (edges : List (Nat × Nat)) (vertices : Nat) : Prop where
  inside : ∀ e ∈ edges, e.1 < vertices ∧ e.2 < vertices
  narrow : ∀ e ∈ edges, e.2 < 2 ^ 32

theorem mem_outbox_iff (sound : Sound edges vertices) {k : Nat} {mail : Nat → List Update}
    {s s' : Nat → Vertex} {inbox outbox : List Update} {quiet : Prop}
    (step : Bsp.Superstep (rules vertices) edges k mail s inbox s' outbox quiet) {j : Nat}
    (inMis : ∀ v < vertices, (s' v).inMis = true ↔ v ∈ survivors (Beats edges) vertices j)
    (u : Update) : u ∈ outbox ↔ ∃ e ∈ edges, e.1 < e.2 ∧
      e.1 ∈ survivors (Beats edges) vertices j ∧ u = ⟨BitVec.ofNat 32 e.2⟩ := by
  rw [step.mem_outbox_iff]
  refine exists_congr fun e => and_congr_right fun edge => ?_
  rw [← inMis e.1 (sound.inside e edge).1]
  simp only [rules]
  split
  · rename_i votes
    simp only [votes, true_and, Option.some.injEq, eq_comm]
  · rename_i silent
    simp only [reduceCtorEq, false_iff]
    rintro ⟨less, inside, _⟩
    exact silent ⟨inside, less⟩

theorem rounds_zero (sound : Sound edges vertices) {mail : Nat → List Update} {s s' : Nat → Vertex}
    {outbox : List Update} {quiet : Prop}
    (step : Bsp.Superstep (rules vertices) edges 0 mail s [] s' outbox quiet) :
    Rounds edges vertices 0 s' outbox := by
  have inMis : ∀ v < vertices,
      (s' v).inMis = true ↔ v ∈ survivors (Beats edges) vertices 0 := by
    intro v known
    have empty : mail v = [] := List.perm_nil.mp (step.delivered v)
    rw [step.gathered, empty, Bsp.Rules.gather_nil]
    simp only [rules, known, if_true, survivors, Finset.mem_range]
  exact ⟨inMis, mem_outbox_iff sound step inMis⟩

theorem rounds_succ (sound : Sound edges vertices) {k : Nat} {mail : Nat → List Update}
    {s s' : Nat → Vertex} {inbox outbox : List Update} {quiet : Prop}
    (rounds : Rounds edges vertices k s inbox)
    (step : Bsp.Superstep (rules vertices) edges (k + 1) mail s inbox s' outbox quiet) :
    Rounds edges vertices (k + 1) s' outbox ∧ (quiet ↔
      ∀ u ∈ survivors (Beats edges) vertices k, ∀ v, ¬ Beats edges u v) := by
  have mem : ∀ v u, u ∈ mail v ↔ ∃ e ∈ edges, e.1 < e.2 ∧
      e.1 ∈ survivors (Beats edges) vertices k ∧ e.2 = v ∧ u = ⟨BitVec.ofNat 32 e.2⟩ := by
    intro v u
    rw [step.mem_mail_iff, rounds.inbox]
    constructor
    · rintro ⟨⟨e, edge, less, stays, rfl⟩, target⟩
      refine ⟨e, edge, less, stays, ?_, rfl⟩
      rw [← target]
      exact (Nat.mod_eq_of_lt (sound.narrow e edge)).symm
    · rintro ⟨e, edge, less, stays, rfl, rfl⟩
      exact ⟨⟨e, edge, less, stays, rfl⟩, Nat.mod_eq_of_lt (sound.narrow e edge)⟩
  have empty : ∀ v, mail v = [] ↔
      ∀ u ∈ survivors (Beats edges) vertices k, ¬ Beats edges u v := by
    intro v
    rw [List.eq_nil_iff_forall_not_mem]
    constructor
    · rintro none_ u stays ⟨edge, less⟩
      exact none_ _ ((mem v _).mpr ⟨(u, v), edge, less, stays, rfl, rfl⟩)
    · intro unbeaten u member
      obtain ⟨e, edge, less, stays, rfl, _⟩ := (mem v u).mp member
      exact unbeaten e.1 stays ⟨edge, less⟩
  have inMis : ∀ v < vertices,
      (s' v).inMis = true ↔ v ∈ survivors (Beats edges) vertices (k + 1) := by
    intro v known
    rw [step.gathered, gather_eq, mem_survivors_succ, ← empty]
    by_cases none_ : mail v = []
    · simp only [none_, if_true, rules, known, and_self]
    · simp only [none_, if_false, Bool.false_eq_true, and_false]
  refine ⟨⟨inMis, mem_outbox_iff sound step inMis⟩, ?_⟩
  rw [step.quiet_iff]
  simp only [activated_eq, empty]
  exact ⟨fun none_ u stays v => none_ v u stays, fun none_ v u stays => none_ u stays v⟩

end

end Mis

section

variable {E : Type} (F : FormatUtils E) (edges : List E) (c : Configuration)

/-- What mis leaves behind: the first maximal independent set. -/
structure MisExact (st : SgState Mis.Vertex Mis.Update Nat Nat) : Prop where
  first : ∀ v < c.vertices, (st.state v).inMis = true ↔
    ∀ u, (u, v) ∈ edgeEnds F edges → u < v → (st.state u).inMis = false
  independent : ∀ u v, (u, v) ∈ edgeEnds F edges → u ≠ v →
    ¬((st.state u).inMis = true ∧ (st.state v).inMis = true)
  maximal : ∀ v < c.vertices, (st.state v).inMis = false →
    ∃ u, (u, v) ∈ edgeEnds F edges ∧ u ≠ v ∧ (st.state u).inMis = true
  notInMis : st.total = ((Finset.range c.vertices).filter fun v => (st.state v).inMis = false).card

/-- mis run on all edges ends with the result. -/
def ComputesMis (state : Nat → Mis.Vertex) : Prop :=
  Computes c mis F (scanAll c F edges) (MisExact F edges c) (start state (fun _ => 0) 0)

variable {F edges c}

namespace Mis

/-- The invariant of the driver's loop. -/
structure Running (F : FormatUtils E) (edges : List E) (c : Configuration)
    (st : SgState Vertex Update Nat Nat) : Prop where
  ready : ScatterGather.Ready c mis (fun o => o) (fun _ _ => True) (fun _ => True) st
  cleared : ∀ p < c.processors, st.algoPcpu p = 0
  first : st.bspPhase = 0 → st.updatesIn = []
  later : ∀ k, st.bspPhase = k + 1 →
    Rounds (liveEdges F edges) c.vertices k st.state st.updatesIn ∧
      st.total = ∑ v ∈ Finset.range c.vertices, weight (st.state v)

/-- The edges of vertex 0xFFFFFFFF do not matter: it is larger than every other vertex. -/
theorem beats_liveEdges (u v : Nat) :
    Beats (liveEdges F edges) u v ↔ Beats (edgeEnds F edges) u v := by
  refine and_congr_left fun less => ?_
  simp only [liveEdges, edgeEnds, List.mem_map, List.mem_filter, decide_eq_true_eq]
  constructor
  · rintro ⟨e, ⟨edge, _⟩, same⟩
    exact ⟨e, edge, same⟩
  · rintro ⟨e, edge, same⟩
    refine ⟨e, ⟨edge, fun marked => ?_⟩, same⟩
    have below := (F.dst e).isLt
    rw [F.splitKey_zero] at marked
    have source : (F.src e).toNat = u := congrArg Prod.fst same
    have target : (F.dst e).toNat = v := congrArg Prod.snd same
    rw [source] at marked
    rw [target] at below
    have : tombstone = 2 ^ 32 - 1 := rfl
    omega

/-- One pass of the loop. -/
theorem Running.step (inside : EndsInside F edges c.vertices)
    {st st' : SgState Vertex Update Nat Nat} (running : Running F edges c st)
    (stepped : Superstep c mis F (scanAll c F edges) st st') :
    Running F edges c st' ∧ st'.bspPhase = st.bspPhase + 1 ∧
      st'.globalStop = decide (st'.total = st.total) ∧
      ∀ k, st.bspPhase = k + 1 → (AllVote c st'.iVoteToStop ↔
        ∀ u ∈ survivors (Beats (liveEdges F edges)) c.vertices k, ∀ v,
          ¬ Beats (liveEdges F edges) u v) := by
  have sound : Sound (liveEdges F edges) c.vertices := by
    constructor
    all_goals
      intro e member
      obtain ⟨e', edge, rfl⟩ := List.mem_map.mp member
    · exact inside e' (List.mem_of_mem_filter edge)
    · exact (F.dst e').isLt
  have complete := complete_scanAll
    (follows c.vertices) fun e member => (inside e member).1
  obtain ⟨ready, mail, algo, advances⟩ := advances_of_superstep (follows c.vertices)
    counts complete (fun e member => (inside e member).2) (fun _ _ => trivial) running.ready stepped
  have superstep := advances.superstep
  have reduced := advances.reduced
  have sumOf : ∀ n, (List.range n).foldl (fun total i => total + algo i) 0 =
      ∑ p ∈ Finset.range n, algo p := by
    intro n
    induction n with
    | zero => rfl
    | succ n ih => rw [List.range_succ, List.foldl_append, Finset.sum_range_succ, ← ih]; rfl
  have total : st'.total = ∑ p ∈ Finset.range c.processors, algo p :=
    (congrArg Prod.fst reduced).trans (sumOf c.processors)
  have data : st'.algoPcpu = fun i => if i < c.processors then 0 else algo i :=
    congrArg (fun r => r.2.1) reduced
  have stop : st'.globalStop = decide (st'.total = st.total) := by
    have isStop : st'.globalStop = decide ((List.range c.processors).foldl
      (fun total i => total + algo i) 0 = st.total) := congrArg (fun r => r.2.2) reduced
    rw [isStop, total, sumOf]
  have zero : counted c (fun d : Nat => d) st = 0 :=
    Finset.sum_eq_zero fun p member => running.cleared p (Finset.mem_range.mp member)
  have begun : ∑ v ∈ Finset.range c.vertices,
      weight ((rules c.vertices).start st.bspPhase v (st.state v)) = 0 := by
    refine Finset.sum_eq_zero fun v member => ?_
    simp only [rules, Finset.mem_range.mp member, if_true, weight]
  have counted' := advances.counts
  rw [zero, Nat.zero_add, begun, Nat.add_zero] at counted'
  have cleared : ∀ p < c.processors, st'.algoPcpu p = 0 := by
    intro p known
    rw [data]
    simp only [known, if_true]
  have notFirst : st'.bspPhase ≠ 0 := by rw [advances.bspPhase]; exact Nat.succ_ne_zero _
  cases isPhase : st.bspPhase with
  | zero =>
    rw [isPhase, running.first isPhase] at superstep
    refine ⟨⟨ready, cleared, fun h => absurd h notFirst, fun k isNext => ?_⟩, ?_, stop,
      fun k isNext => by omega⟩
    · have first : k = 0 := by rw [advances.bspPhase] at isNext; omega
      subst first
      exact ⟨rounds_zero sound superstep, total.trans counted'⟩
    · rw [advances.bspPhase, isPhase]
  | succ k =>
    obtain ⟨rounds, _⟩ := running.later k isPhase
    rw [isPhase] at superstep
    obtain ⟨rounds', quiet⟩ := rounds_succ sound rounds superstep
    refine ⟨⟨ready, cleared, fun h => absurd h notFirst, fun k' isNext => ?_⟩, ?_, stop,
      fun k' isNext => ?_⟩
    · have next : k' = k + 1 := by rw [advances.bspPhase] at isNext; omega
      subst next
      exact ⟨rounds', total.trans counted'⟩
    · rw [advances.bspPhase, isPhase]
    · rw [← Nat.succ.inj isNext]
      exact quiet

/-- The total of voted out vertices tells the size of the set. -/
theorem Running.total_add {k : Nat} {st : SgState Vertex Update Nat Nat}
    (running : Running F edges c st) (isPhase : st.bspPhase = k + 1) :
    st.total = ((Finset.range c.vertices).filter fun v => (st.state v).inMis = false).card ∧
      st.total + (survivors (Beats (liveEdges F edges)) c.vertices k).card = c.vertices := by
  obtain ⟨rounds, sum⟩ := running.later k isPhase
  have card : st.total =
      ((Finset.range c.vertices).filter fun v => (st.state v).inMis = false).card := by
    rw [sum, Finset.card_filter]
    refine Finset.sum_congr rfl fun v _ => ?_
    unfold weight
    cases (st.state v).inMis <;> rfl
  have stays : survivors (Beats (liveEdges F edges)) c.vertices k =
      (Finset.range c.vertices).filter fun v => ¬ (st.state v).inMis = false := by
    ext v
    rw [Finset.mem_filter, Finset.mem_range]
    constructor
    · intro member
      have known := lt_of_mem_survivors member
      exact ⟨known, by simp [(rounds.inMis v known).mpr member]⟩
    · rintro ⟨known, inside⟩
      exact (rounds.inMis v known).mp (by simpa using inside)
  have split := Finset.card_filter_add_card_filter_not (s := Finset.range c.vertices)
    (fun v => (st.state v).inMis = false)
  rw [Finset.card_range] at split
  exact ⟨card, by rw [card, stays]; exact split⟩

/-- A set that the next round leaves alone is the first maximal independent set. -/
theorem Running.exact (inside : EndsInside F edges c.vertices)
    (symmetric : ∀ e ∈ edgeEnds F edges, (e.2, e.1) ∈ edgeEnds F edges) {k : Nat}
    {st : SgState Vertex Update Nat Nat} (running : Running F edges c st)
    (isPhase : st.bspPhase = k + 1)
    (stable : ∀ v < c.vertices, v ∈ survivors (Beats (liveEdges F edges)) c.vertices k ↔
      ∀ u ∈ survivors (Beats (liveEdges F edges)) c.vertices k, ¬ Beats (liveEdges F edges) u v) :
    MisExact F edges c st := by
  obtain ⟨rounds, _⟩ := running.later k isPhase
  have endsOf : ∀ {u v}, (u, v) ∈ edgeEnds F edges → u < c.vertices ∧ v < c.vertices := by
    intro u v edge
    obtain ⟨e, member, same⟩ := List.mem_map.mp edge
    have source : (F.src e).toNat = u := congrArg Prod.fst same
    have target : (F.dst e).toNat = v := congrArg Prod.snd same
    rw [← source, ← target]
    exact inside e member
  have first : ∀ v < c.vertices, (st.state v).inMis = true ↔
      ∀ u, (u, v) ∈ edgeEnds F edges → u < v → (st.state u).inMis = false := by
    intro v known
    rw [rounds.inMis v known, stable v known]
    constructor
    · intro unbeaten u edge less
      rw [← Bool.not_eq_true, rounds.inMis u (endsOf edge).1]
      exact fun member => unbeaten u member ((beats_liveEdges u v).mpr ⟨edge, less⟩)
    · intro out u member beats
      obtain ⟨edge, less⟩ := (beats_liveEdges u v).mp beats
      have isOut := out u edge less
      rw [(rounds.inMis u (endsOf edge).1).mpr member] at isOut
      exact absurd isOut (by decide)
  have ordered : ∀ u v, (u, v) ∈ edgeEnds F edges → u < v →
      ¬((st.state u).inMis = true ∧ (st.state v).inMis = true) := by
    rintro u v edge less ⟨isIn, isIn'⟩
    have := (first v (endsOf edge).2).mp isIn' u edge less
    rw [isIn] at this
    exact absurd this (by decide)
  refine ⟨first, fun u v edge other both => ?_, fun v known out => ?_,
    (running.total_add isPhase).1⟩
  · rcases Nat.lt_or_gt_of_ne other with less | greater
    · exact ordered u v edge less both
    · exact ordered v u (symmetric _ edge) greater both.symm
  · by_contra none_
    have isIn : (st.state v).inMis = true := by
      rw [first v known]
      intro u edge less
      by_contra isIn
      exact none_ ⟨u, edge, Nat.ne_of_lt less, by simpa using isIn⟩
    rw [isIn] at out
    exact absurd out (by decide)

end Mis

theorem computesMis_of_fits (inside : EndsInside F edges c.vertices)
    (symmetric : ∀ e ∈ edgeEnds F edges, (e.2, e.1) ∈ edgeEnds F edges)
    (fits : ∀ superp < c.superPartitions, c.StateFits mis.vertexStateBytes superp)
    (state : Nat → Mis.Vertex) : ComputesMis F edges c state := by
  have minPhases : mis.minSuperPhases = 1 := rfl
  have smaller := Mis.beats_lt (liveEdges F edges)
  refine NondetLoop.AlwaysEnds.of_invariant
    (fun st => Mis.Running F edges c st ∧ st.bspPhase ≤ c.vertices + 1)
    (fun st => c.vertices + 2 - st.bspPhase)
    ⟨⟨⟨rfl, fun u none_ => absurd none_ List.not_mem_nil, fun _ _ _ => trivial⟩, fun p _ => rfl,
      fun _ => rfl, fun k late => absurd late (by simp [ScatterGather.start])⟩,
      by simp [ScatterGather.start]⟩
    (fun st _ => exists_superstep (fun _ _ => ⟨_, rfl⟩) fits st) ?_ ?_
  · rintro st st' ⟨running, _⟩ stepped stops
    obtain ⟨running', phase, stop, quiet⟩ := running.step inside stepped
    have late : 1 < st'.bspPhase := minPhases ▸ stops.1
    obtain ⟨k, isPhase⟩ : ∃ k, st.bspPhase = k + 1 := ⟨st.bspPhase - 1, by omega⟩
    have isPhase' : st'.bspPhase = k + 1 + 1 := by rw [phase, isPhase]
    refine running'.exact inside symmetric isPhase' fun v known => ?_
    rcases stops.2 with same | vote
    · -- two rounds of the same size
      rw [stop, decide_eq_true_eq] at same
      have before := (running.total_add isPhase).2
      have behind := (running'.total_add isPhase').2
      have equal : survivors (Mis.Beats (liveEdges F edges)) c.vertices (k + 1) =
          survivors (Mis.Beats (liveEdges F edges)) c.vertices k :=
        survivors_eq_of_card_eq (by omega)
      rw [equal, ← mem_survivors_succ_of_lt known, equal]
    · -- nobody was voted out, so nobody votes
      have none_ := (quiet k isPhase).mp vote
      have nobody : ∀ u v, u < c.vertices → ¬ Mis.Beats (liveEdges F edges) u v :=
        fun u v isVertex => not_beats_of_none smaller none_ isVertex
      refine iff_of_true (mem_survivors_succ.mpr ⟨known, fun u member => ?_⟩) fun u member => ?_
      all_goals exact nobody u v (lt_of_mem_survivors member)
  · rintro st st' ⟨running, early⟩ stepped goesOn
    obtain ⟨running', phase, stop, quiet⟩ := running.step inside stepped
    have bound : st.bspPhase ≤ c.vertices := by
      by_contra tooLate
      obtain ⟨k, isPhase⟩ : ∃ k, st.bspPhase = k + 1 := ⟨st.bspPhase - 1, by omega⟩
      have isPhase' : st'.bspPhase = k + 1 + 1 := by rw [phase, isPhase]
      have stable := survivors_stable (n := c.vertices) smaller (show c.vertices ≤ k by omega)
      have before := (running.total_add isPhase).2
      have behind := (running'.total_add isPhase').2
      rw [stable] at behind
      refine goesOn ⟨?_, .inl ?_⟩
      · rw [minPhases]
        have := c.vertices_pos
        omega
      · rw [stop, decide_eq_true_eq]
        omega
    exact ⟨⟨running', by omega⟩, by omega⟩

/-- mis computes the first maximal independent set if and only if the state buffer has room for the
records of every super partition. -/
theorem computesMis_iff (c : Configuration) (F : FormatUtils E) (edges : List E)
    (state : Nat → Mis.Vertex) (inside : EndsInside F edges c.vertices)
    (symmetric : ∀ e ∈ edgeEnds F edges, (e.2, e.1) ∈ edgeEnds F edges) :
    ComputesMis F edges c state ↔
      ∀ superp < c.superPartitions, c.StateFits mis.vertexStateBytes superp := by
  constructor
  · intro computes
    obtain ⟨st, stepped⟩ := computes.can_step
    exact fits_of_superstep stepped
  · exact fun fits => computesMis_of_fits inside symmetric fits state

end

/-- A triangle with a self loop. -/
def triangleEdges : List SimpleEdge :=
  [⟨0, 1⟩, ⟨1, 0⟩, ⟨1, 2⟩, ⟨2, 1⟩, ⟨0, 2⟩, ⟨2, 0⟩, ⟨2, 2⟩]

theorem computesMis_iff_triangle :
    ComputesMis type2 triangleEdges (Configuration.single 1 3 (by decide)) (fun _ => ⟨false⟩) ↔
      ∀ superp < 2, (Configuration.single 1 3 (by decide)).StateFits 1 superp :=
  computesMis_iff _ _ _ _ (by unfold EndsInside; decide) (by unfold edgeEnds; decide)

/-- With two super partitions and 16385 vertices the state buffer has room for 8192 of the 8193
records of super partition 0. -/
theorem not_computesMis_tight :
    ¬ ComputesMis type2 [] (Configuration.single 1 16385 (by decide)) (fun _ => ⟨false⟩) := by
  intro computes
  obtain ⟨st, stepped⟩ := computes.can_step
  have fits := fits_of_superstep stepped 0 (by decide)
  unfold Configuration.StateFits at fits
  revert fits
  decide +kernel

end MBFGraph
