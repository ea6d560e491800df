import MBFGraph.Algorithms.Cc
import MBFGraph.Core.Proofs.ScatterGather
import MBFGraph.Lib.Components

/-!
# cc finds the components

Labels only fall, a label is always the id of a vertex of the same component, and behind a
superstep the labels of the two ends of an edge are in order unless the source has just changed
(`Labels`). When nothing changes any more, the labels agree along the edges.
-/

namespace MBFGraph

open Components ScatterGather

namespace Cc

/-- What a superstep looks at. -/
def view (v : Vertex) : Vertex := { v with changed := false }

/-- `cc` as rules. -/
def rules (vertices : Nat) : Bsp.Rules Nat Vertex Update where
  start k v o := if k = 0 ∧ v < vertices then ⟨BitVec.ofNat 32 v, 0, false, false⟩ else o
  apply k o u := if u.component < o.component then ⟨u.component, k, true, false⟩ else o
  activates _ o u := decide (u.component < o.component)
  active k o := decide (o.activePhase = k)
  send k o _ dst :=
    if o.activePhase = k then some ⟨BitVec.ofNat 32 dst, o.component⟩ else none
  target u := u.target.toNat

/-- The label did not fall in this superstep. -/
def Fresh (k : Nat) (o : Vertex) : Prop := o.activePhase < k

theorem follows (vertices : Nat) :
    Follows cc vertices (rules vertices) (fun v _ => v) view Fresh (fun _ => True) where
  target _ := rfl
  apply_view s u d k := by
    simp only [cc, applyOneUpdate, rules, view]
    split <;> rfl
  apply_activates s u d k := by
    simp only [cc, applyOneUpdate, rules, view]
    split <;> simp_all
  init_view s v k needed inside := by
    have first : k = 0 := of_decide_eq_true needed
    simp only [cc, init, rules, view, first, inside, and_self, if_true]
  start_else k v o not_ := by
    have not' : ¬(k = 0 ∧ v < vertices) := fun h => not_ ⟨decide_eq_true h.1, h.2⟩
    simp only [rules, not', if_false]
  init_active _ _ _ _ _ := rfl
  reset_view s := by
    simp only [cc, checkResetChanged, view]
    split <;> rfl
  check_view s k := rfl
  generate_eq s src dst _ d k := by
    simp only [cc, generateUpdate, rules, view]
    split <;> simp
  vertex_after _ _ := rfl
  send_active k o src dst inactive := by
    simp only [rules, decide_eq_false_iff_not] at inactive ⊢
    rw [if_neg inactive]
  send_target k o src dst _ u below sent := by
    simp only [rules] at sent ⊢
    split at sent
    · rw [← Option.some.inj sent]
      exact Nat.mod_eq_of_lt below
    · exact absurd sent (by simp)
  send_good _ _ _ _ _ _ _ _ := trivial
  apply_active k o u active := by
    simp only [rules] at active ⊢
    by_cases smaller : u.component < o.component
    · simp [smaller]
    · simp only [smaller, if_false] at active
      exact .inl active
  fresh_active k o needed isFresh := decide_eq_false (Nat.ne_of_lt isFresh)
  fresh_start k v o needed inside := by
    have first : k = 0 := of_decide_eq_true needed
    simp only [rules, first, inside, and_self, if_true]
    exact Nat.zero_lt_one
  fresh_apply k o u isFresh := by
    simp only [rules]
    split
    · exact Nat.lt_succ_self k
    · exact isFresh

/-- One for a vertex that has been merged. -/
def weight (o : Vertex) : Nat := if o.merged then 1 else 0

theorem counts : Counts cc view (fun _ => True) (fun d : Nat => d) weight where
  apply s u d k _ := by
    simp only [cc, applyOneUpdate, view, weight]
    by_cases smaller : u.component < s.component
    · by_cases isMerged : s.merged = true <;> simp [smaller, isMerged]
    · simp only [smaller, if_false]
      rfl
  generate _ _ _ _ _ _ := rfl

/-- The label behind some messages. -/
structure Lowers (k : Nat) (o o' : Vertex) (mail : List Update) : Prop where
  le : o'.component ≤ o.component
  le_mail : ∀ u ∈ mail, o'.component ≤ u.component
  changes : o' = o ∨ ∃ u ∈ mail, u.component < o.component ∧
    o' = ⟨u.component, k, true, false⟩

theorem lowers_gather {vertices k : Nat} (o : Vertex) (mail : List Update) :
    Lowers k o ((rules vertices).gather k o mail) mail := by
  induction mail generalizing o with
  | nil => exact ⟨BitVec.le_refl _, fun u none_ => absurd none_ List.not_mem_nil, .inl rfl⟩
  | cons u mail ih =>
    rw [Bsp.Rules.gather_cons]
    obtain ⟨le, le_mail, changes⟩ := ih ((rules vertices).apply k o u)
    by_cases smaller : u.component < o.component
    · have taken : (rules vertices).apply k o u = ⟨u.component, k, true, false⟩ := by
        simp only [rules, smaller, if_true]
      rw [taken] at le changes
      simp only at le changes
      refine ⟨?_, fun u' member => ?_, .inr ?_⟩
      · rw [taken]
        exact BitVec.le_trans le (BitVec.le_of_lt smaller)
      · rcases List.mem_cons.mp member with rfl | later
        · rw [taken]; exact le
        · exact le_mail u' later
      · rcases changes with same | ⟨u', member, less, now⟩
        · rw [taken]
          exact ⟨u, List.mem_cons_self, smaller, same⟩
        · rw [taken]
          exact ⟨u', List.mem_cons_of_mem _ member, BitVec.lt_trans less smaller, now⟩
    · have left : (rules vertices).apply k o u = o := by
        simp only [rules, smaller, if_false]
      rw [left] at le le_mail changes ⊢
      refine ⟨le, fun u' member => ?_, changes.imp id ?_⟩
      · rcases List.mem_cons.mp member with rfl | later
        · exact BitVec.le_trans le (BitVec.not_lt.mp smaller)
        · exact le_mail u' later
      · rintro ⟨u', member, less, now⟩
        exact ⟨u', List.mem_cons_of_mem _ member, less, now⟩

theorem activated_eq {vertices k : Nat} {o : Vertex} {mail : List Update} :
    (rules vertices).activated k o mail = false ↔ ∀ u ∈ mail, o.component ≤ u.component := by
  induction mail generalizing o with
  | nil => simp [Bsp.Rules.activated]
  | cons u mail ih =>
    rw [Bsp.Rules.activated, Bool.or_eq_false_iff, List.forall_mem_cons]
    have first : (rules vertices).activates k o u = false ↔ o.component ≤ u.component := by
      simp only [rules, decide_eq_false_iff_not, BitVec.not_lt]
    rw [first]
    refine and_congr_right fun notSmaller => ?_
    have left : (rules vertices).apply k o u = o := by
      simp only [rules, BitVec.not_lt.mpr notSmaller, if_false]
    rw [left, ih]

section

variable {edges : List (Nat × Nat)} {vertices : Nat}

/-- The graph that the driver sees, and what it asks of it. -/
structure Sound (edges : List (Nat × Nat)) (vertices : Nat) : Prop where
  ids : vertices ≤ 2 ^ 32
  inside : ∀ e ∈ edges, e.1 < vertices ∧ e.2 < vertices
  symmetric : ∀ e ∈ edges, (e.2, e.1) ∈ edges
  unmarked : ∀ e ∈ edges, e.1 ≠ tombstone

/-- What holds behind superstep `k`. -/
structure Labels (edges : List (Nat × Nat)) (vertices k : Nat) (s : Nat → Vertex)
    (inbox : List Update) : Prop where
  le_self : ∀ v < vertices, (s v).component.toNat ≤ v
  connected : ∀ v < vertices, Connected edges (s v).component.toNat v
  merged : ∀ v < vertices, (s v).merged = true ↔ (s v).component.toNat < v
  activePhase_le : ∀ v < vertices, (s v).activePhase ≤ k
  settled : ∀ e ∈ edges, (s e.1).activePhase ≠ k → (s e.2).component ≤ (s e.1).component
  inbox : ∀ u, u ∈ inbox ↔
    ∃ e ∈ edges, (s e.1).activePhase = k ∧ u = ⟨BitVec.ofNat 32 e.2, (s e.1).component⟩

theorem mem_outbox_iff {k : Nat} {mail : Nat → List Update} {s s' : Nat → Vertex}
    {inbox outbox : List Update} {quiet : Prop}
    (step : Bsp.Superstep (rules vertices) edges k mail s inbox s' outbox quiet) (u : Update) :
    u ∈ outbox ↔ ∃ e ∈ edges, (s' e.1).activePhase = k ∧
      u = ⟨BitVec.ofNat 32 e.2, (s' e.1).component⟩ := by
  rw [step.mem_outbox_iff]
  refine exists_congr fun e => and_congr_right fun _ => ?_
  simp only [rules]
  split
  · rename_i active
    simp only [active, true_and, Option.some.injEq, eq_comm]
  · rename_i inactive
    simp only [reduceCtorEq, inactive, false_and]

/-- The first superstep labels every vertex with its own id. -/
theorem labels_zero (sound : Sound edges vertices) {mail : Nat → List Update} {s s' : Nat → Vertex}
    {outbox : List Update} {quiet : Prop}
    (step : Bsp.Superstep (rules vertices) edges 0 mail s [] s' outbox quiet) :
    Labels edges vertices 0 s' outbox ∧
      ∀ v < vertices, s' v = ⟨BitVec.ofNat 32 v, 0, false, false⟩ := by
  have state : ∀ v < vertices, s' v = ⟨BitVec.ofNat 32 v, 0, false, false⟩ := by
    intro v known
    have empty : mail v = [] := List.perm_nil.mp (step.delivered v)
    rw [step.gathered, empty, Bsp.Rules.gather_nil]
    simp only [rules, known, and_self, if_true]
  have label : ∀ v < vertices, (s' v).component.toNat = v := by
    intro v known
    rw [state v known, BitVec.toNat_ofNat]
    exact Nat.mod_eq_of_lt (Nat.lt_of_lt_of_le known sound.ids)
  refine ⟨⟨fun v known => (label v known).le, fun v known => ?_, fun v known => ?_,
    fun v known => ?_, fun e edge changed => ?_, mem_outbox_iff step⟩, state⟩
  · rw [label v known]
    exact .refl v
  · rw [label v known, state v known]
    simp
  · rw [state v known]
  · rw [state e.1 (sound.inside e edge).1] at changed
    exact absurd rfl changed

/-- A further superstep lowers labels to those of neighbours. -/
theorem labels_succ (sound : Sound edges vertices) {k : Nat} {mail : Nat → List Update}
    {s s' : Nat → Vertex} {inbox outbox : List Update} {quiet : Prop}
    (labels : Labels edges vertices k s inbox)
    (step : Bsp.Superstep (rules vertices) edges (k + 1) mail s inbox s' outbox quiet) :
    Labels edges vertices (k + 1) s' outbox ∧
      (∀ v, s' v = s v ∨ v < vertices ∧ (s' v).component < (s v).component) ∧
      (quiet ↔ ∀ v, s' v = s v) := by
  have begun : ∀ v o, (rules vertices).start (k + 1) v o = o := by
    intro v o
    simp only [rules, Nat.succ_ne_zero, false_and, if_false]
  have lowers : ∀ v, Lowers (k + 1) (s v) (s' v) (mail v) := by
    intro v
    rw [step.gathered, begun]
    exact lowers_gather _ _
  have narrow : ∀ e ∈ edges, e.2 < 2 ^ 32 := fun e edge =>
    Nat.lt_of_lt_of_le (sound.inside e edge).2 sound.ids
  have mem : ∀ v u, u ∈ mail v ↔ ∃ e ∈ edges, (s e.1).activePhase = k ∧ e.2 = v ∧
      u = ⟨BitVec.ofNat 32 e.2, (s e.1).component⟩ := by
    intro v u
    rw [step.mem_mail_iff, labels.inbox]
    constructor
    · rintro ⟨⟨e, edge, active, rfl⟩, target⟩
      refine ⟨e, edge, active, ?_, rfl⟩
      rw [← target]
      exact (Nat.mod_eq_of_lt (narrow e edge)).symm
    · rintro ⟨e, edge, active, rfl, rfl⟩
      exact ⟨⟨e, edge, active, rfl⟩, Nat.mod_eq_of_lt (narrow e edge)⟩
  -- a vertex that changes takes the label of a neighbour
  have changes : ∀ v, s' v = s v ∨ ∃ e ∈ edges, e.2 = v ∧ (s e.1).component < (s v).component ∧
      s' v = ⟨(s e.1).component, k + 1, true, false⟩ := by
    intro v
    refine (lowers v).changes.imp id ?_
    rintro ⟨u, member, less, now⟩
    obtain ⟨e, edge, _, target, rfl⟩ := (mem v u).mp member
    exact ⟨e, edge, target, less, now⟩
  refine ⟨⟨fun v known => ?_, fun v known => ?_, fun v known => ?_, fun v known => ?_,
    fun e edge inactive => ?_, mem_outbox_iff step⟩, fun v => (changes v).imp id ?_, ?_⟩
  · exact Nat.le_trans (lowers v).le (labels.le_self v known)
  · rcases changes v with same | ⟨e, edge, rfl, _, now⟩
    · rw [same]
      exact labels.connected v known
    · rw [now]
      exact .trans _ _ _ (labels.connected e.1 (sound.inside e edge).1) (.rel _ _ edge)
  · rcases changes v with same | ⟨e, edge, rfl, less, now⟩
    · rw [same]
      exact labels.merged v known
    · rw [now]
      have := labels.le_self e.2 known
      have below : (s e.1).component.toNat < (s e.2).component.toNat := less
      exact iff_of_true rfl (Nat.lt_of_lt_of_le below this)
  · rcases changes v with same | ⟨_, _, _, _, now⟩
    · rw [same]
      exact Nat.le_succ_of_le (labels.activePhase_le v known)
    · rw [now]
  · -- the source has kept its label, and has sent it if it had just got it
    have same : s' e.1 = s e.1 := by
      rcases changes e.1 with same | ⟨_, _, _, _, now⟩
      · exact same
      · exact absurd (congrArg Vertex.activePhase now) inactive
    rw [same]
    by_cases active : (s e.1).activePhase = k
    · exact (lowers e.2).le_mail _ ((mem _ _).mpr ⟨e, edge, active, rfl, rfl⟩)
    · exact BitVec.le_trans (lowers e.2).le (labels.settled e edge active)
  · rintro ⟨e, edge, rfl, less, now⟩
    rw [now]
    exact ⟨(sound.inside e edge).2, less⟩
  · rw [step.quiet_iff]
    refine forall_congr' fun v => ?_
    rw [begun, activated_eq]
    constructor
    · intro notSmaller
      rcases (lowers v).changes with same | ⟨u, member, less, _⟩
      · exact same
      · exact absurd less (BitVec.not_lt.mpr (notSmaller u member))
    · intro same u member
      have := (lowers v).le_mail u member
      rwa [same] at this

/-- When nothing has changed, every label is the smallest id of its component. -/
theorem isLeast_of_settled (sound : Sound edges vertices) {k : Nat} {s : Nat → Vertex}
    {inbox : List Update} (labels : Labels edges vertices k s inbox)
    (quiet : ∀ v < vertices, (s v).activePhase ≠ k) :
    (∀ e ∈ edges, (s e.1).component = (s e.2).component) ∧
      ∀ v < vertices, IsLeast {w | Connected edges w v} (s v).component.toNat := by
  have agrees : ∀ e ∈ edges, (s e.1).component = (s e.2).component := by
    intro e edge
    obtain ⟨first, second⟩ := sound.inside e edge
    exact BitVec.le_antisymm
      (labels.settled _ (sound.symmetric e edge) (quiet e.2 second))
      (labels.settled e edge (quiet e.1 first))
  refine ⟨agrees, fun v known => ⟨labels.connected v known, fun w connected => ?_⟩⟩
  have other : w < vertices := (connected.lt_iff sound.inside).mpr known
  have same : (s w).component = (s v).component :=
    connected.label_eq (fun v => (s v).component) agrees
  rw [← same]
  exact labels.le_self w other

end

end Cc

section

variable {E : Type} (F : FormatUtils E) (edges : List E) (c : Configuration)

/-- What cc leaves behind: the smallest id of every component, and their number. -/
structure CcExact (st : SgState Cc.Vertex Cc.Update Nat Nat) : Prop where
  component : ∀ v < c.vertices,
    IsLeast {w | Connected (edgeEnds F edges) w v} (st.state v).component.toNat
  ccCount : Cc.ccCount c.vertices st.total = Components.count (edgeEnds F edges) c.vertices

/-- cc run on all edges ends with the result. -/
def ComputesCc (state : Nat → Cc.Vertex) : Prop :=
  Computes c cc F (scanAll c F edges) (CcExact F edges c) (start state (fun _ => 0) 0)

variable {F edges c}

namespace Cc

/-- The invariant of the driver's loop. -/
structure Running (F : FormatUtils E) (edges : List E) (c : Configuration)
    (st : SgState Vertex Update Nat Nat) : Prop where
  ready : ScatterGather.Ready c cc view Fresh (fun _ => True) st
  cleared : ∀ p < c.processors, st.algoPcpu p = 0
  first : st.bspPhase = 0 → st.updatesIn = [] ∧ st.total = 0
  later : ∀ k, st.bspPhase = k + 1 →
    Labels (edgeEnds F edges) c.vertices k (fun v => view (st.state v)) st.updatesIn ∧
      st.total = ∑ v ∈ Finset.range c.vertices, weight (view (st.state v))

/-- The sum of the labels, which falls, and the first superstep. -/
def remaining (c : Configuration) (st : SgState Vertex Update Nat Nat) : Nat :=
  if st.bspPhase = 0 then ∑ v ∈ Finset.range c.vertices, v + 1
  else ∑ v ∈ Finset.range c.vertices, (st.state v).component.toNat

theorem reduce_fst (total : Nat) (data : Nat → Nat) (processors : Nat) :
    (reduce total data processors).1 = total + ∑ p ∈ Finset.range processors, data p := by
  unfold reduce
  simp only
  induction processors with
  | zero => simp
  | succ n ih =>
    rw [List.range_succ, List.foldl_append, Finset.sum_range_succ, ← Nat.add_assoc, ← ih]
    rfl

/-- One pass of the loop. -/
theorem Running.step (sound : Sound (edgeEnds F edges) c.vertices)
    {st st' : SgState Vertex Update Nat Nat} (running : Running F edges c st)
    (stepped : Superstep c cc F (scanAll c F edges) st st') :
    Running F edges c st' ∧ st'.bspPhase = st.bspPhase + 1 ∧ st'.globalStop = false ∧
      ∀ k, st.bspPhase = k + 1 →
        (∀ v, view (st'.state v) = view (st.state v) ∨
          v < c.vertices ∧ (st'.state v).component < (st.state v).component) ∧
        (AllVote c st'.iVoteToStop ↔ ∀ v, view (st'.state v) = view (st.state v)) := by
  have ends : EndsInside F edges c.vertices :=
    fun e member => sound.inside _ (List.mem_map.mpr ⟨e, member, rfl⟩)
  have complete := complete_scanAll
    (follows c.vertices) fun e member => (ends e member).1
  obtain ⟨ready, mail, algo, advances⟩ := advances_of_superstep (follows c.vertices)
    counts complete (fun e member => (ends e member).2) (fun _ => Nat.lt_succ_of_lt) running.ready
    stepped
  have superstep := advances.superstep
  rw [liveLinks_plain, liveEdges_eq sound.unmarked] at superstep
  have reduced := advances.reduced
  have total : st'.total = st.total + ∑ p ∈ Finset.range c.processors, algo p := by
    have isTotal : st'.total = (reduce st.total algo c.processors).1 := congrArg Prod.fst reduced
    rw [isTotal, reduce_fst]
  have data : st'.algoPcpu = fun i => if i < c.processors then 0 else algo i :=
    congrArg (fun r => r.2.1) reduced
  have stop : st'.globalStop = false := congrArg (fun r => r.2.2) reduced
  have zero : counted c (fun d : Nat => d) st = 0 :=
    Finset.sum_eq_zero fun p member => running.cleared p (Finset.mem_range.mp member)
  have counted' := advances.counts
  rw [zero, Nat.zero_add] at counted'
  have cleared : ∀ p < c.processors, st'.algoPcpu p = 0 := by
    intro p known
    rw [data]
    simp only [known, if_true]
  have notFirst : st'.bspPhase ≠ 0 := by rw [advances.bspPhase]; exact Nat.succ_ne_zero _
  cases isPhase : st.bspPhase with
  | zero =>
    obtain ⟨empty, none_⟩ := running.first isPhase
    rw [isPhase, empty] at superstep
    obtain ⟨labels, state⟩ := labels_zero sound superstep
    refine ⟨⟨ready, cleared, fun h => absurd h notFirst, fun k isNext => ?_⟩, ?_, stop,
      fun k isNext => by omega⟩
    · have first : k = 0 := by rw [advances.bspPhase] at isNext; omega
      subst first
      refine ⟨labels, ?_⟩
      have begun : ∑ v ∈ Finset.range c.vertices,
          weight ((rules c.vertices).start 0 v (view (st.state v))) = 0 := by
        refine Finset.sum_eq_zero fun v member => ?_
        simp only [rules, Finset.mem_range.mp member, and_self, if_true, weight,
          Bool.false_eq_true, if_false]
      simp only [isPhase, begun] at counted'
      rw [total, none_, ← counted']
      omega
    · rw [advances.bspPhase, isPhase]
  | succ k =>
    obtain ⟨labels, sum⟩ := running.later k isPhase
    rw [isPhase] at superstep
    obtain ⟨labels', falls, quiet⟩ := labels_succ sound labels superstep
    refine ⟨⟨ready, cleared, fun h => absurd h notFirst, fun k' isNext => ?_⟩, ?_, stop,
      fun k' isNext => ?_⟩
    · have next : k' = k + 1 := by rw [advances.bspPhase] at isNext; omega
      subst next
      refine ⟨labels', ?_⟩
      have same : ∀ v, (rules c.vertices).start st.bspPhase v (view (st.state v)) =
          view (st.state v) := by
        intro v
        simp only [rules, isPhase, Nat.succ_ne_zero, false_and, if_false]
      simp only [same] at counted'
      omega
    · rw [advances.bspPhase, isPhase]
    · exact ⟨falls, quiet⟩

/-- When nothing has changed in a superstep, the labels are final. -/
theorem Running.exact (sound : Sound (edgeEnds F edges) c.vertices) {k : Nat}
    {st : SgState Vertex Update Nat Nat} (running : Running F edges c st)
    (isPhase : st.bspPhase = k + 1)
    (quiet : ∀ v < c.vertices, (view (st.state v)).activePhase ≠ k) : CcExact F edges c st := by
  obtain ⟨labels, sum⟩ := running.later k isPhase
  obtain ⟨agrees, least⟩ := isLeast_of_settled sound labels quiet
  refine ⟨least, ?_⟩
  have count := count_eq sound.inside (fun e edge => congrArg BitVec.toNat (agrees e edge))
    labels.connected
  have merged : st.total = ((Finset.range c.vertices).filter
      fun v => ¬ (view (st.state v)).component.toNat = v).card := by
    rw [sum, Finset.card_filter]
    refine Finset.sum_congr rfl fun v member => ?_
    have known := Finset.mem_range.mp member
    have isMerged := labels.merged v known
    have le := labels.le_self v known
    unfold weight
    by_cases smaller : (view (st.state v)).component.toNat < v
    · rw [if_pos (isMerged.mpr smaller), if_pos (by omega)]
    · rw [if_neg (fun h => smaller (isMerged.mp h)), if_neg (by omega)]
  have split := Finset.card_filter_add_card_filter_not (s := Finset.range c.vertices)
    (fun v => (view (st.state v)).component.toNat = v)
  rw [Finset.card_range] at split
  unfold ccCount
  rw [count, merged]
  omega

end Cc

theorem computesCc_of_sound (sound : Cc.Sound (edgeEnds F edges) c.vertices)
    (fits : ∀ superp < c.superPartitions, c.StateFits cc.vertexStateBytes superp)
    (state : Nat → Cc.Vertex) : ComputesCc F edges c state := by
  have minPhases : cc.minSuperPhases = 1 := rfl
  refine NondetLoop.AlwaysEnds.of_invariant (Cc.Running F edges c) (Cc.remaining c)
    ⟨⟨rfl, fun u none_ => absurd none_ List.not_mem_nil, fun late => by simp [cc,
      ScatterGather.start] at late⟩, fun p _ => rfl, fun _ => ⟨rfl, rfl⟩,
      fun k late => absurd late (by simp [ScatterGather.start])⟩
    (fun st _ => exists_superstep (fun _ _ => ⟨_, rfl⟩) fits st) ?_ ?_
  · intro st st' running stepped stops
    obtain ⟨running', phase, goesOn, later⟩ := running.step sound stepped
    have late : 1 < st'.bspPhase := minPhases ▸ stops.1
    obtain ⟨k, isPhase⟩ : ∃ k, st.bspPhase = k + 1 := ⟨st.bspPhase - 1, by omega⟩
    have vote : AllVote c st'.iVoteToStop := stops.2.resolve_left (by simp [goesOn])
    have same := (later k isPhase).2.mp vote
    refine running'.exact sound (by rw [phase, isPhase]) fun v known => ?_
    have le := (running.later k isPhase).1.activePhase_le v known
    rw [same]
    exact Nat.ne_of_lt (Nat.lt_succ_of_le le)
  · intro st st' running stepped goesOn
    obtain ⟨running', phase, noStop, later⟩ := running.step sound stepped
    refine ⟨running', ?_⟩
    unfold Cc.remaining
    cases isPhase : st.bspPhase with
    | zero =>
      rw [if_pos rfl, if_neg (by omega)]
      refine Nat.lt_succ_of_le (Finset.sum_le_sum fun v member => ?_)
      exact (running'.later 0 (by omega)).1.le_self v (Finset.mem_range.mp member)
    | succ k =>
      obtain ⟨falls, quiet⟩ := later k isPhase
      rw [if_neg (Nat.succ_ne_zero k), if_neg (by omega)]
      have changed : ¬ ∀ v, Cc.view (st'.state v) = Cc.view (st.state v) := fun none_ =>
        goesOn ⟨by omega, .inr (quiet.mpr none_)⟩
      push Not at changed
      obtain ⟨v, changed⟩ := changed
      obtain ⟨known, less⟩ := (falls v).resolve_left changed
      refine Finset.sum_lt_sum (fun w _ => ?_) ⟨v, Finset.mem_range.mpr known, less⟩
      rcases falls w with same | ⟨_, lower⟩
      · exact (congrArg (fun o : Cc.Vertex => o.component.toNat) same).le
      · exact Nat.le_of_lt lower

/-- cc is exact. Ids are 32 bit numbers and not the mark of a deleted edge, and the vertex records
fit in the state buffer. -/
theorem computesCc (c : Configuration) (F : FormatUtils E) (edges : List E)
    (state : Nat → Cc.Vertex) (inside : EndsInside F edges c.vertices)
    (symmetric : ∀ e ∈ edgeEnds F edges, (e.2, e.1) ∈ edgeEnds F edges)
    (ids : c.vertices ≤ 2 ^ 32) (unmarked : ∀ e ∈ edges, (F.src e).toNat ≠ tombstone)
    (fits : ∀ superp < c.superPartitions, c.StateFits cc.vertexStateBytes superp) :
    ComputesCc F edges c state := by
  refine computesCc_of_sound ⟨ids, ?_, symmetric, ?_⟩ fits state
  all_goals
    intro e member
    obtain ⟨e', edge, rfl⟩ := List.mem_map.mp member
  · exact inside e' edge
  · exact unmarked e' edge

end

/-- One edge and a vertex of its own. -/
theorem computesCc_edge :
    ComputesCc type2 [⟨2, 1⟩, ⟨1, 2⟩] (Configuration.single 0 3 (by decide))
      (fun _ => ⟨0, 0, false, false⟩) :=
  computesCc _ _ _ _ (by unfold EndsInside; decide) (by unfold edgeEnds; decide) (by decide)
    (by decide) (by unfold Configuration.StateFits; decide +kernel)

/-- Two edges that meet in vertex 0xFFFFFFFF. -/
def markedEdges : List SimpleEdge :=
  [⟨0, 0xFFFFFFFF⟩, ⟨0xFFFFFFFF, 0⟩, ⟨1, 0xFFFFFFFF⟩, ⟨0xFFFFFFFF, 1⟩]

/-- 2^32 vertices in one partition. -/
def allIds : Configuration := Configuration.single 0 (2 ^ 32) Configuration.ids_pos

theorem endsInside_markedEdges : EndsInside type2 markedEdges allIds.vertices := by
  change EndsInside type2 markedEdges (2 ^ 32)
  unfold EndsInside
  decide

/-- Nothing is under way to vertex 1, and so it keeps its label. -/
structure Waits (st : SgState Cc.Vertex Cc.Update Nat Nat) : Prop where
  ready : Ready allIds cc Cc.view Cc.Fresh (fun _ => True) st
  elsewhere : ∀ u ∈ st.updatesIn, u.target.toNat ≠ 1
  label : st.bspPhase ≠ 0 → (st.state 1).component = 1

theorem Waits.step {st st' : SgState Cc.Vertex Cc.Update Nat Nat} (waits : Waits st)
    (stepped : Superstep allIds cc type2 (scanAll allIds type2 markedEdges) st st') :
    Waits st' ∧ (st'.state 1).component = 1 := by
  have known : 1 < allIds.vertices := show 1 < 2 ^ 32 by norm_num
  have complete := complete_scanAll (Cc.follows allIds.vertices)
    fun e member => (endsInside_markedEdges e member).1
  obtain ⟨ready, mail, algo, advances⟩ := advances_of_superstep (Cc.follows _) Cc.counts complete
    (fun e member => (endsInside_markedEdges e member).2) (fun _ => Nat.lt_succ_of_lt) waits.ready stepped
  have superstep := advances.superstep
  have live : liveEdges type2 markedEdges = [(0, 0xFFFFFFFF), (1, 0xFFFFFFFF)] := by decide
  rw [liveLinks_plain, live] at superstep
  have empty : mail 1 = [] := by
    rw [List.eq_nil_iff_forall_not_mem]
    intro u member
    obtain ⟨sent, target⟩ := superstep.mem_mail_iff.mp member
    exact waits.elsewhere u sent target
  have now : (st'.state 1).component = 1 := by
    have gathered := congrArg Cc.Vertex.component (superstep.gathered 1)
    rw [empty, Bsp.Rules.gather_nil] at gathered
    by_cases first : st.bspPhase = 0
    · rw [first] at gathered
      simp only [Cc.rules, known, and_self, if_true] at gathered
      exact gathered
    · simp only [Cc.rules, first, false_and, if_false] at gathered
      exact gathered.trans (waits.label first)
  refine ⟨⟨ready, fun u sent => ?_, fun _ => now⟩, now⟩
  obtain ⟨e, edge, sends⟩ := superstep.mem_outbox_iff.mp sent
  simp only [Cc.rules] at sends
  split at sends
  · rw [← Option.some.inj sends]
    simp only [List.mem_cons, List.not_mem_nil, or_false] at edge
    rcases edge with rfl | rfl <;> simp
  · exact absurd sends (by simp)

/-- The edges of vertex 0xFFFFFFFF count as deleted, so no label gets from vertex 0 to vertex 1. -/
theorem not_computesCc_markedEdges (state : Nat → Cc.Vertex) :
    ¬ ComputesCc type2 markedEdges allIds state := by
  intro computes
  obtain ⟨st, st', waits, stepped, exact_⟩ := computes.exists_last Waits
    ⟨⟨rfl, fun u none_ => absurd none_ List.not_mem_nil, fun late => by simp [cc,
      ScatterGather.start] at late⟩, fun u none_ => absurd none_ List.not_mem_nil,
      fun late => absurd rfl late⟩ fun st st' waits stepped => (waits.step stepped).1
  have least := exact_.component 1 (show 1 < 2 ^ 32 by norm_num)
  rw [(waits.step stepped).2] at least
  have linked : Components.Connected (edgeEnds type2 markedEdges) 0 1 :=
    .trans _ 0xFFFFFFFF _ (.rel _ _ (by decide)) (.rel _ _ (by decide))
  exact absurd (least.2 linked) (by decide)

/-- A label has 32 bits. -/
theorem not_computesCc_wide (state : Nat → Cc.Vertex) :
    ¬ ComputesCc type2 [] (Configuration.single 0 (2 ^ 32 + 1) (Nat.succ_pos _)) state := by
  intro computes
  obtain ⟨st, exact_⟩ := computes.exists_post
  have least := (exact_.component (2 ^ 32) (Nat.lt_succ_self _)).1
  have alone : ∀ u v, Components.Connected (edgeEnds type2 []) u v → u = v := by
    intro u v connected
    exact connected.label_eq (fun v => v) fun e none_ => absurd none_ List.not_mem_nil
  have := (st.state (2 ^ 32)).component.isLt
  have := alone _ _ least
  omega

/-- With two super partitions the state buffer has room for 630 of the 631 records of super
partition 0. -/
theorem not_computesCc_tight (state : Nat → Cc.Vertex) :
    ¬ ComputesCc type2 [] (Configuration.single 1 1261 (by decide)) state := by
  intro computes
  obtain ⟨st, stepped⟩ := computes.can_step
  have fits := fits_of_superstep stepped 0 (by decide)
  unfold Configuration.StateFits at fits
  revert fits
  decide +kernel

/-- cc is not exact on a graph with vertex 0xFFFFFFFF, with an id of 33 bits, and where a super
partition has more records than the state buffer holds. -/
theorem not_computesCc :
    (EndsInside type2 markedEdges allIds.vertices ∧ (∀ e ∈ edgeEnds type2 markedEdges,
      (e.2, e.1) ∈ edgeEnds type2 markedEdges) ∧
      ∀ state, ¬ ComputesCc type2 markedEdges allIds state) ∧
    (∀ state, ¬ ComputesCc type2 [] (Configuration.single 0 (2 ^ 32 + 1) (Nat.succ_pos _)) state) ∧
    (∀ state, ¬ ComputesCc type2 [] (Configuration.single 1 1261 (by decide)) state) := by
  refine ⟨⟨endsInside_markedEdges, ?_, not_computesCc_markedEdges⟩, not_computesCc_wide,
    not_computesCc_tight⟩
  unfold edgeEnds
  decide

end MBFGraph
