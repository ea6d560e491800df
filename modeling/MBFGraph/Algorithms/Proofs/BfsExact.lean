import MBFGraph.Algorithms.Bfs
import MBFGraph.Core.Proofs.ScatterGather
import MBFGraph.Lib.Walks

/-!
# bfs finds shortest paths

Behind superstep `k` the vertices at distance `k` or less are discovered, each with its distance
and a parent one level above, and the updates under way come from the vertices at distance `k`
(`Levels`). The driver stops at the first level without vertices.
-/

namespace MBFGraph

open Walks ScatterGather

namespace Bfs

/-- What a superstep looks at: the parent and the superstep of the discovery. -/
abbrev View := VertexT × BitVec 31

def view (v : BfsVertex) : View := (v.bfsParent, v.bspPhase)

/-- `bfs` as rules. -/
def rules (bfsRoot vertices : Nat) : Bsp.Rules Nat View BfsUpdate where
  start k v o :=
    if k = 0 ∧ v < vertices then
      if bfsRoot = v then (BitVec.ofNat 32 bfsRoot, 0) else (noParent, o.2)
    else o
  apply k o u := if o.1 = noParent then (u.parent, BitVec.ofNat 31 k) else o
  activates _ o _ := decide (o.1 = noParent)
  active k o := decide (o.1 ≠ noParent ∧ o.2.toNat = k)
  send k o src dst :=
    if o.1 ≠ noParent ∧ o.2.toNat = k then some ⟨BitVec.ofNat 32 src, BitVec.ofNat 32 dst⟩
    else none
  target u := u.child.toNat

/-- No vertex was discovered in this superstep. -/
def Fresh (k : Nat) (o : View) : Prop := o.1 ≠ noParent → o.2.toNat < k

/-- The updates carry a parent. -/
def Carries (u : BfsUpdate) : Prop := u.parent ≠ noParent

theorem ofNat_ne_noParent {src : Nat} (below : src < 2 ^ 32) (notMark : src ≠ tombstone) :
    BitVec.ofNat 32 src ≠ noParent := by
  intro same
  have := congrArg BitVec.toNat same
  rw [BitVec.toNat_ofNat, Nat.mod_eq_of_lt below, noParent, BitVec.toNat_allOnes] at this
  exact notMark (by rw [this]; rfl)

theorem follows (bfsRoot vertices : Nat) :
    Follows (bfs bfsRoot) vertices (rules bfsRoot vertices) (fun v _ => v) view Fresh Carries where
  target _ := rfl
  apply_view s u d k := by
    simp only [bfs, applyOneUpdate, rules, view]
    split <;> rfl
  apply_activates s u d k := by
    simp only [bfs, applyOneUpdate, rules, view]
    split <;> simp_all
  init_view s v k needed inside := by
    have first : k = 0 := of_decide_eq_true needed
    simp only [bfs, init, rules, view, first, inside, and_self, if_true]
    split <;> rfl
  start_else k v o not_ := by
    have not' : ¬(k = 0 ∧ v < vertices) := fun h => not_ ⟨decide_eq_true h.1, h.2⟩
    simp only [rules, not', if_false]
  init_active s v k needed active := by
    simp only [bfs, init, rules, view] at active ⊢
    split
    · rfl
    · rename_i other
      simp [other] at active
  reset_view s := by
    simp only [bfs, checkResetChanged, view]
    split <;> rfl
  check_view s k := rfl
  generate_eq s src dst _ d k := by
    simp only [bfs, generateUpdate, rules, view]
    split <;> simp
  vertex_after _ _ := rfl
  send_active k o src dst inactive := by
    simp only [rules, decide_eq_false_iff_not] at inactive ⊢
    rw [if_neg inactive]
  send_target k o src dst _ u below sent := by
    simp only [rules] at sent ⊢
    split at sent
    · rw [← Option.some.inj sent]
      exact Nat.mod_eq_of_lt below
    · exact absurd sent (by simp)
  send_good k o src dst u below notMark sent := by
    simp only [rules] at sent
    split at sent
    · rw [← Option.some.inj sent]
      exact ofNat_ne_noParent below notMark
    · exact absurd sent (by simp)
  apply_active k o u active := by
    simp only [rules] at active ⊢
    by_cases undiscovered : o.1 = noParent
    · simp [undiscovered]
    · simp only [undiscovered, if_false] at active
      exact .inl active
  fresh_active k o needed isFresh := by
    simp only [rules, decide_eq_false_iff_not]
    rintro ⟨discovered, now⟩
    exact absurd now (Nat.ne_of_lt (isFresh discovered))
  fresh_start k v o needed inside := by
    have first : k = 0 := of_decide_eq_true needed
    simp only [rules, first, inside, and_self, if_true]
    split
    · intro _
      exact Nat.zero_lt_one
    · intro discovered
      exact absurd rfl discovered
  fresh_apply k o u isFresh := by
    simp only [rules]
    split
    · intro _
      rw [BitVec.toNat_ofNat]
      exact Nat.lt_succ_of_le (Nat.mod_le _ _)
    · exact isFresh

/-- One for a discovered vertex. -/
def weight (o : View) : Nat := if o.1 = noParent then 0 else 1

theorem counts (bfsRoot : Nat) :
    Counts (bfs bfsRoot) view Carries PerProcessorData.verticesDiscovered weight where
  apply s u d k carries := by
    have isParent : u.parent ≠ noParent := carries
    simp only [bfs, applyOneUpdate, view, weight]
    by_cases undiscovered : s.bfsParent = noParent
    · simp only [undiscovered, if_true, isParent, if_false, Nat.add_zero]
    · simp only [undiscovered, if_false]
  generate s src dst _ d k := by
    simp only [bfs, generateUpdate]
    split <;> rfl

theorem gather_eq {bfsRoot vertices k : Nat} {o : View} {mail : List BfsUpdate}
    (parents : ∀ u ∈ mail, u.parent ≠ noParent) :
    (rules bfsRoot vertices).gather k o mail = if o.1 = noParent
      then mail.head?.elim o fun u => (u.parent, BitVec.ofNat 31 k) else o := by
  have stays : ∀ (o : View) (mail : List BfsUpdate), o.1 ≠ noParent →
      (rules bfsRoot vertices).gather k o mail = o := by
    intro o mail discovered
    refine Bsp.Rules.gather_eq_self fun u _ => ?_
    simp only [rules, discovered, if_false]
  by_cases undiscovered : o.1 = noParent
  · rw [if_pos undiscovered]
    cases mail with
    | nil => rfl
    | cons u mail =>
      have taken : (rules bfsRoot vertices).apply k o u = (u.parent, BitVec.ofNat 31 k) := by
        simp only [rules, undiscovered, if_true]
      rw [Bsp.Rules.gather_cons, taken]
      exact stays _ _ (parents u List.mem_cons_self)
  · rw [if_neg undiscovered, stays o mail undiscovered]

theorem activated_eq {bfsRoot vertices k : Nat} {o : View} {mail : List BfsUpdate} :
    (rules bfsRoot vertices).activated k o mail = false ↔ o.1 ≠ noParent ∨ mail = [] := by
  induction mail generalizing o with
  | nil => simp [Bsp.Rules.activated]
  | cons u mail ih =>
    simp only [Bsp.Rules.activated, Bool.or_eq_false_iff, reduceCtorEq, or_false]
    constructor
    · intro quiet
      simpa [rules] using quiet.1
    · intro discovered
      have same : (rules bfsRoot vertices).apply k o u = o := by
        simp only [rules, discovered, if_false]
      exact ⟨by simpa [rules] using discovered, by rw [same, ih]; exact .inl discovered⟩

section

variable {edges : List (Nat × Nat)} {bfsRoot vertices : Nat}

/-- The graph that the driver sees, and what it asks of it. -/
structure Sound (edges : List (Nat × Nat)) (bfsRoot vertices : Nat) : Prop where
  root_lt : bfsRoot < vertices
  isMarked : BitVec.ofNat 32 bfsRoot ≠ noParent
  inside : ∀ e ∈ edges, e.1 < vertices ∧ e.2 < vertices
  narrow : ∀ e ∈ edges, e.1 < 2 ^ 32 ∧ e.2 < 2 ^ 32
  unmarked : ∀ e ∈ edges, e.1 ≠ tombstone
  shallow : ∀ v d, Dist edges bfsRoot v d → d < 2 ^ 31

/-- What holds behind superstep `k`. -/
structure Levels (edges : List (Nat × Nat)) (bfsRoot vertices k : Nat) (s : Nat → View)
    (inbox : List BfsUpdate) : Prop where
  discovered : ∀ v < vertices, (s v).1 ≠ noParent ↔ ∃ d ≤ k, Dist edges bfsRoot v d
  level : ∀ v < vertices, ∀ d ≤ k, Dist edges bfsRoot v d → (s v).2.toNat = d
  parent : ∀ v < vertices, ∀ d < k, Dist edges bfsRoot v (d + 1) →
    ((s v).1.toNat, v) ∈ edges ∧ Dist edges bfsRoot (s v).1.toNat d
  inbox : ∀ u, u ∈ inbox ↔
    (u.parent.toNat, u.child.toNat) ∈ edges ∧ Dist edges bfsRoot u.parent.toNat k

/-- The updates of a superstep come from the level that it has discovered. -/
theorem mem_outbox_iff (sound : Sound edges bfsRoot vertices) {k : Nat}
    {mail : Nat → List BfsUpdate} {s s' : Nat → View} {inbox outbox : List BfsUpdate} {quiet : Prop}
    (step : Bsp.Superstep (rules bfsRoot vertices) edges k mail s inbox s' outbox quiet)
    (discovered : ∀ v < vertices, (s' v).1 ≠ noParent ↔ ∃ d ≤ k, Dist edges bfsRoot v d)
    (level : ∀ v < vertices, ∀ d ≤ k, Dist edges bfsRoot v d → (s' v).2.toNat = d)
    (u : BfsUpdate) : u ∈ outbox ↔
      (u.parent.toNat, u.child.toNat) ∈ edges ∧ Dist edges bfsRoot u.parent.toNat k := by
  have active : ∀ v < vertices, ((s' v).1 ≠ noParent ∧ (s' v).2.toNat = k) ↔
      Dist edges bfsRoot v k := by
    intro v known
    constructor
    · rintro ⟨found, now⟩
      obtain ⟨d, le, dist⟩ := (discovered v known).mp found
      rw [level v known d le dist] at now
      exact now ▸ dist
    · intro dist
      exact ⟨(discovered v known).mpr ⟨k, Nat.le_refl _, dist⟩, level v known k (Nat.le_refl _) dist⟩
  rw [step.mem_outbox_iff]
  constructor
  · rintro ⟨⟨src, dst⟩, edge, sent⟩
    have known := sound.inside _ edge
    have narrow := sound.narrow _ edge
    simp only [rules] at sent
    split at sent
    · rename_i isActive
      rw [← Option.some.inj sent]
      simp only [BitVec.toNat_ofNat, Nat.mod_eq_of_lt narrow.1, Nat.mod_eq_of_lt narrow.2]
      exact ⟨edge, (active src known.1).mp isActive⟩
    · exact absurd sent (by simp)
  · rintro ⟨edge, dist⟩
    have known := sound.inside _ edge
    refine ⟨_, edge, ?_⟩
    simp only [rules]
    rw [if_pos ((active _ known.1).mpr dist)]
    simp

/-- The first superstep discovers the root. -/
theorem levels_zero (sound : Sound edges bfsRoot vertices) {mail : Nat → List BfsUpdate}
    {s s' : Nat → View} {outbox : List BfsUpdate} {quiet : Prop}
    (step : Bsp.Superstep (rules bfsRoot vertices) edges 0 mail s [] s' outbox quiet) :
    Levels edges bfsRoot vertices 0 s' outbox := by
  have state : ∀ v < vertices, s' v =
      if bfsRoot = v then (BitVec.ofNat 32 bfsRoot, 0) else (noParent, (s v).2) := by
    intro v known
    have empty : mail v = [] := List.perm_nil.mp (step.delivered v)
    rw [step.gathered, empty, Bsp.Rules.gather_nil]
    simp only [rules, known, and_self, if_true]
  have atRoot : ∀ v d, d ≤ 0 → Dist edges bfsRoot v d → v = bfsRoot := by
    intro v d le dist
    rw [Nat.le_zero.mp le] at dist
    exact dist.eq_of_zero
  have discovered : ∀ v < vertices,
      (s' v).1 ≠ noParent ↔ ∃ d ≤ 0, Dist edges bfsRoot v d := by
    intro v known
    rw [state v known]
    split
    · rename_i here
      subst here
      simp only [ne_eq, sound.isMarked, not_false_eq_true, true_iff]
      exact ⟨0, Nat.le_refl _, dist_self⟩
    · rename_i other
      simp only [ne_eq, not_true_eq_false, false_iff]
      rintro ⟨d, le, dist⟩
      exact other (atRoot v d le dist).symm
  have level : ∀ v < vertices, ∀ d ≤ 0, Dist edges bfsRoot v d → (s' v).2.toNat = d := by
    intro v known d le dist
    rw [state v known, if_pos (atRoot v d le dist).symm, Nat.le_zero.mp le]
    rfl
  exact ⟨discovered, level, fun v _ d less => absurd less (Nat.not_lt_zero _),
    mem_outbox_iff sound step discovered level⟩

/-- Every further superstep discovers the next level. -/
theorem levels_succ (sound : Sound edges bfsRoot vertices) {k : Nat} {mail : Nat → List BfsUpdate}
    {s s' : Nat → View} {inbox outbox : List BfsUpdate} {quiet : Prop}
    (levels : Levels edges bfsRoot vertices k s inbox)
    (step : Bsp.Superstep (rules bfsRoot vertices) edges (k + 1) mail s inbox s' outbox quiet) :
    Levels edges bfsRoot vertices (k + 1) s' outbox ∧
      (quiet ↔ ∀ v < vertices, ¬ Dist edges bfsRoot v (k + 1)) := by
  have begun : ∀ v o, (rules bfsRoot vertices).start (k + 1) v o = o := by
    intro v o
    simp only [rules, Nat.succ_ne_zero, false_and, if_false]
  have mem : ∀ v u, u ∈ mail v ↔ ((u.parent.toNat, v) ∈ edges ∧
      Dist edges bfsRoot u.parent.toNat k) ∧ u.child.toNat = v := by
    intro v u
    rw [step.mem_mail_iff, levels.inbox]
    constructor
    · rintro ⟨sent, rfl⟩
      exact ⟨sent, rfl⟩
    · rintro ⟨sent, rfl⟩
      exact ⟨sent, rfl⟩
  have parents : ∀ v, ∀ u ∈ mail v, u.parent ≠ noParent := by
    intro v u member
    have edge := ((mem v u).mp member).1.1
    have := ofNat_ne_noParent (sound.narrow _ edge).1 (sound.unmarked _ edge)
    simpa using this
  have state : ∀ v, s' v = if (s v).1 = noParent
      then (mail v).head?.elim (s v) fun u => (u.parent, BitVec.ofNat 31 (k + 1)) else s v := by
    intro v
    rw [step.gathered, begun, gather_eq (parents v)]
  have stays : ∀ v, (s v).1 ≠ noParent ∨ mail v = [] → s' v = s v := by
    intro v known
    rw [state]
    split
    · rename_i undiscovered
      rw [known.resolve_left (not_not_intro undiscovered)]
      rfl
    · rfl
  have discovers : ∀ v, (s v).1 = noParent → mail v ≠ [] →
      ∃ u ∈ mail v, s' v = (u.parent, BitVec.ofNat 31 (k + 1)) := by
    intro v undiscovered some_
    rw [state, if_pos undiscovered]
    cases isMail : mail v with
    | nil => exact absurd isMail some_
    | cons u rest => exact ⟨u, List.mem_cons_self, rfl⟩
  -- an undiscovered vertex has mail if and only if it is on the next level
  have nextLevel : ∀ v < vertices, (s v).1 = noParent →
      (mail v ≠ [] ↔ Dist edges bfsRoot v (k + 1)) := by
    intro v known undiscovered
    have notYet : ¬ ∃ d ≤ k, Dist edges bfsRoot v d := fun found =>
      (levels.discovered v known).mpr found undiscovered
    constructor
    · intro some_
      obtain ⟨u, member⟩ := List.exists_mem_of_ne_nil (mail v) some_
      obtain ⟨⟨edge, dist⟩, _⟩ := (mem v u).mp member
      obtain ⟨d, le, distV⟩ := dist.exists_next edge
      rcases Nat.le_succ_iff.mp le with less | rfl
      · exact absurd ⟨d, less, distV⟩ notYet
      · exact distV
    · intro dist empty
      obtain ⟨p, distP, edge⟩ := dist.exists_last
      have narrow := sound.narrow _ edge
      have member : (⟨BitVec.ofNat 32 p, BitVec.ofNat 32 v⟩ : BfsUpdate) ∈ mail v := by
        rw [mem]
        simp only [BitVec.toNat_ofNat, Nat.mod_eq_of_lt narrow.1, Nat.mod_eq_of_lt narrow.2]
        exact ⟨⟨edge, distP⟩, trivial⟩
      rw [empty] at member
      exact absurd member List.not_mem_nil
  have discovered : ∀ v < vertices,
      (s' v).1 ≠ noParent ↔ ∃ d ≤ k + 1, Dist edges bfsRoot v d := by
    intro v known
    by_cases before : (s v).1 = noParent
    · by_cases empty : mail v = []
      · rw [stays v (.inr empty)]
        simp only [before, ne_eq, not_true_eq_false, false_iff]
        rintro ⟨d, le, dist⟩
        rcases Nat.le_succ_iff.mp le with less | rfl
        · exact (levels.discovered v known).mpr ⟨d, less, dist⟩ before
        · exact (nextLevel v known before).mpr dist empty
      · obtain ⟨u, member, now⟩ := discovers v before empty
        rw [now]
        exact iff_of_true (parents v u member)
          ⟨k + 1, Nat.le_refl _, (nextLevel v known before).mp empty⟩
    · rw [stays v (.inl before)]
      obtain ⟨d, le, dist⟩ := (levels.discovered v known).mp before
      exact iff_of_true before ⟨d, Nat.le_succ_of_le le, dist⟩
  have level : ∀ v < vertices, ∀ d ≤ k + 1, Dist edges bfsRoot v d → (s' v).2.toNat = d := by
    intro v known d le dist
    by_cases before : (s v).1 = noParent
    · have isNext : d = k + 1 := by
        rcases Nat.le_succ_iff.mp le with less | equal
        · exact absurd before ((levels.discovered v known).mpr ⟨d, less, dist⟩)
        · exact equal
      subst isNext
      obtain ⟨u, _, now⟩ := discovers v before ((nextLevel v known before).mpr dist)
      rw [now, BitVec.toNat_ofNat]
      exact Nat.mod_eq_of_lt (sound.shallow v _ dist)
    · obtain ⟨d', le', dist'⟩ := (levels.discovered v known).mp before
      rw [stays v (.inl before), dist.unique dist']
      exact levels.level v known d' le' dist'
  refine ⟨⟨discovered, level, ?_, mem_outbox_iff sound step discovered level⟩, ?_⟩
  · intro v known d less dist
    by_cases before : (s v).1 = noParent
    · have isNext : d = k := by
        rcases Nat.lt_succ_iff_lt_or_eq.mp less with lower | equal
        · exact absurd before ((levels.discovered v known).mpr ⟨d + 1, lower, dist⟩)
        · exact equal
      subst isNext
      obtain ⟨u, member, now⟩ := discovers v before ((nextLevel v known before).mpr dist)
      rw [now]
      exact ((mem v u).mp member).1
    · obtain ⟨d', le', dist'⟩ := (levels.discovered v known).mp before
      have isLevel := dist.unique dist'
      rw [stays v (.inl before)]
      exact levels.parent v known d (by omega) dist
  · rw [step.quiet_iff]
    constructor
    · intro quiet v known dist
      have before : (s v).1 = noParent := by
        by_contra found
        obtain ⟨d, le, dist'⟩ := (levels.discovered v known).mp found
        have := dist.unique dist'
        omega
      have silent := quiet v
      rw [begun, activated_eq] at silent
      exact (nextLevel v known before).mpr dist (silent.resolve_left (not_not_intro before))
    · intro noNext v
      rw [begun, activated_eq]
      by_cases before : (s v).1 = noParent
      · right
        by_contra some_
        obtain ⟨u, member⟩ := List.exists_mem_of_ne_nil (mail v) some_
        have known := (sound.inside _ ((mem v u).mp member).1.1).2
        exact noNext v known ((nextLevel v known before).mp some_)
      · exact .inl before

end

end Bfs

section

variable {E : Type} (F : FormatUtils E) (edges : List E) (c : Configuration) (bfsRoot : Nat)

/-- What bfs leaves behind: the vertices that the root reaches, their distances, a parent on a
shortest path, and how many there are besides the root. -/
structure BfsExact
    (st : SgState Bfs.BfsVertex Bfs.BfsUpdate Bfs.PerProcessorData Bfs.PerProcessorData) :
    Prop where
  discovered : ∀ v < c.vertices,
    (st.state v).bfsParent ≠ Bfs.noParent ↔ Reachable (edgeEnds F edges) bfsRoot v
  level : ∀ v < c.vertices, ∀ d, Dist (edgeEnds F edges) bfsRoot v d →
    (st.state v).bspPhase.toNat = d
  parent : ∀ v < c.vertices, v ≠ bfsRoot → (st.state v).bfsParent ≠ Bfs.noParent →
    ((st.state v).bfsParent.toNat, v) ∈ edgeEnds F edges ∧
      (st.state (st.state v).bfsParent.toNat).bspPhase.toNat + 1 = (st.state v).bspPhase.toNat
  verticesDiscovered : st.total.verticesDiscovered =
    {v | v < c.vertices ∧ v ≠ bfsRoot ∧ Reachable (edgeEnds F edges) bfsRoot v}.ncard

/-- The state in front of the first superstep. -/
def bfsStart (state : Nat → Bfs.BfsVertex) :
    SgState Bfs.BfsVertex Bfs.BfsUpdate Bfs.PerProcessorData Bfs.PerProcessorData :=
  ScatterGather.start state (fun _ => ⟨0, 0⟩) ⟨0, 0⟩

/-- bfs run on all edges ends with the result. -/
def ComputesBfs (state : Nat → Bfs.BfsVertex) : Prop :=
  Computes c (bfs bfsRoot) F (scanAll c F edges) (BfsExact F edges c bfsRoot) (bfsStart state)

variable {F edges c bfsRoot}

namespace Bfs

/-- The invariant of the driver's loop. -/
structure Running (F : FormatUtils E) (edges : List E) (c : Configuration) (bfsRoot : Nat)
    (st : SgState BfsVertex BfsUpdate PerProcessorData PerProcessorData) : Prop where
  ready : ScatterGather.Ready c (bfs bfsRoot) view Fresh Carries st
  cleared : ∀ p < c.processors, (st.algoPcpu p).verticesDiscovered = 0
  first : st.bspPhase = 0 → st.updatesIn = [] ∧ st.total.verticesDiscovered = 0
  later : ∀ k, st.bspPhase = k + 1 →
    Levels (edgeEnds F edges) bfsRoot c.vertices k (fun v => view (st.state v)) st.updatesIn ∧
      st.total.verticesDiscovered + 1 = ∑ v ∈ Finset.range c.vertices, weight (view (st.state v))

/-- The vertices that are still to be discovered, and the first superstep. -/
def remaining (c : Configuration)
    (st : SgState BfsVertex BfsUpdate PerProcessorData PerProcessorData) : Nat :=
  if st.bspPhase = 0 then c.vertices + 1
  else c.vertices - ∑ v ∈ Finset.range c.vertices, weight (view (st.state v))

theorem reduce_fst (total : PerProcessorData) (data : Nat → PerProcessorData) (processors : Nat) :
    (reduce total data processors).1.verticesDiscovered = total.verticesDiscovered +
      ∑ p ∈ Finset.range processors, (data p).verticesDiscovered := by
  unfold reduce
  simp only
  induction processors with
  | zero => simp
  | succ n ih =>
    rw [List.range_succ, List.foldl_append, Finset.sum_range_succ, ← Nat.add_assoc, ← ih]
    rfl

theorem sum_weight (s : Nat → View) (n : Nat) :
    ∑ v ∈ Finset.range n, weight (s v) = ((Finset.range n).filter fun v => (s v).1 ≠ noParent).card := by
  rw [Finset.card_filter]
  refine Finset.sum_congr rfl fun v _ => ?_
  unfold weight
  split <;> simp_all

/-- The first superstep starts with the root alone. -/
theorem sum_weight_start {edges : List (Nat × Nat)} {bfsRoot vertices : Nat}
    (sound : Sound edges bfsRoot vertices) (s : Nat → View) :
    ∑ v ∈ Finset.range vertices, weight ((rules bfsRoot vertices).start 0 v (s v)) = 1 := by
  have each : ∀ v ∈ Finset.range vertices,
      weight ((rules bfsRoot vertices).start 0 v (s v)) = if bfsRoot = v then 1 else 0 := by
    intro v member
    simp only [rules, Finset.mem_range.mp member, and_self, if_true, weight]
    split
    · simp only [sound.isMarked, if_false]
    · simp only [if_true]
  rw [Finset.sum_congr rfl each, Finset.sum_ite_eq, if_pos (Finset.mem_range.mpr sound.root_lt)]

/-- One pass of the loop. -/
theorem Running.step (sound : Sound (edgeEnds F edges) bfsRoot c.vertices)
    {st st' : SgState BfsVertex BfsUpdate PerProcessorData PerProcessorData}
    (running : Running F edges c bfsRoot st)
    (stepped : Superstep c (bfs bfsRoot) F (scanAll c F edges) st st') :
    Running F edges c bfsRoot st' ∧ st'.bspPhase = st.bspPhase + 1 ∧ st'.globalStop = false ∧
      ∀ k, st.bspPhase = k + 1 → (AllVote c st'.iVoteToStop ↔
        ∀ v < c.vertices, ¬ Dist (edgeEnds F edges) bfsRoot v (k + 1)) := by
  have ends : ∀ e ∈ edges, (F.src e).toNat < c.vertices ∧ (F.dst e).toNat < c.vertices :=
    fun e member => sound.inside _ (List.mem_map.mpr ⟨e, member, rfl⟩)
  have complete := complete_scanAll
    (follows bfsRoot c.vertices) fun e member => (ends e member).1
  obtain ⟨ready, mail, algo, advances⟩ := advances_of_superstep (follows bfsRoot c.vertices)
    (counts bfsRoot) complete (fun e member => (ends e member).2)
    (fun _ isFresh discovered => Nat.lt_succ_of_lt (isFresh discovered)) running.ready stepped
  have superstep := advances.superstep
  rw [liveLinks_plain, liveEdges_eq sound.unmarked] at superstep
  have reduced := advances.reduced
  have total : st'.total.verticesDiscovered = st.total.verticesDiscovered +
      ∑ p ∈ Finset.range c.processors, (algo p).verticesDiscovered := by
    have isTotal : st'.total = (reduce st.total algo c.processors).1 := congrArg Prod.fst reduced
    rw [isTotal, reduce_fst]
  have data : st'.algoPcpu = fun i => if i < c.processors then ⟨0, 0⟩ else algo i :=
    congrArg (fun r => r.2.1) reduced
  have stop : st'.globalStop = false := congrArg (fun r => r.2.2) reduced
  have zero : counted c PerProcessorData.verticesDiscovered st = 0 :=
    Finset.sum_eq_zero fun p member => running.cleared p (Finset.mem_range.mp member)
  have counted' := advances.counts
  rw [zero, Nat.zero_add] at counted'
  have cleared : ∀ p < c.processors, (st'.algoPcpu p).verticesDiscovered = 0 := by
    intro p known
    rw [data]
    simp only [known, if_true]
  have notFirst : st'.bspPhase ≠ 0 := by rw [advances.bspPhase]; exact Nat.succ_ne_zero _
  cases isPhase : st.bspPhase with
  | zero =>
    obtain ⟨empty, none_⟩ := running.first isPhase
    rw [isPhase, empty] at superstep
    have levels := levels_zero sound superstep
    refine ⟨⟨ready, cleared, fun h => absurd h notFirst, fun k isNext => ?_⟩, ?_, stop,
      fun k isNext => by omega⟩
    · have first : k = 0 := by rw [advances.bspPhase] at isNext; omega
      subst first
      refine ⟨levels, ?_⟩
      have onlyRoot := sum_weight_start sound fun v => view (st.state v)
      simp only [isPhase, onlyRoot] at counted'
      rw [total, none_, Nat.zero_add, counted']
    · rw [advances.bspPhase, isPhase]
  | succ k =>
    obtain ⟨levels, sum⟩ := running.later k isPhase
    rw [isPhase] at superstep
    obtain ⟨levels', quiet⟩ := levels_succ sound levels superstep
    refine ⟨⟨ready, cleared, fun h => absurd h notFirst, fun k' isNext => ?_⟩, ?_, stop,
      fun k' isNext => ?_⟩
    · have next : k' = k + 1 := by rw [advances.bspPhase] at isNext; omega
      subst next
      refine ⟨levels', ?_⟩
      have same : ∀ v, (rules bfsRoot c.vertices).start st.bspPhase v (view (st.state v)) =
          view (st.state v) := by
        intro v
        simp only [rules, isPhase, Nat.succ_ne_zero, false_and, if_false]
      simp only [same] at counted'
      omega
    · rw [advances.bspPhase, isPhase]
    · rw [← Nat.succ.inj isNext]
      exact quiet

theorem lt_of_dist {edges : List (Nat × Nat)} {vertices v d : Nat}
    (sound : Sound edges bfsRoot vertices) (dist : Dist edges bfsRoot v d) : v < vertices :=
  dist.walk.lt_of_inside sound.root_lt fun e edge => (sound.inside e edge).2

/-- If the last level is empty, everything has been found. -/
theorem Running.exact (sound : Sound (edgeEnds F edges) bfsRoot c.vertices) {k : Nat}
    {st : SgState BfsVertex BfsUpdate PerProcessorData PerProcessorData}
    (running : Running F edges c bfsRoot st) (isPhase : st.bspPhase = k + 1)
    (empty : ∀ v < c.vertices, ¬ Dist (edgeEnds F edges) bfsRoot v k) :
    BfsExact F edges c bfsRoot st := by
  obtain ⟨levels, sum⟩ := running.later k isPhase
  have below : ∀ {v d}, Dist (edgeEnds F edges) bfsRoot v d → d < k := by
    intro v d dist
    by_contra above
    obtain ⟨w, onLevel⟩ := dist.exists_of_le (Nat.not_lt.mp above)
    exact empty w (lt_of_dist sound onLevel) onLevel
  have discovered : ∀ v < c.vertices,
      (st.state v).bfsParent ≠ noParent ↔ Reachable (edgeEnds F edges) bfsRoot v := by
    intro v known
    have found := levels.discovered v known
    simp only [view] at found
    rw [found]
    constructor
    · rintro ⟨d, _, dist⟩
      exact ⟨d, dist.walk⟩
    · rintro ⟨d, walk⟩
      obtain ⟨d', _, dist⟩ := walk.exists_dist
      exact ⟨d', Nat.le_of_lt (below dist), dist⟩
  have level : ∀ v < c.vertices, ∀ d, Dist (edgeEnds F edges) bfsRoot v d →
      (st.state v).bspPhase.toNat = d := fun v known d dist =>
    levels.level v known d (Nat.le_of_lt (below dist)) dist
  refine ⟨discovered, level, fun v known notRoot found => ?_, ?_⟩
  · obtain ⟨d, walk⟩ := (discovered v known).mp found
    obtain ⟨d', _, dist⟩ := walk.exists_dist
    cases d' with
    | zero => exact absurd dist.eq_of_zero notRoot
    | succ d' =>
      obtain ⟨edge, distParent⟩ := levels.parent v known d' (Nat.lt_of_succ_lt (below dist)) dist
      refine ⟨edge, ?_⟩
      rw [level v known _ dist]
      exact congrArg (· + 1) (level _ (lt_of_dist sound distParent) _ distParent)
  · have isSet : {v | v < c.vertices ∧ v ≠ bfsRoot ∧ Reachable (edgeEnds F edges) bfsRoot v} =
        (((Finset.range c.vertices).filter fun v => (view (st.state v)).1 ≠ noParent).erase bfsRoot :
          Finset Nat) := by
      ext v
      simp only [Set.mem_ofPred_eq, Finset.coe_erase, Finset.coe_filter, Finset.mem_range,
        Set.mem_sdiff, Set.mem_singleton_iff]
      constructor
      · rintro ⟨known, notRoot, reached⟩
        exact ⟨⟨known, (discovered v known).mpr reached⟩, notRoot⟩
      · rintro ⟨⟨known, found⟩, notRoot⟩
        exact ⟨known, notRoot, (discovered v known).mp found⟩
    have rootFound : bfsRoot ∈ (Finset.range c.vertices).filter
        fun v => (view (st.state v)).1 ≠ noParent :=
      Finset.mem_filter.mpr ⟨Finset.mem_range.mpr sound.root_lt,
        (discovered bfsRoot sound.root_lt).mpr ⟨0, .nil⟩⟩
    rw [isSet, Set.ncard_coe_finset, Finset.card_erase_of_mem rootFound, ← sum_weight, ← sum,
      Nat.add_sub_cancel]

/-- While levels are found, fewer vertices remain. -/
theorem remaining_lt (sound : Sound (edgeEnds F edges) bfsRoot c.vertices) {v k : Nat}
    {st st' : SgState BfsVertex BfsUpdate PerProcessorData PerProcessorData}
    (running : Running F edges c bfsRoot st) (running' : Running F edges c bfsRoot st')
    (isPhase : st.bspPhase = k + 1) (isPhase' : st'.bspPhase = k + 2)
    (dist : Dist (edgeEnds F edges) bfsRoot v (k + 1)) : remaining c st' < remaining c st := by
  obtain ⟨levels, _⟩ := running.later k isPhase
  obtain ⟨levels', _⟩ := running'.later (k + 1) isPhase'
  have known := lt_of_dist sound dist
  have grows : ∑ v ∈ Finset.range c.vertices, weight (view (st.state v)) <
      ∑ v ∈ Finset.range c.vertices, weight (view (st'.state v)) := by
    refine Finset.sum_lt_sum (fun w member => ?_) ⟨v, Finset.mem_range.mpr known, ?_⟩
    · have inside := Finset.mem_range.mp member
      unfold weight
      split
      · exact Nat.zero_le _
      · rename_i found
        obtain ⟨d, le, distW⟩ := (levels.discovered w inside).mp found
        rw [if_neg ((levels'.discovered w inside).mpr ⟨d, Nat.le_succ_of_le le, distW⟩)]
    · have before : (view (st.state v)).1 = noParent := by
        by_contra found
        obtain ⟨d, le, dist'⟩ := (levels.discovered v known).mp found
        have := dist.unique dist'
        omega
      have behind := (levels'.discovered v known).mpr ⟨k + 1, Nat.le_refl _, dist⟩
      unfold weight
      rw [if_pos before, if_neg behind]
      exact Nat.zero_lt_one
  have bound : ∑ v ∈ Finset.range c.vertices, weight (view (st'.state v)) ≤ c.vertices := by
    rw [sum_weight]
    exact (Finset.card_filter_le _ _).trans (Finset.card_range _).le
  unfold remaining
  rw [if_neg (by omega), if_neg (by omega)]
  omega

end Bfs

theorem computesBfs_of_sound (sound : Bfs.Sound (edgeEnds F edges) bfsRoot c.vertices)
    (fits : ∀ superp < c.superPartitions, c.StateFits (bfs bfsRoot).vertexStateBytes superp)
    (state : Nat → Bfs.BfsVertex) : ComputesBfs F edges c bfsRoot state := by
  have minPhases : (bfs bfsRoot).minSuperPhases = 1 := rfl
  refine NondetLoop.AlwaysEnds.of_invariant (Bfs.Running F edges c bfsRoot) (Bfs.remaining c)
    ⟨⟨rfl, fun u none_ => absurd none_ List.not_mem_nil, fun late => by simp [bfs, bfsStart,
      ScatterGather.start] at late⟩, fun p _ => rfl, fun _ => ⟨rfl, rfl⟩,
      fun k late => absurd late (by simp [bfsStart, ScatterGather.start])⟩
    (fun st _ => exists_superstep (fun _ _ => ⟨_, rfl⟩) fits st) ?_ ?_
  · intro st st' running stepped stops
    obtain ⟨running', phase, goesOn, quiet⟩ := running.step sound stepped
    have late : 1 < st'.bspPhase := minPhases ▸ stops.1
    obtain ⟨k, isPhase⟩ : ∃ k, st.bspPhase = k + 1 := ⟨st.bspPhase - 1, by omega⟩
    have vote : AllVote c st'.iVoteToStop := stops.2.resolve_left (by simp [goesOn])
    exact running'.exact sound (by rw [phase, isPhase]) ((quiet k isPhase).mp vote)
  · intro st st' running stepped goesOn
    obtain ⟨running', phase, noStop, quiet⟩ := running.step sound stepped
    refine ⟨running', ?_⟩
    cases isPhase : st.bspPhase with
    | zero =>
      unfold Bfs.remaining
      rw [if_pos isPhase, if_neg (by omega)]
      omega
    | succ k =>
      have found : ¬ ∀ v < c.vertices, ¬ Dist (edgeEnds F edges) bfsRoot v (k + 1) := by
        intro none_
        exact goesOn ⟨by omega, .inr ((quiet k isPhase).mpr none_)⟩
      push Not at found
      obtain ⟨v, _, dist⟩ := found
      exact Bfs.remaining_lt sound running running' isPhase (by rw [phase, isPhase]) dist

/-- bfs is exact. Ids are not the mark of a deleted edge, a level fits in 31 bits, and the vertex
records fit in the state buffer. -/
theorem computesBfs (c : Configuration) (F : FormatUtils E) (edges : List E) (bfsRoot : Nat)
    (state : Nat → Bfs.BfsVertex) (inside : EndsInside F edges c.vertices)
    (root_lt : bfsRoot < c.vertices) (rootUnmarked : BitVec.ofNat 32 bfsRoot ≠ Bfs.noParent)
    (unmarked : ∀ e ∈ edges, (F.src e).toNat ≠ tombstone)
    (shallow : ∀ v d, Dist (edgeEnds F edges) bfsRoot v d → d < 2 ^ 31)
    (fits : ∀ superp < c.superPartitions, c.StateFits (bfs bfsRoot).vertexStateBytes superp) :
    ComputesBfs F edges c bfsRoot state := by
  refine computesBfs_of_sound ⟨root_lt, rootUnmarked, ?_, ?_, ?_, shallow⟩ fits state
  all_goals
    intro e member
    obtain ⟨e', edge, rfl⟩ := List.mem_map.mp member
  · exact inside e' edge
  · exact ⟨(F.src e').isLt, (F.dst e').isLt⟩
  · exact unmarked e' edge

end

/-- A path through three vertices. -/
theorem computesBfs_path :
    ComputesBfs type2 [⟨0, 1⟩, ⟨1, 2⟩] (Configuration.single 0 3 (by decide)) 0
      (fun _ => ⟨0, 0, false⟩) := by
  have inside : EndsInside type2 [⟨0, 1⟩, ⟨1, 2⟩] 3 := by unfold EndsInside; decide
  refine computesBfs _ _ _ 0 _ inside (by decide) (by decide) (by decide) (fun v d dist => ?_)
    (by unfold Configuration.StateFits; decide +kernel)
  have below : ∀ w j, Dist (edgeEnds type2 [⟨0, 1⟩, ⟨1, 2⟩]) 0 w j → w < 3 := fun w j dist' =>
    dist'.walk.lt_of_inside (by decide) (by unfold edgeEnds; decide)
  exact (dist.lt_of_inside below).trans (by decide)

/-- A path of the given length that starts at 0. -/
def pathEdges (length : Nat) : List SimpleEdge :=
  (List.range length).map fun i => ⟨BitVec.ofNat 32 i, BitVec.ofNat 32 (i + 1)⟩

theorem mem_edgeEnds_pathEdges {length : Nat} (narrow : length < 2 ^ 32) {v w : Nat} :
    (v, w) ∈ edgeEnds type2 (pathEdges length) ↔ v < length ∧ w = v + 1 := by
  simp only [edgeEnds, pathEdges, type2, List.map_map, List.mem_map, List.mem_range,
    Function.comp_apply, BitVec.toNat_ofNat, Prod.mk.injEq]
  constructor
  · rintro ⟨i, below, rfl, rfl⟩
    rw [Nat.mod_eq_of_lt (by omega), Nat.mod_eq_of_lt (by omega)]
    exact ⟨below, rfl⟩
  · rintro ⟨below, rfl⟩
    exact ⟨v, below, Nat.mod_eq_of_lt (by omega), Nat.mod_eq_of_lt (by omega)⟩

theorem endsInside_pathEdges {length : Nat} (narrow : length < 2 ^ 32) :
    EndsInside type2 (pathEdges length) (length + 1) := by
  intro e member
  have edge : ((type2.src e).toNat, (type2.dst e).toNat) ∈ edgeEnds type2 (pathEdges length) :=
    List.mem_map.mpr ⟨e, member, rfl⟩
  rw [mem_edgeEnds_pathEdges narrow] at edge
  omega

/-- The far end of a path. -/
theorem dist_pathEdges {length : Nat} (narrow : length < 2 ^ 32) :
    Dist (edgeEnds type2 (pathEdges length)) 0 length length := by
  have forward : ∀ d, d ≤ length → Walk (edgeEnds type2 (pathEdges length)) 0 d d := by
    intro d
    induction d with
    | zero => exact fun _ => .nil
    | succ d ih =>
      intro le
      exact (ih (by omega)).snoc ((mem_edgeEnds_pathEdges narrow).mpr ⟨by omega, rfl⟩)
  have only : ∀ d v, Walk (edgeEnds type2 (pathEdges length)) 0 d v → v = d := by
    intro d v walk
    induction walk with
    | nil => rfl
    | snoc _ edge ih => rw [((mem_edgeEnds_pathEdges narrow).mp edge).2, ih]
  exact ⟨forward length (Nat.le_refl _), fun d' walk => Nat.le_of_eq (only d' _ walk)⟩

/-- A vertex that is 2^31 edges away has no level. -/
theorem not_computesBfs_pathEdges (state : Nat → Bfs.BfsVertex) :
    ¬ ComputesBfs type2 (pathEdges (2 ^ 31))
      (Configuration.single 0 (2 ^ 31 + 1) (Nat.succ_pos _)) 0 state := by
  intro computes
  obtain ⟨st, exact_⟩ := computes.exists_post
  have level := exact_.level (2 ^ 31) (Nat.lt_succ_self _) _ (dist_pathEdges (by norm_num))
  have := (st.state (2 ^ 31)).bspPhase.isLt
  omega

/-- The edges of vertex 0xFFFFFFFF count as deleted, and so it cannot be a parent. -/
theorem not_computesBfs_tombstone (state : Nat → Bfs.BfsVertex) :
    ¬ ComputesBfs type2 [⟨0, 0xFFFFFFFF⟩, ⟨0xFFFFFFFF, 1⟩]
      (Configuration.single 0 (2 ^ 32) (by norm_num)) 0 state := by
  intro computes
  obtain ⟨st, exact_⟩ := computes.exists_post
  have known : 1 < (Configuration.single 0 (2 ^ 32) (by norm_num)).vertices :=
    show 1 < 2 ^ 32 by norm_num
  have reached : Reachable (edgeEnds type2 [⟨0, 0xFFFFFFFF⟩, ⟨0xFFFFFFFF, 1⟩]) 0 1 :=
    ⟨2, (Walk.nil.snoc (v := 0) (w := 0xFFFFFFFF) (by decide)).snoc (by decide)⟩
  have found := (exact_.discovered 1 known).mpr reached
  obtain ⟨edge, _⟩ := exact_.parent 1 known (by decide) found
  have isMark : (st.state 1).bfsParent.toNat = 0xFFFFFFFF := by
    simp [edgeEnds, type2] at edge
    exact edge
  exact found (BitVec.eq_of_toNat_eq isMark)

/-- With two super partitions the state buffer has room for 1024 of the 1025 records of super
partition 0. -/
theorem not_computesBfs_tight (state : Nat → Bfs.BfsVertex) :
    ¬ ComputesBfs type2 [] (Configuration.single 1 2049 (by decide)) 0 state := by
  intro computes
  obtain ⟨st, stepped⟩ := computes.can_step
  have fits := fits_of_superstep stepped 0 (by decide)
  unfold Configuration.StateFits at fits
  revert fits
  decide +kernel

/-- bfs is not exact on a graph with vertex 0xFFFFFFFF, on a path of 2^31 edges, and where a super
partition has more records than the state buffer holds. -/
theorem not_computesBfs :
    (EndsInside type2 [⟨0, 0xFFFFFFFF⟩, ⟨0xFFFFFFFF, 1⟩] (2 ^ 32) ∧
      ∀ state, ¬ ComputesBfs type2 [⟨0, 0xFFFFFFFF⟩, ⟨0xFFFFFFFF, 1⟩]
        (Configuration.single 0 (2 ^ 32) (by norm_num)) 0 state) ∧
    (EndsInside type2 (pathEdges (2 ^ 31)) (2 ^ 31 + 1) ∧
      ∀ state, ¬ ComputesBfs type2 (pathEdges (2 ^ 31))
        (Configuration.single 0 (2 ^ 31 + 1) (Nat.succ_pos _)) 0 state) ∧
    (EndsInside type2 [] 2049 ∧
      ∀ state, ¬ ComputesBfs type2 [] (Configuration.single 1 2049 (by decide)) 0 state) := by
  refine ⟨⟨?_, not_computesBfs_tombstone⟩, ⟨?_, not_computesBfs_pathEdges⟩, ?_,
    not_computesBfs_tight⟩
  · unfold EndsInside
    decide
  · exact endsInside_pathEdges (by norm_num)
  · exact fun e none_ => absurd none_ List.not_mem_nil

end MBFGraph
