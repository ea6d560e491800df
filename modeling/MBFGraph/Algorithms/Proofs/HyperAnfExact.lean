import MBFGraph.Algorithms.HyperLogLog
import MBFGraph.Core.Proofs.RelaxationRuns
import MBFGraph.Lib.Walks
import Mathlib.Order.OrderDual
import Mathlib.Order.Lattice

/-!
# hyperanf propagates everything

A vertex of `hyperanf` relaxes too (`Relaxation.Relaxes`): its label is its counter, larger registers
being better, and an edge carries a counter unchanged. So although only the vertices whose counter
has just grown send, the counter behind superstep `t` joins the initial counters of all vertices that
are at most `t` edges away.
-/

namespace MBFGraph

open Relaxation ScatterGather Walks

namespace HyperAnf

variable {φ δ γ E : Type} {log2M vectorBytes : Nat}

/-- A register; behind the last one they count as zero. -/
def register (counter : HllCounter log2M) (i : Nat) : Nat := (counter.bytes.getD i 0).toNat

theorem HllCounter.ext_register {counterA counterB : HllCounter log2M}
    (same : ∀ i, register counterA i = register counterB i) : counterA = counterB := by
  obtain ⟨bytesA, lengthA, _⟩ := counterA
  obtain ⟨bytesB, lengthB, _⟩ := counterB
  have equal : bytesA = bytesB := by
    refine List.ext_getElem (lengthA.trans lengthB.symm) fun i insideA insideB => ?_
    have := BitVec.eq_of_toNat_eq (same i)
    rwa [List.getD_eq_getElem _ _ insideA, List.getD_eq_getElem _ _ insideB] at this
  subst equal
  rfl

theorem register_hllUnion (counterA counterB : HllCounter log2M) (i : Nat) :
    register (hllUnion vectorBytes counterA counterB).1 i =
      max (register counterA i) (register counterB i) := by
  have sameLength := counterA.length_eq.trans counterB.length_eq.symm
  have bytes := (unionFrom_spec vectorBytes 0 counterA.registers counterB.registers sameLength).1
  have union : (hllUnion vectorBytes counterA counterB).1.bytes = _ := bytes
  unfold register
  rw [union]
  by_cases inside : i < counterA.bytes.length
  · have insideB : i < counterB.bytes.length := sameLength ▸ inside
    rw [List.getD_eq_getElem _ _ inside, List.getD_eq_getElem _ _ insideB,
      List.getD_eq_getElem _ _ (by rw [List.length_zipWith]; omega), List.getElem_zipWith,
      (scalarLane_toNat _ _).1]
  · rw [List.getD_eq_default counterA.bytes _ (by omega),
      List.getD_eq_default counterB.bytes _ (by omega),
      List.getD_eq_default (List.zipWith _ _ _) _ (by rw [List.length_zipWith]; omega)]
    rfl

theorem hllUnion_snd (counterA counterB : HllCounter log2M) :
    (hllUnion vectorBytes counterA counterB).2 = true ↔
      ∃ i, register counterA i < register counterB i := by
  have sameLength := counterA.length_eq.trans counterB.length_eq.symm
  have grew := (unionFrom_spec vectorBytes 0 counterA.registers counterB.registers sameLength).2
  refine grew.trans ⟨?_, ?_⟩
  · rintro ⟨pair, member, less⟩
    obtain ⟨i, inside, rfl⟩ := List.getElem_of_mem member
    rw [List.length_zip] at inside
    refine ⟨i, ?_⟩
    unfold register
    rw [List.getD_eq_getElem _ _ (by omega), List.getD_eq_getElem _ _ (by omega)]
    rwa [List.getElem_zip] at less
  · rintro ⟨i, less⟩
    have insideB : i < counterB.bytes.length := by
      by_contra outside
      unfold register at less
      rw [List.getD_eq_default counterB.bytes _ (by omega)] at less
      exact absurd less (by simp)
    have insideA : i < counterA.bytes.length := sameLength ▸ insideB
    unfold register at less
    rw [List.getD_eq_getElem _ _ insideA, List.getD_eq_getElem _ _ insideB] at less
    refine ⟨(counterA.bytes[i], counterB.bytes[i]), ?_, less⟩
    rw [← List.getElem_zip (h := by rw [List.length_zip]; omega)]
    exact List.getElem_mem _

/-- Counters as labels: the larger a register, the better. -/
def label (counter : HllCounter log2M) : Nat → ℕᵒᵈ := fun i => OrderDual.toDual (register counter i)

theorem label_le_iff {counterA counterB : HllCounter log2M} :
    label counterA ≤ label counterB ↔ ∀ i, register counterB i ≤ register counterA i := Iff.rfl

theorem label_hllUnion (counterA counterB : HllCounter log2M) :
    label (hllUnion vectorBytes counterA counterB).1 = label counterA ⊓ label counterB := by
  funext i
  exact congrArg OrderDual.toDual (register_hllUnion counterA counterB i)

theorem label_injective : Function.Injective (label : HllCounter log2M → Nat → ℕᵒᵈ) := fun _ _ same =>
  HllCounter.ext_register fun i => OrderDual.toDual_inj.mp (congrFun same i)

/-- What a superstep looks at. -/
structure View (log2M : Nat) where
  changed : Bool
  hllCtr : HllCounter log2M

def view (v : HyperanfVertex φ log2M) : View log2M := ⟨v.changed, v.hllCtr⟩

/-- `hyperanf` as rules. -/
def rules (log2M vectorBytes vertices : Nat) :
    Bsp.Rules Nat (View log2M) (HyperanfUpdate log2M) where
  start k v o := if v < vertices then
      if k = 0 then ⟨true, initialCounter log2M v⟩ else ⟨false, o.hllCtr⟩
    else o
  apply _ o u :=
    ⟨o.changed || (hllUnion vectorBytes o.hllCtr u.hllCtr).2,
      (hllUnion vectorBytes o.hllCtr u.hllCtr).1⟩
  activates _ o u := (hllUnion vectorBytes o.hllCtr u.hllCtr).2
  active _ o := o.changed
  send _ o _ dst := if o.changed then some ⟨BitVec.ofNat 32 dst, o.hllCtr⟩ else none
  target u := u.dst.toNat

variable {countHllCounter : HllCounter log2M → φ}
  {reduce : γ → (Nat → δ) → Nat → γ × (Nat → δ) × Bool}

theorem follows (vertices : Nat) :
    Follows (hyperanfProgram vectorBytes countHllCounter reduce) vertices
      (rules log2M vectorBytes vertices) (fun v _ => v) view (fun _ _ => True) (fun _ => True) where
  target _ := rfl
  apply_view _ _ _ _ := rfl
  apply_activates _ _ _ _ := rfl
  init_view s v k needed inside := by
    simp only [hyperanfProgram, initVertex, rules, inside, if_true]
    split
    · rfl
    · split
      · rfl
      · rename_i notChanged
        simp only [view, Bool.not_eq_true] at notChanged ⊢
        rw [notChanged]
  start_else k v o not_ := by
    have outside : ¬ v < vertices := fun inside => not_ ⟨rfl, inside⟩
    simp only [rules, outside, if_false]
  init_active s v k needed active := by
    simp only [hyperanfProgram, initVertex, rules, view] at active ⊢
    split at active
    · rename_i first
      rw [if_pos first]
    · split at active <;> simp_all
  reset_view _ := rfl
  check_view _ _ := rfl
  generate_eq s src dst w d k := by
    simp only [hyperanfProgram, generateUpdate, rules, view]
    split <;> simp
  vertex_after _ _ := rfl
  send_active k o src x inactive := by
    have notChanged : o.changed = false := inactive
    simp only [rules, notChanged, Bool.false_eq_true, if_false]
  send_target k o src dst w u below sent := by
    simp only [rules] at sent ⊢
    split at sent
    · rw [← Option.some.inj sent]
      exact Nat.mod_eq_of_lt below
    · exact absurd sent (by simp)
  send_good _ _ _ _ _ _ _ _ := trivial
  apply_active k o u active := Bool.or_eq_true _ _ |>.mp active
  fresh_active _ _ needed _ := absurd needed (by simp [hyperanfProgram])
  fresh_start _ _ _ _ _ := trivial
  fresh_apply _ _ _ _ := trivial

/-- The counters of the vertices in a graph, as labels. -/
def counters (log2M : Nat) (edges : List (Nat × Nat)) (vertices : Nat) :
    Problem Nat Nat (Nat → ℕᵒᵈ) where
  known v := v < vertices
  edges := edges
  head v := v
  carry _ l := l
  first v := label (initialCounter log2M v)

theorem brings_iff {edges : List (Nat × Nat)} {vertices k v : Nat} {l : Nat → ℕᵒᵈ} :
    Brings (counters log2M edges vertices) k v l ↔
      ∃ u < vertices, Walk edges u k v ∧ l = label (initialCounter log2M u) := by
  constructor
  · intro brings
    induction brings with
    | @first v known => exact ⟨v, known, .nil, rfl⟩
    | @along k e l _ edge ih =>
      obtain ⟨u, known, walk, isLabel⟩ := ih
      exact ⟨u, known, walk.snoc edge, isLabel⟩
  · rintro ⟨u, known, walk, rfl⟩
    induction walk with
    | nil => exact .first known
    | @snoc d v w walk edge ih => exact Brings.along (e := (v, w)) ih edge

variable {F : FormatUtils E} {edges : List E} {c : Configuration}

theorem relaxes :
    Relaxes (rules log2M vectorBytes c.vertices) (counters log2M (liveEdges F edges) c.vertices)
      (fun o => label o.hllCtr) (fun u => label u.hllCtr) where
  apply_label k s m := label_hllUnion _ _
  apply_same k s m worse := by
    have grows : (hllUnion vectorBytes s.hllCtr m.hllCtr).2 = false := by
      rw [← Bool.not_eq_true, hllUnion_snd]
      rintro ⟨i, less⟩
      exact absurd (label_le_iff.mp worse i) (not_le.mpr less)
    have same : (hllUnion vectorBytes s.hllCtr m.hllCtr).1 = s.hllCtr :=
      label_injective ((label_hllUnion _ _).trans (inf_eq_left.mpr worse))
    simp only [rules, grows, same, Bool.or_false]
  activates_iff k s m := by
    rw [label_le_iff]
    push Not
    exact hllUnion_snd _ _
  apply_active k s m cause := by
    rw [label_le_iff] at cause
    push Not at cause
    simp only [rules, Bool.or_eq_true, hllUnion_snd] at cause ⊢
    exact cause
  start_zero v s known := by
    have inside : v < c.vertices := known
    simp only [rules, inside, if_true, counters]
  start_succ k v s := by
    simp only [rules, Nat.succ_ne_zero, if_false]
    split <;> rfl
  send_active k s e edge active := by
    refine ⟨_, if_pos active, rfl, ?_⟩
    obtain ⟨e', _, rfl⟩ := List.mem_map.mp edge
    exact Nat.mod_eq_of_lt (F.dst e').isLt
  send_inactive k s v x inactive := if_neg (by rw [show s.changed = false from inactive]; simp)
  silent v s x b inactive known := by
    have inside : v < c.vertices := known
    simp [rules, inside] at inactive

theorem spreads (inside : EndsInside F edges c.vertices) :
    Spreads c (hyperanfProgram vectorBytes countHllCounter reduce) F edges
      (rules log2M vectorBytes c.vertices) (fun v _ => v) view (fun _ _ => True)
      (counters log2M (liveEdges F edges) c.vertices) (fun o => label o.hllCtr)
      (fun u => label u.hllCtr) where
  follows := follows c.vertices
  relaxes := relaxes
  edges_eq := rfl
  inside e edge := by
    obtain ⟨e', member, rfl⟩ := List.mem_map.mp edge
    exact inside e' (List.mem_of_mem_filter member)
  carry_inf _ _ _ := rfl

/-- The best labels are the largest registers. -/
theorem isGreatest_of_best {graph : List (Nat × Nat)} {vertices k v : Nat}
    {counter : Nat → HllCounter log2M}
    (best : Best (counters log2M graph vertices) k fun v => label (counter v))
    (known : v < vertices) (i : Nat) :
    IsGreatest {x | ∃ u < vertices, ∃ d ≤ k, Walk graph u d v ∧
      x = register (initialCounter log2M u) i} (register (counter v) i) := by
  constructor
  · -- the better one of two registers is one of them
    have attained : ∃ u < vertices, ∃ d ≤ k, Walk graph u d v ∧
        label (counter v) i = label (initialCounter log2M u) i := by
      refine best.closed v known (fun l => ∃ u < vertices, ∃ d ≤ k, Walk graph u d v ∧
        l i = label (initialCounter log2M u) i) ?_ ?_
      · intro a b ofA ofB
        simp only [Pi.inf_apply]
        rcases min_choice (a i) (b i) with left | right
        · rwa [left]
        · rwa [right]
      · intro d le b brings
        obtain ⟨u, isVertex, walk, rfl⟩ := brings_iff.mp brings
        exact ⟨u, isVertex, d, le, walk, rfl⟩
    obtain ⟨u, isVertex, d, le, walk, same⟩ := attained
    exact ⟨u, isVertex, d, le, walk, OrderDual.toDual_inj.mp same⟩
  · rintro x ⟨u, isVertex, d, le, walk, rfl⟩
    exact label_le_iff.mp (best.le v d _ le (brings_iff.mpr ⟨u, isVertex, walk, rfl⟩)) i

end HyperAnf

open HyperAnf

section

variable {φ δ γ E : Type} {log2M : Nat}

/-- What the gather of superstep `t` leaves behind: the counters joined over the walks of at most
`t` edges, and the marks of those that grew. -/
structure HyperAnfExact (edges : List (Nat × Nat)) (vertices t : Nat)
    (before after : SgState (HyperanfVertex φ log2M) (HyperanfUpdate log2M) δ γ) : Prop where
  counter : ∀ v < vertices, ∀ i, IsGreatest {x | ∃ u < vertices, ∃ d ≤ t, Walk edges u d v ∧
    x = register (initialCounter log2M u) i} (register (after.state v).hllCtr i)
  changed : ∀ v < vertices, (after.state v).changed = true ↔
    t = 0 ∨ ∃ i, register (before.state v).hllCtr i < register (after.state v).hllCtr i

/-- Every superstep of hyperanf on all edges can be made, and propagates along the walks of the
graph `graph`. -/
def PropagatesAll (F : FormatUtils E) (edges : List E) (c : Configuration) (vectorBytes : Nat)
    (countHllCounter : HllCounter log2M → φ)
    (reduce : γ → (Nat → δ) → Nat → γ × (Nat → δ) × Bool) (graph : List (Nat × Nat))
    (begins : SgState (HyperanfVertex φ log2M) (HyperanfUpdate log2M) δ γ) : Prop :=
  ∀ t st, Passed c (hyperanfProgram vectorBytes countHllCounter reduce) F (scanAll c F edges)
      begins t st →
    (∃ st', Superstep c (hyperanfProgram vectorBytes countHllCounter reduce) F
      (scanAll c F edges) st st') ∧
    ∀ st', Superstep c (hyperanfProgram vectorBytes countHllCounter reduce) F
      (scanAll c F edges) st st' → HyperAnfExact graph c.vertices t st st'

/-- Where edges are marked as deleted, hyperanf propagates along the others. -/
theorem propagatesAll_live (c : Configuration) (F : FormatUtils E) (edges : List E)
    (vectorBytes : Nat) (countHllCounter : HllCounter log2M → φ)
    (reduce : γ → (Nat → δ) → Nat → γ × (Nat → δ) × Bool)
    (state : Nat → HyperanfVertex φ log2M) (algoPcpu : Nat → δ) (total : γ)
    (inside : EndsInside F edges c.vertices)
    (fits : ∀ superp < c.superPartitions, c.StateFits
      (hyperanfProgram vectorBytes countHllCounter reduce).vertexStateBytes superp) :
    PropagatesAll F edges c vectorBytes countHllCounter reduce (liveEdges F edges)
      (start state algoPcpu total) := by
  intro t st passed
  have spreads : Spreads c (hyperanfProgram vectorBytes countHllCounter reduce) F edges _ _ _ _ _ _
    _ := HyperAnf.spreads inside
  have complete : Complete c (HyperAnf.rules log2M vectorBytes c.vertices) (fun v _ => v)
      (view (φ := φ)) F edges (scanAll c F edges : Scan _ _ δ γ E) :=
    complete_scanAll spreads.follows fun e member => (inside e member).1
  have targets : ∀ e ∈ edges, (F.dst e).toNat < c.vertices := fun e member => (inside e member).2
  have begins : Rounds c (hyperanfProgram vectorBytes countHllCounter reduce)
      (HyperAnf.rules log2M vectorBytes c.vertices) view (fun _ _ => True)
      (counters log2M (liveEdges F edges) c.vertices) (fun o => label o.hllCtr)
      (start state algoPcpu total) :=
    .zero ⟨rfl, fun u none_ => absurd none_ List.not_mem_nil, fun _ _ _ => trivial⟩ rfl rfl
  obtain ⟨rounds, phase⟩ := spreads.rounds_of_passed complete targets (fun _ _ _ => trivial) begins
    rfl passed
  refine ⟨exists_superstep complete.reads_some fits st, fun st' stepped => ?_⟩
  obtain ⟨rounds', phase', _, mail, superstep⟩ :=
    spreads.step complete targets (fun _ _ => trivial) rounds stepped
  have best := rounds'.best t (by rw [phase', phase])
  refine ⟨fun v known i => isGreatest_of_best best known i, fun v known => ?_⟩
  rw [phase] at superstep
  have gathered := superstep.gathered v
  cases t with
  | zero =>
    refine iff_of_true ?_ (.inl rfl)
    rw [rounds.first phase] at superstep
    obtain ⟨_, began, _⟩ := spreads.relaxes.settled_zero spreads.inside superstep
    have now := congrArg View.changed (began v)
    simp only [HyperAnf.rules, known, if_true] at now
    exact now
  | succ k =>
    have settled := rounds.settled k phase
    have falls := (spreads.relaxes.round settled superstep).le v known
    have startLabel := spreads.relaxes.start_succ k v (view (st.state v))
    have startChanged : ((HyperAnf.rules log2M vectorBytes c.vertices).start (k + 1) v
        (view (st.state v))).changed = false := by
      simp only [HyperAnf.rules, known, Nat.succ_ne_zero, if_true, if_false]
    have grew : (∃ i, register (st.state v).hllCtr i < register (st'.state v).hllCtr i) ↔
        label (st'.state v).hllCtr ≠ label (st.state v).hllCtr := by
      constructor
      · rintro ⟨i, less⟩ same
        exact absurd (OrderDual.toDual_inj.mp (congrFun same i)) (Nat.ne_of_gt less)
      · intro differ
        by_contra none_
        push Not at none_
        exact differ (le_antisymm falls none_)
    rw [grew, or_iff_right (Nat.succ_ne_zero k), ne_eq, ← not_iff_not, Bool.not_eq_true, not_not]
    constructor
    · intro notChanged
      have same := spreads.relaxes.gather_of_inactive _ _
        ((congrArg View.changed gathered).symm.trans notChanged)
      exact (congrArg (fun o => label o.hllCtr) (gathered.trans same)).trans startLabel
    · intro same
      have unchanged := (spreads.relaxes.gather_eq_iff (k := k + 1) _ (mail v)).mpr
        (((congrArg (fun o => label o.hllCtr) gathered).symm.trans same).trans startLabel.symm)
      exact (congrArg View.changed (gathered.trans unchanged)).trans startChanged

end

/-- Runs without estimates, in vectors of 32 registers. -/
def PropagatesPlain (edges : List SimpleEdge) (c : Configuration) (graph : List (Nat × Nat)) : Prop :=
  ∀ state : Nat → HyperanfVertex Unit 5,
    PropagatesAll type2 edges c 32 (fun _ => ()) (fun (total : Unit) (data : Nat → Unit) _ =>
      (total, data, false)) graph (start state (fun _ => ()) ())

/-- An edge of vertex 0xFFFFFFFF among 2^32 vertices counts as deleted: in superstep 1 register 29 of
vertex 0 does not grow, although it is set in the counter of vertex 0xFFFFFFFF. -/
theorem not_propagatesAll_marked :
    ¬ PropagatesPlain [⟨0xFFFFFFFF, 0⟩] (Configuration.single 0 (2 ^ 32) (by norm_num))
      (edgeEnds type2 [⟨0xFFFFFFFF, 0⟩]) := by
  intro claimed
  have known : 0 < 2 ^ 32 := by norm_num
  have isVertex : 0xFFFFFFFF < 2 ^ 32 := by norm_num
  let state : Nat → HyperanfVertex Unit 5 := fun _ => ⟨false, (), initialCounter 5 0⟩
  have live := propagatesAll_live (Configuration.single 0 (2 ^ 32) (by norm_num)) type2
    [⟨0xFFFFFFFF, 0⟩] 32 (fun _ : HllCounter 5 => ())
    (fun (total : Unit) (data : Nat → Unit) _ => (total, data, false)) state (fun _ => ()) ()
    (by change EndsInside type2 _ (2 ^ 32); unfold EndsInside; decide)
    (by
      intro superp below
      have only : superp = 0 := Nat.lt_one_iff.mp below
      subst only
      unfold Configuration.StateFits
      decide +kernel)
  obtain ⟨st, first⟩ := (live 0 _ .none).1
  have passed := Passed.next .none first
  obtain ⟨st', second⟩ := (live 1 st passed).1
  have join := (claimed state 1 st passed).2 st' second
  have own := (live 1 st passed).2 st' second
  have walk : Walk (edgeEnds type2 [⟨0xFFFFFFFF, 0⟩]) 0xFFFFFFFF 1 0 := Walk.nil.snoc (by decide)
  have atLeast := (join.counter 0 known 29).2 ⟨0xFFFFFFFF, isVertex, 1, le_refl 1, walk, rfl⟩
  obtain ⟨u, _, d, _, alone, isRegister⟩ := (own.counter 0 known 29).1
  have noEdges : liveEdges type2 [⟨0xFFFFFFFF, 0⟩] = [] := by decide
  have isSelf : u = 0 := by
    rw [noEdges] at alone
    cases alone with
    | nil => rfl
    | snoc _ edge => exact absurd edge List.not_mem_nil
  subst isSelf
  have unset : register (initialCounter 5 0) 29 = 0 := by decide +kernel
  have set : register (initialCounter 5 0xFFFFFFFF) 29 = 1 := by decide +kernel
  rw [isRegister, unset, set] at atLeast
  exact absurd atLeast (by decide)

/-- With two super partitions the state buffer has room for 128 of the 129 records of super
partition 0. -/
theorem not_propagatesAll_tight :
    ¬ PropagatesPlain [] (Configuration.single 1 257 (by decide)) (edgeEnds type2 []) := by
  intro claimed
  obtain ⟨st, stepped⟩ := (claimed (fun _ => ⟨false, (), initialCounter 5 0⟩) 0 _ .none).1
  have fits := fits_of_superstep stepped 0 (by decide)
  unfold Configuration.StateFits at fits
  revert fits
  decide +kernel

end MBFGraph
