import MBFGraph.Algorithms.Benchmarks
import MBFGraph.Core.Proofs.ScatterGather

/-!
# Which benchmarks get past the filter checking phase

The driver asks `check_bsp` for every vertex in every superstep, whether or not there are filters. So an
assertion in it fails as soon as there is a vertex (`checksHold_iff`).
-/

namespace MBFGraph

/-- The benchmarks that the filters support. -/
def SgBenchmark.supported : SgBenchmark → Bool
  | .bfs _ | .degreeCnt | .sssp _ | .ssspForest | .cc | .mis | .pagerankDdf _ | .hyperanf .. => true
  | .bfsForest | .conductance | .rangeCheck _ | .spmv | .checkbip _ | .pagerank _ => false

/-- `check_bsp` asks nothing of the vertex: its assertion always holds, or never. -/
theorem SgBenchmark.isSome_checkBsp (b : SgBenchmark) (vertex : b.sgClass.vertex) (bspPhase : Nat) :
    (b.sgClass.checkBsp vertex bspPhase).isSome = b.supported := by
  cases b <;> rfl

/-- The other benchmarks have a first state. -/
theorem SgBenchmark.nonempty_of_unsupported (b : SgBenchmark) (unsupported : b.supported = false) :
    Nonempty b.sgClass.vertex ∧ Nonempty b.sgClass.data ∧ Nonempty b.sgClass.static := by
  cases b with
  | bfsForest => exact ⟨⟨(⟨0, 0, 0⟩ : BfsForest.BfsVertex)⟩, ⟨()⟩, ⟨()⟩⟩
  | conductance =>
    exact ⟨⟨()⟩, ⟨(⟨0, 0, 0⟩ : Conductance.PerProcessorData)⟩,
      ⟨(⟨0, 0, 0⟩ : Conductance.PerProcessorData)⟩⟩
  | rangeCheck maxVertexId => exact ⟨⟨()⟩, ⟨false⟩, ⟨()⟩⟩
  | spmv => exact ⟨⟨(⟨0, 0⟩ : Spmv.VectorElement)⟩, ⟨()⟩, ⟨()⟩⟩
  | checkbip sideAfter => exact ⟨⟨(⟨0⟩ : CheckBip.Vertex)⟩, ⟨true⟩, ⟨()⟩⟩
  | pagerank niters => exact ⟨⟨(⟨0, 0, 0⟩ : Pagerank.Vertex)⟩, ⟨()⟩, ⟨()⟩⟩
  | _ => contradiction

namespace ScatterGather

variable {K : SgClass} {c : Configuration} {superp : Nat}
  {st : SgState K.vertex K.update K.data K.static}

theorem isSome_mapM {α β : Type} {f : α → Option β} {l : List α} :
    (l.mapM f).isSome = true ↔ ∀ x ∈ l, (f x).isSome = true := by
  induction l with
  | nil => simp
  | cons x l ih =>
    rw [List.mapM_cons, List.forall_mem_cons, ← ih]
    cases f x with
    | none => simp
    | some y => cases l.mapM f <;> simp

/-- A vertex iteration is all right if the assertion holds for each vertex. -/
theorem isSome_checkVertices :
    (checkVertices K c superp st).isSome = true ↔
      ∀ v ∈ c.vertexIds superp, (K.checkBsp (st.state v) st.bspPhase).isSome = true := by
  unfold checkVertices
  rw [isSome_mapM]
  simp only [Option.isSome_map]

/-- The second iteration makes the calls of the first one again. -/
theorem isSome_bfChecking {maxCheck : Nat} :
    (bfChecking K c maxCheck superp st).isSome = true ↔
      ∀ v ∈ c.vertexIds superp, (K.checkBsp (st.state v) st.bspPhase).isSome = true := by
  rw [← isSome_checkVertices]
  unfold bfChecking
  cases checkVertices K c superp st with
  | none => rfl
  | some first =>
    rw [Option.bind_some]
    dsimp only
    generalize checksTwice K maxCheck (first.filter Prod.snd).length st.bspPhase = twice
    cases twice <;> simp

/-- The first super partition is gathered in every run. -/
theorem exists_reachesChecking {E : Type} (F : FormatUtils E K.weight)
    (scan : Scan K.vertex K.update K.data K.static E) (state : Nat → K.vertex) (algoPcpu : Nat → K.data)
    (total : K.static) : ∃ st, ReachesChecking K c F scan 0 st := by
  obtain ⟨gathers, delivers⟩ := exists_delivers c K.program.splitKey (fun _ => true)
    (updatesOf c K.program 0 (prepare c K.program 0 (beginSuperphase (start state algoPcpu total))))
  exact ⟨_, .gathered (.start state algoPcpu total) .none c.superPartitions_pos delivers⟩

/-- Vertex 0 is in the first super partition. -/
theorem zero_mem_vertexIds (c : Configuration) : 0 ∈ c.vertexIds 0 := by
  rw [Configuration.mem_vertexIds_iff c.superPartitions_pos]
  refine ⟨c.vertices_pos, ?_⟩
  rw [Mapping.mapSuperPartition_eq_mod]
  exact Nat.zero_mod _

end ScatterGather

open ScatterGather in
/-- The assertions in `check_bsp` hold in all runs of a benchmark, on a graph and with the options given,
if and only if the filters support it. -/
theorem checksHold_iff (b : SgBenchmark) (c : Configuration) {E : Type}
    (F : FormatUtils E b.sgClass.weight)
    (scan : Scan b.sgClass.vertex b.sgClass.update b.sgClass.data b.sgClass.static E)
    (maxCheckVOption : Nat) :
    ChecksHold b.sgClass c F scan maxCheckVOption ↔ b.supported = true := by
  constructor
  · intro holds
    by_contra unsupported
    obtain ⟨⟨vertex⟩, ⟨data⟩, ⟨total⟩⟩ :=
      b.nonempty_of_unsupported (Bool.eq_false_of_not_eq_true unsupported)
    obtain ⟨st, reaches⟩ := exists_reachesChecking F scan (fun _ => vertex) (fun _ => data) total
    have checked := isSome_bfChecking.mp (holds 0 st reaches) 0 (zero_mem_vertexIds c)
    rw [b.isSome_checkBsp] at checked
    exact unsupported checked
  · intro supported superp st _
    refine isSome_bfChecking.mpr fun v _ => ?_
    rw [b.isSome_checkBsp, supported]

open ScatterGather in
/-- `pagerank` stops at the first vertex. -/
theorem not_checksHold : ¬ ∀ (b : SgBenchmark) (c : Configuration) (F : FormatUtils SimpleEdge b.sgClass.weight)
    (scan : Scan b.sgClass.vertex b.sgClass.update b.sgClass.data b.sgClass.static SimpleEdge)
    (maxCheckVOption : Nat), ChecksHold b.sgClass c F scan maxCheckVOption := by
  intro all
  let c : Configuration := .single 0 1 (by decide)
  have holds := all (.pagerank 5) c type2 (scanAll c type2 []) 1
  obtain ⟨st, reaches⟩ := exists_reachesChecking (c := c) (K := (SgBenchmark.pagerank 5).sgClass) type2
    (scanAll c type2 []) (fun _ => ⟨0, 0, 0⟩) (fun _ => ()) ()
  have checked := isSome_bfChecking.mp (holds 0 st reaches) 0 (zero_mem_vertexIds c)
  contradiction

end MBFGraph
