import MBFGraph.Algorithms.Proofs.SelectiveScan
import MBFGraph.Core.Proofs.Filtered

/-!
# Programs that run behind the filters

A graph is distributed in mode `create`, and bfs, cc or mis is run on the files with their filters. No step of a
query fails, the driver comes to its end, and the result is that of a run on all edges.
-/

namespace MBFGraph

open NondetLoop ScatterGather Walks

section

variable {E : Type} {c : Configuration} {F : FormatUtils E} {opts : FilterOptions} {bufbytes : Nat}
  {efile : List E} {bufs : Nat → SuperBuf E}

/-- The scan of the files that mode `create` has written. -/
def scanFiles {σ υ δ γ : Type} (c : Configuration) (A : SgAlgorithm σ υ δ γ) (opts : FilterOptions)
    (bufbytes : Nat) (efile : List E) (bufs : Nat → SuperBuf E) : Scan σ υ δ γ E :=
  scanFiltered c A opts bufbytes efile.length (edgeFile c.toMapping efile bufs)
    fun superp => (bufs superp).bfFp.content

/-- A driver behind the filters runs in lock step with one that reads everything. -/
theorem computes_scanFiles {σ υ δ γ O Q τ : Type} {A : SgAlgorithm σ υ δ γ} {view : σ → O}
    {fresh : Nat → O → Prop} {good : υ → Prop} {count : δ → Nat} {obs : O → Q} {reported : γ → τ} {post : SgState σ υ δ γ → Prop} {st : SgState σ υ δ γ}
    (both : LockStep (Superstep c A F (Scan.within c (scanFiles c A opts bufbytes efile bufs))) (Stops c A)
      (Superstep c A F (scanAll c F efile)) (Stops c A) (Alike c A view fresh good count obs reported))
    (alike : Alike c A view fresh good count obs reported st st)
    (computes : Computes c A F (scanAll c F efile) post st) :
    Computes c A F (scanFiles c A opts bufbytes efile bufs)
      (fun st' => ∃ st'', Alike c A view fresh good count obs reported st' st'' ∧ post st'') st := by
  rw [superstep_within] at both
  exact both.alwaysEnds alike computes

/-- What bfs finds: which vertices, on which level, and how many. -/
structure BfsLevels (F : FormatUtils E) (edges : List E) (c : Configuration) (bfsRoot : Nat)
    (st : SgState Bfs.BfsVertex Bfs.BfsUpdate Bfs.PerProcessorData Bfs.PerProcessorData) : Prop where
  discovered : ∀ v < c.vertices,
    (st.state v).bfsParent ≠ Bfs.noParent ↔ Reachable (edgeEnds F edges) bfsRoot v
  level : ∀ v < c.vertices, ∀ d, Dist (edgeEnds F edges) bfsRoot v d → (st.state v).bspPhase.toNat = d
  verticesDiscovered : st.total.verticesDiscovered =
    {v | v < c.vertices ∧ v ≠ bfsRoot ∧ Reachable (edgeEnds F edges) bfsRoot v}.ncard

/-- bfs is exact on edges between few enough vertices: no walk is too long for a level. -/
theorem computesBfs_of_inside {edges : List E} (inside : EndsInside F edges c.vertices) (low : c.vertices ≤ 2 ^ 31)
    {bfsRoot : Nat} (root_lt : bfsRoot < c.vertices) (state : Nat → Bfs.BfsVertex)
    (fits : ∀ superp < c.superPartitions, c.StateFits (bfs bfsRoot).vertexStateBytes superp) :
    ComputesBfs F edges c bfsRoot state := by
  have mark : tombstone = 2 ^ 32 - 1 := rfl
  have rootUnmarked : BitVec.ofNat 32 bfsRoot ≠ Bfs.noParent := Bfs.ofNat_ne_noParent (by omega) (by omega)
  have ends : ∀ e ∈ edgeEnds F edges, e.1 < c.vertices ∧ e.2 < c.vertices := by
    intro e member
    obtain ⟨e', edge, rfl⟩ := List.mem_map.mp member
    exact inside e' edge
  have below : ∀ w j, Dist (edgeEnds F edges) bfsRoot w j → w < c.vertices := fun w j dist =>
    dist.walk.lt_of_inside root_lt fun e member => (ends e member).2
  refine computesBfs_of_sound ⟨root_lt, rootUnmarked, ends, fun e member => ?_, fun e member => ?_,
    fun v d dist => (dist.lt_of_inside below).trans_le low⟩ fits state
  · have := ends e member
    exact ⟨by omega, by omega⟩
  · have := ends e member
    omega

/-- A driver that runs in lock step with one that reads everything finds the levels. -/
theorem bfsLevels_of_alike {edges : List E} {bfsRoot : Nat}
    {st st' : SgState Bfs.BfsVertex Bfs.BfsUpdate Bfs.PerProcessorData Bfs.PerProcessorData}
    (same : Alike c (bfs bfsRoot) Bfs.view Bfs.Fresh Bfs.Carries Bfs.PerProcessorData.verticesDiscovered
      Bfs.discoveredIn Bfs.PerProcessorData.verticesDiscovered st st')
    (exact_ : BfsExact F edges c bfsRoot st') : BfsLevels F edges c bfsRoot st := by
  have found (v : Nat) := Bfs.discoveredIn_eq_iff (same.state v)
  have discovered : ∀ v < c.vertices,
      (st.state v).bfsParent ≠ Bfs.noParent ↔ Reachable (edgeEnds F edges) bfsRoot v := fun v known =>
    (not_congr (found v).1).trans (exact_.discovered v known)
  refine ⟨discovered, fun v known d dist => ?_, same.total.trans exact_.verticesDiscovered⟩
  have level : (st.state v).bspPhase = (st'.state v).bspPhase :=
    (found v).2 ((discovered v known).mpr ⟨d, dist.walk⟩)
  rw [level]
  exact exact_.level v known d dist

variable [Inhabited E] [DecidableEq E]

end

/-- Filters of 32 bits for one edge each, and a list with room for eight vertices. -/
def smallFilters : FilterOptions := ⟨smallOptions, 8, 4⟩

theorem setup_of_small {efile : List SimpleEdge} (ok : Distributable type2 smallOptions efile)
    (inside : EndsInside type2 efile 3) :
    FilterSetup (Configuration.single 0 3 (by decide)) type2 smallFilters 1024 efile
      (flushed (Configuration.single 0 3 (by decide)).toMapping type2 smallOptions freshBufs efile) where
  written := created_of_distributable ok
  inside := inside
  low := by decide
  accepts := by decide
  fours := by decide
  array := by decide
  padding := by decide
  products := by decide
  room := by decide
  reach := by decide

end MBFGraph
