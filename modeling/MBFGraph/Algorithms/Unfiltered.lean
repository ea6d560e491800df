import MBFGraph.Algorithms.Sssp

/-!
# Programs without filters

`bfs_forest` (`bfs_forest.hpp:28-126`), `spmv` (`spmv.hpp:28-118`), `check_if_bipartite`
(`checkbip.hpp:30-140`) and `pagerank` (`pagerank.hpp:26-145`). Numbers are rational instead of
`weight_t`. Their `check_bsp` says that it is not supported.
-/

namespace MBFGraph

namespace BfsForest

/-- `bfs_update`. -/
structure BfsUpdate where
  component : VertexT
  parent : VertexT
  child : VertexT
  deriving DecidableEq, Repr

/-- `bfs_vertex`. -/
structure BfsVertex where
  component : VertexT
  bfsParent : VertexT
  bspPhase : VertexT
  deriving DecidableEq, Repr

def init (vertexIndex : Nat) : BfsVertex × Bool :=
  (⟨BitVec.ofNat 32 vertexIndex, BitVec.ofNat 32 vertexIndex, 0⟩, true)

def applyOneUpdate (v : BfsVertex) (u : BfsUpdate) (bspPhase : Nat) : BfsVertex × Bool :=
  if u.component < v.component then (⟨u.component, u.parent, BitVec.ofNat 32 bspPhase⟩, true)
  else (v, false)

def generateUpdate (v : BfsVertex) (src dst : VertexT) (bspPhase : Nat) : Option BfsUpdate :=
  if v.bspPhase.toNat = bspPhase then some ⟨v.component, src, dst⟩ else none

end BfsForest

def bfsForest : SgAlgorithm BfsForest.BfsVertex BfsForest.BfsUpdate Unit Unit where
  vertexStateBytes := 12
  splitKey u := u.child.toNat
  init _ vertexIndex _ := BfsForest.init vertexIndex
  needInit bspPhase := decide (bspPhase = 0)
  checkBsp _ _ := true
  checkResetChanged v := (v, true)
  applyOneUpdate v u data bspPhase :=
    ((BfsForest.applyOneUpdate v u bspPhase).1, data, (BfsForest.applyOneUpdate v u bspPhase).2)
  generateUpdate v src dst _ data bspPhase := (BfsForest.generateUpdate v src dst bspPhase, data)
  reduce := noReduce
  minSuperPhases := 1

namespace Spmv

/-- `term`. -/
structure Term where
  column : VertexT
  value : ℚ
  deriving DecidableEq

/-- `vector_element`. -/
structure VectorElement where
  valueOut : ℚ
  valueIn : ℚ
  deriving DecidableEq

end Spmv

/-- `spmv`, where the weight of an edge is the matrix element. -/
def spmv : SgAlgorithm Spmv.VectorElement Spmv.Term Unit Unit ℚ where
  vertexStateBytes := 8
  splitKey t := t.column.toNat
  init _ vertexIndex _ := (⟨0, vertexIndex⟩, true)
  needInit bspPhase := decide (bspPhase = 0)
  checkBsp _ _ := true
  checkResetChanged v := (v, true)
  applyOneUpdate v t data _ := ({ v with valueOut := v.valueOut + t.value }, data, false)
  generateUpdate v _ column matrixElement data _ := (some ⟨column, matrixElement * v.valueIn⟩, data)
  reduce := noReduce
  minSuperPhases := 1

namespace CheckBip

/-- `vertex`. -/
structure Vertex where
  side : Int
  deriving DecidableEq, Repr

/-- `update`. -/
structure Update where
  target : VertexT
  side : Int
  deriving DecidableEq, Repr

/-- The flag is what is left of `is_bip`. -/
def applyOneUpdate (v : Vertex) (u : Update) (isBip : Bool) : Vertex × Bool :=
  let v : Vertex := if v.side = 0 then ⟨-u.side⟩ else v
  (v, if v.side ≠ -u.side then false else isBip)

def generateUpdate (src dst : VertexT) : Update := ⟨dst, if src < dst then -1 else 1⟩

end CheckBip

/-- `check_if_bipartite`. What `generate_update` leaves in the vertex is the side of the last edge; as
the driver does not pass the edge here, it is left open. `is_bip` is only ever set to false, so
each processor has one. -/
def checkIfBipartite (sideAfter : CheckBip.Vertex → Nat → CheckBip.Vertex) :
    SgAlgorithm CheckBip.Vertex CheckBip.Update Bool Unit where
  vertexStateBytes := 4
  splitKey u := u.target.toNat
  init _ _ _ := (⟨0⟩, true)
  needInit bspPhase := decide (bspPhase = 0)
  checkBsp _ _ := true
  checkResetChanged v := (v, true)
  applyOneUpdate v u isBip _ :=
    ((CheckBip.applyOneUpdate v u isBip).1, (CheckBip.applyOneUpdate v u isBip).2, false)
  generateUpdate _ src dst _ isBip _ := (some (CheckBip.generateUpdate src dst), isBip)
  vertexAfterUpdate := sideAfter
  reduce total data _ := (total, data, false)
  minSuperPhases := 1

namespace Pagerank

/-- `vertex`. -/
structure Vertex where
  degree : VertexT
  rank : ℚ
  sum : ℚ
  deriving DecidableEq

/-- `update`. -/
structure Update where
  target : VertexT
  rank : ℚ
  deriving DecidableEq

def init (v : Vertex) (bspPhase : Nat) : Vertex × Bool :=
  let v := { v with sum := 0 }
  if bspPhase = 0 then ({ v with degree := 0, rank := 1 }, true)
  else if bspPhase = 1 then ({ v with rank := 1 - 17 / 20 }, true)
  else (v, true)

def applyOneUpdate (niters : Nat) (v : Vertex) (u : Update) (bspPhase : Nat) : Vertex × Bool :=
  let sum := v.sum + u.rank
  ({ v with sum, rank := 1 - 17 / 20 + 17 / 20 * sum }, decide (bspPhase ≠ niters))

/-- What `generate_update` sends. -/
def generateUpdate (v : Vertex) (dst : VertexT) (bspPhase : Nat) : Option Update :=
  if bspPhase = 0 then none
  else if bspPhase = 1 then some ⟨dst, 1 / v.degree.toNat⟩
  else some ⟨dst, v.rank / v.degree.toNat⟩

end Pagerank

/-- `pagerank`, where `preprocessing` has set `niters` to one more than the option. -/
def pagerank (niters : Nat) : SgAlgorithm Pagerank.Vertex Pagerank.Update Unit Unit where
  vertexStateBytes := 12
  splitKey u := u.target.toNat
  init v _ bspPhase := Pagerank.init v bspPhase
  needInit _ := true
  checkBsp _ _ := true
  checkResetChanged v := (v, true)
  applyOneUpdate v u data bspPhase :=
    ((Pagerank.applyOneUpdate niters v u bspPhase).1, data,
      (Pagerank.applyOneUpdate niters v u bspPhase).2)
  generateUpdate v _ dst _ data bspPhase := (Pagerank.generateUpdate v dst bspPhase, data)
  vertexAfterUpdate v bspPhase := if bspPhase = 0 then { v with degree := v.degree + 1 } else v
  reduce := noReduce
  minSuperPhases := 2

end MBFGraph
