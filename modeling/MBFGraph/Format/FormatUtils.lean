import MBFGraph.Core.Autotuner

/-!
# Edge formats

The template parameter `F` of the drivers: how an edge record is laid out. A record is read
through `read_edge` and `split_key` only, so the drivers are modelled over any record type. The
weights are of the type `W`; without it, `read_edge` is the one that reads the two ends.
-/

namespace MBFGraph

/-- A format class: the size of a record, which holds at least two ids, and its two ends. -/
structure FormatUtils (E : Type) (W : Type := Unit) where
  splitSizeBytes : Nat
  src : E → VertexT
  dst : E → VertexT
  holdsTwoIds : 8 ≤ splitSizeBytes
  edgeWeight : E → W := by exact fun _ => ()

namespace FormatUtils

variable {E W : Type} (F : FormatUtils E W)

/-- `split_key` (`type_2.hpp:56`): the source id, shifted, as an `unsigned long`. -/
def splitKey (edge : E) (jump : Nat) : Nat := (F.src edge >>> jump).toNat

/-- `read_edge` without the weight. -/
def readEdge (edge : E) : VertexT × VertexT := (F.src edge, F.dst edge)

@[simp] theorem splitKey_zero (edge : E) : F.splitKey edge 0 = (F.src edge).toNat := by
  simp [splitKey]

theorem splitKey_lt (edge : E) : F.splitKey edge 0 < 2 ^ 32 := by
  rw [splitKey_zero]; exact (F.src edge).isLt

end FormatUtils

/-- A type 2 record: two ids. -/
structure SimpleEdge where
  src : VertexT
  dst : VertexT
  deriving DecidableEq, Repr, Inhabited

/-- A type 1 record: two ids, a gap of one id and the weight (`type_1.hpp:30`). -/
structure WeightedEdge where
  src : VertexT
  dst : VertexT
  gap : VertexT
  value : BitVec 32
  deriving DecidableEq, Repr, Inhabited

/-- `format::type2::format_utils`. -/
def type2 : FormatUtils SimpleEdge where
  splitSizeBytes := 8
  src := SimpleEdge.src
  dst := SimpleEdge.dst
  holdsTwoIds := by decide

/-- `format::type1::format_utils`. -/
def type1 : FormatUtils WeightedEdge where
  splitSizeBytes := 16
  src := WeightedEdge.src
  dst := WeightedEdge.dst
  holdsTwoIds := by decide

end MBFGraph
