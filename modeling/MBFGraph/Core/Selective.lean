import MBFGraph.Core.ScatterGather

/-!
# Which edges a scatter phase reads

With Bloom filters the scatter phase reads the pages of the edge file whose bit in `BF_bitset` is set
(`sg_driver.hpp:786-862`), and `do_stream` visits the partitions in `scatter_filter`. Here any pages may be
chosen, provided that a page with an edge of an active vertex is among them. `scanWhole` is the driver without
either choice.
-/

namespace MBFGraph

namespace ScatterGather

variable {σ υ δ γ E W : Type} (c : Configuration) (A : SgAlgorithm σ υ δ γ W) (F : FormatUtils E W)

/-- The records on the pages that are read, in the order of the file. -/
def readPages (edgesPerPage : Nat) (pages : Nat → Bool) (records : List E) : List E :=
  (records.zipIdx.filter fun e => pages (e.2 / edgesPerPage)).map Prod.fst

/-- Pages with an edge whose source passes `check_bsp` are read, and the partitions in `scatter_filter` are
visited. -/
def scanPages (edgesPerPage : Nat) (edges : List E) : Scan σ υ δ γ E where
  reads st superp records := ∃ pages : Nat → Bool,
    (∀ i e, (edgesOf c F edges superp)[i]? = some e →
      A.checkBsp (st.state (F.src e).toNat) st.bspPhase = true → pages (i / edgesPerPage) = true) ∧
    records = readPages edgesPerPage pages (edgesOf c F edges superp)
  visits st partition := decide (partition ∈ st.scatterFilter)

/-- Every page is read, and every partition is visited. -/
def scanWhole (edges : List E) : Scan σ υ δ γ E where
  reads _ superp records := records = edgesOf c F edges superp
  visits _ _ := true

end ScatterGather

end MBFGraph
