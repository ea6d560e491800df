import MBFGraph.Core.Proofs.EdgeScatter

/-!
# When a page bitset is used up

In every run a filtered scatter uses up its bitset exactly if the stream keeps no buffer from an
earlier superstep and the super partition has edges.
-/

namespace MBFGraph

open ByteBits Overwrite BitScan DiskStream

/-- For every run: if buffers are made of whole pages and the filters select no page behind the
end of the file, a filtered scatter uses up its bitset and delivers the selected pages if and only
if no buffer is kept and the edge file is not empty. -/
theorem usesUpBitset_iff (cfg : StreamConfig) (contents : Nat → List Byte) (d : EdgeDriver)
    (test : List Byte) (positive : 0 < cfg.superpCnt) (run : EdgeRun cfg contents d)
    (forced : bitAt test 0 = true) (page : 0 < cfg.subBufSize) (buffer : 0 < cfg.bufbytes)
    (whole : cfg.bufbytes % cfg.subBufSize = 0)
    (others : ∀ p, 0 < p → bitAt test p = true → p * cfg.subBufSize < (contents d.superp).length) :
    UsesUpBitset cfg contents d test ↔ d.stream.cache = none ∧ contents d.superp ≠ [] :=
  usesUpBitset_iff_of_inv (edgeInv_of_run positive run) forced page buffer whole others

/-- Two super partitions, pages of 512 bytes and buffers of one page. -/
def twoSuperConfig : StreamConfig where
  superpCnt := 2
  processors := 1
  streamUnitBytes := 8
  bufbytes := 512
  subBufSize := 512
  streamUnit := 8192

/-- A graph whose only edge leaves vertex 0. -/
def oneEdgeFiles (s : Nat) : List Byte := if s = 0 then [0, 0, 0, 0, 1, 0, 0, 0] else []

private theorem only_forced (p : Nat) (later : 0 < p) : bitAt [1] p = false := by
  rcases Nat.lt_or_ge p 8 with inByte | outside
  · interval_cases p <;> rfl
  · exact bitAt_of_length_le outside

/-- The super partition with the edge. -/
theorem usesUpBitset_iff_one_edge :
    UsesUpBitset twoSuperConfig oneEdgeFiles ⟨DiskStream.opened oneEdgeFiles, 0⟩ [1] :=
  (usesUpBitset_iff twoSuperConfig oneEdgeFiles ⟨DiskStream.opened oneEdgeFiles, 0⟩ [1]
    (by decide) .start rfl (by decide) (by decide) rfl
    (fun p later set => by rw [only_forced p later] at set; contradiction)).mpr
    ⟨rfl, by decide⟩

/-- The super partition without edges: nothing is read, and the forced bit stays. -/
theorem not_usesUpBitset_without_edges :
    ¬ ∀ (cfg : StreamConfig) (contents : Nat → List Byte) (d : EdgeDriver) (test : List Byte),
      0 < cfg.superpCnt → EdgeRun cfg contents d → bitAt test 0 = true → 0 < cfg.subBufSize →
      0 < cfg.bufbytes → cfg.bufbytes % cfg.subBufSize = 0 →
      (∀ p, 0 < p → bitAt test p = true → p * cfg.subBufSize < (contents d.superp).length) →
      UsesUpBitset cfg contents d test := by
  intro all
  -- super partition 0 is scattered first, filtered as well
  obtain ⟨n, out, after, streamed, used, next, -⟩ :=
    @usesUpBitset_of_fit twoSuperConfig oneEdgeFiles _ (edgeInv_of_run (by decide) .start) [1] rfl
      rfl
      ⟨by decide, by decide, rfl, fun p set => by
        rcases Nat.eq_zero_or_pos p with rfl | later
        · decide
        · rw [only_forced p later] at set
          contradiction⟩
  obtain ⟨d, isNext⟩ := Option.isSome_iff_exists.mp next
  have run : EdgeRun twoSuperConfig oneEdgeFiles d :=
    @EdgeRun.scatter _ _ _ _ (some [1]) _ _ _ .start (fun test same => by
      rw [← Option.some.inj same]
      rfl) (streamed (n + 1) (Nat.lt_succ_self n)) isNext
  have superp : d.superp = 1 := by
    unfold nextSuperp clearBitset at isNext
    rw [used] at isNext
    rw [← Option.some.inj isNext]
    rfl
  have empty : oneEdgeFiles d.superp = [] := by
    rw [superp]
    rfl
  refine @not_usesUpBitset _ _ _ (edgeInv_of_run (by decide) run) [1] rfl (Or.inr empty)
    (all twoSuperConfig oneEdgeFiles d [1] (by decide) run rfl (by decide) (by decide) rfl ?_)
  intro p later set
  rw [only_forced p later] at set
  contradiction

end MBFGraph
