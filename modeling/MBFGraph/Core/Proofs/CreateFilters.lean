import MBFGraph.Core.Proofs.EdgeDistribution

/-!
# Mode `create`

`partition_super_partition` with `bf_mode` `create`, in closed form: every super partition's edge
file holds its records and its filter file one group for every `edges_per_buf` of them.
-/

namespace MBFGraph

open ByteBits Groups Stdio

section Create

variable {E : Type} (m : Mapping) (F : FormatUtils E) (o : BloomOptions)

/-- The files that mode `create` writes. With one super partition there is no `edges.N`. -/
def createdFiles (efile : List E) : BloomFiles E where
  edges superp := if 1 < m.superPartitions then superEdges m F superp efile else []
  bf superp := filterBytes F o (groups o.edgesPerBuf (superEdges m F superp efile))

variable {m F o}

theorem sanityCheck_intProducts {mode : BfMode} {efile : List E} {files : BloomFiles E}
    {r : (Nat → Nat) × Nat} (passed : sanityCheck m o mode efile files = some r) :
    o.IntProducts := by
  unfold sanityCheck at passed
  split at passed
  · contradiction
  · rename_i products
    exact not_not.mp products

theorem sanityCheck_create (products : o.IntProducts) (efile : List E) :
    sanityCheck m o .create efile ⟨fun _ => [], fun _ => []⟩ = some (fun _ => 0, 0) := by
  unfold sanityCheck
  by_cases one : m.superPartitions = 1 <;> simp [products, one]

/-- Super partitions without records have nothing to resume. -/
theorem resumeSupers_zero (n : Nat) (bufs : Nat → SuperBuf E) :
    resumeSupers F o (fun _ => 0) n bufs = some bufs := by
  induction n with
  | zero => rfl
  | succ n ih => simp [resumeSupers, ih, resumeSuper]

theorem ready_opened (files : BloomFiles E) :
    Ready fun i =>
      (⟨File.opened (files.edges i), File.opened (files.bf i), []⟩ : SuperBuf E) where
  empty _ := rfl
  edgePos _ := Nat.zero_le _
  bfPos _ := Nat.zero_le _

variable [Inhabited E] [DecidableEq E]

theorem edgeDistribution_create (efile : List E) :
    edgeDistribution m F o efile (fun _ => 0) 0
        (fun _ => ⟨File.opened [], File.opened [], []⟩) false =
      distributeEdges m F o false efile fun _ => ⟨File.opened [], File.opened [], []⟩ := by
  unfold edgeDistribution
  by_cases one : m.superPartitions = 1
  · by_cases nothing : 0 = efile.length
    · simp [one, nothing.symm]
    · have seek : Function.update (fun _ => (⟨File.opened [], File.opened [], []⟩ : SuperBuf E)) 0
          ⟨File.opened [], fseek (File.opened []) 0, []⟩ =
          fun _ => ⟨File.opened [], File.opened [], []⟩ := by
        funext superp
        by_cases here : superp = 0
        · subst here; rfl
        · rw [Function.update_of_ne here]
      simp only [one, if_true, nothing, ne_eq, not_false_eq_true, Nat.zero_div, Nat.zero_mul,
        seek, List.drop_zero]
  · simp [one, resumeSupers_zero]

omit [DecidableEq E] in
/-- The final buffers of a run on empty files hold the created files. -/
theorem flushed_opened_nil (efile : List E) :
    (⟨fun i => (flushed m F o (fun _ => ⟨File.opened [], File.opened [], []⟩) efile i).edgeFp.content,
      fun i => (flushed m F o (fun _ => ⟨File.opened [], File.opened [], []⟩) efile i).bfFp.content⟩ :
        BloomFiles E) = createdFiles m F o efile := by
  unfold flushed shippedState createdFiles
  congr 1
  · funext superp
    by_cases several : 1 < m.superPartitions
    · simp [several]
    · simp [several, File.opened]
  · funext superp
    simp

/-- When mode `create` gets to its end, and what it writes. -/
theorem partitionSuperPartition_create_iff {efile : List E} {files written : BloomFiles E} :
    partitionSuperPartition m F o .create efile files = some written ↔
      o.IntProducts ∧ Distributable F o efile ∧ written = createdFiles m F o efile := by
  unfold partitionSuperPartition
  simp only [if_true]
  by_cases products : o.IntProducts
  · rw [sanityCheck_create products]
    change Option.map _ (edgeDistribution m F o efile (fun _ => 0) 0
      (fun _ => ⟨File.opened [], File.opened [], []⟩) false) = _ ↔ _
    have ready := ready_opened (E := E) ⟨fun _ => [], fun _ => []⟩
    rw [edgeDistribution_create, Option.map_eq_some_iff]
    constructor
    · rintro ⟨bufs, ran, rfl⟩
      obtain ⟨ok, rfl⟩ := (distributeEdges_eq_some_iff ready).mp ran
      exact ⟨products, ok, flushed_opened_nil efile⟩
    · rintro ⟨-, ok, rfl⟩
      exact ⟨_, (distributeEdges_eq_some_iff ready).mpr ⟨ok, rfl⟩, flushed_opened_nil efile⟩
  · constructor
    · intro ran
      split at ran
      · contradiction
      · rename_i passed
        exact absurd (sanityCheck_intProducts passed) products
    · exact fun h => absurd h.1 products

end Create

end MBFGraph
