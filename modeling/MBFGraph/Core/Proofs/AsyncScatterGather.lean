import MBFGraph.Core.AsyncScatterGather
import MBFGraph.Core.Proofs.ScatterGather

/-!
# The asynchronous driver is never stuck

A scatter phase can be brought to its end from everywhere, and cannot go on for ever. So a superstep can be made,
provided that the vertex records fit in the state buffer.
-/

namespace MBFGraph

namespace AsyncScatterGather

variable {σ υ δ γ E : Type} {c : Configuration} {A : AsyncAlgorithm σ υ δ γ} {F : FormatUtils E}

/-- A scatter phase comes to its end. -/
theorem exists_scatterSteps (c : Configuration) (A : AsyncAlgorithm σ υ δ γ) (F : FormatUtils E) (superp : Nat)
    (st : AsyncState σ υ δ γ) (edges : List E) (buffered : List υ) :
    ∃ st', Relation.ReflTransGen (ScatterStep c A F superp) ⟨st, edges, buffered⟩ ⟨st', [], []⟩ := by
  induction edges generalizing st buffered with
  | nil =>
    by_cases empty : buffered = []
    · exact ⟨st, empty ▸ .refl⟩
    · obtain ⟨visits, loops⟩ := ScatterGather.exists_delivers c A.splitKey (fun _ => true)
        (buffered.filter fun u => c.mapSuperPartition (A.splitKey u) = superp)
      exact ⟨_, .single (.flush empty (by rw [List.append_nil]) loops)⟩
  | cons e edges ih =>
    obtain ⟨st', rest⟩ := ih _ _
    have first : ScatterStep c A F superp ⟨st, [] ++ e :: edges, buffered⟩ _ := .edge c.processors_pos
    exact ⟨st', .head first rest⟩

/-- And it cannot go on for ever. -/
theorem scatterStep_lt {superp : Nat} {x y : Scattering σ υ δ γ E} (step : ScatterStep c A F superp x y) :
    2 * y.edges.length + y.buffered.length < 2 * x.edges.length + x.buffered.length := by
  cases step with
  | @edge st front back e buffered processor known =>
    have one : (generated c A F superp processor st e).1.toList.length ≤ 1 := by
      cases (generated c A F superp processor st e).1 <;> simp
    simp only [List.length_append, List.length_cons]
    omega
  | flush nonempty split _ =>
    have length := split.length_eq
    have positive := List.length_pos_iff.mpr nonempty
    rw [List.length_append] at length
    simp only
    omega

theorem exists_superstep {edges : List E}
    (fits : ∀ superp < c.superPartitions, c.StateFits A.vertexStateBytes superp) (st : AsyncState σ υ δ γ) :
    ∃ st', Superstep c A F edges st st' := by
  have each : ∀ superps ≤ c.superPartitions, ∃ after, Superps c A F edges st superps after := by
    intro superps
    induction superps with
    | zero => exact fun _ => ⟨st, .none⟩
    | succ superp ih =>
      intro le
      obtain ⟨before, others⟩ := ih (by omega)
      obtain ⟨gathers, gathered⟩ := ScatterGather.exists_delivers c A.splitKey (fun _ => true)
        (updatesOf c A superp (prepare c A superp before))
      obtain ⟨st', scattered⟩ := exists_scatterSteps c A F superp
        (gatherPhase c A superp gathers (prepare c A superp before))
        (ScatterGather.edgesOf c F edges superp) []
      exact ⟨_, .next others (.visit (fits superp (by omega)) gathered scattered)⟩
  obtain ⟨after, run⟩ := each _ (Nat.le_refl _)
  exact ⟨_, .done run⟩

end AsyncScatterGather

end MBFGraph
