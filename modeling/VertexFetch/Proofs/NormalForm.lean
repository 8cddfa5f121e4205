import VertexFetch.Proofs.Pass.Apart
import VertexFetch.Proofs.Pass.Resting
import VertexFetch.Proofs.Pass.Uniformity
import VertexFetch.Proofs.Stores

namespace VertexFetch

namespace Graph

end Graph

namespace Program

variable {p : Program}

theorem within_dropDeadStores (ordered : p.Ordered) :
    p.Within p.dropDeadStores where
  ordered :=
    { graph := ordered.graph
      output_lt := fun r member =>
        ordered.output_lt r
          ((p.graph.lastStores_sublist p.outputs).subset member) }
  image := ⟨id, fun r needed => ⟨r, needed.of_dropDeadStores, rfl⟩⟩

/-- Each node that a pass leaves stands for a node that was there. -/
theorem within_run (ordered : p.Ordered) (pass : Pass) :
    p.Within (pass.run p) := by
  cases pass with
  | selects =>
      exact within_sweepWith ordered
        (settling_selectRule.tracks_swept ordered trivial)
  | sharing => exact within_sweepWith ordered (tracks_share ordered)
  | promotion =>
      exact within_sweepWith ordered
        (settling_promotionRule.tracks_swept ordered p.graph.exact_empty)
  | folding =>
      exact within_sweepWith ordered
        (settling_foldingRule.tracks_swept ordered trivial)
  | deadStores => exact within_dropDeadStores ordered

/-- Lanes of a vector that was put together lane by lane, a sum that is made
twice with its terms exchanged and stored to one place, and a lane taken from a
store. -/
def layered : Program where
  graph :=
    ⟨#[.value (.argument .startVertex), .value .laneNumbers,
      .value (.insert 0 1 0),
    .value (.insert 1 2 0), .value (.extract 2 3), .value (.extract 0 3),
    .value (.binary .add 4 5), .value (.binary .add 5 4), .store (.row 0 0) 6,
    .store (.row 0 0) 7, .value (.extract 5 9)]⟩
  outputs := [8, 9, 10, 4]

end Program
end VertexFetch
