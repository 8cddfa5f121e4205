import Mathlib.Data.Set.Card
import VertexFetch.Proofs.NormalForm

namespace VertexFetch

namespace Program

variable {p q : Program}

theorem Ordered.finite_needs (ordered : p.Ordered) : {r | p.Needs r}.Finite :=
  (List.finite_toSet p.order).subset
    fun _ needed => ordered.mem_order.mpr needed

theorem Ordered.nodeCount_eq_ncard (ordered : p.Ordered) :
    p.nodeCount = {r | p.Needs r}.ncard := by
  have members : {r | p.Needs r} = ↑p.order.toFinset := by
    ext r
    simp [ordered.mem_order]
  rw [members, Set.ncard_coe_finset,
    List.toFinset_card_of_nodup ordered.order_nodup, nodeCount]

theorem Within.nodeCount_le (within : p.Within q) (ordered : p.Ordered) :
    q.nodeCount ≤ p.nodeCount := by
  obtain ⟨image, images⟩ := within.image
  rw [ordered.nodeCount_eq_ncard, within.ordered.nodeCount_eq_ncard]
  calc
    {r | q.Needs r}.ncard ≤ (image '' {x | p.Needs x}).ncard :=
      Set.ncard_le_ncard images (ordered.finite_needs.image image)
    _ ≤ {x | p.Needs x}.ncard := Set.ncard_image_le ordered.finite_needs

/-- The nodes of a program are those that its outputs need, and after a pass
there are no more of them. -/
theorem nodeCount_run_le (ordered : p.Ordered) (pass : Pass) :
    p.nodeCount = {r | p.Needs r}.ncard ∧
      (pass.run p).nodeCount = {r | (pass.run p).Needs r}.ncard ∧
      (pass.run p).nodeCount ≤ p.nodeCount := by
  have within := within_run ordered pass
  exact ⟨ordered.nodeCount_eq_ncard, within.ordered.nodeCount_eq_ncard,
    within.nodeCount_le ordered⟩

theorem nodeCount_run_le_layered :
    layered.Ordered ∧ layered.nodeCount = 11 ∧
      (Pass.promotion.run layered).nodeCount = 7 ∧
      (Pass.promotion.run layered).nodeCount ≤ layered.nodeCount ∧
      (Pass.sharing.run layered).nodeCount = 9 ∧
      (Pass.sharing.run layered).nodeCount ≤ layered.nodeCount := by
  have ordered : layered.Ordered := by decide
  have promoted := (nodeCount_run_le ordered .promotion).2.2
  have shared := (nodeCount_run_le ordered .sharing).2.2
  exact ⟨ordered, by cbv, by cbv, promoted, by cbv, shared⟩

end Program
end VertexFetch
