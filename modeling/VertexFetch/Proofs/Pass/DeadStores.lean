import VertexFetch.Pass.DeadStores
import VertexFetch.Proofs.Graph.Value

namespace VertexFetch

namespace Graph

variable {g : Graph} {rs : List Ref}

theorem mem_seen {target : Target} :
    target ∈ (rs.foldr (Scan.visit g) {}).seen ↔
      target ∈ rs.filterMap g.target? := by
  induction rs with
  | nil => exact Iff.rfl
  | cons r rest induction =>
      rw [List.foldr_cons, Scan.visit]
      cases stored : g.target? r with
      | none =>
          rw [List.filterMap_cons_none stored]
          exact induction
      | some place =>
          rw [List.filterMap_cons_some stored, List.mem_cons, ← induction]
          dsimp only
          split
          next seen =>
            constructor
            · exact .inr
            · rintro (rfl | member)
              · exact seen
              · exact member
          next => exact List.mem_cons

/-- What the scan has seen when it comes to an output is what comes after it. -/
theorem lastStores_cons (g : Graph) (r : Ref) (rest : List Ref) :
    g.lastStores (r :: rest) =
      if ∃ target, g.target? r = some target ∧
          target ∈ rest.filterMap g.target? then
        g.lastStores rest
      else r :: g.lastStores rest := by
  rw [lastStores, List.foldr_cons, Scan.visit]
  cases stored : g.target? r with
  | none => simp [lastStores]
  | some target =>
      have overwritten : (∃ target', some target = some target' ∧
          target' ∈ rest.filterMap g.target?) ↔
            target ∈ (rest.foldr (Scan.visit g) {}).seen := by
        simp [mem_seen]
      simp only [overwritten, lastStores]
      split <;> rfl

theorem lastStores_eq_self (distinct : (rs.filterMap g.target?).Nodup) :
    g.lastStores rs = rs := by
  induction rs with
  | nil => rfl
  | cons r rest induction =>
      rw [lastStores_cons]
      cases stored : g.target? r with
      | none =>
          rw [List.filterMap_cons_none stored] at distinct
          simp [induction distinct]
      | some target =>
          rw [List.filterMap_cons_some stored, List.nodup_cons] at distinct
          rw [if_neg ?_, induction distinct.2]
          rintro ⟨_, ⟨⟩, later⟩
          exact distinct.1 later

end Graph

theorem Program.StoresOnce.dropDeadStores {p : Program} (once : p.StoresOnce) :
    p.dropDeadStores = p := by
  have distinct : (p.outputs.filterMap p.graph.target?).Nodup := by
    refine List.pairwise_filterMap.mpr
      ((List.pairwise_map.mp once.nodup).imp ?_)
    rintro r s apart target found _ found' rfl
    exact apart (found.trans found'.symm)
  rw [Program.dropDeadStores, Graph.lastStores_eq_self distinct]

end VertexFetch
