import VertexFetch.Graph

namespace VertexFetch

/-- How far the outputs have been gone through, from the last to the first: the
targets of the stores so far, and the outputs that are kept. -/
structure Scan where
  seen : List Target := []
  kept : List Ref := []

def Scan.visit (g : Graph) (r : Ref) (s : Scan) : Scan :=
  match g.target? r with
  | some target =>
      if target ∈ s.seen then s else ⟨target :: s.seen, r :: s.kept⟩
  | none => { s with kept := r :: s.kept }

def Graph.lastStores (g : Graph) (outputs : List Ref) : List Ref :=
  (outputs.foldr (Scan.visit g) {}).kept

def Program.dropDeadStores (p : Program) : Program :=
  { p with outputs := p.graph.lastStores p.outputs }

end VertexFetch
