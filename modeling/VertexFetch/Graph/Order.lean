import VertexFetch.Graph

namespace VertexFetch

/-- What is still to do on a walk: go to a node, or finish one whose operands
are done. -/
inductive Visit where
  | enter (r : Ref)
  | leave (r : Ref)
  deriving DecidableEq, Repr

theorem count_unseen_lt {seen : Array Bool} {r : Ref}
    (h : seen[r]? = some false) :
    (seen.setIfInBounds r true).count false < seen.count false := by
  obtain ⟨hr, hf⟩ := Array.getElem?_eq_some_iff.mp h
  have hpos : 0 < seen.count false :=
    Array.count_pos_iff.mpr (Array.mem_of_getElem hf)
  rw [Array.setIfInBounds_def, dif_pos hr, Array.count_set hr, hf]
  change seen.count false - 1 + 0 < seen.count false
  omega

namespace Graph

/-- The nodes that the stack of visits finishes, in order. A node is entered
when it has not been seen, and its operands then go on the stack before its own
finish. -/
def walk (g : Graph) (stack : List Visit) (seen : Array Bool) : List Ref :=
  match stack with
  | [] => []
  | .leave r :: rest => r :: g.walk rest seen
  | .enter r :: rest =>
      if h : seen[r]? = some false then
        g.walk ((g.operands r).map .enter ++ .leave r :: rest)
          (seen.setIfInBounds r true)
      else g.walk rest seen
termination_by (seen.count false, stack.length)
decreasing_by
  · exact Prod.Lex.right _ (by simp)
  · exact Prod.Lex.left _ _ (count_unseen_lt h)
  · exact Prod.Lex.right _ (by simp)

end Graph

namespace Program

/-- The nodes that the outputs need, each after its operands. -/
def order (p : Program) : List Ref :=
  p.graph.walk (p.outputs.map .enter) (Array.replicate p.graph.size false)

def nodeCount (p : Program) : Nat := p.order.length

def compact (p : Program) : Program :=
  let ren := p.order.zipIdx.foldl (fun ren (r, i) => ren.set r i)
    (Renaming.identity p.graph.size)
  { graph := ⟨(p.order.filterMap p.graph.get?).toArray.map (·.map ren.apply)⟩
    outputs := p.outputs.map ren.apply }

end Program
end VertexFetch
