import VertexFetch.Graph
import VertexFetch.Op.Eval

namespace VertexFetch

namespace Graph

/-- The value of a node, from those of its operands. Only earlier nodes are
operands, and a store has no value. -/
def value (g : Graph) (call : Call) (r : Ref) : Except Fault Lanes :=
  match g.op? r with
  | none => .error .outOfBounds
  | some op => op.eval call fun a =>
      if a < r then g.value call a else .error .outOfBounds
termination_by r

def effect (g : Graph) (call : Call) (r : Ref) (batch : Batch) :
    Except Fault Batch :=
  match g.get? r with
  | some (.store target source) => do
      let v ← g.value call source
      match batch.store? target v with
      | some batch => .ok batch
      | none => .error .outOfBounds
  | _ => .ok batch

end Graph
end VertexFetch
