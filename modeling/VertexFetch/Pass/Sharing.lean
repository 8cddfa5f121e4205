import Std.Data.HashMap
import VertexFetch.Graph.Sweep

namespace VertexFetch

/-- The node with exchangeable operands in a fixed order. -/
def Node.canonical : Node → Node
  | .value (.binary f a b) =>
      .value (if f.commutes then .binary f (min a b) (max a b)
        else .binary f a b)
  | n => n

namespace Graph

/-- The first node with the same canonical form, which `known` holds, or the
node itself. -/
def sharingRule (g : Graph) (known : Std.HashMap Node Ref) (r : Ref) :
    Replacement × Std.HashMap Node Ref :=
  match g.get? r with
  | none => (.keep, known)
  | some n =>
      match known[n.canonical]? with
      | some first => (.reuse first, known)
      | none => (.keep, known.insert n.canonical r)

end Graph

def Program.share (p : Program) : Program := p.sweepWith Graph.sharingRule ∅

end VertexFetch
