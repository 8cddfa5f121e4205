import VertexFetch.Graph.Order

namespace VertexFetch

/-- What a rule puts in a node's place: the node itself, a node that exists, or
a new one. -/
inductive Replacement where
  | keep
  | reuse (r : Ref)
  | create (op : Op Ref)
  deriving DecidableEq, Repr

namespace Graph

/-- A node with its operands renamed: the node itself if none of them moved,
else a new one. -/
def rename (g : Graph) (ren : Renaming) (r : Ref) : Ref × Graph :=
  match g.get? r with
  | none => (r, g)
  | some n =>
      let renamed := n.map ren.apply
      if renamed = n then (r, g) else g.push renamed

def replace (g : Graph) (r : Ref) : Replacement → Ref × Graph
  | .keep => (r, g)
  | .reuse other => (other, g)
  | .create op => g.push (.value op)

end Graph

structure Sweep (σ : Type) where
  graph : Graph
  moved : Renaming
  memory : σ

namespace Sweep

variable {σ : Type}

def step (rule : Graph → σ → Ref → Replacement × σ) : Sweep σ → Ref → Sweep σ
  | ⟨graph, moved, memory⟩, r =>
      let (renamed, graph) := graph.rename moved r
      let (replacement, memory) := rule graph memory renamed
      let (image, graph) := graph.replace renamed replacement
      ⟨graph, moved.set r image, memory⟩

end Sweep

namespace Program

variable {σ : Type}

def swept (p : Program) (rule : Graph → σ → Ref → Replacement × σ)
    (memory : σ) : Sweep σ :=
  p.order.foldl (Sweep.step rule)
    ⟨p.graph, Renaming.identity p.graph.size, memory⟩

def sweepWith (p : Program) (rule : Graph → σ → Ref → Replacement × σ)
    (memory : σ) : Program :=
  let done := p.swept rule memory
  { graph := done.graph
    outputs := p.outputs.map done.moved.apply }

def sweep (p : Program) (rule : Graph → Ref → Replacement) : Program :=
  p.sweepWith (fun g (_ : Unit) r => (rule g r, ())) ()

end Program
end VertexFetch
