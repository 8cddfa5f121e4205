import VertexFetch.Op

/-! Value graphs: nodes in the order they were made, each naming earlier ones as
operands. A node is known by its position, so that two nodes with the same
operation stay apart. -/

namespace VertexFetch

abbrev Ref := Nat

inductive Node where
  | value (op : Op Ref)
  | store (target : Target) (source : Ref)
  deriving DecidableEq, Hashable, Repr

namespace Node

def map (f : Ref → Ref) : Node → Node
  | .value op => .value (op.map f)
  | .store target source => .store target (f source)

def operands : Node → List Ref
  | .value op => op.operands
  | .store _ source => [source]

@[simp]
theorem operands_map (f : Ref → Ref) (n : Node) :
    (n.map f).operands = n.operands.map f := by
  cases n with
  | value op => exact op.operands_map f
  | store target source => rfl

def op? : Node → Option (Op Ref)
  | .value op => some op
  | .store _ _ => none

def target? : Node → Option Target
  | .value _ => none
  | .store target _ => some target

end Node

structure Graph where
  nodes : Array Node := #[]
  deriving DecidableEq

namespace Graph

def size (g : Graph) : Nat := g.nodes.size

def get? (g : Graph) (r : Ref) : Option Node := g.nodes[r]?

def op? (g : Graph) (r : Ref) : Option (Op Ref) := (g.get? r).bind Node.op?

def target? (g : Graph) (r : Ref) : Option Target :=
  (g.get? r).bind Node.target?

def operands (g : Graph) (r : Ref) : List Ref :=
  ((g.get? r).map Node.operands).getD []

def literal? (g : Graph) (r : Ref) : Option UInt32 := (g.op? r).bind Op.literal?

def push (g : Graph) (n : Node) : Ref × Graph := (g.size, ⟨g.nodes.push n⟩)

theorem get?_push (g : Graph) (n : Node) (r : Ref) :
    (g.push n).2.get? r = if r = g.size then some n else g.get? r :=
  Array.getElem?_push

/-- Every operand comes before the node that names it. -/
def Ordered (g : Graph) : Prop :=
  ∀ r n, g.get? r = some n → ∀ a ∈ n.operands, a < r

end Graph

/-- A graph and the nodes it is made for, in the order of their effects. -/
structure Program where
  graph : Graph
  outputs : List Ref
  deriving DecidableEq

/-- Where each node has gone. A node that is not recorded has stayed. -/
structure Renaming where
  images : Array Ref

namespace Renaming

def identity (size : Nat) : Renaming := ⟨Array.range size⟩

def apply (ren : Renaming) (r : Ref) : Ref := ren.images[r]?.getD r

def set (ren : Renaming) (r image : Ref) : Renaming :=
  ⟨ren.images.setIfInBounds r image⟩

theorem apply_set (ren : Renaming) {r : Ref} (inside : r < ren.images.size)
    (image other : Ref) :
    (ren.set r image).apply other =
      if other = r then image else ren.apply other := by
  unfold apply set
  by_cases same : other = r
  · subst same
    simp [inside]
  · simp [same, Array.getElem?_setIfInBounds_ne (Ne.symm same)]

end Renaming
end VertexFetch
