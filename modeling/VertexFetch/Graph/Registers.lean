import VertexFetch.Code
import VertexFetch.Graph.Order

namespace VertexFetch

structure Allocation where
  /-- For each register, whether it holds a value that is still needed. -/
  busy : Array Bool
  home : Array Nat
  /-- For each node, the uses that are still to come. -/
  pending : Array Nat

namespace Allocation

/-- The register of a node's value. A store has none, and is no operand. -/
def register (a : Allocation) (r : Ref) : Nat := a.home[r]?.getD 0

def assign : Allocation → Ref → Nat × Allocation
  | ⟨busy, home, pending⟩, r =>
      let free := (busy.findIdx? (! ·)).getD busy.size
      let busy := if free < busy.size then busy.setIfInBounds free true
        else busy.push true
      (free, ⟨busy, home.setIfInBounds r free, pending⟩)

/-- One use of a node is done; after its last its register is free. -/
def release : Allocation → Ref → Allocation
  | ⟨busy, home, pending⟩, r =>
      let pending := pending.modify r (· - 1)
      if pending[r]? = some 0 then
        ⟨busy.setIfInBounds (home[r]?.getD 0) false, home, pending⟩
      else ⟨busy, home, pending⟩

end Allocation

def countUses (size : Nat) (refs : List Ref) : Array Nat :=
  refs.foldl (fun uses r => uses.modify r (· + 1)) (Array.replicate size 0)

namespace Graph

/-- The instruction for a node, and the registers after it. The result's
register is taken before those of the operands are given up. -/
def place (g : Graph) (a : Allocation) (r : Ref) : Option Instr × Allocation :=
  match g.get? r with
  | none => (none, a)
  | some (.value op) =>
      let (out, a) := a.assign r
      (some (.compute out (op.map a.register)),
        op.operands.foldl Allocation.release a)
  | some (.store target source) =>
      (some (.store target (a.register source)), a.release source)

def placeAll (g : Graph) : List Ref → Allocation → List Instr × Allocation
  | [], a => ([], a)
  | r :: rest, a =>
      let (instr, a) := g.place a r
      let (instrs, a) := g.placeAll rest a
      (instr.toList ++ instrs, a)

end Graph

namespace Program

/-- The registers before the first node. Each output counts as one more use. -/
def allocation (p : Program) : Allocation where
  busy := #[]
  home := Array.replicate p.graph.size 0
  pending := countUses p.graph.size
    (p.outputs ++ p.order.flatMap p.graph.operands)

def lower (p : Program) : Code :=
  let (instrs, a) := p.graph.placeAll p.order p.allocation
  { instrs, registers := a.busy.size }

end Program
end VertexFetch
