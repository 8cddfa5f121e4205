import VertexFetch.Layout
import VertexFetch.Pass

namespace VertexFetch

inductive Event where
  | started (layout : Layout)
  | attribute (slot : Nat) (a : Attribute)
  | packed (components row : Nat)
  | passed (pass : Pass) (nodes : Nat)
  | optimized (before after : Nat)
  | finished (instrs registers : Nat)

namespace Event

def isMilestone : Event → Bool
  | .started _ | .optimized _ _ | .finished _ _ => true
  | .attribute _ _ | .packed _ _ | .passed _ _ => false

def text : Event → String
  | .started layout =>
      s!"compiling fetch: {layout.strategy.name}, {layout.attributes.length} elements, " ++
        s!"{layout.width.name} indices, oob checks {layout.checked}"
  | .attribute slot a =>
      s!"element {slot}: {a.format.name} at stream {a.stream} + {a.offset}"
  | .packed components row =>
      s!"flushed {components} components into output element {row}"
  | .passed pass nodes => s!"{pass.name}: {nodes} nodes"
  | .optimized before after => s!"optimized {before} nodes into {after}"
  | .finished instrs registers =>
      s!"fetch function: {instrs} opcodes, {registers} registers"

end Event
end VertexFetch
