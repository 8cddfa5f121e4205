import VertexFetch.Code.Text
import VertexFetch.Fetch.Attributes
import VertexFetch.Fetch.Indices
import VertexFetch.Graph.Registers
import VertexFetch.Machine

namespace VertexFetch

open Build

structure Kernel where
  strategy : Strategy
  width : IndexWidth
  code : Code
  deriving DecidableEq

namespace Layout

def emitAttributes (l : Layout) (indices : Ref) : Emit Unit :=
  match l.strategy with
  | .linear => l.attributes.zipIdx.forM fun (a, slot) => do
      report (.attribute slot a)
      Fetch.loadAttribute slot a indices l.checked
  | .gather => do
      let last ← l.attributes.zipIdx.foldlM (fun row (a, slot) => do
        report (.attribute slot a)
        Fetch.gatherAttribute row a indices) {}
      last.close

def emit (l : Layout) : Emit Unit := do
  report (.started l)
  let indices ← Fetch.indices l.width l.checked
  store .vertexId indices
  if let some cut := l.cut then
    store .cutMask (← equal indices (← word cut))
  l.emitAttributes indices

end Layout

namespace Program

def optimize (p : Program) : List Pass → Program × List Event
  | [] => (p, [])
  | pass :: rest =>
      let next := pass.run p
      let (done, events) := next.optimize rest
      (done, .passed pass next.nodeCount :: events)

end Program

namespace Layout

/-- The kernel of a layout, or why there is none, and what was reported up to
then. -/
def compileReporting (l : Layout) : Except Unsupported Kernel × List Event :=
  match l.emit.run {} with
  | (.error e, draft) => (.error e, draft.events.toList)
  | (.ok (), draft) =>
      let (program, events) := draft.program.optimize Pass.schedule
      let code := program.lower
      (.ok ⟨l.strategy, l.width, code⟩,
        draft.events.toList ++ events ++
          [.optimized draft.program.nodeCount program.nodeCount,
            .finished code.instrs.length code.registers])

def compile (l : Layout) : Except Unsupported Kernel := l.compileReporting.1

end Layout

namespace Kernel

/-- One fetch into a batch. A fault leaves what was stored before it. -/
def fetch (k : Kernel) (call : Call) (batch : Batch) : Batch × Option Fault :=
  let (machine, fault) := k.code.run call batch
  (machine.batch, fault)

def lines (k : Kernel) : List String :=
  s!"; {k.strategy.name} fetch, {k.width.name} indices, {k.code.registers} registers" ::
    k.code.lines

end Kernel
end VertexFetch
