import VertexFetch.Channel
import VertexFetch.Event
import VertexFetch.Graph

/-! A program in the making. Building a value always succeeds and only adds
nodes; what cannot be built is told apart before. -/

namespace VertexFetch

structure Draft where
  graph : Graph := {}
  stores : Array Ref := #[]
  events : Array Event := #[]

def Draft.program (d : Draft) : Program := ⟨d.graph, d.stores.toList⟩

abbrev Build := StateM Draft

abbrev Emit := ExceptT Unsupported Build

namespace Build

/-- Adds a node for an operation, also when there is an equal one. -/
def value (op : Op Ref) : Build Ref :=
  modifyGet fun ⟨graph, stores, events⟩ =>
    let (r, graph) := graph.push (.value op)
    (r, ⟨graph, stores, events⟩)

def store (target : Target) (source : Ref) : Build Unit :=
  modify fun ⟨graph, stores, events⟩ =>
    let (r, graph) := graph.push (.store target source)
    ⟨graph, stores.push r, events⟩

def report (event : Event) : Build Unit :=
  modify fun ⟨graph, stores, events⟩ => ⟨graph, stores, events.push event⟩

def word (w : UInt32) : Build Ref := value (.word w)

def argument (a : Argument) : Build Ref := value (.argument a)

def add (a b : Ref) : Build Ref := value (.binary .add a b)

def sub (a b : Ref) : Build Ref := value (.binary .sub a b)

def mul (a b : Ref) : Build Ref := value (.binary .mul a b)

def both (a b : Ref) : Build Ref := value (.binary .and a b)

def equal (a b : Ref) : Build Ref := value (.binary .eq a b)

def lt (a b : Ref) : Build Ref := value (.binary .ltUnsigned a b)

def le (a b : Ref) : Build Ref := value (.binary .leUnsigned a b)

end Build

def Conversion.build (c : Conversion) (v : Ref) : Build Ref :=
  match c with
  | .keep => return v
  | .round f => Build.value (.round f v)
  | .scale f factor => do
      let rounded ← Build.value (.round f v)
      let literal ← Build.value (.single factor)
      Build.value (.binary .mulSingle rounded literal)

def Isolation.build (i : Isolation) (v : Ref) : Build Ref :=
  match i with
  | .whole => return v
  | .cleared bytes => Build.value (.shuffleBytes v bytes)
  | .widened bytes lanes widening => do
      let grouped ← Build.value (.shuffleBytes v bytes)
      let picked ← Build.value (.permute grouped lanes)
      Build.value (.widen widening picked)

end VertexFetch
