import VertexFetch.Kernel

namespace VertexFetch

structure Draw where
  streams : Array Stream := #[]
  indices : Array UInt8 := #[]
  startVertex : UInt32 := 0
  baseVertex : Int32 := 0
  startInstance : UInt32 := 0
  instanceId : UInt32 := 0

namespace Draw

/-- The number of batches whose indices take `bytes` bytes each. The last may be
short. -/
def batchCount (d : Draw) (bytes : Nat) : Nat :=
  (d.indices.size + bytes - 1) / bytes

def call (d : Draw) (start : Nat) : Call :=
  let indices := d.indices.extract start d.indices.size
  { streams := d.streams
    indices
    lastIndex := indices.size
    startVertex := d.startVertex
    baseVertex := d.baseVertex
    startInstance := d.startInstance
    instanceId := d.instanceId }

end Draw

/-- The batches of a draw, each fetched into a cleared one, or the first
fault. -/
def Kernel.draw (k : Kernel) (d : Draw) : Except Fault (List Batch) :=
  let bytes := 8 * k.width.bytes
  (List.range (d.batchCount bytes)).mapM fun n =>
    match k.fetch (d.call (n * bytes)) (Batch.filled 0) with
    | (batch, none) => .ok batch
    | (_, some fault) => .error fault

end VertexFetch
