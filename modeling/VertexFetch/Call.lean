import VertexFetch.Lanes

namespace VertexFetch

/-- Bytes bound for reading vertices, `pitch` bytes apart. The bounds need not
agree with the data. -/
structure Stream where
  data : Array UInt8
  pitch : UInt32
  /-- The bytes that may be read. -/
  size : UInt32
  /-- The number of whole vertices. -/
  maxVertex : UInt32
  /-- The bytes left after the whole vertices. -/
  partialSize : UInt32
  deriving DecidableEq

inductive Stream.Field where
  | pitch
  | size
  | maxVertex
  | partialSize
  deriving DecidableEq, Hashable, Repr

namespace Stream

/-- The stream of some bytes, with the bounds they give. With pitch 0 every
vertex is the same one, so that their number has no bound. -/
def ofData (data : Array UInt8) (pitch : UInt32) : Stream :=
  let size := UInt32.ofNat (min data.size 0xffffffff)
  if pitch = 0 then
    { data, pitch, size
      maxVertex := if size = 0 then 0 else 0xffffffff
      partialSize := size }
  else
    { data, pitch, size
      maxVertex := size / pitch
      partialSize := size % pitch }

def field (s : Stream) : Field → UInt32
  | .pitch => s.pitch
  | .size => s.size
  | .maxVertex => s.maxVertex
  | .partialSize => s.partialSize

def Field.name : Field → String
  | .pitch => "Pitch"
  | .size => "Size"
  | .maxVertex => "MaxVertex"
  | .partialSize => "PartialSize"

end Stream

structure Call where
  streams : Array Stream := #[]
  indices : Array UInt8 := #[]
  /-- The bytes of the indices that may be read. -/
  lastIndex : Nat := 0
  startVertex : UInt32 := 0
  baseVertex : Int32 := 0
  startInstance : UInt32 := 0
  instanceId : UInt32 := 0

inductive Argument where
  | startVertex
  | baseVertex
  | startInstance
  | instanceId
  | lastIndex
  deriving DecidableEq, Hashable, Repr

def Argument.name : Argument → String
  | .startVertex => "StartVertex"
  | .baseVertex => "BaseVertex"
  | .startInstance => "StartInstance"
  | .instanceId => "CurInstance"
  | .lastIndex => "LastIndex"

/-- The word of an argument. The number of index bytes is read as a signed word,
so it stops at the largest. -/
def Call.argument (c : Call) : Argument → UInt32
  | .startVertex => c.startVertex
  | .baseVertex => c.baseVertex.toUInt32
  | .startInstance => c.startInstance
  | .instanceId => c.instanceId
  | .lastIndex => UInt32.ofNat (min c.lastIndex 0x7fffffff)

/-- Where a store puts its value: a component of an output row, or one of the
vectors that every fetch delivers. -/
inductive Target where
  | row (element component : UInt8)
  | vertexId
  | cutMask
  deriving DecidableEq, Hashable, Repr

structure Batch where
  rows : Vector (Vector Lanes 4) 32
  vertexId : Lanes := Lanes.zero
  cutMask : Lanes := Lanes.zero
  deriving DecidableEq

namespace Batch

def filled (w : UInt32) : Batch where
  rows := Vector.replicate 32 (Vector.replicate 4 (Lanes.splat w))

def store? (b : Batch) (target : Target) (v : Lanes) : Option Batch :=
  match target with
  | .vertexId => some { b with vertexId := v }
  | .cutMask => some { b with cutMask := v }
  | .row element component =>
      if h : element.toNat < 32 ∧ component.toNat < 4 then
        some { b with
          rows := b.rows.set element.toNat
            (b.rows[element.toNat].set component.toNat v) }
      else none

end Batch
end VertexFetch
