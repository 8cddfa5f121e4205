import VertexFetch.Draft

namespace VertexFetch.Fetch

open Build

/-- The byte of a stream at which each lane's attribute begins, and what tells
the lanes that may be read. -/
structure Window (μ : Type) where
  stream : UInt8
  offsets : Ref
  mask : μ

def steps (rate : Rate) (indices : Ref) : Build (Ref × Ref) :=
  match rate with
  | .perVertex => do
      let current ← add indices (← argument .baseVertex)
      return (current, ← argument .startVertex)
  | .perInstance step => do
      let current ←
        if step = 0 then word 0
        else do
          let id ← argument .instanceId
          value (.binary .divUnsigned id (← word step))
      return (current, ← argument .startInstance)

/-- The lanes of an attribute `current` vertices after `start`. The bounds of
the stream are counted from the start vertex; the vertex at the bound is read if
the bytes left after the whole vertices reach. A pitch of zero, or an attribute
that reaches past the pitch, passes this test, so the bytes are held against the
size as well. -/
def steppedWindow (a : Attribute) (current start : Ref) :
    Build (Window Ref) := do
  let stream := a.stream.toUInt8
  let field f := value (.stream stream f)
  let bytes := UInt32.ofNat a.format.bytes
  let pitch ← field .pitch
  let offset ← word a.offset
  let wholeVertices ← field .maxVertex
  let pastEnd ← lt wholeVertices start
  let bound ← value (.select pastEnd (← word 0) (← sub wholeVertices start))
  let rest ← value (.select pastEnd (← word 0) (← field .partialSize))
  let lastByte ← word (bytes - 1)
  let restReaches ← value (.binary .ltSigned lastByte (← sub rest offset))
  let atBound ← equal current bound
  let belowBound ← lt current bound
  let vertexMask ← value (.select atBound restReaches belowBound)
  let base ← mul start pitch
  let offsets ← add base (← add (← mul current pitch) offset)
  let stop ← add offsets (← word bytes)
  let noWrap ← both (← le offset offsets) (← le offsets stop)
  let inBuffer ← both noWrap (← le stop (← field .size))
  return { stream, offsets, mask := ← both vertexMask inBuffer }

/-- The lanes of an attribute at the indexed vertices. Where reads are checked,
the vertex must lie in the stream, and the bytes of the attribute must end in
it; elsewhere there is no mask. -/
def indexedWindow (a : Attribute) (indices : Ref) (checked : Bool) :
    Build (Window (Option Ref)) := do
  let stream := a.stream.toUInt8
  let field f := value (.stream stream f)
  let pitch ← field .pitch
  let vertex ← add indices (← argument .startVertex)
  let vertexBase ← mul vertex pitch
  let offsets ← add vertexBase (← word a.offset)
  if checked then
    let wholeVertices ← field .maxVertex
    let inRange ← both (← le indices vertex) (← le vertex wholeVertices)
    let size ← field .size
    let stop ← add offsets (← word (UInt32.ofNat a.format.bytes))
    let noWrap ← both (← le vertexBase offsets) (← le offsets stop)
    let inBuffer ← both noWrap (← le stop size)
    return { stream, offsets, mask := some (← both inRange inBuffer) }
  else return { stream, offsets, mask := none }

end VertexFetch.Fetch
