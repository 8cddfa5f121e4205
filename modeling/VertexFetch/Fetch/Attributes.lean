import VertexFetch.Fetch.Rows
import VertexFetch.Fetch.Window

namespace VertexFetch.Fetch

open Build

/-- Gathers bytes `4 * group` and on of an attribute of `bytes` bytes, four or
as many as are left. -/
def gatherGroup (w : Window Ref) (bytes group : Nat) : Build Ref := do
  let offsets ← add w.offsets (← word (UInt32.ofNat (4 * group)))
  value (.gather w.stream
    (UInt8.ofNat (min (bytes - 4 * group) 4)) offsets w.mask)

def gatherComponent (w : Window Ref) (bytes : Nat) :
    Component → Build (Option Ref)
  | .skip => return none
  | .constant op => some <$> value op
  | .channel c => do
      let words ← gatherGroup w bytes c.group
      let channel ← c.isolation.build words
      some <$> c.conversion.build channel

def gatherComponents (a : Attribute) (components : List Component)
    (indices : Ref) : Build (List (Option Ref)) := do
  let (current, start) ← steps a.rate indices
  let w ← steppedWindow a current start
  components.mapM (gatherComponent w a.format.bytes)

def gatherAttribute (o : OpenRow) (a : Attribute) (indices : Ref) :
    Emit OpenRow := do
  let components ← a.components
  let values ← gatherComponents a components indices
  values.foldlM OpenRow.add o

def channelLoad (f : Format) : ChannelLoad where
  bits := UInt8.ofNat f.channelBits
  channels := UInt8.ofNat f.channels
  signed := f.kind.isSigned

def loadLane (a : Attribute) (w : Window (Option Ref)) (lane : UInt8) :
    Build Ref := do
  let offset ← value (.extract lane w.offsets)
  let valid ←
    match w.mask with
    | some mask => value (.extract lane mask)
    | none => word 0xffffffff
  let channels ← value (.load w.stream (channelLoad a.format) offset valid)
  if a.format.swizzle = Shape.inOrder then return channels
  else value (.permute channels (Selector.swizzled a.format.swizzle))

def loadQuad (a : Attribute) (w : Window (Option Ref)) (lane : UInt8) :
    Build Quad := do
  return {
    x := ← loadLane a w lane
    y := ← loadLane a w (lane + 1)
    z := ← loadLane a w (lane + 2)
    w := ← loadLane a w (lane + 3) }

def loadedComponent (f : Format) (conversion : Conversion) (row : Ref)
    (c : Nat) :
    Build Ref :=
  if c < f.channels then conversion.build row else value (Component.absent c)

def loadAttribute (slot : Nat) (a : Attribute) (indices : Ref)
    (checked : Bool) : Emit Unit := do
  let conversion ← Conversion.linear a.format.kind a.format.channelBits
  let w ← indexedWindow a indices checked
  let rows ← transpose (← loadQuad a w 0) (← loadQuad a w 4)
  rows.toList.zipIdx.forM fun (row, c) => (do
    let v ← loadedComponent a.format conversion row c
    store (.row (UInt8.ofNat slot) (UInt8.ofNat c)) v : Build _)

end VertexFetch.Fetch
