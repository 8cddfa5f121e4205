import VertexFetch.Draft

namespace VertexFetch.Fetch

open Build

/-- The row that is being filled and the components it has so far. A component
without a value takes its place and is not stored. -/
structure OpenRow where
  row : Nat := 0
  components : List (Option Ref) := []

namespace OpenRow

def placed (o : OpenRow) : List (Target × Ref) :=
  o.components.zipIdx.filterMap fun (value?, component) =>
    value?.map fun v => (.row (UInt8.ofNat o.row) (UInt8.ofNat component), v)

def write (o : OpenRow) : Emit OpenRow :=
  if maxAttributes ≤ o.row then throw .rows
  else do
    o.placed.forM fun (target, v) => store target v
    report (.packed o.components.length o.row)
    return { row := o.row + 1 }

def add (o : OpenRow) (value? : Option Ref) : Emit OpenRow :=
  let o := { o with components := o.components ++ [value?] }
  if o.components.length = 4 then o.write else return o

def close (o : OpenRow) : Emit Unit :=
  if o.components.isEmpty then return () else discard o.write

end OpenRow

structure Quad where
  x : Ref
  y : Ref
  z : Ref
  w : Ref

def Quad.toList (q : Quad) : List Ref := [q.x, q.y, q.z, q.w]

/-- Turns eight vectors of four words, those of the low and of the high lanes,
into four vectors of eight. First the high go beside the low; then the words
within each block of four change places, within halves and by halves. -/
def transpose (low high : Quad) : Build Quad := do
  let shuffle (a b : Ref) (s : LaneSelector) := value (.shuffle a b s)
  let m0 ← shuffle low.x high.x (Selector.insertBlock 1)
  let m1 ← shuffle low.y high.y (Selector.insertBlock 1)
  let m2 ← shuffle low.z high.z (Selector.insertBlock 1)
  let m3 ← shuffle low.w high.w (Selector.insertBlock 1)
  let t0 ← shuffle m0 m1 (Selector.interleave 0)
  let t1 ← shuffle m0 m1 (Selector.interleave 1)
  let t2 ← shuffle m2 m3 (Selector.interleave 0)
  let t3 ← shuffle m2 m3 (Selector.interleave 1)
  return {
    x := ← shuffle t0 t2 (Selector.joinHalves 0)
    y := ← shuffle t0 t2 (Selector.joinHalves 1)
    z := ← shuffle t1 t3 (Selector.joinHalves 0)
    w := ← shuffle t1 t3 (Selector.joinHalves 1) }

end VertexFetch.Fetch
