import VertexFetch.Draft

namespace VertexFetch.Fetch

open Build

def narrowIndices (width : IndexWidth) : Build Ref := do
  let last ← argument .lastIndex
  let start ← word 0
  (List.range 8).foldlM (fun vector lane => do
    let offset ← word (UInt32.ofNat (lane * width.bytes))
    let stop ← word (UInt32.ofNat ((lane + 1) * width.bytes))
    let valid ← le stop last
    let index ← value (.index width offset valid)
    value (.insert (UInt8.ofNat lane) vector index)) start

def wideIndices : Build Ref := do
  let last ← argument .lastIndex
  let count ← value (.binary .divSigned last (← word 4))
  let mask ← value (.binary .gtSigned count (← value .laneNumbers))
  value (.indicesMasked .u32 mask)

/-- The indices of the eight lanes. Where reads are checked, an index that does
not end by the last index byte is zero. -/
def indices (width : IndexWidth) (checked : Bool) : Build Ref :=
  if checked then
    match width with
    | .u8 | .u16 => narrowIndices width
    | .u32 => wideIndices
  else value (.indices width)

end VertexFetch.Fetch
