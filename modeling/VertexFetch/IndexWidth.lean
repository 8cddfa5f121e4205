namespace VertexFetch

inductive IndexWidth where
  | u8
  | u16
  | u32
  deriving DecidableEq, Hashable, Repr

namespace IndexWidth

def bytes : IndexWidth → Nat
  | .u8 => 1
  | .u16 => 2
  | .u32 => 4

def name : IndexWidth → String
  | .u8 => "U8"
  | .u16 => "U16"
  | .u32 => "U32"

end IndexWidth
end VertexFetch
