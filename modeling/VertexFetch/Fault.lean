import VertexFetch.Word

namespace VertexFetch

inductive Fault where
  /-- Code names a register, lane, row or selector entry that does not exist, or
  reads more bytes than a word has. -/
  | outOfBounds
  | unboundStream (stream : UInt8) (bound : Nat)
  | readOutside (length offset size : Nat)
  deriving DecidableEq, Repr

namespace Fault

/-- The text of a fault of the call. Faults of the code have none. -/
def message? : Fault → Option String
  | .outOfBounds => none
  | .unboundStream stream bound =>
      some s!"vertex stream {stream} is not bound ({bound} streams provided)"
  | .readOutside length offset size =>
      some s!"fetch read of {length} bytes at offset {offset} is outside of a {size} byte buffer"

end Fault

/-- The word of `length` bytes at `offset`, least significant first. The bytes
must lie in the data, and then fit a word. -/
def readWord (data : Array UInt8) (offset length : Nat) : Except Fault UInt32 :=
  if data.size < offset + length then
    .error (.readOutside length offset data.size)
  else if 4 < length then .error .outOfBounds
  else .ok (UInt32.ofNat
    (Word.littleEndian (data.extract offset (offset + length)).toList))

end VertexFetch
