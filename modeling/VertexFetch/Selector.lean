import VertexFetch.Lanes

namespace VertexFetch.Selector

/-- Collects byte `swizzle[k]` of each of a block's four words into word `k`. -/
def groupBytes (swizzle : Vector UInt8 4) : ByteSelector :=
  Vector.ofFn fun i =>
    (swizzle.get ⟨i.val / 4, by have := i.isLt; omega⟩ + UInt8.ofNat
      (4 * (i.val % 4))).toInt8

/-- Collects the low halves of a block's four words into its first two words,
and the high halves into the others. -/
def groupHalves : ByteSelector :=
  #v[0, 1, 4, 5, 8, 9, 12, 13, 2, 3, 6, 7, 10, 11, 14, 15]

def zeroExtend (channel : UInt8) (bits : Nat) : ByteSelector :=
  let bytes := bits / 8
  Vector.ofFn fun i =>
    if i.val % 4 < bytes then
      Int8.ofNat (i.val - i.val % 4 + channel.toNat * bytes + i.val % 4)
    else -1

def pickBytes (channel : UInt8) : LaneSelector :=
  #v[channel, channel + 4, 0, 0, 0, 0, 0, 0]

def pickHalves (channel : UInt8) : LaneSelector :=
  let first := 2 * (channel % 2)
  #v[first, first + 1, first + 4, first + 5, 0, 0, 0, 0]

def insertBlock (block : Nat) : LaneSelector :=
  Vector.ofFn fun i =>
    UInt8.ofNat (if i.val / 4 = block then 8 + i.val % 4 else i.val)

/-- Takes one half of each block of two vectors, word by word in turn. -/
def interleave (half : Nat) : LaneSelector :=
  Vector.ofFn fun i =>
    let word := i.val - i.val % 4 + 2 * half + i.val % 4 / 2
    UInt8.ofNat (if i.val % 2 = 0 then word else 8 + word)

def joinHalves (half : Nat) : LaneSelector :=
  Vector.ofFn fun i =>
    let word := i.val - i.val % 4 + 2 * half + i.val % 2
    UInt8.ofNat (if i.val % 4 < 2 then word else 8 + word)

def swizzled (swizzle : Vector UInt8 4) : LaneSelector :=
  Vector.ofFn fun i =>
    if h : i.val < 4 then swizzle.get ⟨i.val, h⟩ else UInt8.ofNat i.val

end VertexFetch.Selector
