import VertexFetch.Single
import VertexFetch.Word

namespace VertexFetch

instance hashableVector {α : Type} {n : Nat} [Hashable α] :
    Hashable (Vector α n) where
  hash v := hash v.toArray

abbrev Lanes := Vector UInt32 8

abbrev LaneSelector := Vector UInt8 8

/-- For each byte of a block of 16, which byte of the block it comes from; a
negative entry gives zero. -/
abbrev ByteSelector := Vector Int8 16

/-- Reading narrow channels from the low bytes of a vector, one a lane. -/
inductive Widening where
  | sign8
  | sign16
  | half
  deriving DecidableEq, Hashable, Repr

namespace Lanes

def splat (w : UInt32) : Lanes := Vector.replicate 8 w

def zero : Lanes := splat 0

/-- The word in lane 0, which stands for a scalar. -/
def first (v : Lanes) : UInt32 := v.get 0

def numbers : Lanes := Vector.ofFn fun i => UInt32.ofNat i.val

/-- The lanes of `f`, or the error of the first lane that has one. -/
def ofFnM {ε : Type} (f : Fin 8 → Except ε UInt32) : Except ε Lanes := do
  return #v[← f 0, ← f 1, ← f 2, ← f 3, ← f 4, ← f 5, ← f 6, ← f 7]

def byte (v : Lanes) (j : Fin 32) : UInt8 :=
  Word.byte (v.get ⟨j.val / 4, by have := j.isLt; omega⟩) (j.val % 4)

def half (v : Lanes) (j : Fin 16) : UInt16 :=
  Word.half (v.get ⟨j.val / 2, by have := j.isLt; omega⟩) (j.val % 2)

def toBytes (v : Lanes) : Vector UInt8 32 := Vector.ofFn v.byte

def ofByteFn (f : Fin 32 → UInt8) : Lanes :=
  Vector.ofFn fun i =>
    have := i.isLt
    UInt32.ofNat (Word.littleEndian [
      f ⟨4 * i.val, by omega⟩, f ⟨4 * i.val + 1, by omega⟩,
      f ⟨4 * i.val + 2, by omega⟩, f ⟨4 * i.val + 3, by omega⟩])

def ofBytes (b : Vector UInt8 32) : Lanes := ofByteFn b.get

def shuffle (a b : Lanes) (s : LaneSelector) : Lanes :=
  s.map fun m => (a ++ b)[m.toNat]?.getD 0

def permute (a : Lanes) (s : LaneSelector) : Lanes :=
  s.map fun m => a[m.toNat]?.getD 0

/-- Each block of 16 bytes rearranged by `s`; only the low four bits of an entry
count. -/
def shuffleBytes (a : Lanes) (s : ByteSelector) : Lanes :=
  ofByteFn fun j =>
    let m := s.get ⟨j.val % 16, Nat.mod_lt _ (by decide)⟩
    if m < 0 then 0
    else a.byte
      ⟨16 * (j.val / 16) + m.toInt.toNat % 16, by have := j.isLt; omega⟩

def widen (a : Lanes) : Widening → Lanes
  | .sign8 => Vector.ofFn fun i =>
      Word.signExtend8 (a.byte ⟨i.val, by have := i.isLt; omega⟩)
  | .sign16 => Vector.ofFn fun i =>
      Word.signExtend16 (a.half ⟨i.val, by have := i.isLt; omega⟩)
  | .half => Vector.ofFn fun i =>
      Single.ofHalf (a.half ⟨i.val, by have := i.isLt; omega⟩)

end Lanes
end VertexFetch
