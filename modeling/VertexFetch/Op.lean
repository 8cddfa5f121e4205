import VertexFetch.Call
import VertexFetch.IndexWidth

/-! Operations on lanes, over whatever names their operands: registers in code,
nodes in a value graph. -/

namespace VertexFetch

/-- The operations that work lane by lane on two words. Tests give lane
masks. -/
inductive Binary where
  | add
  | sub
  | mul
  | divSigned
  | divUnsigned
  | and
  | mulSingle
  | eq
  | ltSigned
  | gtSigned
  | ltUnsigned
  | leUnsigned
  deriving DecidableEq, Hashable, Repr

namespace Binary

def apply : Binary → UInt32 → UInt32 → UInt32
  | .add, a, b => a + b
  | .sub, a, b => a - b
  | .mul, a, b => a * b
  | .divSigned, a, b => Word.divSigned a b
  | .divUnsigned, a, b => a / b
  | .and, a, b => a &&& b
  | .mulSingle, a, b => Single.mul a b
  | .eq, a, b => Word.ofBool (a = b)
  | .ltSigned, a, b => Word.ofBool (Word.ltSigned a b)
  | .gtSigned, a, b => Word.ofBool (Word.ltSigned b a)
  | .ltUnsigned, a, b => Word.ofBool (a < b)
  | .leUnsigned, a, b => Word.ofBool (a ≤ b)

def commutes : Binary → Bool
  | .add | .mul | .and | .mulSingle | .eq => true
  | .sub | .divSigned | .divUnsigned | .ltSigned | .gtSigned | .ltUnsigned
  | .leUnsigned => false

def isTest : Binary → Bool
  | .eq | .ltSigned | .gtSigned | .ltUnsigned | .leUnsigned => true
  | .add | .sub | .mul | .divSigned | .divUnsigned | .and | .mulSingle => false

end Binary

/-- The single nearest to a signed or to an unsigned word. -/
inductive Rounding where
  | signed
  | unsigned
  deriving DecidableEq, Hashable, Repr

def Rounding.apply : Rounding → UInt32 → UInt32
  | .signed, w => Single.ofInt w.toInt32.toInt
  | .unsigned, w => Single.ofInt w.toNat

structure ChannelLoad where
  bits : UInt8
  channels : UInt8
  signed : Bool
  deriving DecidableEq, Hashable, Repr

namespace ChannelLoad

def channelBytes (l : ChannelLoad) : Nat := l.bits.toNat / 8

def bytes (l : ChannelLoad) : Nat := l.channelBytes * l.channels.toNat

def extend (l : ChannelLoad) (raw : UInt32) : UInt32 :=
  if l.signed ∧ l.bits = 8 then Word.signExtend8 (Word.byte raw 0)
  else if l.signed ∧ l.bits = 16 then Word.signExtend16 (Word.half raw 0)
  else raw

end ChannelLoad

inductive Op (ρ : Type) where
  | argument (a : Argument)
  | stream (s : UInt8) (f : Stream.Field)
  | laneNumbers
  | single (bits : UInt32)
  | word (w : UInt32)
  | binary (f : Binary) (a b : ρ)
  | round (f : Rounding) (a : ρ)
  | select (c t f : ρ)
  /-- One lane of `a` in every lane. -/
  | extract (lane : UInt8) (a : ρ)
  /-- `a` with one lane from lane 0 of `s`. -/
  | insert (lane : UInt8) (a s : ρ)
  | shuffle (a b : ρ) (s : LaneSelector)
  | permute (a : ρ) (s : LaneSelector)
  | shuffleBytes (a : ρ) (s : ByteSelector)
  | widen (k : Widening) (a : ρ)
  /-- Eight consecutive indices. -/
  | indices (w : IndexWidth)
  /-- Those of eight consecutive indices whose lane of `mask` is not zero. -/
  | indicesMasked (w : IndexWidth) (mask : ρ)
  /-- The index at byte `offset` in every lane, if `valid`. -/
  | index (w : IndexWidth) (offset valid : ρ)
  /-- The channels at byte `offset` of a stream, one a lane, if `valid`. -/
  | load (s : UInt8) (l : ChannelLoad) (offset valid : ρ)
  /-- For each lane whose `mask` is not zero, the word of `bytes` bytes at its
  offset. -/
  | gather (s : UInt8) (bytes : UInt8) (offsets mask : ρ)
  deriving DecidableEq, Hashable, Repr

namespace Op

def map {ρ τ : Type} (f : ρ → τ) : Op ρ → Op τ
  | .argument a => .argument a
  | .stream s field => .stream s field
  | .laneNumbers => .laneNumbers
  | .single bits => .single bits
  | .word w => .word w
  | .binary g a b => .binary g (f a) (f b)
  | .round g a => .round g (f a)
  | .select c x y => .select (f c) (f x) (f y)
  | .extract lane a => .extract lane (f a)
  | .insert lane a s => .insert lane (f a) (f s)
  | .shuffle a b s => .shuffle (f a) (f b) s
  | .permute a s => .permute (f a) s
  | .shuffleBytes a s => .shuffleBytes (f a) s
  | .widen k a => .widen k (f a)
  | .indices w => .indices w
  | .indicesMasked w mask => .indicesMasked w (f mask)
  | .index w offset valid => .index w (f offset) (f valid)
  | .load s l offset valid => .load s l (f offset) (f valid)
  | .gather s bytes offsets mask => .gather s bytes (f offsets) (f mask)

def operands {ρ : Type} : Op ρ → List ρ
  | .argument _ | .stream _ _ | .laneNumbers | .single _ | .word _
  | .indices _ => []
  | .round _ a | .extract _ a | .permute a _ | .shuffleBytes a _ | .widen _ a
  | .indicesMasked _ a => [a]
  | .binary _ a b | .insert _ a b | .shuffle a b _ | .index _ a b
  | .load _ _ a b | .gather _ _ a b => [a, b]
  | .select c t f => [c, t, f]

theorem map_map {ρ τ υ : Type} (f : ρ → τ) (g : τ → υ) (op : Op ρ) :
    (op.map f).map g = op.map (g ∘ f) := by
  cases op <;> rfl

@[simp]
theorem operands_map {ρ τ : Type} (f : ρ → τ) (op : Op ρ) :
    (op.map f).operands = op.operands.map f := by
  cases op <;> rfl

theorem map_congr {ρ τ : Type} {f g : ρ → τ} {op : Op ρ}
    (agree : ∀ a ∈ op.operands, f a = g a) : op.map f = op.map g := by
  cases op <;> simp_all [map, operands]

def literal? {ρ : Type} : Op ρ → Option UInt32
  | .single bits => some bits
  | .word w => some w
  | _ => none

end Op
end VertexFetch
