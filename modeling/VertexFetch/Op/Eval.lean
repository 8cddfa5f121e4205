import VertexFetch.Fault
import VertexFetch.Op

namespace VertexFetch

def Lanes.lane (v : Lanes) (n : UInt8) : Except Fault UInt32 :=
  if h : n.toNat < 8 then .ok v[n.toNat] else .error .outOfBounds

def Lanes.setLane (v : Lanes) (n : Nat) (w : UInt32) : Except Fault Lanes :=
  if h : n < 8 then .ok (v.set n w) else .error .outOfBounds

def LaneSelector.guard (s : LaneSelector) (n : Nat) (v : Lanes) :
    Except Fault Lanes :=
  if s.all fun m => m.toNat < n then .ok v else .error .outOfBounds

namespace Call

def stream (c : Call) (s : UInt8) : Except Fault Stream :=
  match c.streams[s.toNat]? with
  | some stream => .ok stream
  | none => .error (.unboundStream s c.streams.size)

def index (c : Call) (w : IndexWidth) (offset : Nat) : Except Fault UInt32 :=
  readWord c.indices offset w.bytes

end Call

def ChannelLoad.read (l : ChannelLoad) (data : Array UInt8) (offset : Nat) :
    Except Fault Lanes :=
  (List.range l.channels.toNat).foldlM (fun v k => do
    let raw ← readWord data (offset + k * l.channelBytes) l.channelBytes
    v.setLane k (l.extend raw)) Lanes.zero

/-- The value of an operation in a call, with `read` giving the values of its
operands. -/
def Op.eval {ρ : Type} (call : Call) (read : ρ → Except Fault Lanes) :
    Op ρ → Except Fault Lanes
  | .argument a => return .splat (call.argument a)
  | .stream s field => do
      let stream ← call.stream s
      return .splat (stream.field field)
  | .laneNumbers => return .numbers
  | .single bits => return .splat bits
  | .word w => return .splat w
  | .binary f a b => do
      let x ← read a
      let y ← read b
      return x.zipWith f.apply y
  | .round f a => do
      let x ← read a
      return x.map f.apply
  | .select c t f => do
      let x ← read c
      let y ← read t
      let z ← read f
      return Vector.ofFn fun i => Word.select (x.get i) (y.get i) (z.get i)
  | .extract lane a => do
      let x ← read a
      return .splat (← x.lane lane)
  | .insert lane a s => do
      let x ← read a
      let y ← read s
      x.setLane lane.toNat y.first
  | .shuffle a b s => do
      let x ← read a
      let y ← read b
      s.guard 16 (x.shuffle y s)
  | .permute a s => do
      let x ← read a
      s.guard 8 (x.permute s)
  | .shuffleBytes a s => do
      let x ← read a
      return x.shuffleBytes s
  | .widen k a => do
      let x ← read a
      return x.widen k
  | .indices w => Lanes.ofFnM fun i => call.index w (i.val * w.bytes)
  | .indicesMasked w mask => do
      let m ← read mask
      Lanes.ofFnM fun i => if m.get i = 0 then return 0
        else call.index w (i.val * w.bytes)
  | .index w offset valid => do
      let v ← read valid
      if v.first = 0 then return .zero
      else
        let place ← read offset
        return .splat (← call.index w place.first.toNat)
  | .load s l offset valid => do
      let v ← read valid
      if v.first = 0 then return .zero
      else
        let stream ← call.stream s
        let place ← read offset
        l.read stream.data place.first.toNat
  | .gather s bytes offsets mask => do
      let stream ← call.stream s
      let place ← read offsets
      let m ← read mask
      Lanes.ofFnM fun i =>
        if m.get i = 0 then return 0
        else readWord stream.data (place.get i).toNat bytes.toNat

namespace Op

variable {ρ τ : Type}

theorem eval_map (call : Call) (f : ρ → τ) (read : τ → Except Fault Lanes)
    (op : Op ρ) : (op.map f).eval call read = op.eval call (read ∘ f) := by
  cases op <;> rfl

theorem eval_congr (call : Call) {read other : ρ → Except Fault Lanes}
    {op : Op ρ} (agree : ∀ a ∈ op.operands, read a = other a) :
    op.eval call read = op.eval call other := by
  cases op <;> simp_all [operands, eval]

end Op
end VertexFetch
