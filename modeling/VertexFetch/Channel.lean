import VertexFetch.Conversion
import VertexFetch.Selector

namespace VertexFetch

namespace Selector

def pickChannel (channel : UInt8) (bits : Nat) :
    Except Unsupported LaneSelector :=
  match bits with
  | 8 => .ok (pickBytes channel)
  | 16 => .ok (pickHalves channel)
  | _ => .error (.channel bits)

end Selector

inductive Isolation where
  | whole
  | cleared (bytes : ByteSelector)
  | widened (bytes : ByteSelector) (lanes : LaneSelector) (widening : Widening)
  deriving DecidableEq, Repr

structure Channel where
  group : Nat
  isolation : Isolation
  conversion : Conversion
  deriving DecidableEq, Repr

def Format.channel (f : Format) (c : Fin 4) : Except Unsupported Channel :=
  let number := UInt8.ofNat c.val
  match f.kind, f.channelBits with
  | .float, 32 => .ok ⟨c.val, .whole, .keep⟩
  | .float, 16 =>
      .ok ⟨c.val / 2,
        .widened Selector.groupHalves (Selector.pickHalves number) .half, .keep⟩
  | .float, bits => .error (.float bits)
  | kind, 8 => do
      let conversion ← Conversion.gathered kind.extension kind.scaling 8
      let isolation :=
        if kind.extension = .sign then
          .widened (Selector.groupBytes f.swizzle)
            (Selector.pickBytes number) .sign8
        else .cleared (Selector.zeroExtend (f.swizzle.get c) 8)
      return ⟨0, isolation, conversion⟩
  | kind, 16 => do
      let conversion ← Conversion.gathered kind.extension kind.scaling 16
      let isolation :=
        if kind.extension = .sign then
          .widened Selector.groupHalves (Selector.pickHalves number) .sign16
        else .cleared (Selector.zeroExtend (number % 2) 16)
      return ⟨c.val / 2, isolation, conversion⟩
  | kind, 32 =>
      if kind.scaling = .none then .ok ⟨c.val, .whole, .keep⟩
      else .error (.format .gather 32 kind)
  | kind, bits => .error (.format .gather bits kind)

inductive Component where
  | skip
  | constant (op : Op Nat)
  | channel (c : Channel)
  deriving DecidableEq, Repr

/-- What stands in for a component that a format does not have: zero, or one for
the fourth. -/
def Component.absent (component : Nat) : Op Nat :=
  if component = 3 then .single Single.one else .word 0

def Source.constant : Source → Except Unsupported Component
  | .skip => .ok .skip
  | .zero => .ok (.constant (.word 0))
  | .oneFloat => .ok (.constant (.single Single.one))
  | .oneInt => .ok (.constant (.word 1))
  | .memory => .error .constant

namespace Attribute

def component (a : Attribute) (c : Fin 4) : Except Unsupported Component :=
  match a.sources.get c with
  | .memory =>
      if c.val < a.format.channels then return .channel (← a.format.channel c)
      else return .constant (Component.absent c.val)
  | source => source.constant

def packed (a : Attribute) : List (Fin 4) :=
  (List.finRange 4).filter fun c => a.packing.contains c.val

def components (a : Attribute) : Except Unsupported (List Component) :=
  a.packed.mapM a.component

end Attribute
end VertexFetch
