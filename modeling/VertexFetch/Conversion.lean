import VertexFetch.Layout
import VertexFetch.Op

namespace VertexFetch

inductive Extension where
  | zero
  | sign
  | half
  deriving DecidableEq, Repr

def Extension.name : Extension → String
  | .zero => "Zero"
  | .sign => "Sign"
  | .half => "Half"

/-- What a widened channel stands for: itself, a fraction of the largest
channel, or the number as a single. -/
inductive Scaling where
  | none
  | normalized
  | unsigned
  | signed
  deriving DecidableEq, Repr

def Scaling.name : Scaling → String
  | .none => "None"
  | .normalized => "Normalized"
  | .unsigned => "UScaled"
  | .signed => "SScaled"

namespace ChannelKind

def extension : ChannelKind → Extension
  | .unorm | .uint | .uscaled => .zero
  | .snorm | .sint | .sscaled => .sign
  | .float => .half

def scaling : ChannelKind → Scaling
  | .unorm | .snorm => .normalized
  | .uint | .sint | .float => .none
  | .uscaled => .unsigned
  | .sscaled => .signed

end ChannelKind

inductive Unsupported where
  | format (strategy : Strategy) (bits : Nat) (kind : ChannelKind)
  | float (bits : Nat)
  | unsignedOfSigned
  | signedOfUnsigned
  | factor (scaling : Scaling) (bits : Nat) (extension : Extension)
  | channel (bits : Nat)
  | constant
  | rows
  deriving DecidableEq, Repr

def Unsupported.message : Unsupported → String
  | .format .gather bits kind =>
      s!"gather fetch does not support {bits} bit {kind.name} components"
  | .format .linear bits kind =>
      s!"linear fetch does not support {bits} bit {kind.name} components"
  | .float bits => s!"gather fetch does not support {bits} bit float components"
  | .unsignedOfSigned => "unsigned scaled conversion of a sign extended channel"
  | .signedOfUnsigned => "signed scaled conversion of a zero extended channel"
  | .factor scaling bits extension =>
      s!"no conversion factor for {scaling.name} {bits} bit {extension.name} channels"
  | .channel bits => s!"no channel permute for {bits} bit channels"
  | .constant => "StoreSrc has no constant vector"
  | .rows => s!"packed output exceeds {maxAttributes} elements"

inductive Conversion where
  | keep
  | round (f : Rounding)
  | scale (f : Rounding) (factor : UInt32)
  deriving DecidableEq, Repr

namespace Conversion

def apply : Conversion → UInt32 → UInt32
  | .keep, w => w
  | .round f, w => f.apply w
  | .scale f factor, w => Single.mul (f.apply w) factor

/-- The factor of a gathered channel. Signed fractions are of the largest signed
channel. -/
def gatheredFactor (extension : Extension) (scaling : Scaling) (bits : Nat) :
    Except Unsupported UInt32 :=
  match scaling, extension, bits with
  | .normalized, .sign, 8 => .ok (Single.reciprocal 127)
  | .normalized, .zero, 8 => .ok (Single.reciprocal 255)
  | .normalized, .sign, 16 => .ok (Single.reciprocal 32767)
  | .normalized, .zero, 16 => .ok (Single.reciprocal 65535)
  | .unsigned, .sign, _ => .error .unsignedOfSigned
  | .signed, .zero, _ => .error .signedOfUnsigned
  | .unsigned, _, _ | .signed, _, _ => .ok Single.one
  | .normalized, _, _ | .none, _, _ => .error (.factor scaling bits extension)

def gathered (extension : Extension) (scaling : Scaling) (bits : Nat) :
    Except Unsupported Conversion :=
  match scaling with
  | .none => return .keep
  | .normalized | .signed =>
      return .scale .signed (← gatheredFactor extension scaling bits)
  | .unsigned =>
      return .scale .unsigned (← gatheredFactor extension scaling bits)

/-- The conversion of a channel that was loaded whole. Signed fractions are of
the power of two above the largest signed channel. -/
def linear (kind : ChannelKind) (bits : Nat) : Except Unsupported Conversion :=
  match kind, bits with
  | .float, 32 | .uint, _ | .sint, _ => .ok .keep
  | .unorm, 8 => .ok (.scale .signed (Single.reciprocal 255))
  | .unorm, 16 => .ok (.scale .signed (Single.reciprocal 65535))
  | .snorm, 8 => .ok (.scale .signed (Single.reciprocal 128))
  | .snorm, 16 => .ok (.scale .signed (Single.reciprocal 32768))
  | .uscaled, _ => .ok (.round .unsigned)
  | .sscaled, _ => .ok (.round .signed)
  | kind, bits => .error (.format .linear bits kind)

end Conversion

end VertexFetch
