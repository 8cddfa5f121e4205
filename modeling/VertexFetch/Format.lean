namespace VertexFetch

inductive ChannelKind where
  | unorm
  | snorm
  | uint
  | sint
  | uscaled
  | sscaled
  | float
  deriving DecidableEq, Hashable, Repr

namespace ChannelKind

def isSigned : ChannelKind → Bool
  | .snorm | .sint | .sscaled => true
  | .unorm | .uint | .uscaled | .float => false

def name : ChannelKind → String
  | .unorm => "Unorm"
  | .snorm => "Snorm"
  | .uint => "Uint"
  | .sint => "Sint"
  | .uscaled => "Uscaled"
  | .sscaled => "Sscaled"
  | .float => "Float"

end ChannelKind

/-- The channels of a format in the order they have in memory, and their
width. -/
inductive Shape where
  | r32g32b32a32
  | r32g32b32
  | r32g32
  | r32
  | r16g16b16a16
  | r16g16
  | r16
  | r8g8b8a8
  | b8g8r8a8
  | r8g8
  | r8
  deriving DecidableEq, Hashable, Repr

namespace Shape

def all : List Shape :=
  [.r32g32b32a32, .r32g32b32, .r32g32, .r32, .r16g16b16a16, .r16g16, .r16,
    .r8g8b8a8, .b8g8r8a8, .r8g8, .r8]

def name : Shape → String
  | .r32g32b32a32 => "R32G32B32A32"
  | .r32g32b32 => "R32G32B32"
  | .r32g32 => "R32G32"
  | .r32 => "R32"
  | .r16g16b16a16 => "R16G16B16A16"
  | .r16g16 => "R16G16"
  | .r16 => "R16"
  | .r8g8b8a8 => "R8G8B8A8"
  | .b8g8r8a8 => "B8G8R8A8"
  | .r8g8 => "R8G8"
  | .r8 => "R8"

def channels : Shape → Nat
  | .r32g32b32a32 | .r16g16b16a16 | .r8g8b8a8 | .b8g8r8a8 => 4
  | .r32g32b32 => 3
  | .r32g32 | .r16g16 | .r8g8 => 2
  | .r32 | .r16 | .r8 => 1

def channelBits : Shape → Nat
  | .r32g32b32a32 | .r32g32b32 | .r32g32 | .r32 => 32
  | .r16g16b16a16 | .r16g16 | .r16 => 16
  | .r8g8b8a8 | .b8g8r8a8 | .r8g8 | .r8 => 8

def inOrder : Vector UInt8 4 := #v[0, 1, 2, 3]

/-- For each component, the channel in memory that holds it. -/
def swizzle : Shape → Vector UInt8 4
  | .b8g8r8a8 => #v[2, 1, 0, 3]
  | _ => inOrder

def kinds : Shape → List ChannelKind
  | .r32g32b32a32 | .r32 => [.float, .uint, .sint, .uscaled, .sscaled]
  | .r32g32b32 | .r32g32 => [.float, .uint, .sint]
  | .r16g16b16a16 | .r16g16 =>
      [.unorm, .snorm, .uint, .sint, .uscaled, .sscaled, .float]
  | .r16 => [.unorm, .snorm, .uint, .sint, .float]
  | .r8g8b8a8 => [.unorm, .snorm, .uint, .sint, .uscaled, .sscaled]
  | .b8g8r8a8 => [.unorm]
  | .r8g8 | .r8 => [.unorm, .snorm, .uint, .sint]

end Shape

/-- An entry of the catalogue. All channels of a format are of one kind. -/
structure Format where
  shape : Shape
  kind : ChannelKind
  listed : kind ∈ shape.kinds
  deriving DecidableEq, Hashable

namespace Format

def all : List Format :=
  Shape.all.flatMap fun shape =>
    shape.kinds.attach.map fun kind => ⟨shape, kind.1, kind.2⟩

def name (f : Format) : String := f.shape.name ++ "_" ++ f.kind.name.toUpper

def ofName? (name : String) : Option Format := all.find? fun f => f.name == name

def channels (f : Format) : Nat := f.shape.channels

def channelBits (f : Format) : Nat := f.shape.channelBits

def swizzle (f : Format) : Vector UInt8 4 := f.shape.swizzle

def bits (f : Format) : Nat := f.channels * f.channelBits

def bytes (f : Format) : Nat := f.bits / 8

end Format
end VertexFetch
