namespace VertexFetch.Word

/-- A truth value as a lane holds it: every bit set, or none. -/
def ofBool : Bool → UInt32
  | true => 0xffffffff
  | false => 0

def ltSigned (a b : UInt32) : Bool := a.toInt32 < b.toInt32

/-- The signed quotient toward zero; zero where there is none or it does not
fit. -/
def divSigned (a b : UInt32) : UInt32 :=
  if a = 0x80000000 ∧ b = 0xffffffff then 0
  else (a.toInt32 / b.toInt32).toUInt32

/-- The bits of `t` where `c` has ones and those of `f` elsewhere. -/
def select (c t f : UInt32) : UInt32 := f ^^^ ((f ^^^ t) &&& c)

/-- The number whose base 256 digits are `bytes`, least significant first. -/
def littleEndian : List UInt8 → Nat
  | [] => 0
  | b :: rest => b.toNat + 256 * littleEndian rest

def byte (w : UInt32) (k : Nat) : UInt8 := UInt8.ofNat (w.toNat >>> (8 * k))

def half (w : UInt32) (k : Nat) : UInt16 := UInt16.ofNat (w.toNat >>> (16 * k))

def signExtend8 (b : UInt8) : UInt32 := b.toInt8.toInt32.toUInt32

def signExtend16 (h : UInt16) : UInt32 := h.toInt16.toInt32.toUInt32

end VertexFetch.Word
