namespace VertexFetch.Single

def infinity : UInt32 := 0x7f800000

def nan : UInt32 := 0x7fc00000

def one : UInt32 := 0x3f800000

def isNegative (w : UInt32) : Bool := 0x80000000 ≤ w

def magnitude (w : UInt32) : UInt32 := w &&& 0x7fffffff

def isNaN (w : UInt32) : Bool := infinity < magnitude w

def isInfinite (w : UInt32) : Bool := magnitude w = infinity

def isZero (w : UInt32) : Bool := magnitude w = 0

def withSign (negative : Bool) (magnitude : UInt32) : UInt32 :=
  if negative then magnitude ||| 0x80000000 else magnitude

def exponentField (w : UInt32) : Nat := (magnitude w).toNat >>> 23

/-- The bit that a significand has above its fraction, unless the exponent field
is zero. -/
def leadingBit : Nat := 0x800000

/-- The integer `m` of the magnitude `m * 2 ^ e` of a finite pattern. -/
def significand (w : UInt32) : Nat :=
  let fraction := (magnitude w).toNat % leadingBit
  if exponentField w = 0 then fraction else fraction + leadingBit

/-- The exponent `e` of the magnitude `m * 2 ^ e` of a finite pattern. -/
def exponent (w : UInt32) : Int :=
  if exponentField w = 0 then -149 else (exponentField w : Int) - 150

/-- `m / 2 ^ s` to the nearest integer, a tie to the even one. -/
def shiftRound (m s : Nat) : Nat :=
  let unit := 1 <<< s
  let q := m / unit
  let rest := 2 * (m % unit)
  if unit < rest ∨ (rest = unit ∧ q % 2 = 1) then q + 1 else q

/-- The pattern nearest to `± m * 2 ^ e`. The unit of the last place is the one
that leaves 24 significant bits, but no finer than `2 ^ -149`. A significand
that rounds up to `2 ^ 24` carries into the exponent field, and past the largest
finite pattern lies infinity. -/
def round (negative : Bool) (m : Nat) (e : Int) : UInt32 :=
  if m = 0 then withSign negative 0
  else
    let unit := max (e + m.log2 - 23) (-149)
    let rounded :=
      if e ≤ unit then shiftRound m (unit - e).toNat else m <<< (e - unit).toNat
    let pattern := (unit + 149).toNat * leadingBit + rounded
    withSign negative (UInt32.ofNat (min pattern infinity.toNat))

def mul (a b : UInt32) : UInt32 :=
  let negative := isNegative a ^^ isNegative b
  if isNaN a ∨ isNaN b then nan
  else if isInfinite a ∨ isInfinite b then
    if isZero a ∨ isZero b then nan else withSign negative infinity
  else round negative (significand a * significand b) (exponent a + exponent b)

def ofInt (i : Int) : UInt32 := round (i < 0) i.natAbs 0

/-- The single nearest to `1 / n`. The quotient keeps 64 binary places, and one
more bit records whether a remainder is left, which decides every tie. -/
def reciprocal (n : Nat) : UInt32 :=
  let places := 1 <<< 64
  round false (2 * (places / n) + if places % n = 0 then 0 else 1) (-65)

/-- The single of the same value as a half precision pattern: a sign bit, five
exponent bits and ten fraction bits. A NaN keeps its sign and payload and
becomes quiet. -/
def ofHalf (h : UInt16) : UInt32 :=
  let negative : Bool := 0x8000 ≤ h
  let field : Nat := (h.toNat >>> 10) % 32
  let fraction : Nat := h.toNat % 1024
  if field = 31 then
    if fraction = 0 then withSign negative infinity
    else withSign negative (nan ||| UInt32.ofNat (fraction <<< 13))
  else if field = 0 then round negative fraction (-24)
  else round negative (fraction + 1024) ((field : Int) - 25)

end VertexFetch.Single
