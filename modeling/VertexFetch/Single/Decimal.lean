import VertexFetch.Single

/-! The decimal text of a single: of all decimals that read back as the same
pattern, one with the fewest digits, and of those the nearest to the exact
value. -/

namespace VertexFetch

structure Decimal where
  digits : Nat
  exponent : Int
  deriving DecidableEq, Repr

/-- The reals that read back as one pattern, from `low` to `high` around
`value`, in units of `2 ^ exponent`. The ends belong to it when it is
`closed`. -/
structure Decimal.Span where
  low : Nat
  value : Nat
  high : Nat
  exponent : Int
  closed : Bool
  deriving DecidableEq, Repr

/-- Where positional notation begins and ends, by the exponent of the leading
digit, and whether a value halfway between two decimals takes the upper one. -/
structure Decimal.Style where
  lowest : Int
  below : Int
  tieUp : Bool
  deriving DecidableEq, Repr

namespace Decimal

def tenUnit (k q : Int) : Nat := Nat.pow 10 k.toNat <<< (-q).toNat

def twoUnit (k q : Int) : Nat := Nat.pow 10 (-k).toNat <<< q.toNat

namespace Span

def contains (s : Span) (k : Int) (d : Nat) : Bool :=
  let x := d * tenUnit k s.exponent
  let low := s.low * twoUnit k s.exponent
  let high := s.high * twoUnit k s.exponent
  if s.closed then low ≤ x && x ≤ high else low < x && x < high

/-- The multiple of `10 ^ k` in the span that is nearest to the value, if there
is one: only the two neighbours of the value can be. -/
def nearest? (s : Span) (tieUp : Bool) (k : Int) : Option Nat :=
  let unit := tenUnit k s.exponent
  let value := s.value * twoUnit k s.exponent
  let down := value / unit
  match s.contains k down, s.contains k (down + 1) with
  | true, true =>
      let rest := 2 * (value % unit)
      some (if rest < unit || (rest == unit && !tieUp) then down else down + 1)
  | true, false => some down
  | false, true => some (down + 1)
  | false, false => none

def leading (s : Span) : Int :=
  let candidates := (List.range 84).map fun (i : Nat) => 38 - (i : Int)
  (candidates.find? fun p =>
    tenUnit p s.exponent ≤ s.value * twoUnit p s.exponent).getD (-45)

end Span

def trim (d : Decimal) : Decimal :=
  if h : d.digits ≠ 0 ∧ d.digits % 10 = 0 then
    trim ⟨d.digits / 10, d.exponent + 1⟩
  else d
termination_by d.digits
decreasing_by omega

/-- The nearest decimal of the span on the coarsest grid that has one. Nine
digits always reach a single. -/
def shortest (s : Span) (tieUp : Bool) : Decimal :=
  let grids := (List.range 9).map fun (i : Nat) => s.leading - (i : Int)
  let hit := grids.findSome? fun k => (s.nearest? tieUp k).map
    fun d => Decimal.mk d k
  (hit.getD ⟨0, 0⟩).trim

private def zeros (n : Nat) : String := String.ofList (List.replicate n '0')

/-- Positional notation with at least one digit after the point, or the leading
digit, the others after a point, and the exponent. -/
def text (style : Style) (d : Decimal) : String :=
  let digits := Nat.toDigits 10 d.digits
  let point := digits.length + d.exponent
  if style.lowest < point ∧ point ≤ style.below then
    if 0 ≤ d.exponent then
      String.ofList digits ++ zeros d.exponent.toNat ++ ".0"
    else if 0 < point then
      String.ofList (digits.take point.toNat) ++ "." ++
        String.ofList (digits.drop point.toNat)
    else "0." ++ zeros (-point).toNat ++ String.ofList digits
  else
    let tail := digits.drop 1
    String.ofList (digits.take 1) ++
      (if tail.isEmpty then "" else "." ++ String.ofList tail) ++
      "e" ++ toString (point - 1)

end Decimal

namespace Single

/-- The reals that round to a finite nonzero magnitude. Below a power of two the
patterns lie twice as close. -/
def span (w : UInt32) : Decimal.Span :=
  let m := significand w
  { low := 4 * m - if m = leadingBit ∧ 1 < exponentField w then 1 else 2
    value := 4 * m
    high := 4 * m + 2
    exponent := exponent w - 2
    closed := m % 2 = 0 }

def text (style : Decimal.Style) (w : UInt32) : String :=
  if isNaN w then "NaN"
  else
    (if isNegative w then "-" else "") ++
      if isInfinite w then "inf"
      else if isZero w then "0.0"
      else (Decimal.shortest (span w) style.tieUp).text style

end Single
end VertexFetch
