namespace ChunkConfig.Decimal

/-- The decimal number `digits * 10 ^ exponent`. -/
structure Scientific where
  digits : Nat
  exponent : Int
  deriving DecidableEq

/-- A positive binary number `value / scale` with the ends of the interval of numbers that round
to it, over the same scale. -/
structure Rounding where
  low : Nat
  value : Nat
  high : Nat
  scale : Nat
  closed : Bool

/-- The interval of `significand * 2 ^ exponent`. It reaches half way to the neighbours, and the
lower neighbour of a power of two is `narrow`, half as far away as the upper one. The ends belong
to the interval when the significand is even. -/
def Rounding.ofBinary (significand : Nat) (exponent : Int) (narrow : Bool) : Rounding :=
  let unit := Nat.pow 2 (exponent - 2).toNat
  { low := (4 * significand - if narrow then 1 else 2) * unit
    value := 4 * significand * unit
    high := (4 * significand + 2) * unit
    scale := Nat.pow 2 (2 - exponent).toNat
    closed := significand % 2 = 0 }

namespace Rounding

/-- The interval with numbers counted in units of `10 ^ k`. -/
def inUnits (r : Rounding) (k : Int) : Rounding :=
  let shrink := Nat.pow 10 k.toNat
  let grow := Nat.pow 10 (-k).toNat
  { r with
    low := r.low * grow
    value := r.value * grow
    high := r.high * grow
    scale := r.scale * shrink }

/-- Whether the whole number `n` lies in the interval. -/
def holds (r : Rounding) (n : Nat) : Bool :=
  if r.closed then r.low ≤ n * r.scale && n * r.scale ≤ r.high
  else r.low < n * r.scale && n * r.scale < r.high

/-- The whole number nearest to the value; the greater one when two are equally near. -/
def nearest (r : Rounding) : Nat :=
  (2 * r.value + r.scale) / (2 * r.scale)

/-- The whole number in the interval that is nearest to the value, if there is any. -/
def whole? (r : Rounding) : Option Nat :=
  let below := r.value / r.scale
  if r.holds r.nearest then some r.nearest
  else if r.holds below then some below
  else if r.holds (below + 1) then some (below + 1)
  else none

/-- The number of digits before the point of the value, negative when zeros follow the point. -/
def magnitude (r : Rounding) : Int :=
  let estimate : Int := (toString r.value).length - (toString r.scale).length
  let s := r.inUnits estimate
  if s.value < s.scale then estimate else estimate + 1

/-- The decimal number with the fewest digits in the interval, and of those the nearest one to the
value. Seventeen digits are always enough. -/
def shortest (r : Rounding) : Scientific :=
  let candidates := (List.range' 1 16).findSome? fun (n : Nat) =>
    (r.inUnits (r.magnitude - n)).whole?.map fun d => ⟨d, r.magnitude - n⟩
  candidates.getD ⟨(r.inUnits (r.magnitude - 17)).nearest, r.magnitude - 17⟩

end Rounding

/-- A decimal number without exponent: zeros fill up to the point, and no zero ends the places
after it. -/
def Scientific.positional (d : Scientific) : String :=
  let digits := (toString d.digits).toList
  let whole := digits ++ List.replicate d.exponent.toNat '0'
  let places := (-d.exponent).toNat
  let padded := List.replicate (places + 1 - whole.length) '0' ++ whole
  let fraction := (padded.drop (padded.length - places)).reverse.dropWhile (· = '0')
  let front := padded.take (padded.length - places)
  .ofList (if fraction.isEmpty then front else front ++ '.' :: fraction.reverse)

end ChunkConfig.Decimal
