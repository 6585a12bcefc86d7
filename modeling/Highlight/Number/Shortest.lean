import Highlight.Number.Binary

/-! The shortest decimal that reads back as a given double. A double is a whole number times
a power of two, and the reals that round to it form an interval around it; the ends belong
to the interval when the whole number is even. Of the decimals in that interval one with
the fewest digits is chosen, and of those the nearest to the double. All of this is exact
arithmetic on natural numbers. -/

namespace Highlight

structure Decimal where
  digits : Nat
  exponent : Int
deriving DecidableEq, Repr

namespace Shortest

def tenTo (exponent : Nat) : Nat := Nat.pow 10 exponent

/-- A positive double and the ends of the interval that rounds to it, over one denominator. -/
structure Interval where
  low : Nat
  value : Nat
  high : Nat
  den : Nat
  closed : Bool

/-- The interval of `significand * 2 ^ scale`. Below a power of two the next double is only
half as far away, unless the double below is subnormal. -/
def Interval.ofBinary (significand : Nat) (scale : Int) (narrowBelow : Bool) : Interval :=
  let up := Nat.pow 2 (scale - 2).toNat
  let low := 4 * significand - if narrowBelow then 1 else 2
  ⟨low * up, 4 * significand * up, (4 * significand + 2) * up, Nat.pow 2 (2 - scale).toNat, significand % 2 == 0⟩

def Interval.holds (range : Interval) (decimal : Decimal) : Bool :=
  let point := decimal.digits * tenTo decimal.exponent.toNat * range.den
  let unit := tenTo (-decimal.exponent).toNat
  if range.closed then range.low * unit ≤ point && point ≤ range.high * unit
  else range.low * unit < point && point < range.high * unit

def digitCount (n : Nat) : Nat := if n = 0 then 0 else (Nat.toDigits 10 n).length

/-- How many places a fraction below one has to be moved for its first digit to come before
the point. -/
def leadingPlaces (limit : Nat) (num den : Nat) : Nat :=
  match limit with
  | 0 => 0
  | more + 1 => if den ≤ num then 0 else leadingPlaces more (num * 10) den + 1

def Interval.magnitude (range : Interval) : Int :=
  if range.den ≤ range.value then (digitCount (range.value / range.den) : Int) - 1
  else -(leadingPlaces 400 range.value range.den : Int)

def Interval.floorAt (range : Interval) (exponent : Int) : Decimal :=
  ⟨range.value * tenTo (-exponent).toNat / (range.den * tenTo exponent.toNat), exponent⟩

/-- Whether the value lies nearer to the decimal than to the next one of the same exponent. -/
def Interval.nearFloor (range : Interval) (decimal : Decimal) : Bool :=
  let value := range.value * tenTo (-decimal.exponent).toNat
  let unit := range.den * tenTo decimal.exponent.toNat
  2 * value < (2 * decimal.digits + 1) * unit ||
    (2 * value == (2 * decimal.digits + 1) * unit && decimal.digits % 2 == 0)

def Interval.candidate? (range : Interval) (exponent : Int) : Option Decimal :=
  let below := range.floorAt exponent
  let above := { below with digits := below.digits + 1 }
  match range.holds below, range.holds above with
  | true, true => some (if range.nearFloor below then below else above)
  | true, false => some below
  | false, true => some above
  | false, false => none

/-- Seventeen digits always suffice. -/
def Interval.shortest (range : Interval) : Decimal :=
  let magnitude := range.magnitude
  let tries := (List.range 17).map fun (count : Nat) => magnitude - count
  (tries.findSome? range.candidate?).getD (range.floorAt (magnitude - 16))

def stripZeros (limit : Nat) (decimal : Decimal) : Decimal :=
  match limit with
  | 0 => decimal
  | more + 1 =>
    if decimal.digits ≠ 0 && decimal.digits % 10 == 0 then stripZeros more ⟨decimal.digits / 10, decimal.exponent + 1⟩
    else decimal

end Shortest

def Decimal.ofFloat (x : Float) : Decimal :=
  let parts := Binary.ofFloat x
  if parts.significand = 0 then ⟨0, 0⟩
  else
    let narrowBelow := parts.significand = Binary.hidden && Binary.lowest < parts.scale
    Shortest.stripZeros 400 (Shortest.Interval.ofBinary parts.significand parts.scale narrowBelow).shortest

end Highlight
